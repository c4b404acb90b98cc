import P11k.Gitstatus.Scan

/-! The parallel scan: shards cut by accumulated weight, one scan for each, and the results
joined, sorted and freed of equal neighbours. A stable worktree and disjoint slices make the
threads independent of each other. -/
namespace P11k.Gitstatus

def weight (dir : IndexDir) : Nat := 1 + dir.subdirs.length + dir.files.length

def minShardWeight : Nat := 512

def splitsLoop (shardWeight : Nat) : Nat → Nat → List IndexDir → List Nat
  | _, _, [] => []
  | i, w, dir :: dirs =>
      if shardWeight ≤ w + weight dir then (i+1) :: splitsLoop shardWeight (i+1) 0 dirs
      else splitsLoop shardWeight (i+1) (w + weight dir) dirs

/-- The number of shards wraps like the source's multiplication in a release build; at zero
the division panics. -/
def initSplits (numThreads : UInt64) (index : Index) : Option Index :=
  let numShards : UInt64 := 16 * max numThreads 1
  if numShards = 0 then none else
    let total := (index.dirs.map weight).sum
    let shardWeight := max minShardWeight (total / numShards.toNat)
    let splits := 0 :: splitsLoop shardWeight 0 0 index.dirs
    some { index with splits :=
      if splits.getLast? = some index.dirs.length then splits else splits ++ [index.dirs.length] }

/-- Slices taken from the front, one for each pair of neighbouring splits, and what is left. -/
def carve : List Nat → List IndexDir → Option (List (List IndexDir) × List IndexDir)
  | [], _ => none
  | [_], rest => some ([],rest)
  | start :: stop :: splits, rest =>
      if start ≤ stop ∧ stop - start ≤ rest.length then do
        let (shards,tail) ← carve (stop :: splits) (rest.drop (stop - start))
        some (rest.take (stop - start) :: shards,tail)
      else none

def getDirtyCandidates (w : Worktree) (caps : RepoCaps) (opts : ScanOpts) (index : Index) :
    Option (Index × List Bytes) := do
  let (shards,tail) ← carve index.splits index.dirs
  let results := shards.map (scanDirs w index.entries caps opts)
  some ({ index with dirs := (results.map Prod.fst).flatten ++ tail },
    StableSort.sortDedup (foldKey caps.caseSensitive) (results.map Prod.snd).flatten)

theorem splitsLoopBounds (shardWeight i w : Nat) (dirs : List IndexDir) :
    ∀ x ∈ splitsLoop shardWeight i w dirs, i < x ∧ x ≤ i + dirs.length := by
  induction dirs generalizing i w with
  | nil => simp [splitsLoop]
  | cons dir dirs ih =>
    intro x mem
    simp only [splitsLoop] at mem
    rw [List.length_cons]
    split at mem
    · rcases List.mem_cons.mp mem with rfl | later
      · omega
      · have := ih (i+1) 0 x later; omega
    · have := ih (i+1) (w + weight dir) x mem; omega

theorem splitsLoopAscend (shardWeight i w : Nat) (dirs : List IndexDir) :
    (splitsLoop shardWeight i w dirs).Pairwise (· < ·) := by
  induction dirs generalizing i w with
  | nil => simp [splitsLoop]
  | cons dir dirs ih =>
    simp only [splitsLoop]
    split
    · refine List.pairwise_cons.mpr ⟨fun x mem => ?_,ih (i+1) 0⟩
      exact (splitsLoopBounds shardWeight (i+1) 0 dirs x mem).1
    · exact ih (i+1) (w + weight dir)

/-- Strictly ascending cuts from `start` to `stop`. -/
structure Cuts (start stop : Nat) (splits : List Nat) : Prop where
  ascend : splits.Pairwise (· < ·)
  first : splits.head? = some start
  last : splits.getLast? = some stop

theorem closeCuts {start stop : Nat} {splits : List Nat} (ascend : (start :: splits).Pairwise (· < ·))
    (bounds : ∀ x ∈ start :: splits, x ≤ stop) :
    Cuts start stop (if (start :: splits).getLast? = some stop then start :: splits
      else (start :: splits) ++ [stop]) := by
  split
  · rename_i last
    exact ⟨ascend,rfl,last⟩
  · rename_i last
    refine ⟨List.pairwise_append.mpr ⟨ascend,by simp,?_⟩,rfl,by rw [List.getLast?_append]; rfl⟩
    intro x mem y final
    cases List.mem_singleton.mp final
    rcases Nat.lt_or_eq_of_le (bounds x mem) with below | rfl
    · exact below
    · obtain ⟨front,back,whole⟩ := List.append_of_mem mem
      cases back with
      | nil => rw [whole] at last; simp at last
      | cons z back =>
        rw [whole] at ascend bounds
        have above := (List.pairwise_cons.mp (List.pairwise_append.mp ascend).2.1).1 z (by simp)
        have := bounds z (by simp)
        omega

theorem threadsFit {numThreads : UInt64} (threads : 1 ≤ numThreads)
    (fits : 16 * numThreads.toNat < 2^64) : 16 * max numThreads 1 ≠ 0 := by
  have atLeast : max numThreads 1 = numThreads := by
    show (if numThreads ≤ 1 then 1 else numThreads) = numThreads
    split
    · rename_i le
      exact (UInt64.le_antisymm le threads).symm
    · rfl
  rw [atLeast,ne_eq,← UInt64.toNat_inj,UInt64.toNat_mul]
  have one : 1 ≤ numThreads.toNat := UInt64.le_iff_toNat_le.mp threads
  simp only [UInt64.toNat_ofNat]
  omega

theorem initSplitsCuts {numThreads : UInt64} (shards : 16 * max numThreads 1 ≠ 0) (index : Index) :
    ∃ splits, initSplits numThreads index = some { index with splits := splits } ∧
      Cuts 0 index.dirs.length splits := by
  unfold initSplits
  dsimp only
  rw [if_neg shards]
  refine ⟨_,rfl,closeCuts ?_ ?_⟩
  · refine List.pairwise_cons.mpr ⟨fun x mem => ?_,splitsLoopAscend _ 0 0 index.dirs⟩
    exact (splitsLoopBounds _ 0 0 index.dirs x mem).1
  · intro x mem
    rcases List.mem_cons.mp mem with rfl | later
    · exact Nat.zero_le _
    · have := (splitsLoopBounds _ 0 0 index.dirs x later).2; omega

theorem initSplitsNone {numThreads : UInt64} (none' : 16 * max numThreads 1 = 0) (index : Index) :
    initSplits numThreads index = none := if_pos none'

theorem carveCovers (start : Nat) {splits : List Nat} {dirs : List IndexDir}
    (cuts : Cuts start (start + dirs.length) splits) :
    ∃ shards, carve splits dirs = some (shards,[]) ∧ shards.flatten = dirs ∧ ∀ s ∈ shards, s ≠ [] := by
  induction splits generalizing start dirs with
  | nil => exact absurd cuts.first (by simp)
  | cons first splits ih =>
    obtain rfl : first = start := by simpa using cuts.first
    cases splits with
    | nil =>
      have none : dirs = [] := by simpa using cuts.last
      subst none
      exact ⟨[],rfl,rfl,by simp⟩
    | cons stop splits =>
      obtain ⟨above,tail⟩ := List.pairwise_cons.mp cuts.ascend
      have lt : first < stop := above stop (by simp)
      have last : (stop :: splits).getLast? = some (first + dirs.length) := by simpa using cuts.last
      have inside : stop ≤ first + dirs.length := by
        rcases List.mem_cons.mp (List.mem_of_getLast? last) with same | later
        · omega
        · have := (List.pairwise_cons.mp tail).1 _ later; omega
      have rest : stop + (dirs.drop (stop - first)).length = first + dirs.length := by
        rw [List.length_drop]; omega
      have cuts' : Cuts stop (stop + (dirs.drop (stop - first)).length) (stop :: splits) :=
        ⟨tail,rfl,by rw [rest]; exact last⟩
      obtain ⟨shards,carved,joined,full⟩ := ih stop cuts'
      refine ⟨dirs.take (stop - first) :: shards,?_,?_,?_⟩
      · rw [carve,if_pos ⟨by omega,by omega⟩,carved]; rfl
      · rw [List.flatten_cons,joined,List.take_append_drop]
      · intro s mem
        rcases List.mem_cons.mp mem with rfl | later
        · intro none
          have := congrArg List.length none
          rw [List.length_take,List.length_nil] at this
          omega
        · exact full s later

theorem scanShards (w : Worktree) (entries : List IndexEntry) (caps : RepoCaps) (opts : ScanOpts)
    (shards : List (List IndexDir)) :
    ((shards.map (scanDirs w entries caps opts)).map Prod.fst).flatten =
      (scanDirs w entries caps opts shards.flatten).1 ∧
    ((shards.map (scanDirs w entries caps opts)).map Prod.snd).flatten =
      (scanDirs w entries caps opts shards.flatten).2 := by
  induction shards with
  | nil => exact ⟨rfl,rfl⟩
  | cons s shards ih =>
    simp only [List.map_cons,List.flatten_cons,scanDirsAppend,ih.1,ih.2,and_self]

theorem getDirtyCandidatesCuts (w : Worktree) (caps : RepoCaps) (opts : ScanOpts) (index : Index)
    (cuts : Cuts 0 index.dirs.length index.splits) :
    getDirtyCandidates w caps opts index =
      some ({ index with dirs := (scanDirs w index.entries caps opts index.dirs).1 },
        StableSort.sortDedup (foldKey caps.caseSensitive)
          (scanDirs w index.entries caps opts index.dirs).2) := by
  obtain ⟨shards,carved,joined,_⟩ := carveCovers 0 (by simpa using cuts)
  have scanned := scanShards w index.entries caps opts shards
  rw [joined] at scanned
  simp only [getDirtyCandidates,carved,Option.bind_eq_bind,Option.bind_some,scanned.1,scanned.2,
    List.append_nil]

def freshCandidates (numThreads : UInt64) (w : Worktree) (caps : RepoCaps) (opts : ScanOpts)
    (entries : List IndexEntry) : Option (List Bytes) := do
  let index ← initSplits numThreads (indexTree entries)
  let (_,out) ← getDirtyCandidates w caps opts index
  some out

theorem freshCandidatesRun {numThreads : UInt64} (shards : 16 * max numThreads 1 ≠ 0) (w : Worktree)
    (caps : RepoCaps) (opts : ScanOpts) (entries : List IndexEntry) :
    freshCandidates numThreads w caps opts entries =
      some (StableSort.sortDedup (foldKey caps.caseSensitive)
        (scanDirs w entries caps opts (indexTree entries).dirs).2) := by
  obtain ⟨splits,init,cuts⟩ := initSplitsCuts shards (indexTree entries)
  have run := getDirtyCandidatesCuts w caps opts ⟨(indexTree entries).entries,
    (indexTree entries).dirs,splits,(indexTree entries).includeUntracked⟩ cuts
  rw [freshCandidates,init,Option.bind_eq_bind,Option.bind_some,run,indexTreeEntries]
  rfl

theorem freshCandidatesNone {numThreads : UInt64} (none' : 16 * max numThreads 1 = 0) (w : Worktree)
    (caps : RepoCaps) (opts : ScanOpts) (entries : List IndexEntry) :
    freshCandidates numThreads w caps opts entries = none := by
  rw [freshCandidates,initSplitsNone none']
  rfl

def CacheState (entries : List IndexEntry) (dirs : List IndexDir) : Prop :=
  dirs.map shape = (indexTree entries).dirs.map shape

theorem cacheStateLength {entries : List IndexEntry} {dirs : List IndexDir}
    (state : CacheState entries dirs) : dirs.length = (indexTree entries).dirs.length := by
  simpa using congrArg List.length state

theorem oneShardCuts {dirs : List IndexDir} (some' : dirs ≠ []) : Cuts 0 dirs.length [0,dirs.length] :=
  ⟨by simpa using List.length_pos_iff.mpr some',rfl,rfl⟩

theorem oneDirCuts : Cuts 0 1 [0,1] := ⟨by decide,rfl,rfl⟩

theorem indexTreeNonempty (entries : List IndexEntry) : (indexTree entries).dirs ≠ [] := by
  intro none
  have paths := indexTreePaths entries
  rw [none] at paths
  simp [createdDirs] at paths

end P11k.Gitstatus
