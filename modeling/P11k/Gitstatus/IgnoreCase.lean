import P11k.Gitstatus.Tracked

/-! When tracked files stay tracked in a case-insensitive repository. Its entries come in
folded order, while the tree builder and the lookup are written for byte order. -/
namespace P11k.Gitstatus
open BinarySearch (Reachable reachableIff findsAllSorted foundIff)

def isEntry (entries : List IndexEntry) (c : Bytes) : Bool := c ∈ entries.map (·.path)

/-- What the dirty pass has to do with the candidates that are index entries: each one is
unstaged, and deleted when missing, and none of them bears on the untracked count. -/
structure CountedTracked (w : Worktree) (statusShouldIgnore : Bytes → Bool) (entries : List IndexEntry)
    (limits : Options) (candidates : List Bytes) : Prop where
  each : ∀ c ∈ candidates, isEntry entries c = true → ∀ stats,
    countCandidate w statusShouldIgnore entries limits c stats = some { stats with
      numUnstaged := stats.numUnstaged + 1,
      numUnstagedDeleted := stats.numUnstagedDeleted + if missing w c then 1 else 0 }
  whole : ∃ stats, computeDirty w statusShouldIgnore entries limits candidates noStats = some stats ∧
    stats.numUnstaged = cap (candidates.countP (isEntry entries)) limits.maxNumUnstaged ∧
    (limits.maxNumUnstaged < 0 →
      stats.numUnstagedDeleted = candidates.countP (fun c => isEntry entries c && missing w c) ∧
      ∃ rest, computeDirty w statusShouldIgnore entries limits
          (candidates.filter (fun c => !isEntry entries c)) noStats = some rest ∧
        rest.numUntracked = stats.numUntracked)

/-- Tracked files stay tracked in every scan, and no directory of the tree occurs twice. -/
structure TracksEntries (r : ResidentIndex false) : Prop where
  counted : ∀ w trustFilemode hasSymlinks opts statusShouldIgnore limits index out,
    getDirtyCandidates w ⟨trustFilemode,hasSymlinks,false⟩ opts r.index = some (index,out) →
      CountedTracked w statusShouldIgnore r.entries limits out
  once : ((indexTree r.entries).dirs.map (·.path)).Nodup

theorem inIndexExactIff {entries : List IndexEntry} {c : Bytes} :
    inIndexExact entries c = true ↔ Reachable (·.path) entries c := by
  rw [← reachableIff,inIndexExact]
  cases BinarySearch.binarySearchBy entries (BinarySearch.byKey (·.path) c) <;> simp [Except.isOk,Except.toBool]

theorem trackedEntry {entries : List IndexEntry} {c : Bytes} (here : tracked entries c = true) :
    isEntry entries c = true := by
  simp only [tracked,Bool.and_eq_true,inIndexExactIff] at here
  obtain ⟨_,i,e,at',path,_⟩ := here
  simpa [isEntry] using ⟨e,List.mem_of_getElem? at',path⟩

theorem entryDir (r : ResidentIndex cs) {e : IndexEntry} (mem : e ∈ r.entries) :
    ∃ d ∈ r.dirs, e ∈ dirEntries r.entries d := by
  obtain ⟨i,bound,at'⟩ := List.mem_iff_getElem.mp mem
  obtain ⟨t,ht,filed⟩ := grownFiled (indexTreeGrown r.entries) i (by simpa using bound)
  have there : shape t ∈ (indexTree r.entries).dirs.map shape := List.mem_map_of_mem ht
  rw [← r.state] at there
  obtain ⟨d,hd,same⟩ := List.mem_map.mp there
  refine ⟨d,hd,List.mem_filterMap.mpr ⟨i,?_,by rw [List.getElem?_eq_getElem bound,at']⟩⟩
  rwa [(shapeFields same).2.1]

def unlimited : Options := ⟨1,-1,-1,-1,-1,-1,false,false,false,false⟩

theorem entryCandidate (r : ResidentIndex cs) {e : IndexEntry} (mem : e ∈ r.entries) : ∃ index out,
    getDirtyCandidates emptyWorktree ⟨true,true,cs⟩ ⟨false,false⟩ r.index = some (index,out) ∧
      e.path ∈ out := by
  have run := getDirtyCandidatesCuts emptyWorktree ⟨true,true,cs⟩ ⟨false,false⟩ r.index r.cuts
  refine ⟨_,_,run,?_⟩
  obtain ⟨d,hd,filed⟩ := entryDir r mem
  rw [StableSort.memSortDedup,memScanDirs]
  exact ⟨d,hd,List.mem_map_of_mem (List.mem_filter.mpr ⟨filed,rfl⟩)⟩

theorem countedWhenTracked {w : Worktree} {statusShouldIgnore : Bytes → Bool} {entries : List IndexEntry}
    {limits : Options} {candidates : List Bytes}
    (found : ∀ c, isEntry entries c = true → tracked entries c = true) :
    CountedTracked w statusShouldIgnore entries limits candidates := by
  have same : tracked entries = isEntry entries := by
    funext c
    exact Bool.eq_iff_iff.mpr ⟨trackedEntry,found c⟩
  obtain ⟨stats,run⟩ := Option.isSome_iff_exists.mp
    (computeDirtyEnds w statusShouldIgnore entries limits candidates noStats)
  refine ⟨fun c _ here => countTracked w statusShouldIgnore entries limits (found c here),stats,run,?_,?_⟩
  · rw [← same]
    exact computeDirtyUnstaged w statusShouldIgnore entries limits run
  · intro free
    rw [← same]
    exact computeDirtyUnlimited w statusShouldIgnore entries limits free run

theorem trackedWhenCounted {w : Worktree} {statusShouldIgnore : Bytes → Bool} {entries : List IndexEntry}
    {limits : Options} {c : Bytes} (one : ∀ stats,
      countCandidate w statusShouldIgnore entries limits c stats = some { stats with
        numUnstaged := stats.numUnstaged + 1,
        numUnstagedDeleted := stats.numUnstagedDeleted + if missing w c then 1 else 0 }) :
    tracked entries c = true := by
  by_contra other
  obtain ⟨m,step⟩ := countUntracked w statusShouldIgnore entries limits (by simpa using other)
    noStats.numUntracked
  have both := (step noStats rfl).symm.trans (one noStats)
  simp [noStats] at both

theorem tracksFound {r : ResidentIndex false} (tracks : TracksEntries r) :
    ∀ e ∈ r.entries, tracked r.entries e.path = true := by
  intro e mem
  obtain ⟨index,out,run,inside⟩ := entryCandidate r mem
  have counts := tracks.counted _ _ _ _ (fun _ => false) unlimited _ _ run
  exact trackedWhenCounted (counts.each e.path inside (by simpa [isEntry] using ⟨e,mem,rfl⟩))

theorem tracksOnce (r : ResidentIndex false) :
    ((indexTree r.entries).dirs.map (·.path)).Nodup ↔
      Appearances.Contiguous dirPrefixes (r.entries.map (·.path)) := by
  rw [indexTreePaths,createdOnceIff]

theorem trackedReachable {entries : List IndexEntry} {c : Bytes} :
    tracked entries c = true ↔ c.getLast? ≠ some slash ∧ Reachable (·.path) entries c := by
  rw [tracked,Bool.and_eq_true,inIndexExactIff,decide_eq_true_eq]

theorem tracksReachable (r : ResidentIndex false) : TracksEntries r ↔
    (∀ e ∈ r.entries, e.path.getLast? ≠ some slash ∧ Reachable (·.path) r.entries e.path) ∧
      Appearances.Contiguous dirPrefixes (r.entries.map (·.path)) := by
  constructor
  · intro tracks
    exact ⟨fun e mem => trackedReachable.mp (tracksFound tracks e mem),(tracksOnce r).mp tracks.once⟩
  · rintro ⟨reach,together⟩
    refine ⟨?_,(tracksOnce r).mpr together⟩
    intro w trustFilemode hasSymlinks opts statusShouldIgnore limits index out _
    apply countedWhenTracked
    intro c here
    obtain ⟨e,mem,rfl⟩ := List.mem_map.mp (of_decide_eq_true here)
    exact trackedReachable.mpr (reach e mem)

theorem reachableSorted {entries : List IndexEntry} (unique : (entries.map (·.path)).Nodup) :
    (∀ e ∈ entries, Reachable (·.path) entries e.path) ↔ (entries.map (·.path)).Pairwise (· < ·) := by
  simp only [← reachableIff]
  constructor
  · intro finds
    exact List.pairwise_map.mpr (findsAllSorted IndexEntry.path unique finds)
  · intro sorted e mem
    apply (foundIff IndexEntry.path _ e.path).mpr ⟨e,mem,rfl⟩
    exact (List.pairwise_map.mp sorted).imp Std.le_of_lt

/-- `a` and `B` in folded order. -/
def mixedCase : ResidentIndex false where
  entries := [⟨[97],1,0,0,0,0o100644,0,0,false⟩,⟨[66],2,0,0,0,0o100644,0,0,false⟩]
  sorted := by decide
  dirs := [⟨[],[],0,[0,1],[],none,[]⟩]
  splits := [0,1]
  includeUntracked := true
  state := by unfold CacheState; decide
  cuts := oneDirCuts

end P11k.Gitstatus
