import P11k.Gitstatus.IgnoreCase

/-! When the entries that git leaves alone, by the skip-worktree or the assume-valid flag, stay
out of the counts. The scan copies the flags and asks for neither of them. -/
namespace P11k.Gitstatus
open BinarySearch (Reachable)

def skipWorktree : UInt16 := 0x4000

def flagged (entry : IndexEntry) : Bool := entry.flagsExtended &&& skipWorktree ≠ 0 || entry.assumeValid

def flaggedPath (entries : List IndexEntry) (p : Bytes) : Bool :=
  isEntry entries p && entries.all (fun e => e.path ≠ p || flagged e)

/-- Flagged paths add nothing to the unstaged and the deleted count, which are those of the
other candidates. -/
structure FlagsHonoured (w : Worktree) (statusShouldIgnore : Bytes → Bool) (entries : List IndexEntry)
    (limits : Options) (candidates : List Bytes) : Prop where
  each : ∀ c ∈ candidates, flaggedPath entries c = true → ∀ stats next,
    countCandidate w statusShouldIgnore entries limits c stats = some next →
      next.numUnstaged = stats.numUnstaged ∧ next.numUnstagedDeleted = stats.numUnstagedDeleted
  whole : ∃ stats others,
    computeDirty w statusShouldIgnore entries limits candidates noStats = some stats ∧
    computeDirty w statusShouldIgnore entries limits
      (candidates.filter (fun c => !flaggedPath entries c)) noStats = some others ∧
    stats.numUnstaged = others.numUnstaged ∧
    (limits.maxNumUnstaged < 0 → stats.numUnstagedDeleted = others.numUnstagedDeleted)

/-- Directory `d` has nothing to say about the file `p`: its entries are clean, the untracked
state does not name it, and in a listing each entry finds a name and leaves none over. -/
def Quiet (w : Worktree) (caps : RepoCaps) (opts : ScanOpts) (entries : List IndexEntry) (p : Bytes)
    (d : IndexDir) : Prop :=
  let files := dirEntries entries d
  let k := stripSlash ((foldKey caps.caseSensitive p).drop d.path.length)
  (∀ e ∈ files, e.path = p → dirty w caps e = false) ∧
    match phase w opts d with
    | .skipped => True
    | .cached => p ∉ d.unmatched
    | .listed names =>
        (∀ e ∈ (classEntries caps.caseSensitive d.path k files).drop
          (classNames caps.caseSensitive k names).length, e.path ≠ p) ∧
        p ∉ surplusNames caps.caseSensitive d.path k names files d.subdirs

theorem quietIff (w : Worktree) (caps : RepoCaps) (opts : ScanOpts) (entries : List IndexEntry)
    (p : Bytes) (d : IndexDir) : Quiet w caps opts entries p d ↔
      p ∉ classReport w entries caps opts (foldKey caps.caseSensitive p) d := by
  have stat : p ∉ statFiles w caps (dirEntries entries d) ↔
      ∀ e ∈ dirEntries entries d, e.path = p → dirty w caps e = false := by
    simp only [statFiles,List.mem_map,List.mem_filter,not_exists,not_and]
    exact ⟨fun clean e he path => by simpa using fun isDirty => clean e ⟨he,isDirty⟩ path,
      fun clean e ⟨he,isDirty⟩ path => by simp [clean e he path] at isDirty⟩
  simp only [Quiet,classReport,List.mem_filter,List.mem_append,decide_true,and_true,not_or,stat]
  apply and_congr_right
  intro clean
  cases phase w opts d with
  | skipped => simp
  | cached => exact Iff.rfl
  | listed names =>
    simp only [pushedEntries,List.mem_append,not_or,List.map_append]
    apply and_congr_left
    intro _
    have paired : p ∉ (((classEntries caps.caseSensitive d.path
        (stripSlash ((foldKey caps.caseSensitive p).drop d.path.length)) (dirEntries entries d)).take
        (classNames caps.caseSensitive (stripSlash ((foldKey caps.caseSensitive p).drop d.path.length))
          names).length).filter (dirty w caps)).map (·.path) := by
      intro inside
      obtain ⟨e,he,path⟩ := List.mem_map.mp inside
      obtain ⟨taken,isDirty⟩ := List.mem_filter.mp he
      have file := (List.mem_filter.mp (List.mem_of_mem_take taken)).1
      rw [clean e file path] at isDirty
      contradiction
    simp only [paired,not_false_eq_true,true_and,List.mem_map,not_exists,not_and]

section flags
variable {cs : Bool} (r : ResidentIndex cs) (w : Worktree) (trustFilemode hasSymlinks : Bool)
  (opts : ScanOpts)

theorem candidateReported {index : Index} {out : List Bytes} (run : getDirtyCandidates w
    ⟨trustFilemode,hasSymlinks,cs⟩ opts r.index = some (index,out)) (p : Bytes) :
    p ∉ out ↔ ∀ d ∈ r.dirs, Quiet w ⟨trustFilemode,hasSymlinks,cs⟩ opts r.entries p d := by
  rw [getDirtyCandidatesCuts w _ opts r.index r.cuts] at run
  cases run
  rw [StableSort.memSortDedup]
  have reports := scanDirsClass r w trustFilemode hasSymlinks opts (foldKey cs p)
  have inside : p ∈ (scanDirs w r.entries ⟨trustFilemode,hasSymlinks,cs⟩ opts r.dirs).2 ↔
      p ∈ r.dirs.flatMap (classReport w r.entries ⟨trustFilemode,hasSymlinks,cs⟩ opts (foldKey cs p)) := by
    rw [← reports,List.mem_filter]
    simp
  simp only [quietIff]
  rw [← not_iff_not,not_not]
  exact inside.trans (by simp)

theorem countPKept {α : Type} {p q : α → Bool} {l : List α} (keep : ∀ x ∈ l, p x = true → q x = true) :
    (l.filter q).countP p = l.countP p := by
  rw [List.countP_filter]
  apply List.countP_congr
  intro x mem
  simpa using keep x mem

theorem honouredUntracked {statusShouldIgnore : Bytes → Bool} {entries : List IndexEntry} {limits : Options}
    {candidates : List Bytes}
    (quiet : ∀ c ∈ candidates, flaggedPath entries c = true → tracked entries c = false) :
    FlagsHonoured w statusShouldIgnore entries limits candidates := by
  have kept : ∀ c ∈ candidates, tracked entries c = true → (!flaggedPath entries c) = true := by
    intro c mem here
    by_contra flag
    rw [quiet c mem (by simpa using flag)] at here
    contradiction
  obtain ⟨stats,run⟩ := Option.isSome_iff_exists.mp
    (computeDirtyEnds w statusShouldIgnore entries limits candidates noStats)
  obtain ⟨others,runOthers⟩ := Option.isSome_iff_exists.mp (computeDirtyEnds w statusShouldIgnore entries
    limits (candidates.filter (fun c => !flaggedPath entries c)) noStats)
  refine ⟨?_,stats,others,run,runOthers,?_,?_⟩
  · intro c mem flag s next step
    obtain ⟨m,untracked⟩ := countUntracked w statusShouldIgnore entries limits (quiet c mem flag)
      s.numUntracked
    rw [untracked s rfl] at step
    cases step
    exact ⟨rfl,rfl⟩
  · rw [computeDirtyUnstaged w statusShouldIgnore entries limits run,
      computeDirtyUnstaged w statusShouldIgnore entries limits runOthers,countPKept kept]
  · intro free
    rw [(computeDirtyUnlimited w statusShouldIgnore entries limits free run).1,
      (computeDirtyUnlimited w statusShouldIgnore entries limits free runOthers).1]
    exact (countPKept fun c mem both => kept c mem (Bool.and_eq_true_iff.mp both).1).symm

/-- The flags are honoured exactly when no directory has anything to say about a flagged path
that the lookup finds. -/
theorem flagsHonouredIff :
    (∀ statusShouldIgnore limits index out, getDirtyCandidates w ⟨trustFilemode,hasSymlinks,cs⟩ opts
        r.index = some (index,out) → FlagsHonoured w statusShouldIgnore r.entries limits out) ↔
    ∀ p, flaggedPath r.entries p = true → p.getLast? ≠ some slash → Reachable (·.path) r.entries p →
      ∀ d ∈ r.dirs, Quiet w ⟨trustFilemode,hasSymlinks,cs⟩ opts r.entries p d := by
  constructor
  · intro honoured p flag file reach
    have run := getDirtyCandidatesCuts w ⟨trustFilemode,hasSymlinks,cs⟩ opts r.index r.cuts
    rw [← candidateReported r w trustFilemode hasSymlinks opts run]
    intro inside
    have step := countTracked w (fun _ => false) r.entries unlimited (trackedReachable.mpr ⟨file,reach⟩) noStats
    have same := ((honoured (fun _ => false) unlimited _ _ run).each p inside flag noStats _ step).1
    simp [noStats] at same
  · intro quiet statusShouldIgnore limits index out run
    apply honouredUntracked
    intro c mem flag
    by_contra here
    obtain ⟨file,reach⟩ := trackedReachable.mp (by simpa using here)
    exact (candidateReported r w trustFilemode hasSymlinks opts run c).mpr (quiet c flag file reach) mem

end flags

/-- `a`, left out of a sparse checkout. -/
def sparseEntry : ResidentIndex true where
  entries := [⟨[97],1,0,0,0,0o100644,0,skipWorktree,false⟩]
  sorted := by decide
  dirs := [⟨[],[],0,[0],[],none,[]⟩]
  splits := [0,1]
  includeUntracked := true
  state := by unfold CacheState; decide
  cuts := oneDirCuts

theorem sparseEntryCounted : ¬ ∀ statusShouldIgnore limits index out,
    getDirtyCandidates emptyWorktree ⟨true,true,true⟩ ⟨true,false⟩ sparseEntry.index = some (index,out) →
      FlagsHonoured emptyWorktree statusShouldIgnore sparseEntry.entries limits out := by
  intro honoured
  have run := getDirtyCandidatesCuts emptyWorktree ⟨true,true,true⟩ ⟨true,false⟩ sparseEntry.index
    sparseEntry.cuts
  have step := (honoured (fun _ => false) unlimited _ _ run).each [97] (by decide) (by decide) noStats
    { noStats with numUnstaged := 1, numUnstagedDeleted := 1 } (by decide)
  simp [noStats] at step

end P11k.Gitstatus
