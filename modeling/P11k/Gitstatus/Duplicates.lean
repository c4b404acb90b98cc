import P11k.Gitstatus.DirScan

/-! When a candidate is listed twice. The final sort compares ASCII-folded paths and the
dedup drops equal neighbours only, so two case variants can keep a path apart from itself. -/
namespace P11k.Gitstatus
open scoped List

/-- An index as a resident repository holds it. The untracked state of the directories is
whatever earlier scans left behind. -/
structure ResidentIndex (caseSensitive : Bool) extends SortedEntries caseSensitive where
  dirs : List IndexDir
  splits : List Nat
  includeUntracked : Bool
  state : CacheState entries dirs
  cuts : Cuts 0 dirs.length splits

def ResidentIndex.index {cs : Bool} (r : ResidentIndex cs) : Index :=
  ⟨r.entries,r.dirs,r.splits,r.includeUntracked⟩

theorem scanDirsFilter (w : Worktree) (entries : List IndexEntry) (caps : RepoCaps) (opts : ScanOpts)
    (keep : Bytes → Bool) (dirs : List IndexDir) :
    (scanDirs w entries caps opts dirs).2.filter keep =
      dirs.flatMap (fun d => (scanDir w entries caps opts d).2.filter keep) := by
  induction dirs with
  | nil => rfl
  | cons d dirs ih => rw [scanDirs,List.filter_append,ih,List.flatMap_cons]

section reports
variable {cs : Bool} (r : ResidentIndex cs) (w : Worktree) (trustFilemode hasSymlinks : Bool)
  (opts : ScanOpts)

theorem scanDirsClass (key : Bytes) :
    (scanDirs w r.entries ⟨trustFilemode,hasSymlinks,cs⟩ opts r.dirs).2.filter
        (fun p => foldKey cs p = key) =
      r.dirs.flatMap (classReport w r.entries ⟨trustFilemode,hasSymlinks,cs⟩ opts key) := by
  rw [scanDirsFilter]
  apply List.flatMap_congr
  intro d mem
  exact scanDirClass r.toSortedEntries w trustFilemode hasSymlinks opts key r.state mem

end reports

/-- `A` and `a`, both missing on disk. -/
def caseVariants : ResidentIndex false where
  entries := [⟨[65],1,0,0,0,0o100644,0,0,false⟩,⟨[97],2,0,0,0,0o100644,0,0,false⟩]
  sorted := by decide
  dirs := [⟨[],[],0,[0,1],[],none,[]⟩]
  splits := [0,1]
  includeUntracked := true
  state := by unfold CacheState; decide
  cuts := oneDirCuts

def emptyWorktree : Worktree := tableWorktree [] [([],(0,0),[])] (by decide)

end P11k.Gitstatus
