import P11k.Gitstatus.Duplicates
import P11k.Lib.BinarySearch

/-! The precise counts over the candidates of a scan: index membership by binary search,
deletion by a second lstat, and the walk below a directory candidate. -/
namespace P11k.Gitstatus
open BinarySearch (binarySearchBy byKey)

/-- The options of a request; a negative limit means no limit. -/
structure Options where
  numThreads : UInt64
  maxNumStaged : Int
  maxNumUnstaged : Int
  maxNumConflicted : Int
  maxNumUntracked : Int
  dirtyMaxIndexSize : Int
  recurseUntrackedDirs : Bool
  ignoreStatusShowUntrackedFiles : Bool
  ignoreBashShowUntrackedFiles : Bool
  ignoreBashShowDirtyState : Bool
  deriving DecidableEq, Repr

structure IndexStats where
  indexSize : Nat
  numStaged : Nat
  numUnstaged : Nat
  numConflicted : Nat
  numUntracked : Nat
  numUnstagedDeleted : Nat
  numStagedNew : Nat
  numStagedDeleted : Nat
  numSkipWorktree : Nat
  numAssumeUnchanged : Nat
  deriving DecidableEq, Repr, Inhabited

def noStats : IndexStats := ⟨0,0,0,0,0,0,0,0,0,0⟩

def cap (count : Nat) (max : Int) : Nat := if max < 0 then count else min count max.toNat

def reached (count : Nat) (max : Int) : Bool := 0 ≤ max && max.toNat ≤ count

def sIfdir : UInt32 := 0o040000
def dotGit : Bytes := [46,103,105,116]

section lookup
variable (entries : List IndexEntry)

def inIndexExact (rel : Bytes) : Bool := (binarySearchBy entries (byKey (·.path) rel)).isOk

def relInIndex (rel : Bytes) (isDir : Bool) : Bool :=
  if isDir then
    let probe := rel ++ [slash]
    match binarySearchBy entries (byKey (·.path) probe) with
    | .ok _ => true
    | .error pos => (entries[pos]?).any (fun entry => probe.isPrefixOf entry.path)
  else inIndexExact entries rel

end lookup

section walk
variable (w : Worktree) (statusShouldIgnore : Bytes → Bool) (entries : List IndexEntry)

def hasGitDir (dir : Bytes) : Bool := (w.fstatat (dir ++ slash :: dotGit)).isSome

def isDirType (path : Bytes) (e : DirEntry) : Bool :=
  match e.dType with
  | .directory => true
  | .other => false
  | .unknown => (w.fstatat path).any (fun st => st.stMode &&& sIfmt == sIfdir)

/-- The loop over one directory. Each early return of the source ends the loop with the count. -/
def countLoop (below : Bytes → Nat → Option Nat) (recurse : Bool) (limit : Int) (dirRel : Bytes) :
    List DirEntry → Nat → Option Nat
  | [], n => some n
  | e :: es, n =>
      let rel := dirRel ++ slash :: e.name
      let isDir := isDirType w rel e
      let next := countLoop below recurse limit dirRel es
      let count := if reached (n+1) limit then some (n+1) else next (n+1)
      let descend :=
        if recurse && isDir then
          if hasGitDir w rel then
            if inIndexExact entries rel then next n else count
          else do
            let m ← below rel n
            if reached m limit then some m else next m
        else next n
      if relInIndex entries rel isDir then descend
      else if statusShouldIgnore rel then next n
      else if !recurse then some (n+1)
      else if !isDir then count
      else descend

/-- The walk below a directory candidate; `depth` bounds the recursion. -/
def countUntrackedBelow (recurse : Bool) (limit : Int) : Nat → Bytes → Nat → Option Nat
  | 0, _, _ => none
  | depth+1, dirRel, n =>
      if hasGitDir w dirRel then some (if statusShouldIgnore dirRel then n else n+1)
      else match w.readdir (dirRel ++ [slash]) with
        | none => some n
        | some raw => countLoop w statusShouldIgnore entries
            (countUntrackedBelow recurse limit depth) recurse limit dirRel
            (raw.filter (fun e => e.name ≠ dot ∧ e.name ≠ dotdot)) n

def countCandidate (limits : Options) (c : Bytes) (stats : IndexStats) : Option IndexStats :=
  if c.getLast? = some slash then
    if limits.maxNumUntracked ≠ 0 then do
      let n ← countUntrackedBelow w statusShouldIgnore entries limits.recurseUntrackedDirs
        limits.maxNumUntracked (w.pathMax+2) c.dropLast stats.numUntracked
      some { stats with numUntracked := n }
    else some stats
  else if inIndexExact entries c then
    some { stats with
      numUnstaged := stats.numUnstaged + 1,
      numUnstagedDeleted := stats.numUnstagedDeleted + if (w.fstatat c).isSome then 0 else 1 }
  else if statusShouldIgnore c then some stats
  else some { stats with numUntracked := stats.numUntracked + 1 }

def dirtyLoop (limits : Options) : List Bytes → IndexStats → Option IndexStats
  | [], stats => some stats
  | c :: candidates, stats => do
      let stats ← countCandidate w statusShouldIgnore entries limits c stats
      if reached stats.numUnstaged limits.maxNumUnstaged &&
          reached stats.numUntracked limits.maxNumUntracked then some stats
      else dirtyLoop limits candidates stats

def computeDirty (limits : Options) (candidates : List Bytes) (stats : IndexStats) :
    Option IndexStats :=
  if candidates = [] then some stats else do
    let stats ← dirtyLoop w statusShouldIgnore entries limits candidates stats
    let numUnstaged := cap stats.numUnstaged limits.maxNumUnstaged
    some { stats with
      numUnstaged := numUnstaged,
      numUntracked := cap stats.numUntracked limits.maxNumUntracked,
      numUnstagedDeleted := cap stats.numUnstagedDeleted numUnstaged }

end walk

/-! The walk always ends: each level makes the path longer, and the kernel lists no path
beyond its limit. -/

section ends
variable (w : Worktree) (statusShouldIgnore : Bytes → Bool) (entries : List IndexEntry)

theorem countLoopEnds {below : Bytes → Nat → Option Nat} (recurse : Bool) (limit : Int)
    (dirRel : Bytes) (es : List DirEntry)
    (ends : ∀ e ∈ es, ∀ n, (below (dirRel ++ slash :: e.name) n).isSome) (n : Nat) :
    (countLoop w statusShouldIgnore entries below recurse limit dirRel es n).isSome := by
  induction es generalizing n with
  | nil => rfl
  | cons e es ih =>
    have next := fun n => ih (fun f hf => ends f (List.mem_cons_of_mem e hf)) n
    obtain ⟨m,here⟩ := Option.isSome_iff_exists.mp (ends e List.mem_cons_self n)
    simp only [countLoop,here,Option.bind_eq_bind,Option.bind_some]
    repeat' split
    all_goals first | exact next _ | rfl

theorem countUntrackedBelowEnds (recurse : Bool) (limit : Int) (depth : Nat) (dirRel : Bytes) (n : Nat)
    (enough : w.pathMax < dirRel.length + depth) :
    (countUntrackedBelow w statusShouldIgnore entries recurse limit (depth+1) dirRel n).isSome := by
  induction depth generalizing dirRel n with
  | zero =>
    simp only [countUntrackedBelow]
    split
    · rfl
    · rw [readdirDeep enough]
      rfl
  | succ depth ih =>
    rw [countUntrackedBelow]
    split
    · rfl
    · cases read : w.readdir (dirRel ++ [slash]) with
      | none => rfl
      | some raw =>
        apply countLoopEnds
        intro e _ m
        apply ih
        simp only [List.length_append,List.length_cons]
        omega

theorem countCandidateEnds (limits : Options) (c : Bytes) (stats : IndexStats) :
    (countCandidate w statusShouldIgnore entries limits c stats).isSome := by
  obtain ⟨n,walked⟩ := Option.isSome_iff_exists.mp (countUntrackedBelowEnds w statusShouldIgnore entries
    limits.recurseUntrackedDirs limits.maxNumUntracked (w.pathMax+1) c.dropLast stats.numUntracked
    (by omega))
  simp only [countCandidate,walked,Option.bind_eq_bind,Option.bind_some]
  repeat' split
  all_goals rfl

theorem dirtyLoopEnds (limits : Options) (candidates : List Bytes) (stats : IndexStats) :
    (dirtyLoop w statusShouldIgnore entries limits candidates stats).isSome := by
  induction candidates generalizing stats with
  | nil => rfl
  | cons c candidates ih =>
    obtain ⟨s,here⟩ := Option.isSome_iff_exists.mp
      (countCandidateEnds w statusShouldIgnore entries limits c stats)
    simp only [dirtyLoop,here,Option.bind_eq_bind,Option.bind_some]
    split
    · rfl
    · exact ih s

theorem computeDirtyEnds (limits : Options) (candidates : List Bytes) (stats : IndexStats) :
    (computeDirty w statusShouldIgnore entries limits candidates stats).isSome := by
  obtain ⟨s,here⟩ := Option.isSome_iff_exists.mp
    (dirtyLoopEnds w statusShouldIgnore entries limits candidates stats)
  simp only [computeDirty,here,Option.bind_eq_bind,Option.bind_some]
  split <;> rfl

end ends
end P11k.Gitstatus
