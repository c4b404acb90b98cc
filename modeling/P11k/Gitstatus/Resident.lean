import P11k.Gitstatus.Flagged
import P11k.Lib.Machine

/-! A resident repository and one status request to it: the configuration switches, the index
tree kept between requests, the staged counts kept by HEAD and index stat, and the dirty pass.
The diff of a tree against the index is git's and stays a parameter. -/
namespace P11k.Gitstatus

structure StagedStats where
  staged : Nat
  conflicted : Nat
  stagedNew : Nat
  stagedDeleted : Nat
  skipWorktree : Nat
  assumeUnchanged : Nat
  deriving DecidableEq, Repr

def noStaged : StagedStats := ⟨0,0,0,0,0,0⟩

inductive Delta where
  | added
  | deleted
  | conflicted
  | other
  deriving DecidableEq, Repr

/-- Seconds, nanoseconds and size of the index file. -/
abbrev IndexStat := Option (Int64 × Int64 × Int64)

structure GitConfig where
  statusShowUntrackedFiles : Option Bool
  bashShowUntrackedFiles : Option Bool
  bashShowDirtyState : Option Bool
  filemode : Option Bool
  symlinks : Option Bool
  ignorecase : Option Bool
  deriving DecidableEq, Repr

/-- Everything outside that one request sees. `probe` is the outcome of the untracked-cache
probe so far; it can only withdraw the support. -/
structure Surroundings (ο : Type) where
  head : Option ο
  indexStat : IndexStat
  gitIndex : Option (List IndexEntry)
  config : GitConfig
  worktree : Worktree
  workdirOpens : Bool
  statusShouldIgnore : Bytes → Bool
  probe : Bool

/-- `casings` is not a field of the source: it is the case setting under which each directory of
the tree was read last. -/
structure Repo (ο : Type) where
  limits : Options
  stagedHead : Option ο
  stagedStats : StagedStats
  stagedIndexStat : IndexStat
  supported : Bool
  indexTree : Option Index
  indexStat : IndexStat
  casings : List Bool

def openRepo {ο : Type} (limits : Options) : Repo ο := ⟨limits,none,noStaged,none,true,none,none,[]⟩

def intentToAdd : UInt16 := 0x2000

def off (value : Option Bool) : Bool := value == some false

def effectiveLimits (limits : Options) (config : GitConfig) : Options :=
  let limits :=
    if !limits.ignoreStatusShowUntrackedFiles && off config.statusShowUntrackedFiles then
      { limits with maxNumUntracked := 0 } else limits
  let limits :=
    if !limits.ignoreBashShowUntrackedFiles && off config.bashShowUntrackedFiles then
      { limits with maxNumUntracked := 0 } else limits
  if !limits.ignoreBashShowDirtyState && off config.bashShowDirtyState then
    { limits with maxNumStaged := 0, maxNumUnstaged := 0, maxNumConflicted := 0 } else limits

def repoCaps (config : GitConfig) : RepoCaps :=
  ⟨config.filemode.getD true,config.symlinks.getD true,!config.ignorecase.getD false⟩

def skipCount (entries : List IndexEntry) : Nat :=
  entries.countP (fun e => e.flagsExtended &&& skipWorktree ≠ 0)

def assumeCount (entries : List IndexEntry) : Nat := entries.countP (·.assumeValid)

def shouldContinue (c1 : Nat) (m1 : Int) (c2 : Nat) (m2 : Int) : Bool := !(reached c1 m1 && reached c2 m2)

def countDeltas (limits : Options) : List Delta → StagedStats → StagedStats
  | [], s => s
  | .conflicted :: deltas, s =>
      let s := { s with conflicted := s.conflicted + 1 }
      if shouldContinue s.conflicted limits.maxNumConflicted s.staged limits.maxNumStaged then
        countDeltas limits deltas s else s
  | delta :: deltas, s =>
      let s := { s with
        staged := s.staged + 1
        stagedNew := s.stagedNew + if delta = .added then 1 else 0
        stagedDeleted := s.stagedDeleted + if delta = .deleted then 1 else 0 }
      if shouldContinue s.staged limits.maxNumStaged s.conflicted limits.maxNumConflicted then
        countDeltas limits deltas s else s

section repo
variable {ο : Type} [DecidableEq ο] (diffTreeToIndex : ο → List IndexEntry → Option (List Delta))

def computeStaged (limits : Options) (entries : List IndexEntry) (head : ο) : StagedStats :=
  let stats := { noStaged with skipWorktree := skipCount entries, assumeUnchanged := assumeCount entries }
  match diffTreeToIndex head entries with
  | none => stats
  | some deltas => countDeltas limits deltas stats

def initialStaged (entries : List IndexEntry) : StagedStats :=
  let staged := entries.countP (fun e => e.flagsExtended &&& intentToAdd = 0)
  ⟨staged,0,staged,0,skipCount entries,assumeCount entries⟩

/-- The staged part of a request; it leaves the repository with the counts it goes on with. -/
def refreshStaged (repo : Repo ο) (limits : Options) (head : Option ο) (entries : List IndexEntry) :
    Repo ο :=
  if limits.maxNumStaged = 0 ∧ limits.maxNumConflicted = 0 then
    { repo with stagedHead := none, stagedStats := noStaged, stagedIndexStat := none }
  else match head with
    | some head =>
        if repo.stagedHead = some head ∧ repo.indexStat = repo.stagedIndexStat then repo
        else { repo with
          stagedHead := some head
          stagedIndexStat := repo.indexStat
          stagedStats := computeStaged diffTreeToIndex repo.limits entries head }
    | none =>
        { repo with stagedHead := none, stagedIndexStat := none, stagedStats := initialStaged entries }

def updateStats (tree : Index) (entries : List IndexEntry) : Index :=
  { tree with entries := List.zipWith (fun old new => { new with path := old.path }) tree.entries entries }

def indexTreeOrRebuild (repo : Repo ο) (curStat : IndexStat) (entries : List IndexEntry)
    (includeUntracked : Bool) : Option (Repo ο × Index) :=
  let rebuild := do
    let index ← fromEntries entries
    let index ← initSplits repo.limits.numThreads { index with includeUntracked := includeUntracked }
    some ({ repo with indexTree := none, indexStat := curStat,
                      casings := List.replicate index.dirs.length true },index)
  match repo.indexTree with
  | none => rebuild
  | some tree =>
      if repo.indexStat = curStat ∧ tree.includeUntracked = includeUntracked then
        some ({ repo with indexTree := none },tree)
      else if tree.entries.map (·.path) = entries.map (·.path) then
        let tree := updateStats tree entries
        let tree := if tree.includeUntracked = includeUntracked then tree else
          { tree with
            includeUntracked := includeUntracked
            dirs := tree.dirs.map (fun d => { d with st := none, unmatched := [] }) }
        some ({ repo with indexTree := none, indexStat := curStat },tree)
      else rebuild

/-- The case settings behind a scan: a directory that is listed takes on the present one. -/
def scanCasings (w : Worktree) (opts : ScanOpts) (caseSensitive : Bool) (dirs : List IndexDir)
    (casings : List Bool) : List Bool :=
  List.zipWith (fun d casing => match phase w opts d with
    | .listed _ => caseSensitive
    | _ => casing) dirs casings

def scans (limits : Options) (m : Surroundings ο) (indexSize : Nat) : Bool :=
  (limits.dirtyMaxIndexSize < 0 || indexSize ≤ limits.dirtyMaxIndexSize.toNat) &&
    (limits.maxNumUnstaged ≠ 0 || limits.maxNumUntracked ≠ 0) && m.workdirOpens

def stagedFields (limits : Options) (indexSize : Nat) (staged : StagedStats) : IndexStats :=
  let numStaged := cap staged.staged limits.maxNumStaged
  { noStats with
    indexSize := indexSize
    numStaged := numStaged
    numConflicted := cap staged.conflicted limits.maxNumConflicted
    numStagedNew := cap staged.stagedNew numStaged
    numStagedDeleted := cap staged.stagedDeleted numStaged
    numSkipWorktree := staged.skipWorktree
    numAssumeUnchanged := staged.assumeUnchanged }

def getIndexStats (repo : Repo ο) (m : Surroundings ο) : Option (Repo ο × IndexStats) :=
  let repo := { repo with supported := repo.supported && m.probe }
  let limits := effectiveLimits repo.limits m.config
  match m.gitIndex with
  | none => some (repo,noStats)
  | some entries => do
      let includeUntracked : Bool := limits.maxNumUntracked ≠ 0
      let (repo,index) ← indexTreeOrRebuild repo m.indexStat entries includeUntracked
      let caps := repoCaps m.config
      let repo := refreshStaged diffTreeToIndex repo limits m.head entries
      let stats := stagedFields limits entries.length repo.stagedStats
      if scans limits m entries.length then
        let opts := ⟨includeUntracked,repo.supported⟩
        let casings := scanCasings m.worktree opts caps.caseSensitive index.dirs repo.casings
        let (index,candidates) ← getDirtyCandidates m.worktree caps opts index
        let stats ← computeDirty m.worktree m.statusShouldIgnore index.entries limits candidates stats
        some ({ repo with indexTree := some index, casings := casings },stats)
      else some ({ repo with indexTree := some index },stats)

/-- One request as a step: what was seen and the answer, none for a panic. -/
def request (repo : Repo ο) (m : Surroundings ο) :
    Repo ο × List (Surroundings ο × Option IndexStats) :=
  match getIndexStats diffTreeToIndex repo m with
  | none => (repo,[(m,none)])
  | some (repo,stats) => (repo,[(m,some stats)])

/-- What a freshly opened repository answers, however far its probe has come. -/
def freshStats (limits : Options) (m : Surroundings ο) (probe : Bool) : Option IndexStats :=
  (getIndexStats diffTreeToIndex (openRepo limits) { m with probe := probe }).map Prod.snd

end repo
end P11k.Gitstatus
