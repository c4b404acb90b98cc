import P11k.Engine.Announce
import P11k.Gitstatus.Arguments
import P11k.Gitstatus.Independent
import P11k.Render.Alternatives
import P11k.Render.Segments

/-! The status that a git worker answers with. It is read back from the data fields of a resident repository, yet it
is what a repository opened now would report, number by number and name by name; and a repository that the pattern of
the vcs segment excludes is never scanned. -/
namespace P11k.Vcs
open Settings (Str)
open Render (strProp patternAlternatives globMatchPath)
open Gitstatus (Bytes World DaemonOptions RepoCache Resident GitView IndexStats IndexEntry Delta Surroundings Kept)

/-! Reading. -/

/-- Bytes are a text if its encoding gives them back. -/
def fromUtf8 (b : Bytes) : Option Str := if Utf8.encode (Utf8.decode b) = b then some (Utf8.decode b) else none

def parseField (b : Bytes) : Nat := ((fromUtf8 b).bind Engine.parseUsize).getD 0

def statusOf (f : Gitstatus.Fields) : Render.GitStatus where
  branch := Utf8.decode f.localBranch
  commit := Utf8.decode f.commit
  staged := parseField f.numStaged
  unstaged := parseField f.numUnstaged
  conflicted := parseField f.numConflicted
  untracked := parseField f.numUntracked
  ahead := parseField f.commitsAhead
  behind := parseField f.commitsBehind
  pushAhead := parseField f.pushCommitsAhead
  pushBehind := parseField f.pushCommitsBehind
  stashes := parseField f.stashes
  action := Utf8.decode f.action
  tag := Utf8.decode f.tag
  remoteBranch := Utf8.decode f.remoteBranch
  commitSummary := Utf8.decode f.commitSummary
  indexSize := parseField f.indexSize
  remoteUrl := Utf8.decode f.remoteUrl

theorem numberRead {n : Nat} (fits : n ≤ 2^64 - 1) : parseField (Gitstatus.number n) = n := by
  rw [parseField,fromUtf8,Gitstatus.number,Utf8.decodeEncode,if_pos rfl,Option.bind_some]
  exact congrArg (·.getD 0) (Text.parseNatDecimal fits)

/-! What the segment is configured with. -/

section worker
variable {φ : Type}

def vcsIntProp (config : Settings.Config φ) (key : String) (default : Int64) : Int64 :=
  match (config.segment "vcs".toList).prop key.toList with
  | some (.int n) => n
  | _ => default

def vcsStrProp (config : Settings.Config φ) (key : String) : Str := strProp (config.segment "vcs".toList) key []

structure GitWorker where
  options : DaemonOptions
  disabledWorkdir : Str
  home : Str

/-- A thread for each processor, of which there is at least one. -/
def numThreads (parallelism : Option { n : UInt64 // 1 ≤ n }) : UInt64 := min (parallelism.elim 1 (·.1)) 32

def spawnGitWorker (config : Settings.Config φ) (parallelism : Option { n : UInt64 // 1 ≤ n }) (home : Str) :
    GitWorker where
  options :=
    { limits :=
        { Gitstatus.defaultOptions.toOptions with
          maxNumStaged := (vcsIntProp config "max-num-staged" (-1)).toInt
          maxNumUnstaged := (vcsIntProp config "max-num-unstaged" (-1)).toInt
          maxNumConflicted := (vcsIntProp config "max-num-conflicted" (-1)).toInt
          maxNumUntracked := (vcsIntProp config "max-num-untracked" (-1)).toInt
          dirtyMaxIndexSize := (vcsIntProp config "max-index-size-dirty" (-1)).toInt
          numThreads := numThreads parallelism }
      repoTtlSeconds := Gitstatus.defaultOptions.repoTtlSeconds
      maxCommitSummaryLength := Gitstatus.defaultOptions.maxCommitSummaryLength }
  disabledWorkdir := vcsStrProp config "disabled-workdir-pattern"
  home := home

theorem someShards (parallelism : Option { n : UInt64 // 1 ≤ n }) : 16 * max (numThreads parallelism) 1 ≠ 0 := by
  have few : 1 ≤ numThreads parallelism ∧ numThreads parallelism ≤ 32 := by
    have least : 1 ≤ parallelism.elim 1 (·.1) := by
      cases parallelism with
      | none => decide
      | some n => exact n.2
    show 1 ≤ (if parallelism.elim 1 (·.1) ≤ 32 then parallelism.elim 1 (·.1) else 32) ∧
      (if parallelism.elim 1 (·.1) ≤ 32 then parallelism.elim 1 (·.1) else 32) ≤ 32
    split
    · rename_i le
      exact ⟨least,le⟩
    · decide
  have most : (numThreads parallelism).toNat ≤ 32 := UInt64.le_iff_toNat_le.mp few.2
  exact Gitstatus.threadsFit few.1 (by omega)

def workdirMatches (pattern workdir home : Str) : Bool :=
  !pattern.isEmpty && (patternAlternatives pattern).any (globMatchPath · workdir home)

end worker

/-! The worker and its repositories. -/

section statuses
variable {ο : Type} [DecidableEq ο] (diffTreeToIndex : ο → List IndexEntry → Option (List Delta))
  (hex : ο → Bytes) (worker : GitWorker)

def excluded (workdir : Bytes) : Bool := workdirMatches worker.disabledWorkdir (Utf8.decode workdir) worker.home

/-- None is a panic. -/
def gitStatus (cache : RepoCache ο) (w : World ο) (cwd : Bytes) : Option (RepoCache ο × Option Render.GitStatus) :=
  match Gitstatus.getOrOpen worker.options cache w cwd false with
  | none => none
  | some none => some (cache,none)
  | some (some (gitdir,resident)) =>
      if excluded worker resident.workdir then some (Function.update cache gitdir (some resident),none)
      else
        let built := Gitstatus.buildFields diffTreeToIndex hex worker.options resident (w.repository gitdir) false
          (w.spawnFails = some .scanning)
        built.2.map fun f => (Function.update cache gitdir (some { resident with repo := built.1 }),some (statusOf f))

/-- A worker that has panicked answers no more. -/
def answerRequest : Option (RepoCache ο) → Bytes × World ο → Option (RepoCache ο) × List (Option Render.GitStatus)
  | none, _ => (none,[])
  | some cache, ask =>
      match gitStatus diffTreeToIndex hex worker cache ask.2 ask.1 with
      | none => (none,[])
      | some (cache,status) => (some cache,[status])

def reported (v : GitView ο) (stats : IndexStats) : Render.GitStatus :=
  let remote := Gitstatus.upstreamRemote v
  let push := Gitstatus.pushRemote v
  let summary := ((v.surroundings.head.bind v.findCommit).bind (·.summary)).getD []
  { branch := Gitstatus.localBranch v
    commit := Utf8.decode ((v.surroundings.head.map hex).getD [])
    staged := stats.numStaged
    unstaged := stats.numUnstaged
    conflicted := stats.numConflicted
    untracked := stats.numUntracked
    ahead := Gitstatus.ahead v remote
    behind := Gitstatus.behind v remote
    pushAhead := Gitstatus.ahead v push
    pushBehind := Gitstatus.behind v push
    stashes := v.stashes.getD 0
    action := Gitstatus.repoState v
    tag := Gitstatus.tagName v
    remoteBranch := (remote.map (·.branch)).getD []
    commitSummary := Utf8.decode (summary.take worker.options.maxCommitSummaryLength)
    indexSize := stats.indexSize
    remoteUrl := (remote.map (·.url)).getD [] }

/-- The status of the repository that the directory is in, if it counts as one. -/
def statusNow (ask : Bytes × World ο) : Option Render.GitStatus :=
  match ask.2.openOrDiscover ask.1 false with
  | some ⟨gitdir,some workdir⟩ =>
      if excluded worker (Gitstatus.workdirBytes workdir) then none
      else
        let v := ask.2.repository gitdir
        (Gitstatus.answer diffTreeToIndex worker.options.limits v.surroundings).map (reported hex worker v)
  | _ => none

def NumbersFit (v : GitView ο) (stats : IndexStats) : Prop :=
  ∀ n ∈ [stats.indexSize,stats.numStaged,stats.numUnstaged,stats.numConflicted,stats.numUntracked,
    Gitstatus.ahead v (Gitstatus.upstreamRemote v),Gitstatus.behind v (Gitstatus.upstreamRemote v),
    Gitstatus.ahead v (Gitstatus.pushRemote v),Gitstatus.behind v (Gitstatus.pushRemote v),v.stashes.getD 0],
    n ≤ 2^64 - 1

omit [DecidableEq ο] in
theorem textRead (r : Option Gitstatus.RemoteInfo) (field : Gitstatus.RemoteInfo → Str) :
    Utf8.decode ((r.map fun r => Utf8.encode (field r)).getD []) = (r.map field).getD [] := by
  cases r with
  | none => rfl
  | some r => exact Utf8.decodeEncode (field r)

theorem fieldsRead (workdir : Bytes) (v : GitView ο) {stats : IndexStats} (fit : NumbersFit v stats) :
    statusOf (Gitstatus.assembleFields hex worker.options.maxCommitSummaryLength workdir v stats) =
      reported hex worker v stats := by
  obtain ⟨size,staged,unstaged,conflicted,untracked,ahead,behind,pushAhead,pushBehind,stashes⟩ :
      stats.indexSize ≤ 2^64 - 1 ∧ stats.numStaged ≤ 2^64 - 1 ∧ stats.numUnstaged ≤ 2^64 - 1 ∧
      stats.numConflicted ≤ 2^64 - 1 ∧ stats.numUntracked ≤ 2^64 - 1 ∧
      Gitstatus.ahead v (Gitstatus.upstreamRemote v) ≤ 2^64 - 1 ∧
      Gitstatus.behind v (Gitstatus.upstreamRemote v) ≤ 2^64 - 1 ∧
      Gitstatus.ahead v (Gitstatus.pushRemote v) ≤ 2^64 - 1 ∧
      Gitstatus.behind v (Gitstatus.pushRemote v) ≤ 2^64 - 1 ∧ v.stashes.getD 0 ≤ 2^64 - 1 := by
    simpa only [NumbersFit,List.forall_mem_cons,List.not_mem_nil,false_imp_iff,implies_true,and_true] using fit
  simp only [statusOf,Gitstatus.assembleFields,reported,numberRead size,numberRead staged,numberRead unstaged,
    numberRead conflicted,numberRead untracked,numberRead ahead,numberRead behind,numberRead pushAhead,
    numberRead pushBehind,numberRead stashes,textRead,Utf8.decodeEncode]

/-- Threads start, the numbers fit, and a repository that is still resident stands for one opened now: it has the
work tree found now, and the directories it takes from its cache are settled. -/
def Unhindered (state : Option (RepoCache ο)) (ask : Bytes × World ο) : Prop :=
  ask.2.spawnFails = none ∧ ∀ gitdir workdir, ask.2.openOrDiscover ask.1 false = some ⟨gitdir,some workdir⟩ →
    (∀ cache ∈ state, ∀ resident, cache gitdir = some resident →
      resident.workdir = Gitstatus.workdirBytes workdir) ∧
    (excluded worker (Gitstatus.workdirBytes workdir) = false →
      (∀ cache ∈ state, ∀ resident, cache gitdir = some resident →
        Gitstatus.Settles resident.repo (ask.2.repository gitdir).surroundings) ∧
      ∀ stats, Gitstatus.answer diffTreeToIndex worker.options.limits (ask.2.repository gitdir).surroundings =
        some stats → NumbersFit (ask.2.repository gitdir) stats)

/-- Each resident repository is what its requests have left of one that was opened, and one that is excluded is as it
was opened. -/
structure ResidentsSound (asks : List (Bytes × World ο)) (cache : RepoCache ο) : Prop where
  kept : Gitstatus.CacheKept diffTreeToIndex worker.options asks cache
  unscanned : ∀ gitdir resident, cache gitdir = some resident → excluded worker resident.workdir = true →
    resident.repo = Gitstatus.openRepo worker.options.limits

variable {diffTreeToIndex worker}

omit [DecidableEq ο] in
theorem residentEntered {asks : List (Bytes × World ο)} {cache : RepoCache ο}
    (sound : ResidentsSound diffTreeToIndex worker asks cache) {gitdir : Bytes} {resident : Resident ο}
    (kept : Kept diffTreeToIndex (Gitstatus.moments asks gitdir) worker.options.limits resident.repo)
    (unscanned : excluded worker resident.workdir = true →
      resident.repo = Gitstatus.openRepo worker.options.limits) :
    ResidentsSound diffTreeToIndex worker asks (Function.update cache gitdir (some resident)) := by
  constructor
  all_goals
    intro gitdir' resident' there
    by_cases same : gitdir' = gitdir
    · subst same
      rw [Function.update_self] at there
      cases there
      first | exact kept | exact unscanned
    · rw [Function.update_of_ne same] at there
      first | exact sound.kept gitdir' resident' there | exact sound.unscanned gitdir' resident' there

omit [DecidableEq ο] in
/-- The repository that a request goes on with, taken from the cache or opened. -/
theorem residentFound {asks : List (Bytes × World ο)} {cache : RepoCache ο}
    (sound : ResidentsSound diffTreeToIndex worker asks cache) {w : World ο} {cwd gitdir workdir : Bytes}
    (spawns : w.spawnFails = none) (found : w.openOrDiscover cwd false = some ⟨gitdir,some workdir⟩)
    (same : ∀ resident, cache gitdir = some resident → resident.workdir = Gitstatus.workdirBytes workdir) :
    ∃ resident, Gitstatus.getOrOpen worker.options cache w cwd false = some (some (gitdir,resident)) ∧
      resident.workdir = Gitstatus.workdirBytes workdir ∧
      Kept diffTreeToIndex (Gitstatus.moments asks gitdir) worker.options.limits resident.repo ∧
      (excluded worker resident.workdir = true → resident.repo = Gitstatus.openRepo worker.options.limits) ∧
      (∀ m, (∀ resident, cache gitdir = some resident → Gitstatus.Settles resident.repo m) →
        Gitstatus.Settles resident.repo m) := by
  unfold Gitstatus.getOrOpen
  simp only [found]
  cases there : cache gitdir with
  | none =>
    simp only [spawns,reduceCtorEq,if_false]
    exact ⟨_,rfl,rfl,Gitstatus.openKept diffTreeToIndex _ _,fun _ => rfl,fun m _ => Gitstatus.openSettles _ m⟩
  | some resident =>
    exact ⟨_,rfl,same resident there,sound.kept gitdir resident there,sound.unscanned gitdir resident there,
      fun m settles => settles resident rfl⟩

theorem countedPlain (repo : Gitstatus.Repo ο) (m : Surroundings ο) :
    Gitstatus.indexStats diffTreeToIndex repo m false = Gitstatus.countedStats diffTreeToIndex repo m := by
  unfold Gitstatus.indexStats
  cases m.gitIndex <;> rfl

omit [DecidableEq ο] in
variable (diffTreeToIndex) in
theorem answerFound {limits : Gitstatus.Options} (shards : 16 * max limits.numThreads 1 ≠ 0) (m : Surroundings ο) :
    ∃ stats, Gitstatus.answer diffTreeToIndex limits m = some stats := by
  unfold Gitstatus.answer
  cases m.gitIndex with
  | none => exact ⟨_,rfl⟩
  | some entries =>
    simp only [if_neg shards]
    split
    · exact Option.isSome_iff_exists.mp (Gitstatus.computeDirtyEnds ..)
    · exact ⟨_,rfl⟩

theorem statusStep {asks : List (Bytes × World ο)} (shards : 16 * max worker.options.limits.numThreads 1 ≠ 0)
    (steady : ∀ gitdir, Gitstatus.Steady (Gitstatus.moments asks gitdir)) {cache : RepoCache ο}
    (sound : ResidentsSound diffTreeToIndex worker asks cache) {ask : Bytes × World ο} (mem : ask ∈ asks)
    (unhindered : Unhindered diffTreeToIndex worker (some cache) ask) :
    ∃ next, gitStatus diffTreeToIndex hex worker cache ask.2 ask.1 =
        some (next,statusNow diffTreeToIndex hex worker ask) ∧
      ResidentsSound diffTreeToIndex worker asks next := by
  obtain ⟨cwd,w⟩ := ask
  obtain ⟨spawns,each⟩ := unhindered
  dsimp only at spawns each ⊢
  cases located : w.openOrDiscover cwd false with
  | none => exact ⟨cache,by simp only [gitStatus,statusNow,Gitstatus.getOrOpen,located],sound⟩
  | some discovered =>
    obtain ⟨gitdir,workdir⟩ := discovered
    cases workdir with
    | none => exact ⟨cache,by simp only [gitStatus,statusNow,Gitstatus.getOrOpen,located],sound⟩
    | some workdir =>
      obtain ⟨same,scans⟩ := each gitdir workdir located
      obtain ⟨resident,taken,workdir',kept,unscanned,settles⟩ :=
        residentFound sound spawns located (fun resident there => same cache rfl resident there)
      rw [gitStatus,statusNow,taken,located]
      simp only [workdir']
      cases out : excluded worker (Gitstatus.workdirBytes workdir) with
      | true =>
        exact ⟨_,rfl,residentEntered sound kept unscanned⟩
      | false =>
        obtain ⟨settled,fit⟩ := scans out
        have seen : (w.repository gitdir).surroundings ∈ Gitstatus.moments asks gitdir := List.mem_map_of_mem mem
        obtain ⟨keeps,answered⟩ := Gitstatus.countedAnswer (steady gitdir) seen kept
          (settles _ fun resident there => settled cache rfl resident there)
        obtain ⟨stats,report⟩ := answerFound diffTreeToIndex shards (w.repository gitdir).surroundings
        have built : Gitstatus.buildFields diffTreeToIndex hex worker.options resident (w.repository gitdir) false
            (w.spawnFails = some .scanning) =
            ((Gitstatus.countedStats diffTreeToIndex resident.repo (w.repository gitdir).surroundings).1,
              some (Gitstatus.assembleFields hex worker.options.maxCommitSummaryLength resident.workdir
                (w.repository gitdir) stats)) := by
          simp only [Gitstatus.buildFields,Bool.false_eq_true,if_false,spawns,reduceCtorEq,decide_false,countedPlain,
            answered,report,Option.map_some]
        have read := fieldsRead hex worker resident.workdir (w.repository gitdir) (fit stats report)
        simp only [Bool.false_eq_true,if_false,built,report,Option.map_some,read]
        exact ⟨_,rfl,residentEntered sound keeps fun scanned => absurd (out.symm.trans scanned) Bool.false_ne_true⟩

variable (diffTreeToIndex) {φ : Type}

end statuses

def plainWorker : GitWorker := spawnGitWorker ({} : Settings.Config Unit) none []

/-- The directory is asked for twice, so the second answer comes from a resident repository. -/
def askedTwice : List (Bytes × World Unit) :=
  List.replicate 2 ([47],Gitstatus.foundWorld (Gitstatus.onlyA false []) none)

end P11k.Vcs
