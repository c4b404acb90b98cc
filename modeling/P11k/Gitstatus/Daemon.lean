import P11k.Gitstatus.GitView
import P11k.Gitstatus.Transparent

/-! The resident daemon: its buffer, its repositories and the handling of one message. What
libgit2 and the operating system say while a message is handled is the world of that message.
A write that fails ends the daemon, so the output here is what it wrote until then. -/
namespace P11k.Gitstatus
open P11k

structure DaemonOptions where
  limits : Options
  repoTtlSeconds : Int
  maxCommitSummaryLength : Nat

/-- Where a thread cannot be started. The source panics there. -/
inductive SpawnFailure where
  | opening
  | scanning
  deriving DecidableEq, Repr

structure Discovered where
  gitdir : Bytes
  workdir : Option Bytes

structure World (ο : Type) where
  openOrDiscover : Bytes → Bool → Option Discovered
  repository : Bytes → GitView ο
  now : Nat
  spawnFails : Option SpawnFailure

structure Resident (ο : Type) where
  repo : Repo ο
  workdir : Bytes
  lastUsed : Nat

abbrev RepoCache (ο : Type) := Bytes → Option (Resident ο)

def workdirBytes (workdir : Bytes) : Bytes :=
  if 1 < workdir.length ∧ workdir.getLast? = some 47 then workdir.dropLast else workdir

section daemon
variable {ο : Type} [DecidableEq ο] (diffTreeToIndex : ο → List IndexEntry → Option (List Delta))
  (hex : ο → Bytes) (options : DaemonOptions)

omit [DecidableEq ο] in
/-- The repository of a directory, if there is one; none is a panic. -/
def getOrOpen (cache : RepoCache ο) (w : World ο) (dir : Bytes) (dirIsGitdir : Bool) :
    Option (Option (Bytes × Resident ο)) :=
  match w.openOrDiscover dir dirIsGitdir with
  | some ⟨gitdir,some workdir⟩ =>
      match cache gitdir with
      | some resident => some (some (gitdir,{ resident with lastUsed := w.now }))
      | none =>
          if w.spawnFails = some .opening then none
          else some (some (gitdir,⟨openRepo options.limits,workdirBytes workdir,w.now⟩))
  | _ => some none

/-- A scan whose threads cannot be started takes the tree with it. -/
def unscanned (repo : Repo ο) (m : Surroundings ο) (entries : List IndexEntry) : Repo ο :=
  let repo := { repo with supported := repo.supported && m.probe }
  let limits := effectiveLimits repo.limits m.config
  match indexTreeOrRebuild repo m.indexStat entries (limits.maxNumUntracked ≠ 0) with
  | none => repo
  | some (repo,_) => refreshStaged diffTreeToIndex repo limits m.head entries

def countedStats (repo : Repo ο) (m : Surroundings ο) : Repo ο × Option IndexStats :=
  match getIndexStats diffTreeToIndex repo m with
  | none => (repo,none)
  | some (repo,stats) => (repo,some stats)

/-- The counts of a request, with the repository it leaves behind; none is a panic. -/
def indexStats (repo : Repo ο) (m : Surroundings ο) (spawnFails : Bool) : Repo ο × Option IndexStats :=
  match m.gitIndex with
  | none => countedStats diffTreeToIndex repo m
  | some entries =>
      if spawnFails ∧ scans (effectiveLimits repo.limits m.config) m entries.length then
        (unscanned diffTreeToIndex repo m entries,none)
      else countedStats diffTreeToIndex repo m

def buildFields (resident : Resident ο) (v : GitView ο) (skipIndex spawnFails : Bool) :
    Repo ο × Option Fields :=
  let counted := if skipIndex then (resident.repo,some noStats)
    else indexStats diffTreeToIndex resident.repo v.surroundings spawnFails
  (counted.1,counted.2.map (assembleFields hex options.maxCommitSummaryLength resident.workdir v))

def processMessage (cache : RepoCache ο) (w : World ο) (bytes : Bytes) :
    RepoCache ο × Option Response :=
  match parseRequest bytes with
  | none => (cache,none)
  | some req =>
      match getOrOpen options cache w req.dir req.dirIsGitdir with
      | none => (cache,none)
      | some none => (cache,some ⟨req.id,none⟩)
      | some (some (gitdir,resident)) =>
          let built := buildFields diffTreeToIndex hex options resident (w.repository gitdir)
            req.skipIndex (w.spawnFails = some .scanning)
          (Function.update cache gitdir (some { resident with repo := built.1 }),
            built.2.map fun fields => ⟨req.id,some fields⟩)

omit [DecidableEq ο] in
def evictExpired (cache : RepoCache ο) (now : Nat) : RepoCache ο :=
  if options.repoTtlSeconds < 0 then cache
  else fun gitdir => (cache gitdir).filter fun resident =>
    now - resident.lastUsed < options.repoTtlSeconds.toNat * 10^9

/-- What the daemon does between two looks at its buffer. -/
inductive Task (ο : Type) where
  | message (bytes : Bytes) (w : World ο)
  | evict (now : Nat)

def taskStep (cache : RepoCache ο) : Task ο → RepoCache ο × Bytes
  | .message bytes w =>
      let handled := processMessage diffTreeToIndex hex options cache w bytes
      (handled.1,(handled.2.map serializeResponse).getD [])
  | .evict now => (evictExpired options cache now,[])

/-- One return of `poll`: a read, or a second without one. -/
inductive Poll where
  | read (chunk : Bytes)
  | idle (now : Nat)

structure DaemonState (ο : Type) where
  buf : Bytes
  cache : RepoCache ο
  handled : Nat

omit [DecidableEq ο] in
def daemonStart : DaemonState ο := ⟨[],fun _ => none,0⟩

variable (worlds : Nat → World ο)

omit [DecidableEq ο] in
/-- The messages complete by now, each with its world. -/
def complete (buf : Bytes) (handled : Nat) : List (Bytes × World ο) :=
  ((Framing.split msgSep buf).1.zipIdx handled).map fun m => (m.1,worlds m.2)

def daemonStep (s : DaemonState ο) : Poll → DaemonState ο × Bytes
  | .read chunk =>
      let buf := s.buf ++ chunk
      let served := Machine.run (taskStep diffTreeToIndex hex options) s.cache
        ((complete worlds buf s.handled).map fun m => .message m.1 m.2)
      (⟨(Framing.split msgSep buf).2,served.1,s.handled + (Framing.split msgSep buf).1.length⟩,served.2)
  | .idle now => ({ s with cache := evictExpired options s.cache now },[])

def daemonRun (polls : List Poll) : Bytes :=
  (Machine.run (daemonStep diffTreeToIndex hex options worlds) daemonStart polls).2

/-! What is read, whatever the pieces it comes in. -/

omit [DecidableEq ο] in
def stdin : List Poll → Bytes
  | [] => []
  | .read chunk :: polls => chunk ++ stdin polls
  | .idle _ :: polls => stdin polls

omit [DecidableEq ο] in
def messages (polls : List Poll) : List (Bytes × World ο) := complete worlds (stdin polls) 0

omit [DecidableEq ο] in
def tasks : Bytes → Nat → List Poll → List (Task ο)
  | _, _, [] => []
  | buf, handled, .read chunk :: polls =>
      (complete worlds (buf ++ chunk) handled).map (fun m => .message m.1 m.2) ++
        tasks (Framing.split msgSep (buf ++ chunk)).2
          (handled + (Framing.split msgSep (buf ++ chunk)).1.length) polls
  | buf, handled, .idle now :: polls => .evict now :: tasks buf handled polls

theorem runTasks (s : DaemonState ο) (polls : List Poll) :
    (Machine.run (daemonStep diffTreeToIndex hex options worlds) s polls).2 =
      (Machine.run (taskStep diffTreeToIndex hex options) s.cache (tasks worlds s.buf s.handled polls)).2 := by
  induction polls generalizing s with
  | nil => rfl
  | cons poll polls ih =>
    cases poll with
    | read chunk =>
      rw [Machine.run,ih,tasks,Machine.runAppend]
      rfl
    | idle now =>
      rw [Machine.run,ih,tasks,Machine.run]
      rfl

omit [DecidableEq ο] in
def taskMessage : Task ο → Option (Bytes × World ο)
  | .message bytes w => some (bytes,w)
  | .evict _ => none

omit [DecidableEq ο] in
theorem tasksMessages (buf : Bytes) (unended : msgSep ∉ buf) (handled : Nat) (polls : List Poll) :
    (tasks worlds buf handled polls).filterMap taskMessage = complete worlds (buf ++ stdin polls) handled := by
  induction polls generalizing buf handled with
  | nil => simp [tasks,stdin,complete,Framing.splitOpen unended]
  | cons poll polls ih =>
    cases poll with
    | read chunk =>
      have rest := ih _ (Framing.splitClean msgSep (buf ++ chunk)).2
        (handled + (Framing.split msgSep (buf ++ chunk)).1.length)
      rw [tasks,List.filterMap_append,rest,stdin,← List.append_assoc,complete,complete,complete,
        Framing.splitAppend msgSep (buf ++ chunk),List.zipIdx_append,List.map_append,List.filterMap_map]
      congr 1
      exact List.filterMap_some
    | idle now => rw [tasks,List.filterMap_cons,stdin,← ih buf unended handled]; rfl

end daemon
end P11k.Gitstatus
