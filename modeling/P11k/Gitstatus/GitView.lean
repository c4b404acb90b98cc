import P11k.Gitstatus.Resident
import P11k.Gitstatus.Protocol
import P11k.Lib.Text
import P11k.Lib.Utf8

/-! What one request reads of a repository, and the data fields made of it. The lookups in
references, remotes and configuration are libgit2's; how they are put together is the source's. -/
namespace P11k.Gitstatus
open P11k

/-- HEAD as a reference: resolved, or what it points to when that does not exist yet. -/
inductive HeadReference where
  | direct (isBranch : Bool) (shorthand : Option (List Char))
  | unresolved (symbolicTarget : Option (List Char))

structure RemoteEntry where
  fetchRefspecs : Option (List (Option (List Char)))
  url : Option (List Char)

inductive RepositoryState where
  | clean
  | merge
  | revert
  | revertSequence
  | cherryPick
  | cherryPickSequence
  | bisect
  | rebase
  | rebaseInteractive
  | rebaseMerge
  | applyMailbox
  | applyMailboxOrRebase
  deriving DecidableEq, Repr

structure Commit where
  messageEncoding : Option Bytes
  summary : Option Bytes

structure GitView (ο : Type) where
  surroundings : Surroundings ο
  head : Option HeadReference
  config : Option (List Char → Option (List Char))
  findRemote : List Char → Option RemoteEntry
  findReference : List Char → Bool
  state : RepositoryState
  gitdirHas : List Char → Bool
  gitdirRead : List Char → Option (List Char)
  tags : List (Option ο × Option (List Char))
  stashes : Option Nat
  revwalk : List Char → Option Nat
  findCommit : ο → Option Commit

structure RemoteInfo where
  name : List Char
  branch : List Char
  url : List Char
  refName : List Char

def refsHeads : List Char := "refs/heads/".toList

section view
variable {ο : Type} (v : GitView ο)

def localBranch : List Char :=
  match v.head with
  | none => []
  | some (.direct isBranch shorthand) => if isBranch then shorthand.getD [] else []
  | some (.unresolved target) => (target.bind (·.dropPrefix? refsHeads)).getD []

/-- A remote without a fetch refspec counts as absent. -/
def remoteOrNone (name : List Char) : Option (List Char) := do
  let remote ← v.findRemote name
  let refspecs ← remote.fetchRefspecs
  if refspecs.any (fun r => match r with | some s => !s.isEmpty | none => false) then
    some (remote.url.getD [])
  else none

def remoteInfo (get : List Char → Option (List Char)) (branch remoteName : List Char) :
    Option RemoteInfo := do
  if remoteName = ['.'] then none
  let url ← remoteOrNone v remoteName
  let merge ← get ("branch.".toList ++ branch ++ ".merge".toList)
  let short ← merge.dropPrefix? refsHeads
  let refName := "refs/remotes/".toList ++ remoteName ++ ['/'] ++ short
  if v.findReference refName then some ⟨remoteName,short,url,refName⟩ else none

def upstreamRemote : Option RemoteInfo := do
  let branch := localBranch v
  if branch = [] then none
  let get ← v.config
  let remoteName ← get ("branch.".toList ++ branch ++ ".remote".toList)
  remoteInfo v get branch remoteName

def pushRemote : Option RemoteInfo := do
  let branch := localBranch v
  if branch = [] then none
  let get ← v.config
  let remoteName ← (get ("branch.".toList ++ branch ++ ".pushremote".toList)).or
    (get "remote.pushdefault".toList)
  remoteInfo v get branch remoteName

def stateName : RepositoryState → List Char
  | .clean => []
  | .merge => "merge".toList
  | .revert => "revert".toList
  | .revertSequence => "revert-seq".toList
  | .cherryPick => "cherry".toList
  | .cherryPickSequence => "cherry-seq".toList
  | .bisect => "bisect".toList
  | .rebase => "rebase".toList
  | .rebaseInteractive => "rebase-i".toList
  | .rebaseMerge => "rebase-m".toList
  | .applyMailbox => "am".toList
  | .applyMailboxOrRebase => "am/rebase".toList

/-- A rebase shows how far it has come. -/
def repoState : List Char :=
  let progress (nextFile lastFile : List Char) :=
    let next := ((v.gitdirRead nextFile).map Text.trim).getD []
    let last := ((v.gitdirRead lastFile).map Text.trim).getD []
    if next = [] ∨ last = [] then stateName v.state
    else stateName v.state ++ [' '] ++ next ++ ['/'] ++ last
  if v.gitdirHas "rebase-merge".toList then progress "rebase-merge/msgnum".toList "rebase-merge/end".toList
  else if v.gitdirHas "rebase-apply".toList then
    progress "rebase-apply/next".toList "rebase-apply/last".toList
  else stateName v.state

/-- The last name in order among the tags of the commit at HEAD. -/
def tagName [DecidableEq ο] : List Char :=
  match v.surroundings.head with
  | none => []
  | some oid =>
      let best (best : Option (List Char)) (tag : Option ο × Option (List Char)) :=
        match tag.2 with
        | some name => if tag.1 = some oid ∧ best.all (· < name) then some name else best
        | none => best
      (v.tags.foldl best none).getD []

def countRange (range : List Char) : Nat := (v.revwalk range).getD 0

def ahead (remote : Option RemoteInfo) : Nat :=
  (remote.map fun r => countRange v (r.refName ++ "..HEAD".toList)).getD 0

def behind (remote : Option RemoteInfo) : Nat :=
  (remote.map fun r => countRange v ("HEAD..".toList ++ r.refName)).getD 0

end view

def number (n : Nat) : Bytes := Utf8.encode (Text.decimal n)

/-- The data fields, from the view, the counts and what the repository was opened with. -/
def assembleFields {ο : Type} [DecidableEq ο] (hex : ο → Bytes) (maxCommitSummaryLength : Nat)
    (workdir : Bytes) (v : GitView ο) (stats : IndexStats) : Fields :=
  let head := v.surroundings.head
  let remote := upstreamRemote v
  let push := pushRemote v
  let commit := head.bind v.findCommit
  let remoteText (r : Option RemoteInfo) (field : RemoteInfo → List Char) :=
    (r.map fun r => Utf8.encode (field r)).getD []
  { workdir := workdir
    commit := (head.map hex).getD []
    localBranch := Utf8.encode (localBranch v)
    remoteBranch := remoteText remote (·.branch)
    remoteName := remoteText remote (·.name)
    remoteUrl := remoteText remote (·.url)
    action := Utf8.encode (repoState v)
    indexSize := number stats.indexSize
    numStaged := number stats.numStaged
    numUnstaged := number stats.numUnstaged
    numConflicted := number stats.numConflicted
    numUntracked := number stats.numUntracked
    commitsAhead := number (ahead v remote)
    commitsBehind := number (behind v remote)
    stashes := number (v.stashes.getD 0)
    tag := Utf8.encode (tagName v)
    numUnstagedDeleted := number stats.numUnstagedDeleted
    numStagedNew := number stats.numStagedNew
    numStagedDeleted := number stats.numStagedDeleted
    pushRemoteName := remoteText push (·.name)
    pushRemoteUrl := remoteText push (·.url)
    pushCommitsAhead := number (ahead v push)
    pushCommitsBehind := number (behind v push)
    numSkipWorktree := number stats.numSkipWorktree
    numAssumeUnchanged := number stats.numAssumeUnchanged
    commitEncoding := (commit.bind (·.messageEncoding)).getD []
    commitSummary := ((commit.bind (·.summary)).getD []).take maxCommitSummaryLength }

end P11k.Gitstatus
