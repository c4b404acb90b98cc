import P11k.Gitstatus.Entry
import P11k.Lib.Framing

/-! The gitstatus wire protocol: what a request is taken for and how a response is written. -/
namespace P11k.Gitstatus
open P11k

def fieldSep : UInt8 := 0x1f
def msgSep : UInt8 := 0x1e

structure Request where
  id : Bytes
  dir : Bytes
  dirIsGitdir : Bool
  skipIndex : Bool
  deriving DecidableEq, Repr

/-- A directory behind a colon is the repository itself. -/
def dirField : Bytes → Bytes × Bool
  | 58 :: rest => (rest,true)
  | dir => (dir,false)

def diffField : List Bytes → Option Bool
  | [] => some false
  | [[49]] => some true
  | [[48]] => some false
  | _ => none

/-- A malformed message panics, which is `none` here. -/
def parseRequest (bytes : Bytes) : Option Request :=
  if bytes.isEmpty then none
  else match bytes.splitOn fieldSep with
    | id :: dir :: rest => (diffField rest).map fun skipIndex =>
        ⟨id,(dirField dir).1,(dirField dir).2,skipIndex⟩
    | _ => none

/-- An id, a directory and at most one flag. -/
def WellFormed (bytes : Bytes) : Prop :=
  ∃ id dir flag, fieldSep ∉ id ∧ fieldSep ∉ dir ∧ flag ∈ [[],[fieldSep,48],[fieldSep,49]] ∧
    bytes = id ++ fieldSep :: (dir ++ flag)

theorem diffFieldSome {rest : List Bytes} (known : (diffField rest).isSome = true) :
    rest = [] ∨ rest = [[48]] ∨ rest = [[49]] := by
  unfold diffField at known
  split at known
  · exact .inl rfl
  · exact .inr (.inr rfl)
  · exact .inr (.inl rfl)
  · contradiction

theorem parseRequestIff (bytes : Bytes) : (parseRequest bytes).isSome = true ↔ WellFormed bytes := by
  constructor
  · intro parsed
    have clean := Framing.splitOnClean fieldSep bytes
    have whole : [fieldSep].intercalate (bytes.splitOn fieldSep) = bytes := List.intercalate_splitOn fieldSep
    unfold parseRequest at parsed
    split at parsed
    · contradiction
    · split at parsed
      · rename_i id dir rest fields
        rw [fields] at clean whole
        rw [Option.isSome_map] at parsed
        obtain ⟨idClean,others⟩ := List.forall_mem_cons.mp clean
        have dirClean := others dir List.mem_cons_self
        rcases diffFieldSome parsed with rfl | rfl | rfl
        · exact ⟨id,dir,[],idClean,dirClean,by simp,by simpa [List.intercalate] using whole.symm⟩
        · exact ⟨id,dir,[fieldSep,48],idClean,dirClean,by simp,by simpa [List.intercalate] using whole.symm⟩
        · exact ⟨id,dir,[fieldSep,49],idClean,dirClean,by simp,by simpa [List.intercalate] using whole.symm⟩
      · contradiction
  · rintro ⟨id,dir,flag,idClean,dirClean,known,rfl⟩
    have some' : (id ++ fieldSep :: (dir ++ flag)).isEmpty = false := by simp
    have fields : (dir ++ flag).splitOn fieldSep = dir :: (if flag = [] then [] else [flag.tail]) := by
      simp only [List.mem_cons,List.not_mem_nil,or_false] at known
      rcases known with rfl | rfl | rfl
      · rw [List.append_nil,List.splitOn_eq_singleton dirClean,if_pos rfl]
      · rw [List.splitOn_append_cons_self_of_not_mem dirClean]
        rfl
      · rw [List.splitOn_append_cons_self_of_not_mem dirClean]
        rfl
    rw [parseRequest,some',List.splitOn_append_cons_self_of_not_mem idClean,fields]
    simp only [List.mem_cons,List.not_mem_nil,or_false] at known
    rcases known with rfl | rfl | rfl <;> rfl

/-! Responses. -/

def safePrint (s : Bytes) : Bytes := s.map fun c => if 0x20 ≤ c ∧ c ≠ 0x7f then c else 63

/-- The data fields of a repository. -/
structure Fields where
  workdir : Bytes
  commit : Bytes
  localBranch : Bytes
  remoteBranch : Bytes
  remoteName : Bytes
  remoteUrl : Bytes
  action : Bytes
  indexSize : Bytes
  numStaged : Bytes
  numUnstaged : Bytes
  numConflicted : Bytes
  numUntracked : Bytes
  commitsAhead : Bytes
  commitsBehind : Bytes
  stashes : Bytes
  tag : Bytes
  numUnstagedDeleted : Bytes
  numStagedNew : Bytes
  numStagedDeleted : Bytes
  pushRemoteName : Bytes
  pushRemoteUrl : Bytes
  pushCommitsAhead : Bytes
  pushCommitsBehind : Bytes
  numSkipWorktree : Bytes
  numAssumeUnchanged : Bytes
  commitEncoding : Bytes
  commitSummary : Bytes
  deriving DecidableEq, Repr

def Fields.inOrder (f : Fields) : List Bytes :=
  [f.workdir,f.commit,f.localBranch,f.remoteBranch,f.remoteName,f.remoteUrl,f.action,f.indexSize,
    f.numStaged,f.numUnstaged,f.numConflicted,f.numUntracked,f.commitsAhead,f.commitsBehind,f.stashes,
    f.tag,f.numUnstagedDeleted,f.numStagedNew,f.numStagedDeleted,f.pushRemoteName,f.pushRemoteUrl,
    f.pushCommitsAhead,f.pushCommitsBehind,f.numSkipWorktree,f.numAssumeUnchanged,f.commitEncoding,
    f.commitSummary]

/-- The source's `is_repo` says whether there are fields. -/
structure Response where
  id : Bytes
  fields : Option Fields
  deriving DecidableEq, Repr

/-- A response without the separator at its end. -/
def responseBody (r : Response) : Bytes :=
  match r.fields with
  | none => safePrint r.id ++ [fieldSep,48]
  | some f => safePrint r.id ++ [fieldSep,49] ++ f.inOrder.flatMap fun field => fieldSep :: safePrint field

def serializeResponse (r : Response) : Bytes := responseBody r ++ [msgSep]

theorem safePrintPrintable (s : Bytes) : ∀ c ∈ safePrint s, 0x20 ≤ c ∧ c ≠ 0x7f := by
  intro c mem
  obtain ⟨raw,_,rfl⟩ := List.mem_map.mp mem
  split
  · assumption
  · decide

theorem responseClean (r : Response) : msgSep ∉ responseBody r := by
  have printed : ∀ s, msgSep ∉ safePrint s := fun s mem => absurd (safePrintPrintable s _ mem).1 (by decide)
  have field : ∀ s, msgSep ∉ fieldSep :: safePrint s := fun s mem => by
    rcases List.mem_cons.mp mem with here | there
    · exact absurd here (by decide)
    · exact printed s there
  unfold responseBody
  split
  · rw [List.mem_append,not_or]
    exact ⟨printed _,by decide⟩
  · rw [List.append_assoc,List.mem_append,not_or,List.mem_append,not_or]
    refine ⟨printed _,by decide,fun mem => ?_⟩
    obtain ⟨f,_,there⟩ := List.mem_flatMap.mp mem
    exact field f there

end P11k.Gitstatus
