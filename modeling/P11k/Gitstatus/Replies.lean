import P11k.Gitstatus.Daemon
import P11k.Gitstatus.ResponseFraming

/-! What a client reads from the daemon while it writes: the kernel takes a response in pieces, interrupts, or refuses. -/
namespace P11k.Gitstatus
open P11k

inductive Wrote where
  | took (n : Nat)
  | interrupted
  | failed
  deriving DecidableEq, Repr

/-- Where the writing is when the kernel has returned no more. -/
inductive Writing where
  | done
  | refused
  | blocked
  deriving DecidableEq, Repr

/-- The bytes that are out, and what the kernel returns next. -/
def writeAll : List Wrote → Bytes → Bytes × Writing × List Wrote
  | [], bytes => ([],if bytes.isEmpty then .done else .blocked,[])
  | w :: kernel, bytes =>
      if bytes.isEmpty then ([],.done,w :: kernel)
      else match w with
        | .took n =>
            if n = 0 then ([],.refused,kernel)
            else
              let rest := writeAll kernel (bytes.drop n)
              (bytes.take n ++ rest.1,rest.2)
        | .interrupted => writeAll kernel bytes
        | .failed => ([],.refused,kernel)

theorem writeAllFront (kernel : List Wrote) (bytes : Bytes) : (writeAll kernel bytes).1 <+: bytes ∧
    ((writeAll kernel bytes).2.1 = .done → (writeAll kernel bytes).1 = bytes) := by
  induction kernel generalizing bytes with
  | nil =>
    refine ⟨List.nil_prefix,fun finished => ?_⟩
    simp only [writeAll] at finished
    split at finished
    · rename_i none'
      exact (List.isEmpty_iff.mp none').symm
    · cases finished
  | cons w kernel ih =>
    rw [writeAll.eq_def]
    dsimp only
    split
    · rename_i none'
      exact ⟨List.nil_prefix,fun _ => (List.isEmpty_iff.mp none').symm⟩
    · cases w with
      | took n =>
        dsimp only
        split
        · exact ⟨List.nil_prefix,fun no => absurd no (by simp)⟩
        · obtain ⟨front,whole⟩ := ih (bytes.drop n)
          have joined := List.take_append_drop n bytes
          refine ⟨?_,fun finished => ?_⟩
          · obtain ⟨rest,same⟩ := front
            exact ⟨rest,by rw [List.append_assoc,same,joined]⟩
          · dsimp only at finished ⊢
            rw [whole finished,joined]
      | interrupted => exact ih bytes
      | failed => exact ⟨List.nil_prefix,fun no => absurd no (by simp)⟩

section replies
variable {ο : Type} [DecidableEq ο] (diffTreeToIndex : ο → List IndexEntry → Option (List Delta))
  (hex : ο → Bytes) (options : DaemonOptions)

/-- The daemon at its tasks; a refused write ends it. -/
def served : RepoCache ο → List (Task ο) → List Wrote → Bytes × Writing
  | _, [], _ => ([],.done)
  | cache, task :: tasks, kernel =>
      let handled := taskStep diffTreeToIndex hex options cache task
      let out := writeAll kernel handled.2
      match out.2.1 with
      | .done =>
          let rest := served handled.1 tasks out.2.2
          (out.1 ++ rest.1,rest.2)
      | stopped => (out.1,stopped)

def reply (cache : RepoCache ο) : Task ο → Option Response
  | .message bytes w => (processMessage diffTreeToIndex hex options cache w bytes).2
  | .evict _ => none

def replies : RepoCache ο → List (Task ο) → List Response
  | _, [] => []
  | cache, task :: tasks => (reply diffTreeToIndex hex options cache task).toList ++
      replies (taskStep diffTreeToIndex hex options cache task).1 tasks

theorem taskBytes (cache : RepoCache ο) (task : Task ο) : (taskStep diffTreeToIndex hex options cache task).2 =
    (reply diffTreeToIndex hex options cache task).toList.flatMap serializeResponse := by
  cases task with
  | message bytes w =>
    simp only [taskStep,reply]
    cases (processMessage diffTreeToIndex hex options cache w bytes).2 with
    | none => rfl
    | some r => exact (List.append_nil _).symm
  | evict now => rfl

theorem servedFront (cache : RepoCache ο) (tasks : List (Task ο)) (kernel : List Wrote) :
    (served diffTreeToIndex hex options cache tasks kernel).1 <+:
        (replies diffTreeToIndex hex options cache tasks).flatMap serializeResponse ∧
      ((served diffTreeToIndex hex options cache tasks kernel).2 = .done →
        (served diffTreeToIndex hex options cache tasks kernel).1 =
          (replies diffTreeToIndex hex options cache tasks).flatMap serializeResponse) := by
  induction tasks generalizing cache kernel with
  | nil => exact ⟨List.nil_prefix,fun _ => rfl⟩
  | cons task tasks ih =>
    obtain ⟨front,whole⟩ := writeAllFront kernel (taskStep diffTreeToIndex hex options cache task).2
    rw [replies,List.flatMap_append,← taskBytes,served]
    dsimp only
    split
    · rename_i finished
      obtain ⟨front',whole'⟩ := ih (taskStep diffTreeToIndex hex options cache task).1
        (writeAll kernel (taskStep diffTreeToIndex hex options cache task).2).2.2
      rw [whole finished]
      exact ⟨List.prefix_append_right_inj _ |>.mpr front',fun finished' => congrArg _ (whole' finished')⟩
    · rename_i unfinished
      exact ⟨front.trans (List.prefix_append _ _),fun finished => absurd finished unfinished⟩

theorem replyId {cache : RepoCache ο} {task : Task ο} {r : Response}
    (answered : reply diffTreeToIndex hex options cache task = some r) :
    ((taskMessage task).bind fun m => (parseRequest m.1).map (·.id)) = some r.id := by
  cases task with
  | message bytes w =>
    simp only [reply,processMessage] at answered
    simp only [taskMessage,Option.bind_some]
    split at answered
    · cases answered
    · rename_i req parsed
      rw [parsed]
      split at answered
      · cases answered
      · exact Option.some.inj answered ▸ rfl
      · obtain ⟨fields,-,rfl⟩ := Option.map_eq_some_iff.mp answered
        rfl
  | evict now => cases answered

theorem repliesIds (cache : RepoCache ο) (tasks : List (Task ο)) :
    ((replies diffTreeToIndex hex options cache tasks).map (·.id)).Sublist
      ((tasks.filterMap taskMessage).filterMap fun m => (parseRequest m.1).map (·.id)) := by
  rw [List.filterMap_filterMap]
  induction tasks generalizing cache with
  | nil => exact .slnil
  | cons task tasks ih =>
    have rest := ih (taskStep diffTreeToIndex hex options cache task).1
    rw [replies,List.map_append]
    cases answered : reply diffTreeToIndex hex options cache task with
    | none => exact rest.trans ((List.sublist_cons_self task tasks).filterMap _)
    | some r =>
      rw [List.filterMap_cons,replyId diffTreeToIndex hex options answered]
      exact rest.cons_cons r.id

/-- What a client gets who cuts at the separators; the rest is no record yet. -/
def records (bytes : Bytes) : List (List Bytes) := (Framing.split msgSep bytes).1.map (·.splitOn fieldSep)

theorem recordsFront {bytes whole : Bytes} (front : bytes <+: whole) : records bytes <+: records whole := by
  obtain ⟨rest,rfl⟩ := front
  rw [records,records,Framing.splitAppend,List.map_append]
  exact List.prefix_append _ _

theorem repliesFramed (rs : List Response) : records (rs.flatMap serializeResponse) = rs.map (·.wire.record) := by
  have bytes : rs.flatMap serializeResponse = Framing.join msgSep (rs.map (·.wire.body)) := by
    rw [Framing.join,List.flatMap_map]
    refine List.flatMap_congr fun r _ => ?_
    have written := (wireWritten r).2
    rw [writeBody (wireWritten r).1] at written
    exact (Option.some.inj written).symm
  have clean : ∀ m ∈ rs.map (·.wire.body), msgSep ∉ m := by
    simp only [List.forall_mem_map]
    exact fun r _ => bodyFree r.wire
  have cut := Framing.splitJoin clean []
  rw [List.append_nil] at cut
  rw [records,bytes,cut]
  simp only [Framing.split,List.append_nil,List.map_map]
  exact List.map_congr_left fun r _ => List.splitOn_intercalate fieldSep (recordFree (by decide) r.wire) (recordSome r.wire)

theorem taskRunBytes (cache : RepoCache ο) (tasks : List (Task ο)) :
    (Machine.run (taskStep diffTreeToIndex hex options) cache tasks).2 =
      (replies diffTreeToIndex hex options cache tasks).flatMap serializeResponse := by
  induction tasks generalizing cache with
  | nil => rfl
  | cons task tasks ih => rw [Machine.run,replies,List.flatMap_append,← taskBytes,ih]

variable (worlds : Nat → World ο)

def daemonOut (polls : List Poll) (kernel : List Wrote) : Bytes × Writing :=
  served diffTreeToIndex hex options (fun _ => none) (tasks worlds [] 0 polls) kernel

def daemonReplies (polls : List Poll) : List Response :=
  replies diffTreeToIndex hex options (fun _ => none) (tasks worlds [] 0 polls)

/-- Whatever the kernel takes at a time, and whenever it is looked at: the records that a client has are those of the
first responses, whole and in order; they are all there when the daemon is done, and each one has the id of its request. -/
theorem clientReads (polls : List Poll) (kernel : List Wrote) :
    records (daemonOut diffTreeToIndex hex options worlds polls kernel).1 <+:
        (daemonReplies diffTreeToIndex hex options worlds polls).map (·.wire.record) ∧
      ((daemonOut diffTreeToIndex hex options worlds polls kernel).2 = .done →
        (daemonOut diffTreeToIndex hex options worlds polls kernel).1 = daemonRun diffTreeToIndex hex options worlds polls ∧
        records (daemonOut diffTreeToIndex hex options worlds polls kernel).1 =
          (daemonReplies diffTreeToIndex hex options worlds polls).map (·.wire.record)) ∧
      ((daemonReplies diffTreeToIndex hex options worlds polls).map (·.id)).Sublist
        ((messages worlds polls).filterMap fun m => (parseRequest m.1).map (·.id)) := by
  obtain ⟨front,whole⟩ := servedFront diffTreeToIndex hex options (fun _ => none) (tasks worlds [] 0 polls) kernel
  have sent : daemonRun diffTreeToIndex hex options worlds polls =
      (daemonReplies diffTreeToIndex hex options worlds polls).flatMap serializeResponse :=
    (runTasks diffTreeToIndex hex options worlds daemonStart polls).trans (taskRunBytes ..)
  refine ⟨?_,fun finished => ?_,?_⟩
  · rw [← repliesFramed]
    exact recordsFront front
  · have all := whole finished
    rw [← repliesFramed]
    exact ⟨all.trans sent.symm,congrArg records all⟩
  · have ids := repliesIds diffTreeToIndex hex options (fun _ => none) (tasks worlds [] 0 polls)
    rw [tasksMessages worlds [] List.not_mem_nil] at ids
    exact ids

end replies
end P11k.Gitstatus
