import P11k.Engine.Status
import P11k.Engine.ReloadRequest

/-! What the terminal answers on stdin: cursor positions, device attributes and focus events. The
loop judges each read as a whole, and a terminal may answer twice before one read. -/
namespace P11k.Engine
open Gitstatus (Bytes)

def isParam (b : UInt8) : Bool := (48 ≤ b && b ≤ 57) || b == 59 || b == 63

def isFinal (b : UInt8) : Bool := b == 82 || b == 99 || b == 73 || b == 79

/-- One complete reply: `ESC [`, parameters, and a final `R`, `c`, `I` or `O`. -/
def IsReply (bytes : Bytes) : Prop :=
  ∃ params final, bytes = 27 :: 91 :: (params ++ [final]) ∧ (∀ b ∈ params, isParam b = true) ∧
    isFinal final = true

/-- What one read brings when the terminal has answered any number of times. -/
def Replies (bytes : Bytes) : Prop :=
  ∃ replies : List Bytes, replies ≠ [] ∧ (∀ r ∈ replies, IsReply r) ∧ bytes = replies.flatten

theorem isTerminalReplyIff (bytes : Bytes) : isTerminalReply bytes = true ↔ IsReply bytes := by
  constructor
  · intro judged
    unfold isTerminalReply at judged
    split at judged
    · rename_i rest
      rcases List.eq_nil_or_concat rest with rfl | ⟨params,final,rfl⟩
      · simp at judged
      · simp only [List.concat_eq_append,List.getLast?_concat,List.dropLast_concat,Bool.and_eq_true,
          List.all_eq_true] at judged
        exact ⟨params,final,by rw [List.concat_eq_append],judged.2,judged.1⟩
    · contradiction
  · rintro ⟨params,final,rfl,plain,last⟩
    simp only [isTerminalReply,List.getLast?_concat,List.dropLast_concat,Bool.and_eq_true,List.all_eq_true]
    exact ⟨last,plain⟩

theorem paramPlain {b : UInt8} (param : isParam b = true) : b ≠ 13 ∧ b ≠ 10 := by
  constructor <;> rintro rfl <;> exact absurd param (by decide)

theorem finalPlain {b : UInt8} (last : isFinal b = true) : b ≠ 13 ∧ b ≠ 10 := by
  constructor <;> rintro rfl <;> exact absurd last (by decide)

theorem replyPlain {bytes : Bytes} (reply : IsReply bytes) : ∀ b ∈ bytes, b ≠ 13 ∧ b ≠ 10 := by
  obtain ⟨params,final,rfl,plain,last⟩ := reply
  intro b mem
  simp only [List.mem_cons,List.mem_append,List.not_mem_nil,or_false] at mem
  rcases mem with rfl | rfl | param | rfl
  · decide
  · decide
  · exact paramPlain (plain b param)
  · exact finalPlain last

theorem repliesPlain {bytes : Bytes} (replies : Replies bytes) :
    bytes.any (fun b => b == 13 || b == 10) = false := by
  obtain ⟨replies,_,each,rfl⟩ := replies
  rw [List.any_eq_false]
  intro b mem
  obtain ⟨reply,inside,here⟩ := List.mem_flatten.mp mem
  obtain ⟨cr,lf⟩ := replyPlain (each reply inside) b here
  simp [cr,lf]

section replies
variable {ε ρ θ δ : Type} (look : Look ε ρ θ δ)

/-- The step does not take the user for typing on a fresh prompt. -/
def PromptKept (s : State ρ θ δ) (e : Moment ε × Event ρ θ δ) : Prop :=
  s.prompt = .prompt → (step look s e).1.prompt ≠ .typing

/-- A read on a fresh prompt brings one reply. -/
def OneReply (s : State ρ θ δ) (e : Moment ε × Event ρ θ δ) : Prop :=
  ∀ bytes, e.2 = .input bytes → s.prompt = .prompt → IsReply bytes

theorem inputTyping (m : Moment ε) {s : State ρ θ δ} (atPrompt : s.prompt = .prompt) {bytes : Bytes}
    (plain : bytes.any (fun b => b == 13 || b == 10) = false) :
    (input m s bytes).prompt = .typing ↔ ¬ IsReply bytes := by
  rw [← isTerminalReplyIff]
  unfold input
  rw [plain,if_neg Bool.false_ne_true]
  cases isTerminalReply bytes with
  | true => simp [atPrompt]
  | false => simp [atPrompt,PromptState.atPrompt]

/-- The phase, the time of the last Enter and the prompt that was announced are the same. -/
structure Timed (s s' : State ρ θ δ) : Prop where
  prompt : s'.prompt = s.prompt
  lastEnter : s'.lastEnter = s.lastEnter
  currentInfo : s'.currentInfo = s.currentInfo

def Event.moves : Event ρ θ δ → Bool
  | .header _ | .input _ | .output _ _ => true
  | _ => false

theorem stepTimed (s : State ρ θ δ) (m : Moment ε) {what : Event ρ θ δ} (still : what.moves = false) :
    Timed s (step look s (m,what)).1 := by
  cases what with
  | reload request load =>
    rcases reloadCases look m s request load with ⟨_,path,result⟩ | ⟨config,path,_,result⟩
    · simp only [step,result]
      exact ⟨rfl,rfl,rfl⟩
    · simp only [step,result]
      split <;> exact ⟨rfl,rfl,rfl⟩
  | windowChange =>
    simp only [step,windowChange]
    repeat' split
    all_goals exact ⟨rfl,rfl,rfl⟩
  | resize =>
    simp only [step,resize]
    split <;> exact ⟨rfl,rfl,rfl⟩
  | vimMode mode =>
    simp only [step,vimMode]
    split <;> exact ⟨rfl,rfl,rfl⟩
  | gitResult =>
    simp only [step,gitResult]
    split
    · exact ⟨rfl,rfl,rfl⟩
    split
    · exact ⟨rfl,rfl,rfl⟩
    split
    · split <;> exact ⟨rfl,rfl,rfl⟩
    · exact ⟨rfl,rfl,rfl⟩
  | worked i k found =>
    simp only [step,worked]
    split <;> exact ⟨rfl,rfl,rfl⟩
  | deferredPrompt =>
    simp only [step,deferredPrompt]
    repeat' split
    all_goals exact ⟨rfl,rfl,rfl⟩
  | header | input | output => cases still

theorem signalsPhase (m : Moment ε) (n : Nat) (s : State ρ θ δ) :
    (signals look m n s).1.prompt = if n = 0 then s.prompt else .prompt := by
  induction n generalizing s with
  | zero => rfl
  | succ n ih =>
    simp only [signals,ih,Nat.succ_ne_zero,if_false]
    split <;> rfl

theorem outputPhase (m : Moment ε) (count newlines : Nat) (s : State ρ θ δ) :
    (output look m s count newlines).1.prompt = if count = 0 then s.prompt else .prompt := by
  rw [← signalsPhase look m count s]
  unfold output
  dsimp only
  split <;> rfl

theorem otherTyping {s : State ρ θ δ} (m : Moment ε) {what : Event ρ θ δ} (atPrompt : s.prompt = .prompt)
    (other : ∀ bytes, what ≠ .input bytes) : (step look s (m,what)).1.prompt ≠ .typing := by
  cases what with
  | input bytes => exact absurd rfl (other bytes)
  | header info => simp [step,header]
  | output count newlines =>
    rw [step,outputPhase,atPrompt,ite_self]
    decide
  | reload | windowChange | resize | vimMode | gitResult | worked | deferredPrompt =>
    rw [(stepTimed look s m rfl).prompt,atPrompt]
    decide

theorem promptKeptIff {s : State ρ θ δ} {e : Moment ε × Event ρ θ δ}
    (answers : ∀ bytes, e.2 = .input bytes → Replies bytes) : PromptKept look s e ↔ OneReply s e := by
  obtain ⟨m,what⟩ := e
  constructor
  · intro kept bytes same atPrompt
    cases same
    by_contra several
    exact kept atPrompt ((inputTyping m atPrompt (repliesPlain (answers bytes rfl))).mpr several)
  · intro one atPrompt
    by_cases read : ∃ bytes, what = .input bytes
    · obtain ⟨bytes,rfl⟩ := read
      intro typing
      exact (inputTyping m atPrompt (repliesPlain (answers bytes rfl))).mp typing (one bytes rfl atPrompt)
    · exact otherTyping look m atPrompt (not_exists.mp read)

/-- In a run whose reads are answers of the terminal, the prompt is never taken for typing exactly
when each read on a fresh prompt brings one answer; any other read without Enter is typing. -/
theorem repliesKeepPrompt (shell : Shell) (config : Config ρ θ) (configPath : Option Bytes) (size : Size)
    (cwd : Bytes) (es : List (Moment ε × Event ρ θ δ)) :
    let s := start look shell config configPath size cwd
    ((∀ e ∈ es, ∀ bytes, e.2 = .input bytes → Replies bytes) →
      (Machine.Guarded (step look) (PromptKept look) s es ↔ Machine.Guarded (step look) OneReply s es)) ∧
    ∀ m bytes, (Machine.run (step look) s es).1.prompt = .prompt → bytes ≠ [] →
      (∀ b ∈ bytes, b ≠ 13 ∧ b ≠ 10) → ¬ Replies bytes →
      (step look (Machine.run (step look) s es).1 (m,.input bytes)).1.prompt = .typing := by
  refine ⟨fun answers => ?_,fun m bytes atPrompt _ plain keys => ?_⟩
  · generalize start look shell config configPath size cwd = s
    induction es generalizing s with
    | nil => exact Iff.rfl
    | cons e es ih =>
      have first := promptKeptIff look (s := s) (answers e List.mem_cons_self)
      exact and_congr first (ih (fun f mem => answers f (List.mem_cons_of_mem e mem)) _)
  · refine (inputTyping m atPrompt ?_).mpr fun reply => keys ⟨[bytes],by simp,by simpa using reply,by simp⟩
    rw [List.any_eq_false]
    intro b mem
    simp [plain b mem]

end replies

theorem replyRead {bytes : Bytes} (reply : IsReply bytes) : Replies bytes :=
  ⟨[bytes],by simp,by simpa using reply,by simp⟩

theorem repliesStart {bytes : Bytes} (replies : Replies bytes) : bytes.head? = some 27 := by
  obtain ⟨replies,some',each,rfl⟩ := replies
  cases replies with
  | nil => exact absurd rfl some'
  | cons reply rest =>
    obtain ⟨params,final,rfl,_⟩ := each reply List.mem_cons_self
    rfl

def fresh : State Unit Unit Unit := start oneLook .zsh oneTheme none ⟨24,80,0,0⟩ [104]

/-- A cursor position, then a focus event, each in a read of its own. -/
def answersApart : List (Moment Unit × Event Unit Unit Unit) :=
  [(quietMoment,.output 1 0),(quietMoment,.input [27,91,50,52,59,49,82]),(quietMoment,.input [27,91,73])]

theorem cursorReply : IsReply [27,91,50,52,59,49,82] := ⟨[50,52,59,49],82,rfl,by simp [isParam],rfl⟩

theorem focusIn : IsReply [27,91,73] := ⟨[],73,rfl,by simp,rfl⟩

theorem focusOut : IsReply [27,91,79] := ⟨[],79,rfl,by simp,rfl⟩

theorem answersApartKept :
    Machine.Guarded (step oneLook) (PromptKept oneLook) fresh answersApart ∧
    (step oneLook (Machine.run (step oneLook) fresh answersApart).1 (quietMoment,.input [97])).1.prompt = .typing := by
  obtain ⟨kept,typed⟩ := repliesKeepPrompt oneLook .zsh oneTheme none ⟨24,80,0,0⟩ [104] answersApart
  refine ⟨(kept ?_).mpr ?_,typed quietMoment [97] (by decide) (by decide) (by simp) fun keys => ?_⟩
  · simp only [answersApart,List.forall_mem_cons]
    refine ⟨nofun,fun bytes same => ?_,fun bytes same => ?_,nofun⟩ <;> cases same
    · exact replyRead cursorReply
    · exact replyRead focusIn
  · refine ⟨nofun,fun bytes same _ => ?_,fun bytes same _ => ?_,trivial⟩ <;> cases same
    · exact cursorReply
    · exact focusIn
  · exact absurd (repliesStart keys) (by decide)

/-- Focus out and focus in before one read. -/
theorem focusTwiceTyped :
    ¬ ∀ es : List (Moment Unit × Event Unit Unit Unit),
      (∀ e ∈ es, ∀ bytes, e.2 = .input bytes → Replies bytes) →
      Machine.Guarded (step oneLook) (PromptKept oneLook) fresh es := by
  intro kept
  have both : Replies [27,91,79,27,91,73] :=
    ⟨[[27,91,79],[27,91,73]],by simp,by simpa using ⟨focusOut,focusIn⟩,rfl⟩
  have bad := (kept [(quietMoment,.output 1 0),(quietMoment,.input [27,91,79,27,91,73])] ?_).2.1
  · exact bad (by decide) (by decide)
  · simp only [List.forall_mem_cons]
    refine ⟨nofun,fun bytes same => ?_,nofun⟩
    cases same
    exact both

end P11k.Engine
