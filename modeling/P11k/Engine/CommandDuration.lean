import P11k.Engine.TerminalReplies

/-! How long the last command ran. The loop keeps the time of the last Enter, and the programs that
run in the terminal are sent an Enter as well. -/
namespace P11k.Engine
open Gitstatus (Bytes)

def hasEnter (bytes : Bytes) : Bool := bytes.any (fun b => b == 13 || b == 10)

/-- Beside the loop, since the last header: when an Enter took it out of the prompt, and whether
the last Enter was one for a program that was running. -/
structure Timing (ρ θ δ : Type) where
  engine : State ρ θ δ
  started : Option Nat
  stray : Bool

section timing
variable {ε ρ θ δ : Type} (look : Look ε ρ θ δ)

def timingStep (s : Timing ρ θ δ) (e : Moment ε × Event ρ θ δ) : Timing ρ θ δ × List (Output δ) :=
  let r := step look s.engine e
  (match e.2 with
    | .header _ => ⟨r.1,none,false⟩
    | .input bytes =>
        if hasEnter bytes then
          if s.engine.prompt.atPrompt then ⟨r.1,some e.1.now,false⟩ else ⟨r.1,s.started,true⟩
        else { s with engine := r.1 }
    | _ => { s with engine := r.1 },r.2)

def timingStart (shell : Shell) (config : Config ρ θ) (configPath : Option Bytes) (size : Size)
    (cwd : Bytes) : Timing ρ θ δ :=
  ⟨start look shell config configPath size cwd,none,false⟩

def sinceStart (s : Timing ρ θ δ) (now : Nat) : Nat := s.started.elim 0 (now - ·)

/-- A header reports the time since the Enter that started the command. -/
def Measured (s : Timing ρ θ δ) (e : Moment ε × Event ρ θ δ) : Prop :=
  ∀ info, e.2 = .header info →
    (step look s.engine e).1.currentInfo = some { info with execMillis := sinceStart s e.1.now }

/-- At a header, the last Enter was one that the prompt got. -/
def PressedAtPrompt (s : Timing ρ θ δ) (e : Moment ε × Event ρ θ δ) : Prop :=
  ∀ info, e.2 = .header info → s.stray = false

theorem headerReports (m : Moment ε) (s : State ρ θ δ) (info : HeaderInfo) :
    (step look s (m,.header info)).1.currentInfo =
      some { info with execMillis := s.lastEnter.elim 0 (m.now - ·) } := rfl

theorem measuredIff (s : Timing ρ θ δ) (m : Moment ε) (info : HeaderInfo) :
    Measured look s (m,.header info) ↔ s.engine.lastEnter.elim 0 (m.now - ·) = sinceStart s m.now := by
  constructor
  · intro measured
    have reported := measured info rfl
    rw [headerReports,Option.some.injEq] at reported
    exact congrArg HeaderInfo.execMillis reported
  · intro same info' here
    cases here
    rw [headerReports,same]

theorem signalsTimes (m : Moment ε) (n : Nat) (s : State ρ θ δ) :
    (signals look m n s).1.lastEnter = s.lastEnter := by
  induction n generalizing s with
  | zero => rfl
  | succ n ih => exact ih (signal look m s).1

theorem outputTimes (m : Moment ε) (count newlines : Nat) (s : State ρ θ δ) :
    (output look m s count newlines).1.lastEnter = s.lastEnter := by
  rw [← signalsTimes look m count s]
  unfold output
  dsimp only
  split <;> rfl

theorem inputTimes (m : Moment ε) (s : State ρ θ δ) (bytes : Bytes) :
    (input m s bytes).lastEnter = if hasEnter bytes then some m.now else s.lastEnter := by
  unfold input hasEnter
  split
  · rfl
  · split <;> rfl

theorem timingCases (s : Timing ρ θ δ) (e : Moment ε × Event ρ θ δ) :
    let s' := (timingStep look s e).1
    (s'.engine.lastEnter = none ∧ s'.started = none ∧ s'.stray = false) ∨
    (s'.engine.lastEnter = some e.1.now ∧ s'.started = some e.1.now ∧ s'.stray = false) ∨
    (s'.engine.lastEnter = some e.1.now ∧ s'.started = s.started ∧ s'.stray = true) ∨
    (s'.engine.lastEnter = s.engine.lastEnter ∧ s'.started = s.started ∧ s'.stray = s.stray) := by
  obtain ⟨m,what⟩ := e
  cases what with
  | header info => exact .inl ⟨rfl,rfl,rfl⟩
  | input bytes =>
    have times := inputTimes m s.engine bytes
    simp only [timingStep,step]
    split
    · rename_i enter
      rw [if_pos enter] at times
      split
      · exact .inr (.inl ⟨times,rfl,rfl⟩)
      · exact .inr (.inr (.inl ⟨times,rfl,rfl⟩))
    · rename_i enter
      rw [if_neg enter] at times
      exact .inr (.inr (.inr ⟨times,rfl,rfl⟩))
  | output count newlines => exact .inr (.inr (.inr ⟨outputTimes look m count newlines s.engine,rfl,rfl⟩))
  | reload | windowChange | resize | vimMode | gitResult | worked | deferredPrompt =>
    exact .inr (.inr (.inr ⟨(stepTimed look s.engine m rfl).lastEnter,rfl,rfl⟩))

/-- The loop has the right time unless a program got the last Enter. -/
def InTime (s : Timing ρ θ δ) : Prop := s.stray = false → s.engine.lastEnter = s.started

theorem inTimeStep (s : Timing ρ θ δ) (e : Moment ε × Event ρ θ δ) (inTime : InTime s) :
    InTime (timingStep look s e).1 := by
  intro calm
  rcases timingCases look s e with ⟨last,started,_⟩ | ⟨last,started,_⟩ | ⟨_,_,stray⟩ | ⟨last,started,stray⟩
  · rw [last,started]
  · rw [last,started]
  · rw [stray] at calm
    contradiction
  · rw [last,started]
    exact inTime (stray.symm.trans calm)

theorem inTimeMeasured {s : Timing ρ θ δ} {e : Moment ε × Event ρ θ δ} (inTime : InTime s)
    (pressed : PressedAtPrompt s e) : Measured look s e := by
  obtain ⟨m,what⟩ := e
  intro info here
  cases here
  refine (measuredIff look s m info).mpr ?_ info rfl
  rw [inTime (pressed info rfl),sinceStart]

/-- When the clock has moved on: an Enter for a program came after the one that started it. -/
structure Late (s : Timing ρ θ δ) (now : Nat) : Prop where
  past : ∀ t, s.engine.lastEnter = some t → t < now
  begun : ∀ u, s.started = some u → u < now
  after : s.stray = true → ∃ t, s.engine.lastEnter = some t ∧ ∀ u, s.started = some u → u < t

theorem lateStep {s : Timing ρ θ δ} {e : Moment ε × Event ρ θ δ} (late : Late s e.1.now) {now : Nat}
    (next : e.1.now < now) : Late (timingStep look s e).1 now := by
  rcases timingCases look s e with ⟨last,started,stray⟩ | ⟨last,started,stray⟩ | ⟨last,started,stray⟩ |
    ⟨last,started,stray⟩
  · refine ⟨?_,?_,?_⟩ <;> simp [last,started,stray]
  · refine ⟨?_,?_,?_⟩ <;> simp [last,started,stray,next]
  · refine ⟨by simp [last,next],fun u begun => ?_,fun _ => ⟨_,last,fun u begun => ?_⟩⟩
    · exact (late.begun u (started ▸ begun)).trans next
    · exact late.begun u (started ▸ begun)
  · refine ⟨fun t at' => (late.past t (last ▸ at')).trans next,
      fun u begun => (late.begun u (started ▸ begun)).trans next,fun calm => ?_⟩
    rw [last,started]
    exact late.after (stray ▸ calm)

theorem lateMismatch {s : Timing ρ θ δ} {m : Moment ε} (late : Late s m.now) (stray : s.stray = true)
    (info : HeaderInfo) : ¬ Measured look s (m,.header info) := by
  rw [measuredIff]
  obtain ⟨t,last,after⟩ := late.after stray
  have past := late.past t last
  rw [last,sinceStart,Option.elim_some]
  cases started : s.started with
  | none =>
    rw [Option.elim_none]
    omega
  | some u =>
    have before := after u started
    rw [Option.elim_some]
    omega

theorem measuredPressed {s : Timing ρ θ δ} {es : List (Moment ε × Event ρ θ δ)}
    (clock : es.Pairwise (fun a b => a.1.now < b.1.now)) (late : ∀ e ∈ es.head?, Late s e.1.now)
    (measured : Machine.Guarded (timingStep look) (Measured look) s es) :
    Machine.Guarded (timingStep look) PressedAtPrompt s es := by
  induction es generalizing s with
  | nil => trivial
  | cons e es ih =>
    have now := late e rfl
    refine ⟨fun info here => ?_,ih clock.of_cons (fun f first => ?_) measured.2⟩
    · obtain ⟨m,what⟩ := e
      cases here
      by_contra stray
      exact lateMismatch look now (by simpa using stray) info measured.1
    · exact lateStep look now (List.rel_of_pairwise_cons clock (List.mem_of_mem_head? first))

/-- Every header reports the time of its command in a run where each header finds the last Enter to
be one that the prompt got; while the clock moves on, in no other run. -/
theorem durationsMeasured (shell : Shell) (config : Config ρ θ) (configPath : Option Bytes) (size : Size)
    (cwd : Bytes) (es : List (Moment ε × Event ρ θ δ)) :
    let s := timingStart look shell config configPath size cwd
    (Machine.Guarded (timingStep look) PressedAtPrompt s es →
      Machine.Guarded (timingStep look) (Measured look) s es) ∧
    (es.Pairwise (fun a b => a.1.now < b.1.now) →
      (Machine.Guarded (timingStep look) (Measured look) s es ↔
        Machine.Guarded (timingStep look) PressedAtPrompt s es)) := by
  have right : Machine.Guarded (timingStep look) PressedAtPrompt
      (timingStart look shell config configPath size cwd) es →
      Machine.Guarded (timingStep look) (Measured look) (timingStart look shell config configPath size cwd) es :=
    Machine.guardedStep (fun s e inTime pressed => ⟨inTimeStep look s e inTime,inTimeMeasured look inTime pressed⟩)
      (fun _ => rfl)
  refine ⟨right,fun clock => ⟨measuredPressed look clock fun e _ => ?_,right⟩⟩
  exact ⟨nofun,nofun,nofun⟩

end timing

def atMoment (now : Nat) : Moment Unit := ⟨now,none,()⟩

def answered : HeaderInfo := ⟨some 0,[104],0,0,0,[]⟩

/-- A prompt at 0, an Enter at 5 and the next header at 9. -/
def oneCommand : List (Moment Unit × Event Unit Unit Unit) :=
  [(atMoment 0,.output 1 0),(atMoment 5,.input [13]),(atMoment 9,.header answered)]

def oneSession : Timing Unit Unit Unit := timingStart oneLook .zsh oneTheme none ⟨24,80,0,0⟩ [104]

theorem oneCommandMeasured :
    Machine.Guarded (timingStep oneLook) (Measured oneLook) oneSession oneCommand ∧
    (Machine.Guarded (timingStep oneLook) (Measured oneLook) oneSession oneCommand ↔
      Machine.Guarded (timingStep oneLook) PressedAtPrompt oneSession oneCommand) ∧
    (Machine.run (timingStep oneLook) oneSession oneCommand).1.engine.currentInfo =
      some ⟨some 0,[104],4,0,0,[]⟩ := by
  obtain ⟨right,exact'⟩ := durationsMeasured oneLook .zsh oneTheme none ⟨24,80,0,0⟩ [104] oneCommand
  have pressed : Machine.Guarded (timingStep oneLook) PressedAtPrompt oneSession oneCommand :=
    ⟨nofun,nofun,fun _ _ => by decide,trivial⟩
  exact ⟨right pressed,exact' (by decide),by decide⟩

/-- The program that the Enter at 5 started reads an Enter of its own at 8. -/
theorem strayEnterReported :
    ¬ ∀ es : List (Moment Unit × Event Unit Unit Unit),
      Machine.Guarded (timingStep oneLook) (Measured oneLook) oneSession es := by
  intro measured
  have last := (measured [(atMoment 0,.output 1 0),(atMoment 5,.input [13]),(atMoment 8,.input [13]),
    (atMoment 9,.header answered)]).2.2.2.1 answered rfl
  exact absurd last (by decide)

end P11k.Engine
