import P11k.Engine.Status

/-! Which rows a redraw covers. An ack tells the shell how many rows to keep free for the
header; a redraw covers as many rows as the theme has at that moment. A reload in between can
make the two differ. -/
namespace P11k.Engine
open Gitstatus (Bytes)

section reserved
variable {ε ρ θ δ : Type} (look : Look ε ρ θ δ)

def ackedRows (reserved : Option Nat) : Output δ → Option Nat
  | .ack rows _ _ => some rows
  | _ => reserved

/-- A paint moves up over the acked rows and writes as many lines. -/
def CoversReserved (reserved : Option Nat) : Output δ → Prop
  | .paint p => ∀ rows ∈ reserved, p.up = rows ∧ p.lines.length = rows
  | _ => True

def Fits (s : State ρ θ δ) : Prop := ∀ rows ∈ s.reserved, s.geometry.headerRows = rows

def Themed (_ : State ρ θ δ) (e : Moment ε × Event ρ θ δ) : Prop :=
  match e.2 with
  | .reload _ load => ∀ path config, load path = some config → 1 ≤ headerRows config
  | _ => True

structure Laid (s : State ρ θ δ) (reserved : Option Nat) : Prop where
  monitor : reserved = s.reserved
  geometry : s.geometry.headerRows = headerRows s.config
  some' : 1 ≤ headerRows s.config

theorem redrawNoAck (m : Moment ε) (s : State ρ θ δ) (info : HeaderInfo) (vcs : Option (GitStatus δ)) :
    ∀ o ∈ (redraw look m s info vcs).2, isAck o = false := by
  intro o mem
  obtain ⟨p,_,rfl⟩ : ∃ p, _ ∧ Output.paint p = o := by simpa [redraw] using mem
  rfl

theorem signalsNoAck (m : Moment ε) (n : Nat) (s : State ρ θ δ) :
    ∀ o ∈ (signals look m n s).2, isAck o = false := by
  induction n generalizing s with
  | zero => simp [signals]
  | succ n ih =>
    intro o mem
    rcases List.mem_append.mp mem with first | later
    · rcases List.mem_append.mp first with before | painted
      · exact (beforePaintQuiet s o before).2
      · exact redrawNoAck look m _ _ _ o painted
    · exact ih _ o later

theorem stepNoAck (s : State ρ θ δ) (m : Moment ε) {what : Event ρ θ δ} (other : ∀ info, what ≠ .header info) :
    (∀ o ∈ (step look s (m,what)).2, isAck o = false) ∧ (step look s (m,what)).1.reserved = s.reserved := by
  cases what with
  | reload request load =>
    rcases reloadCases look m s request load with ⟨_,path,result⟩ | ⟨config,path,_,result⟩
    · simp [step,result]
    · simp only [step,result]
      split
      · exact ⟨redrawNoAck look m _ _ _,rfl⟩
      · exact ⟨by simp,rfl⟩
  | windowChange =>
    simp only [step,windowChange]
    repeat' split
    all_goals simp [isAck]
  | header info => exact absurd rfl (other info)
  | resize =>
    simp only [step,resize]
    split
    · exact ⟨redrawNoAck look m { syncSize m s with lastHeader := none } (shownInfo (syncSize m s))
        (lastStatus (syncSize m s)),rfl⟩
    · exact ⟨by simp,rfl⟩
  | vimMode mode =>
    simp only [step,vimMode]
    split
    · exact ⟨redrawNoAck look m _ _ _,rfl⟩
    · exact ⟨by simp,rfl⟩
  | input bytes =>
    simp only [step,input]
    repeat' split
    all_goals simp
  | output count newlines =>
    exact ⟨signalsNoAck look m count s,(screenUntouched look s m rfl).reserved⟩
  | gitResult =>
    simp only [step,gitResult]
    repeat' split
    all_goals first | exact ⟨redrawNoAck look m _ _ _,rfl⟩ | exact ⟨by simp,rfl⟩
  | worked i k found =>
    simp only [step,worked]
    split <;> simp
  | deferredPrompt =>
    simp only [step,deferredPrompt]
    repeat' split
    all_goals simp [isAck]

theorem stepTheme (s : State ρ θ δ) (m : Moment ε) (what : Event ρ θ δ) :
    ((step look s (m,what)).1.config = s.config ∧ (step look s (m,what)).1.geometry = s.geometry) ∨
    ∃ request load config, what = .reload request load ∧ loaded s request load = some config ∧
      (step look s (m,what)).1.config = config ∧
      (step look s (m,what)).1.geometry.headerRows = headerRows config := by
  cases what with
  | reload request load =>
    rcases reloadCases look m s request load with ⟨_,path,result⟩ | ⟨config,path,found,result⟩
    · simp [step,result]
    · right
      refine ⟨request,load,config,rfl,found,?_⟩
      simp only [step,result]
      split <;> exact ⟨rfl,rfl⟩
  | header info => exact .inl ⟨rfl,rfl⟩
  | gitResult =>
    simp only [step,gitResult]
    repeat' split
    all_goals exact .inl ⟨rfl,rfl⟩
  | worked i k found =>
    simp only [step,worked]
    split <;> exact .inl ⟨rfl,rfl⟩
  | windowChange | resize | vimMode | input | output | deferredPrompt =>
    exact .inl ⟨(screenUntouched look s m rfl).config,(screenUntouched look s m rfl).geometry⟩

theorem laidStep {s : State ρ θ δ} {reserved : Option Nat} {e : Moment ε × Event ρ θ δ}
    (laid : Laid s reserved) (themed : Themed s e) :
    Laid (step look s e).1 ((step look s e).2.foldl ackedRows reserved) := by
  obtain ⟨m,what⟩ := e
  have theme : (step look s (m,what)).1.geometry.headerRows = headerRows (step look s (m,what)).1.config ∧
      1 ≤ headerRows (step look s (m,what)).1.config := by
    rcases stepTheme look s m what with ⟨config,geometry⟩ | ⟨request,load,config,rfl,found,same,rows⟩
    · rw [config,geometry]
      exact ⟨laid.geometry,laid.some'⟩
    · rw [same,rows]
      obtain ⟨path,_,opened⟩ := Option.bind_eq_some_iff.mp found
      obtain ⟨file,_,parsed⟩ := Option.bind_eq_some_iff.mp opened
      exact ⟨rfl,themed file config parsed⟩
  refine ⟨?_,theme.1,theme.2⟩
  by_cases header : ∃ info, what = .header info
  · obtain ⟨info,rfl⟩ := header
    simp only [step,header,List.foldl_append]
    rfl
  · obtain ⟨noAck,same⟩ := stepNoAck look s m (fun info eq => header ⟨info,eq⟩)
    rw [same,← laid.monitor]
    have still : ∀ o ∈ (step look s (m,what)).2, ackedRows reserved o = reserved := by
      intro o mem
      cases o with
      | ack rows told fold => exact absurd (noAck _ mem) (by simp [isAck])
      | _ => rfl
    exact (@Machine.watchedStill _ _ ackedRows (fun _ _ => True) _ _ still).2

theorem rowsKept {s : State ρ θ δ} {reserved : Option Nat} {e : Moment ε × Event ρ θ δ}
    (laid : Laid s reserved) (paints : Repaints look s e ∨ FillsIn look s e) :
    headerRows (step look s e).1.config = s.geometry.headerRows := by
  obtain ⟨m,what⟩ := e
  rcases stepTheme look s m what with ⟨config,_⟩ | ⟨request,load,config,rfl,found,same,_⟩
  · rw [config,laid.geometry]
  · rcases paints with ⟨_,config',found',rows⟩ | fills
    · cases found.symm.trans found'
      rw [same,rows]
    · exact fills.elim

theorem stepCovers {s : State ρ θ δ} {reserved : Option Nat} {e : Moment ε × Event ρ θ δ}
    (laid : Laid s reserved) :
    Machine.Watched ackedRows CoversReserved reserved (step look s e).2 ↔
      (Repaints look s e ∨ FillsIn look s e → Fits s) := by
  by_cases paints : Repaints look s e ∨ FillsIn look s e
  · obtain ⟨m,what⟩ := e
    have other : ∀ info, what ≠ .header info := by
      rintro info rfl
      exact paints.elim (·.2.elim) (·.elim)
    have still : ∀ o ∈ (step look s (m,what)).2, ackedRows reserved o = reserved := by
      intro o mem
      have noAck := (stepNoAck look s m other).1 o mem
      cases o with
      | ack rows told fold => contradiction
      | _ => rfl
    have rows := rowsKept look laid paints
    have atLeast : max s.geometry.headerRows 1 = s.geometry.headerRows :=
      Nat.max_eq_left (laid.geometry ▸ laid.some')
    obtain ⟨each,some'⟩ := stepPaints look s (m,what)
    simp only [rows,atLeast] at each
    rw [(Machine.watchedStill still).1]
    constructor
    · intro covers _
      obtain ⟨p,mem⟩ := some' paints
      rcases each _ mem with quiet | ⟨q,same,lines,up,_⟩
      · contradiction
      · cases same
        intro r acked
        rw [← lines]
        exact (covers _ mem r (laid.monitor ▸ acked)).2
    · intro fits o mem
      rcases each o mem with quiet | ⟨p,rfl,lines,up,_⟩
      · cases o with
        | paint p => contradiction
        | _ => trivial
      · intro r acked
        have same := fits paints r (laid.monitor ▸ acked)
        exact ⟨up.trans same,lines.trans same⟩
  · obtain ⟨still,empty⟩ := not_or.mp paints
    refine iff_of_true (Machine.watchedAlways (fun o mem v => ?_) reserved) (absurd · paints)
    have quiet := quietStep look still empty o mem
    cases o with
    | paint p => contradiction
    | _ => trivial

/-- In a run over themes with a header, every redraw covers exactly the rows of the last ack when
the theme in use at each redraw has as many rows as that ack reserved, and only then. -/
theorem redrawsReservedIff (shell : Shell) (config : Config ρ θ) (configPath : Option Bytes)
    (size : Size) (cwd : Bytes) (events : List (Moment ε × Event ρ θ δ))
    (some' : 1 ≤ headerRows config)
    (themed : Machine.Guarded (step look) Themed (start look shell config configPath size cwd) events) :
    Machine.Watched ackedRows CoversReserved none
        (Machine.run (step look) (start look shell config configPath size cwd) events).2 ↔
      Machine.Guarded (step look) (fun s e => Repaints look s e ∨ FillsIn look s e → Fits s)
        (start look shell config configPath size cwd) events :=
  Machine.runWatchedIff (I := Laid) (fun _ _ _ laid _ => stepCovers look laid)
    (fun _ _ _ laid fits => laidStep look laid fits) ⟨rfl,rfl,some'⟩ themed

end reserved

theorem redrawsReservedAtPrompt : Machine.Watched ackedRows CoversReserved none
    (Machine.run (step plainLook) plainStart (promptIn [97])).2 :=
  (redrawsReservedIff plainLook .zsh oneRow none terminal [104] (promptIn [97]) (by decide)
    ⟨trivial,trivial,trivial⟩).mpr
    ⟨fun paints => paints.elim (·.2.elim) (·.elim),
      fun _ rows acked => by cases acked; rfl,trivial⟩

def twoRows : Config Unit Unit := ⟨⟨[(),()],[],false,0,.off⟩,()⟩

/-- A prompt with one row, a reload to a theme with two, and a change of the editing mode. -/
def grownTheme : List (Moment Unit × Event Unit Unit Bytes) :=
  promptIn [97] ++ [(quietMoment,.reload (some (some [116])) (fun _ => some twoRows)),
    (quietMoment,.vimMode [118])]

theorem grownThemeOverwrites :
    Machine.Guarded (step plainLook) Themed plainStart grownTheme ∧
    ¬ Machine.Watched ackedRows CoversReserved none
      (Machine.run (step plainLook) plainStart grownTheme).2 := by
  have written : (Machine.run (step plainLook) plainStart grownTheme).2 =
      [.promptStart,.ack 1 [] false,.stepUp,.paint ⟨1,[[97]],⟨some 0,[97],0,0,0,[]⟩,none⟩,
        .paint ⟨2,[[97],[97]],⟨some 0,[97],0,0,0,[]⟩,none⟩] := by decide
  constructor
  · refine ⟨trivial,trivial,fun _ _ same => ?_,trivial,trivial⟩
    cases same
    decide
  · rw [written]
    simp [Machine.Watched,ackedRows,CoversReserved]

end P11k.Engine
