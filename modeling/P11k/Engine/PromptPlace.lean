import P11k.Engine.PromptWindow

/-! Where a prompt stands. The shell prints the rows that the ack told it and then the signal; from then on the
engine writes into these rows only, and what stood above them stays. -/
namespace P11k.Engine
open Gitstatus (Bytes)
open Screen (newline feed fill fallen)

def newlines (n : Nat) : List Char := (List.replicate n newline).flatten

/-- What a shell sends for a prompt string up to the signal. -/
def lead (shell : Shell) (rows : Nat) : List Char :=
  match shell with
  | .zsh | .pwsh => newlines rows
  | .bash => '\r' :: newlines rows
  -- without an argument `printf` prints its format once
  | .fish => '\r' :: newlines (max rows 1)

section place
variable {charWidth : Char → Nat}

theorem feedLead {s : Screen} (ground : s.mode = .ground) (inside : s.row < s.height) {rows : Nat} (some' : 1 ≤ rows)
    (shell : Shell) : feed charWidth s (lead shell rows) = fallen s rows := by
  have plain : feed charWidth s (newlines rows) = fallen s rows := Screen.feedNewlines ground inside rows
  have returned : feed charWidth s ('\r' :: newlines rows) = fallen s rows := by
    have returns : feed charWidth s ('\r' :: newlines rows) = feed charWidth (feed charWidth s ['\r']) (newlines rows) :=
      rfl
    have falls : feed charWidth (Screen.carriageReturn s) (newlines rows) = fallen (Screen.carriageReturn s) rows :=
      Screen.feedNewlines (s := Screen.carriageReturn s) ground inside rows
    rw [returns,Screen.feedReturn _ ground,falls]
    simp only [fallen,Screen.carriageReturn,if_neg (Nat.ne_of_gt some')]
  cases shell with
  | zsh => exact plain
  | pwsh => exact plain
  | bash => exact returned
  | fish =>
    rw [lead,Nat.max_eq_left some']
    exact returned

variable {ε ρ θ δ : Type} (look : Look ε ρ θ δ)

/-! Events that draw nothing while a command runs. -/

def waits : Happening ρ θ δ → Bool
  | .loop (.header _) | .loop .deferredPrompt | .loop .windowChange | .reflow _ => false
  | .loop (.output signals _) => signals == 0
  | _ => true

def written (happenings : List (Moment ε × Happening ρ θ δ)) : List Char :=
  happenings.flatMap fun h => match h.2 with
    | .shell text => text
    | _ => []

structure SamePhase (s t : State ρ θ δ) : Prop where
  running : t.prompt = .running
  shell : t.shell = s.shell
  instant : t.instantDrawn = s.instantDrawn
  extra : t.resizeExtraRows = s.resizeExtraRows
  reserved : t.reserved = s.reserved

theorem waitsQuiet {s : State ρ θ δ} (running : s.prompt = .running) (m : Moment ε) {what : Event ρ θ δ}
    (still : waits (.loop what) = true) :
    (step look s (m,what)).2 = [] ∧ SamePhase s (step look s (m,what)).1 := by
  have away : s.prompt.atPrompt = false := by rw [running]; rfl
  cases what with
  | reload request load =>
    rcases reloadCases look m s request load with ⟨_,path,result⟩ | ⟨config,path,_,result⟩
    · have quiet : step look s (m,.reload request load) = ({ s with configPath := path },[]) := result
      rw [quiet]
      exact ⟨rfl,running,rfl,rfl,rfl,rfl⟩
    · simp only [step,result,away,Bool.false_and,Bool.false_eq_true,if_false]
      exact ⟨trivial,running,rfl,rfl,rfl,rfl⟩
  | resize =>
    have quiet : step look s (m,.resize) = (syncSize m s,[]) := if_neg (by simp [syncSize,away])
    rw [quiet]
    exact ⟨rfl,running,rfl,rfl,rfl,rfl⟩
  | vimMode mode =>
    have quiet : step look s (m,.vimMode mode) = ({ syncSize m s with viMode := mode },[]) :=
      if_neg (by simp [syncSize,away])
    rw [quiet]
    exact ⟨rfl,running,rfl,rfl,rfl,rfl⟩
  | input bytes =>
    refine ⟨rfl,?_⟩
    simp only [step,input,away,Bool.and_false,Bool.false_eq_true,if_false]
    split
    · exact ⟨rfl,rfl,rfl,rfl,rfl⟩
    · exact ⟨running,rfl,rfl,rfl,rfl⟩
  | output count newlines =>
    obtain rfl : count = 0 := eq_of_beq still
    obtain ⟨k,same⟩ := outputNone look m s newlines
    rw [same]
    exact ⟨rfl,running,rfl,rfl,rfl,rfl⟩
  | gitResult =>
    simp only [step,gitResult]
    repeat' split
    all_goals first | exact ⟨rfl,running,rfl,rfl,rfl,rfl⟩ | (rename_i typed; exact absurd typed (by simp [away]))
  | worked i k found =>
    refine ⟨rfl,?_⟩
    simp only [step,worked]
    split <;> exact ⟨running,rfl,rfl,rfl,rfl⟩
  | header | windowChange | deferredPrompt => cases still

variable (charWidth) in
theorem waitsRun {w : Window ρ θ δ} (running : w.loop.prompt = .running)
    {middle : List (Moment ε × Happening ρ θ δ)} (still : ∀ h ∈ middle, waits h.2 = true) :
    let after := (Machine.run (windowStep charWidth (step look)) w middle).1
    SamePhase w.loop after.loop ∧ after.screen = feed charWidth w.screen (written middle) := by
  induction middle generalizing w with
  | nil => exact ⟨⟨running,rfl,rfl,rfl,rfl⟩,rfl⟩
  | cons h middle ih =>
    obtain ⟨m,what⟩ := h
    have first : SamePhase w.loop (windowStep charWidth (step look) w (m,what)).1.loop ∧
        (windowStep charWidth (step look) w (m,what)).1.screen = feed charWidth w.screen (written [(m,what)]) := by
      have here := still (m,what) List.mem_cons_self
      cases what with
      | loop e =>
        obtain ⟨none',phase⟩ := waitsQuiet look running m here
        simp only [windowStep,none']
        exact ⟨phase,rfl⟩
      | shell text =>
        have only : written [((m,.shell text) : Moment ε × Happening ρ θ δ)] = text := List.append_nil text
        rw [only]
        exact ⟨⟨running,rfl,rfl,rfl,rfl⟩,rfl⟩
      | reflow screen => cases here
    obtain ⟨phase,screen⟩ := ih first.1.running fun h mem => still h (List.mem_cons_of_mem _ mem)
    have text : written ((m,what) :: middle) = written [(m,what)] ++ written middle := by
      simp only [written,List.flatMap_cons,List.flatMap_nil,List.append_nil]
    refine ⟨⟨phase.running,phase.shell.trans first.1.shell,phase.instant.trans first.1.instant,
      phase.extra.trans first.1.extra,phase.reserved.trans first.1.reserved⟩,?_⟩
    rw [Machine.run,screen,first.2,text,Screen.feedAppend]

/-! The announcement and the signal. -/

theorem blanksFeed (n : Nat) (s : Screen) :
    (List.replicate n (.blankRow : Output δ)).foldl (emit charWidth) s = feed charWidth s (newlines n) := by
  induction n generalizing s with
  | zero => rfl
  | succ n ih =>
    have one : emit charWidth s (.blankRow : Output δ) = feed charWidth s newline := by
      rw [emit,Output.text,Utf8.decodeEncode]
    have more : newlines (n + 1) = newline ++ newlines n := by
      rw [newlines,List.replicate_succ,List.flatten_cons,newlines]
    rw [List.replicate_succ,List.foldl_cons,ih,one,more,Screen.feedAppend]

variable (charWidth) in
theorem headerScreen {w : Window ρ θ δ} (ground : w.screen.mode = .ground) (inside : w.screen.row < w.screen.height)
    (m : Moment ε) (info : HeaderInfo) :
    (windowStep charWidth (step look) w (m,.loop (.header info))).1.screen =
      fallen w.screen (if w.loop.instantDrawn then 0 else w.loop.config.layout.promptAddNewline) := by
  let blanks := if w.loop.instantDrawn then 0 else w.loop.config.layout.promptAddNewline
  have falls : feed charWidth w.screen (newlines blanks) = fallen w.screen blanks :=
    Screen.feedNewlines ground inside blanks
  have same : (if w.loop.instantDrawn then [] else List.replicate w.loop.config.layout.promptAddNewline .blankRow) =
      List.replicate blanks (.blankRow : Output δ) := by
    simp only [blanks]
    split <;> rfl
  obtain ⟨rows,told,fold,outputs⟩ : ∃ rows told fold, (step look w.loop (m,.header info)).2 =
      List.replicate blanks .blankRow ++ [.promptStart,.ack rows told fold] :=
    ⟨_,_,_,congrArg (· ++ _) same⟩
  have starts : emit charWidth (fallen w.screen blanks) (.promptStart : Output δ) = fallen w.screen blanks :=
    feedPromptStart (s := fallen w.screen blanks) ground
  have acks : emit charWidth (fallen w.screen blanks) (.ack rows told fold : Output δ) = fallen w.screen blanks := rfl
  simp only [windowStep,outputs,List.foldl_append,blanksFeed,falls,List.foldl_cons,List.foldl_nil,starts,acks]
  rfl

theorem signalOutputs (m : Moment ε) {s : State ρ θ δ} (drawn : s.instantDrawn = false) (extra : s.resizeExtraRows = 0)
    (newlines : Nat) : ∃ p, (step look s (m,.output 1 newlines)).2 = [.paint p] ∧
      p.lines.length = headerRows s.config ∧ p.up = max (headerRows s.config) 1 := by
  obtain ⟨p,outputs,_,_,rows,up⟩ := signalPaints look m s
  have before : beforePaint s = [] := by simp [beforePaint,drawn,extra]
  refine ⟨p,?_,rows,up⟩
  rw [before] at outputs
  exact (List.append_nil _).trans outputs

/-! From the signal on. -/

variable (charWidth) in
/-- An event of a prompt that is up; the rows that a redraw covers are those of the last ack. -/
def AtPrompt (w : Window ρ θ δ) (h : Moment ε × Happening ρ θ δ) : Prop :=
  w.loop.prompt.atPrompt = true ∧ Orderly charWidth look w h ∧ match h.2 with
    | .loop (.header _) | .loop .windowChange | .reflow _ => False
    | .loop e => Repaints look w.loop (h.1,e) ∨ FillsIn look w.loop (h.1,e) → Fits w.loop
    | .shell _ => True

/-- Above the rows that are reserved the screen is as `f` has it. -/
structure Floor (rows extra : Nat) (f : Screen) (w : Window ρ θ δ) : Prop where
  drawn : w.loop.instantDrawn = false
  extra : w.loop.resizeExtraRows = extra
  reserved : w.loop.reserved = some rows
  geometry : w.loop.geometry.headerRows = headerRows w.loop.config
  row : w.screen.row = f.row
  above : ∀ r < f.row - rows, w.screen.cells r = f.cells r

theorem redrawOnly (m : Moment ε) (s : State ρ θ δ) (info : HeaderInfo) (vcs : Option (GitStatus δ)) :
    ∀ o ∈ (redraw look m s info vcs).2, leavesHeader o = true ∨ isPaint o = true := by
  intro o mem
  obtain ⟨p,_,rfl⟩ : ∃ p, _ ∧ Output.paint p = o := by simpa [redraw] using mem
  exact .inr rfl

theorem signalsOnly (m : Moment ε) (n : Nat) {s : State ρ θ δ} (drawn : s.instantDrawn = false)
    (extra : s.resizeExtraRows = 0) :
    (∀ o ∈ (signals look m n s).2, leavesHeader o = true ∨ isPaint o = true) ∧
      (signals look m n s).1.instantDrawn = false ∧ (signals look m n s).1.resizeExtraRows = 0 := by
  induction n generalizing s with
  | zero => exact ⟨by simp [signals],drawn,extra⟩
  | succ n ih =>
    obtain ⟨later,drawn',extra'⟩ := ih (s := (signal look m s).1) rfl rfl
    refine ⟨fun o mem => ?_,drawn',extra'⟩
    rcases List.mem_append.mp mem with first | rest
    · have before : beforePaint s = [] := by simp [beforePaint,drawn,extra]
      obtain ⟨p,outputs,_⟩ := signalPaints look m s
      rw [outputs,before,List.nil_append,List.mem_singleton] at first
      exact .inr (first ▸ rfl)
    · exact later o rest

/-- A signal is what the rows wait for that a reflow has left. -/
def NoneCleared (extra : Nat) (what : Event ρ θ δ) : Prop :=
  extra = 0 ∨ ∀ count newlines, what = .output count newlines → count = 0

theorem promptOutputs {s : State ρ θ δ} (drawn : s.instantDrawn = false) (m : Moment ε) {what : Event ρ θ δ}
    (other : what ≠ .windowChange) (other' : ∀ info, what ≠ .header info) (none' : NoneCleared s.resizeExtraRows what) :
    (∀ o ∈ (step look s (m,what)).2, leavesHeader o = true ∨ isPaint o = true) ∧
      (step look s (m,what)).1.instantDrawn = false ∧
      (step look s (m,what)).1.resizeExtraRows = s.resizeExtraRows := by
  cases what with
  | reload request load =>
    rcases reloadCases look m s request load with ⟨_,path,result⟩ | ⟨config,path,_,result⟩
    · have quiet : step look s (m,.reload request load) = ({ s with configPath := path },[]) := result
      rw [quiet]
      exact ⟨by simp,drawn,rfl⟩
    · simp only [step,result]
      split
      · exact ⟨redrawOnly look m _ _ _,drawn,rfl⟩
      · exact ⟨by simp,drawn,rfl⟩
  | resize =>
    simp only [step,resize]
    split
    · exact ⟨redrawOnly look m { syncSize m s with lastHeader := none } (shownInfo (syncSize m s))
        (lastStatus (syncSize m s)),drawn,rfl⟩
    · exact ⟨by simp,drawn,rfl⟩
  | vimMode mode =>
    simp only [step,vimMode]
    split
    · exact ⟨redrawOnly look m _ _ _,drawn,rfl⟩
    · exact ⟨by simp,drawn,rfl⟩
  | input bytes =>
    refine ⟨by simp [step],?_⟩
    simp only [step,input]
    repeat' split
    all_goals exact ⟨drawn,rfl⟩
  | output count newlines =>
    rcases none' with extra | quiet
    · obtain ⟨only,drawn',extra'⟩ := signalsOnly look m count drawn extra
      refine ⟨only,?_⟩
      simp only [step,output,extra]
      split <;> exact ⟨drawn',extra'⟩
    · obtain rfl := quiet count newlines rfl
      obtain ⟨k,same⟩ := outputNone look m s newlines
      rw [same]
      exact ⟨by simp,drawn,rfl⟩
  | gitResult =>
    simp only [step,gitResult]
    repeat' split
    all_goals first | exact ⟨redrawOnly look m _ _ _,drawn,rfl⟩ | exact ⟨by simp,drawn,rfl⟩
  | worked i k found =>
    refine ⟨by simp [step],?_⟩
    simp only [step,worked]
    split <;> exact ⟨drawn,rfl⟩
  | deferredPrompt =>
    simp only [step,deferredPrompt]
    repeat' split
    all_goals exact ⟨by simp [leavesHeader],drawn,rfl⟩
  | windowChange => exact absurd rfl other
  | header info => exact absurd rfl (other' info)

theorem emitFloor {s : Screen} {os : List (Output δ)} (rows : Nat)
    (drawable : Machine.Watched (emit charWidth) (Drawable charWidth) s os)
    (only : ∀ o ∈ os, leavesHeader o = true ∨ ∃ p, o = .paint p ∧ p.lines.length = rows ∧ p.up = max rows 1) :
    (os.foldl (emit charWidth) s).row = s.row ∧
      ∀ r < s.row - rows, (os.foldl (emit charWidth) s).cells r = s.cells r := by
  induction os generalizing s with
  | nil => exact ⟨rfl,fun _ _ => rfl⟩
  | cons o os ih =>
    have one : (emit charWidth s o).row = s.row ∧ ∀ r < s.row - rows, (emit charWidth s o).cells r = s.cells r := by
      rcases only o List.mem_cons_self with leaves | ⟨p,rfl,lines,up⟩
      · obtain ⟨stays,_⟩ := leavesStill drawable.1 leaves
        exact ⟨stays.row,fun r above => stays.above r (by omega)⟩
      · obtain ⟨shown,legible,painted,_⟩ := paintHolds drawable.1 (by rw [up,lines])
        have size := legibleRows legible
        rw [painted]
        exact ⟨rfl,fun r above => Screen.fillOutside (.inl (by omega)) s.cells⟩
    obtain ⟨row,above⟩ := ih drawable.2 fun p mem => only p (List.mem_cons_of_mem o mem)
    rw [List.foldl_cons]
    refine ⟨row.trans one.1,fun r higher => ?_⟩
    rw [above r (by rw [one.1]; exact higher)]
    exact one.2 r higher

theorem geometryStep {s : State ρ θ δ} (geometry : s.geometry.headerRows = headerRows s.config)
    (e : Moment ε × Event ρ θ δ) : (step look s e).1.geometry.headerRows = headerRows (step look s e).1.config := by
  obtain ⟨m,what⟩ := e
  rcases stepTheme look s m what with ⟨config,same⟩ | ⟨request,load,config,rfl,_,same,rows⟩
  · rw [config,same,geometry]
  · rw [same,rows]

theorem paintedRows {s : State ρ θ δ} (geometry : s.geometry.headerRows = headerRows s.config)
    {e : Moment ε × Event ρ θ δ} (paints : Repaints look s e ∨ FillsIn look s e) :
    headerRows (step look s e).1.config = s.geometry.headerRows := by
  obtain ⟨m,what⟩ := e
  rcases stepTheme look s m what with ⟨config,_⟩ | ⟨request,load,config,rfl,found,same,_⟩
  · rw [config,geometry]
  · rcases paints with ⟨_,config',found',rows⟩ | fills
    · cases found.symm.trans found'
      rw [same,rows]
    · exact fills.elim

theorem floorStep {rows extra : Nat} {f : Screen} {w : Window ρ θ δ} (floor : Floor rows extra f w)
    {h : Moment ε × Happening ρ θ δ} (atPrompt : AtPrompt charWidth look w h)
    (none' : ∀ what, h.2 = .loop what → NoneCleared extra what) :
    Floor rows extra f (windowStep charWidth (step look) w h).1 := by
  obtain ⟨m,what⟩ := h
  obtain ⟨here,orderly,cond⟩ := atPrompt
  cases what with
  | loop e =>
    have other : e ≠ .windowChange := by rintro rfl; exact cond
    have other' : ∀ info, e ≠ .header info := by rintro info rfl; exact cond
    have fits : Repaints look w.loop (m,e) ∨ FillsIn look w.loop (m,e) → Fits w.loop := by
      cases e with
      | header info => exact absurd rfl (other' info)
      | windowChange => exact absurd rfl other
      | _ => exact cond
    obtain ⟨only,drawn,kept⟩ := promptOutputs look floor.drawn m other other' (floor.extra ▸ none' e rfl)
    have paints : ∀ o ∈ (step look w.loop (m,e)).2, leavesHeader o = true ∨
        ∃ p, o = .paint p ∧ p.lines.length = rows ∧ p.up = max rows 1 := by
      intro o mem
      rcases only o mem with leaves | paint
      · exact .inl leaves
      · right
        have paints : Repaints look w.loop (m,e) ∨ FillsIn look w.loop (m,e) := by
          by_contra neither
          obtain ⟨still,empty⟩ := not_or.mp neither
          rw [quietStep look still empty o mem] at paint
          cases paint
        have same' := (paintedRows look floor.geometry paints).trans (fits paints rows floor.reserved)
        rcases (stepPaints look w.loop (m,e)).1 o mem with quiet | ⟨p,same,lines,up,_⟩
        · rw [quiet] at paint
          cases paint
        · exact ⟨p,same,lines.trans same',same' ▸ up⟩
    obtain ⟨row,above⟩ := emitFloor _ orderly paints
    refine ⟨drawn,kept.trans floor.extra,(stepNoAck look w.loop m other').2.trans floor.reserved,geometryStep look floor.geometry (m,e),
      row.trans floor.row,fun r higher => ?_⟩
    exact (above r (by rw [floor.row]; exact higher)).trans (floor.above r higher)
  | shell text =>
    have stays := orderly here
    exact ⟨floor.drawn,floor.extra,floor.reserved,floor.geometry,stays.row.trans floor.row,
      fun r higher => (stays.above r (by rw [floor.row]; omega)).trans (floor.above r higher)⟩
  | reflow screen => exact cond.elim

variable (charWidth) in
theorem geometryRun {w : Window ρ θ δ} (geometry : w.loop.geometry.headerRows = headerRows w.loop.config)
    (happenings : List (Moment ε × Happening ρ θ δ)) :
    let after := (Machine.run (windowStep charWidth (step look)) w happenings).1
    after.loop.geometry.headerRows = headerRows after.loop.config := by
  refine Machine.runInvariant (I := fun w : Window ρ θ δ => w.loop.geometry.headerRows = headerRows w.loop.config) ?_ geometry
    happenings
  intro w h geometry
  obtain ⟨m,what⟩ := h
  cases what with
  | loop e => exact geometryStep look geometry (m,e)
  | shell text => exact geometry
  | reflow screen => exact geometry

theorem fallenTwice {s : Screen} (ground : s.mode = .ground) (inside : s.row < s.height) (k n : Nat) :
    fallen (fallen s k) n = fallen s (k + n) := by
  have inside' : (fallen s k).row < (fallen s k).height := by
    simp only [fallen]
    omega
  have more : newlines (k + n) = newlines k ++ newlines n := by
    rw [newlines,newlines,newlines,List.replicate_add,List.flatten_append]
  have first : feed oneCell s (newlines k) = fallen s k := Screen.feedNewlines ground inside k
  have rest : feed oneCell (fallen s k) (newlines n) = fallen (fallen s k) n :=
    Screen.feedNewlines (s := fallen s k) ground inside' n
  have whole : feed oneCell s (newlines (k + n)) = fallen s (k + n) := Screen.feedNewlines ground inside (k + n)
  rw [← rest,← first,← whole,more,Screen.feedAppend]

theorem floorSignal {rows : Nat} {f : Screen} {w : Window ρ θ δ} (floor : Floor rows 0 f w)
    (fits : w.loop.geometry.headerRows = rows) {m : Moment ε} {count : Nat}
    (orderly : Orderly charWidth look w (m,.loop (.output 1 count))) :
    Floor rows 0 f (windowStep charWidth (step look) w (m,.loop (.output 1 count))).1 := by
  obtain ⟨p,outputs,lines,up⟩ := signalOutputs look m floor.drawn floor.extra count
  rw [← floor.geometry,fits] at lines up
  obtain ⟨row,above⟩ := emitFloor rows orderly (by
    rw [outputs]
    rintro o mem
    exact .inr ⟨p,List.mem_singleton.mp mem,lines,up⟩)
  obtain ⟨_,drawn,extra⟩ := promptOutputs look floor.drawn m
    (by simp : (.output 1 count : Event ρ θ δ) ≠ .windowChange) (by simp) (.inl floor.extra)
  refine ⟨drawn,extra.trans floor.extra,(stepNoAck look w.loop m (by simp)).2.trans floor.reserved,
    geometryStep look floor.geometry (m,.output 1 count),row.trans floor.row,fun r higher => ?_⟩
  exact (above r (by rw [floor.row]; exact higher)).trans (floor.above r higher)

end place

def enteredPrompt : List (Moment Unit × Happening Unit Unit Bytes) :=
  [(quietMoment,.loop (.header ⟨some 0,[97],0,0,0,[]⟩)),(quietMoment,.loop (.output 1 0)),
    (quietMoment,.loop (.input [13])),(quietMoment,.shell ['\r','\n','x','\r','\n'])]

end P11k.Engine
