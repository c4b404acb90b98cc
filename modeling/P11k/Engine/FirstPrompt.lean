import P11k.Engine.PromptPlace

/-! The first prompt. Before the shell is up the engine draws a provisional header; the first signal replaces it in
place, and for that the four shells need different steps, since two of them open a fresh row for their prompt. -/
namespace P11k.Engine
open Gitstatus (Bytes)
open Screen (csi feed fill fallen blank Shows Holds)
open Utf8 (encode decode)
open Text (decimal)

/-- What a shell sends for its first prompt up to the signal. `fresh` is what it sends to leave a row that it finds
begun. -/
def firstLead (fresh : List Char) (shell : Shell) (rows : Nat) : List Char :=
  match shell with
  | .zsh => fresh ++ (csi (decimal rows) 'A' ++ newlines rows)
  | .bash | .fish => ['\r']
  | .pwsh => fresh

section first
variable (charWidth : Char → Nat)

/-- To the start of the next row, and nothing above the row that is left changes. -/
structure FreshRow (s after : Screen) : Prop where
  ground : after.mode = .ground
  row : after.row = s.row + 1
  col : after.col = 0
  above : ∀ r < s.row, after.cells r = s.cells r

/-- What is documented of the line editors of zsh and pwsh: a prompt that finds its row begun opens a new one. -/
def Fresh (fresh : List Char) : Prop :=
  ∀ s : Screen, s.mode = .ground → s.row + 1 < s.height → FreshRow s (feed charWidth s fresh)

variable {charWidth}

theorem feedFirstLead {fresh : List Char} (opens : Fresh charWidth fresh) {s : Screen} (ground : s.mode = .ground)
    {rows : Nat} (some' : 1 ≤ rows) (room : s.row + 1 < s.height) (above : rows ≤ s.row) (shell : Shell) :
    let after := feed charWidth s (firstLead fresh shell rows)
    after.mode = .ground ∧ after.row = s.row + (if shell.promptStartsOnANewRow then 1 else 0) ∧ after.col = 0 ∧
      ∀ r < s.row, after.cells r = s.cells r := by
  have next := opens s ground room
  have returned : feed charWidth s ['\r'] = Screen.carriageReturn s := Screen.feedReturn _ ground
  cases shell with
  | zsh =>
    let opened := feed charWidth s fresh
    have size := (Screen.feedSize charWidth s fresh).1
    have up : feed charWidth opened (csi (decimal rows) 'A') = { opened with row := opened.row - rows } :=
      Screen.feedUp _ next.ground some'
    have inside : opened.row - rows < opened.height := by
      simp only [opened,size,next.row]
      omega
    have down : feed charWidth { opened with row := opened.row - rows } (newlines rows) =
        fallen { opened with row := opened.row - rows } rows :=
      Screen.feedNewlines (s := { opened with row := opened.row - rows }) next.ground inside rows
    have whole : feed charWidth s (firstLead fresh .zsh rows) = fallen { opened with row := opened.row - rows } rows := by
      rw [firstLead,Screen.feedAppend,Screen.feedAppend]
      exact (congrArg (feed charWidth · (newlines rows)) up).trans down
    have back : opened.row - rows + rows = s.row + 1 := by
      simp only [opened,next.row]
      omega
    have still : s.row + 1 - (opened.height - 1) = 0 := by
      simp only [opened,size]
      omega
    rw [whole]
    simp only [fallen,back,still,Screen.scrolledNone]
    refine ⟨next.ground,?_,if_neg (Nat.ne_of_gt some'),next.above⟩
    simp only [opened,size,Shell.promptStartsOnANewRow,if_true]
    omega
  | pwsh => exact ⟨next.ground,next.row,next.col,next.above⟩
  | bash | fish =>
    simp only [firstLead,returned]
    exact ⟨ground,rfl,rfl,fun _ _ => rfl⟩

variable {ε ρ θ δ : Type} (look : Look ε ρ θ δ)

def stepsUp (shell : Shell) : List (Output δ) := if shell.promptStartsOnANewRow then [.stepUp] else []

theorem firstSignal (m : Moment ε) {s : State ρ θ δ} (drawn : s.instantDrawn = true) (extra : s.resizeExtraRows = 0)
    (count : Nat) : ∃ p, (step look s (m,.output 1 count)).2 = stepsUp s.shell ++ [.paint p] ∧
      p.lines.length = headerRows s.config ∧ p.up = max p.lines.length 1 ∧
      (step look s (m,.output 1 count)).1.lastHeader = some p.lines := by
  obtain ⟨before,p,outputs,known,up⟩ := signalEnds look m s
  obtain ⟨q,outputs',_,_,rows,_⟩ := signalPaints look m s
  obtain ⟨rfl,same⟩ := List.append_inj' (outputs.symm.trans outputs') rfl
  obtain rfl : p = q := by simpa using same
  have steps : beforePaint s = stepsUp s.shell := by
    simp [beforePaint,stepsUp,drawn,extra]
  rw [steps] at outputs
  refine ⟨p,(List.append_nil _).trans outputs,rows,up,?_⟩
  simp only [step,output]
  split <;> exact known

theorem firstEmits {s : Screen} {shell : Shell} {p : Paint δ}
    (drawable : Machine.Watched (emit charWidth) (Drawable charWidth) s (stepsUp shell ++ [.paint p]))
    (up : p.up = max p.lines.length 1) :
    let after := (stepsUp shell ++ [Output.paint p]).foldl (emit charWidth) s
    let row := s.row - if shell.promptStartsOnANewRow then 1 else 0
    after.row = row ∧ after.col = s.col ∧ (∀ r < row - p.lines.length, after.cells r = s.cells r) ∧
      ∃ shown, Legible charWidth s.width p.lines shown ∧ Holds charWidth after shown := by
  rw [Machine.watchedAppend] at drawable
  obtain ⟨first,paint,_⟩ := drawable
  have steps : (stepsUp shell : List (Output δ)).foldl (emit charWidth) s =
      { s with row := s.row - if shell.promptStartsOnANewRow then 1 else 0 } := by
    cases shell with
    | zsh | pwsh => exact emitStepUp (δ := δ) first.1.1
    | bash | fish => rfl
  rw [steps] at paint
  obtain ⟨shown,legible,painted,holds⟩ := paintHolds paint up
  have size := legibleRows legible
  rw [List.foldl_append,steps,List.foldl_cons,List.foldl_nil]
  refine ⟨?_,?_,fun r above => ?_,shown,legible,holds⟩
  · rw [painted]
  · rw [painted]
  · rw [painted]
    exact Screen.fillOutside (.inl (by rw [size]; exact above)) s.cells

theorem headedAbove (s : Screen) (shown : List (List Char)) (shownPrefix : List Char) :
    ∀ r < s.row, (headed charWidth s shown shownPrefix).cells r = s.cells r := by
  intro r above
  have apart : r ≠ s.row + shown.length := by omega
  simp only [headed,Screen.write,Function.update_of_ne apart]
  exact Screen.fillOutside (.inl above) s.cells

structure Provisional (w : Window ρ θ δ) : Prop where
  running : w.loop.prompt = .running
  drawn : w.loop.instantDrawn = true
  extra : w.loop.resizeExtraRows = 0
  geometry : w.loop.geometry.headerRows = headerRows w.loop.config
  ground : w.screen.mode = .ground

/-- Up to the signal, the cursor is the only thing that moves. -/
theorem firstWaits {w : Window ρ θ δ} (provisional : Provisional w) {fresh : List Char} (opens : Fresh charWidth fresh)
    {rows : Nat} (some' : 1 ≤ rows) (room : w.screen.row + 1 < w.screen.height) (above : rows ≤ w.screen.row)
    {before middle : List (Moment ε × Happening ρ θ δ)} (quiet : ∀ h ∈ before, waits h.2 = true)
    (nothing : written before = []) (still : ∀ h ∈ middle, waits h.2 = true)
    (text : written middle = firstLead fresh w.loop.shell rows) (m : Moment ε) (info : HeaderInfo) :
    let waited := (Machine.run (windowStep charWidth (step look)) w (before ++ (m,.loop (.header info)) :: middle)).1
    Provisional waited ∧ waited.loop.shell = w.loop.shell ∧ waited.screen.width = w.screen.width ∧
      waited.screen.row = w.screen.row + (if w.loop.shell.promptStartsOnANewRow then 1 else 0) ∧
      waited.screen.col = 0 ∧ ∀ r < w.screen.row, waited.screen.cells r = w.screen.cells r := by
  obtain ⟨phase,began⟩ := waitsRun charWidth look provisional.running quiet
  rw [nothing] at began
  generalize begun' : (Machine.run (windowStep charWidth (step look)) w before).1 = begun at phase began
  have began' : begun.screen = w.screen := began
  have instant : begun.loop.instantDrawn = true := phase.instant.trans provisional.drawn
  have inside : w.screen.row < w.screen.height := by omega
  have announces := headerScreen charWidth look (began' ▸ provisional.ground) (began' ▸ inside) m info
  rw [instant,if_pos rfl,began',Screen.fallenNone inside] at announces
  obtain ⟨phase',waits'⟩ := waitsRun charWidth
    (w := (windowStep charWidth (step look) begun (m,.loop (.header info))).1) look rfl still
  have whole : (Machine.run (windowStep charWidth (step look)) w (before ++ (m,.loop (.header info)) :: middle)).1 =
      (Machine.run (windowStep charWidth (step look))
        (windowStep charWidth (step look) begun (m,.loop (.header info))).1 middle).1 := by
    rw [Machine.runAppend,← begun']
    rfl
  have geometry := geometryRun charWidth look provisional.geometry
    (before ++ (m,.loop (.header info)) :: middle)
  rw [text,announces] at waits'
  obtain ⟨ground,row,col,above'⟩ := feedFirstLead opens provisional.ground some' room above w.loop.shell
  rw [← waits'] at ground row col above'
  rw [whole] at geometry ⊢
  refine ⟨⟨phase'.running,phase'.instant.trans instant,phase'.extra.trans (phase.extra.trans provisional.extra),
    geometry,ground⟩,phase'.shell.trans phase.shell,?_,row,col,above'⟩
  rw [waits',(Screen.feedSize _ _ _).2]

theorem firstPaints {w : Window ρ θ δ} (provisional : Provisional w) (top : Nat) {rows : Nat}
    (fits : w.loop.geometry.headerRows = rows)
    (row : w.screen.row = top + rows + if w.loop.shell.promptStartsOnANewRow then 1 else 0) {m : Moment ε} {count : Nat}
    (orderly : Orderly charWidth look w (m,.loop (.output 1 count))) :
    let last := (windowStep charWidth (step look) w (m,.loop (.output 1 count))).1
    last.screen.row = top + rows ∧ last.screen.col = w.screen.col ∧
      (∀ r < top, last.screen.cells r = w.screen.cells r) ∧
      ∃ lines shown, last.loop.lastHeader = some lines ∧ lines.length = rows ∧
        Legible charWidth w.screen.width lines shown ∧ Holds charWidth last.screen shown := by
  obtain ⟨p,outputs,lines,up,known⟩ := firstSignal look m provisional.drawn provisional.extra count
  rw [← provisional.geometry,fits] at lines
  have drawable : Machine.Watched (emit charWidth) (Drawable charWidth) w.screen
      (stepsUp w.loop.shell ++ [.paint p]) := by
    rw [← outputs]
    exact orderly
  have final : (windowStep charWidth (step look) w (m,.loop (.output 1 count))).1.screen =
      (stepsUp w.loop.shell ++ [Output.paint p]).foldl (emit charWidth) w.screen := by
    rw [← outputs]
    rfl
  obtain ⟨lastRow,lastCol,stays,shown,legible,holds⟩ := firstEmits drawable up
  have back : w.screen.row - (if w.loop.shell.promptStartsOnANewRow then 1 else 0) = top + rows := by omega
  rw [back] at lastRow stays
  simp only [final]
  exact ⟨lastRow,lastCol,fun r higher => stays r (by omega),p.lines,shown,known,lines,legible,holds⟩

end first

theorem newlineFresh : Fresh oneCell Screen.newline := by
  intro s ground room
  have down : Screen.lineFeed (Screen.carriageReturn s) = { s with row := s.row + 1, col := 0 } := if_pos room
  rw [Screen.feedNewline ground,down]
  exact ⟨ground,rfl,rfl,fun _ _ => rfl⟩

end P11k.Engine
