import P11k.Engine.PromptPlace

/-! A window that changes its width at a prompt. The terminal wraps the rows of the header anew; the shell prints
its own rows again and knows nothing of those that this added. The loop counts them when it takes the new size, and
clears them at the signal. -/
namespace P11k.Engine
open Gitstatus (Bytes)
open Screen (feed fill fillOutside span Holds)

section reflow
variable {ε ρ θ δ : Type} {charWidth : Char → Nat} (look : Look ε ρ θ δ)

variable (charWidth) in
/-- The loop and the terminal measure alike, and no character is broken at the end of a row. -/
def MeasuredAlike (line : Bytes) (shown : List Char) : Prop :=
  look.displayWidth line = span charWidth shown ∧ ∀ c ∈ shown, charWidth c ≤ 1

theorem reflowRows {cols : Nat} (some' : 1 ≤ cols) {lines : List Bytes} {shown : List (List Char)}
    (measured : List.Forall₂ (MeasuredAlike charWidth look) lines shown) :
    reflowExtraRows look (some lines) cols + lines.length = (shown.flatMap (Screen.wrapped charWidth cols)).length := by
  have all : (lines.map fun line =>
      if look.displayWidth line = 0 then 1 else (look.displayWidth line + max cols 1 - 1) / max cols 1).sum =
      (shown.flatMap (Screen.wrapped charWidth cols)).length ∧
      lines.length ≤ (shown.flatMap (Screen.wrapped charWidth cols)).length := by
    rw [Nat.max_eq_left some']
    induction measured with
    | nil => exact ⟨rfl,Nat.le_refl 0⟩
    | @cons line t lines shown here _ ih =>
      obtain ⟨width,narrow⟩ := here
      have rows := Screen.wrappedRows some' narrow
      rw [← width] at rows
      have least : 1 ≤ (Screen.wrapped charWidth cols t).length := by
        rw [rows]
        split
        · exact Nat.le_refl 1
        · exact (Nat.le_div_iff_mul_le (by omega)).mpr (by omega)
      rw [List.map_cons,List.sum_cons,List.flatMap_cons,List.length_append,List.length_cons,← rows,ih.1]
      exact ⟨rfl,by omega⟩
  have sum : reflowExtraRows look (some lines) cols =
      (shown.flatMap (Screen.wrapped charWidth cols)).length - lines.length := congrArg (· - lines.length) all.1
  rw [sum]
  exact Nat.sub_add_cancel all.2

/-! The signal after a reflow. -/

theorem signalClears {w : Window ρ θ δ} {rows extra : Nat} (drawn : w.loop.instantDrawn = false)
    (extra' : w.loop.resizeExtraRows = extra) (geometry : w.loop.geometry.headerRows = headerRows w.loop.config)
    (fits : w.loop.geometry.headerRows = rows) (some' : 0 < extra → 1 ≤ rows) (room : rows + extra ≤ w.screen.row)
    {m : Moment ε} {count : Nat} (orderly : Orderly charWidth look w (m,.loop (.output 1 count))) :
    let t := (windowStep charWidth (step look) w (m,.loop (.output 1 count))).1.screen
    t.row = w.screen.row ∧ (∀ r < w.screen.row - (rows + extra), t.cells r = w.screen.cells r) ∧
      ∀ r, w.screen.row - (rows + extra) ≤ r → r < w.screen.row - rows → t.cells r = Screen.blank := by
  intro t
  obtain ⟨p,outputs,_,_,lines,up⟩ := signalPaints look m w.loop
  rw [← geometry,fits] at lines up
  have whole : (step look w.loop (m,.output 1 count)).2 = beforePaint w.loop ++ [.paint p] :=
    (List.append_nil _).trans outputs
  have drawable : Machine.Watched (emit charWidth) (Drawable charWidth) w.screen (beforePaint w.loop ++ [.paint p]) :=
    whole ▸ orderly
  have final : t = (beforePaint w.loop ++ [(.paint p : Output δ)]).foldl (emit charWidth) w.screen := by
    simp only [t,windowStep,whole]
  clear_value t
  rcases Nat.eq_zero_or_pos extra with rfl | some
  · have before : beforePaint w.loop = [] := by simp [beforePaint,drawn,extra']
    rw [before,List.nil_append] at drawable final
    obtain ⟨shown,legible,painted,_⟩ := paintHolds drawable.1 (by rw [up,lines])
    have size := legibleRows legible
    rw [final,List.foldl_cons,List.foldl_nil,painted]
    exact ⟨rfl,fun r above => fillOutside (.inl (by omega)) _,fun r below above => absurd above (by omega)⟩
  · have before : beforePaint w.loop = [.clearReflowed (rows + extra) extra] := by
      simp [beforePaint,drawn,extra',fits,some,Nat.max_eq_left (some' some)]
    rw [before] at drawable final
    have clears : emit charWidth w.screen (.clearReflowed (rows + extra) extra : Output δ) = _ :=
      emitClear drawable.1.1 some drawable.1.2.2.2.2 drawable.1.2.2.1
    obtain ⟨shown,legible,painted,_⟩ := paintHolds drawable.2.1 (by rw [up,lines])
    have size := legibleRows legible
    have blanks : (List.replicate extra ([] : List Char)).length = extra := List.length_replicate
    have whole' : t = emit charWidth (emit charWidth w.screen (.clearReflowed (rows + extra) extra : Output δ)) (.paint p) := by
      rw [final,List.cons_append,List.nil_append,List.foldl_cons,List.foldl_cons,List.foldl_nil]
    have cells : t.cells = fill charWidth (w.screen.row - shown.length) shown
        (fill charWidth (w.screen.row - (rows + extra)) (List.replicate extra []) w.screen.cells) := by
      rw [whole',painted,clears]
    rw [cells]
    refine ⟨by rw [whole',painted,clears],fun r above => ?_,fun r below above => ?_⟩
    · rw [fillOutside (.inl (by omega)),fillOutside (.inl above)]
    · have inside : r - (w.screen.row - (rows + extra)) < (List.replicate extra ([] : List Char)).length := by omega
      rw [fillOutside (.inl (by omega)),fill,if_pos below,List.getElem?_eq_getElem inside,List.getElem_replicate]
      rfl

/-! From one resize to the next. -/

/-- A header of so many rows is up, and the loop and the shell both know them. -/
structure HeaderUp (charWidth : Char → Nat) (rows : Nat) (w : Window ρ θ δ) : Prop where
  kept : HeaderKept charWidth w
  floor : Floor rows 0 w.screen w
  current : w.reflowed = false
  lines : w.loop.prompt.atPrompt = true → ∃ lines, w.loop.lastHeader = some lines ∧ lines.length = rows

theorem headerUpStep {rows : Nat} {w : Window ρ θ δ} (settled : HeaderUp charWidth rows w)
    {h : Moment ε × Happening ρ θ δ} (atPrompt : AtPrompt charWidth look w h) :
    HeaderUp charWidth rows (windowStep charWidth (step look) w h).1 := by
  have floor := floorStep look settled.floor atPrompt fun _ _ => .inl rfl
  refine ⟨headerKeptStep look settled.kept atPrompt.2.1,
    ⟨floor.drawn,floor.extra,floor.reserved,floor.geometry,rfl,fun _ _ => rfl⟩,?_,?_⟩
  all_goals obtain ⟨m,what⟩ := h; obtain ⟨here,orderly,cond⟩ := atPrompt
  · cases what with
    | loop e => simp only [windowStep,settled.current,Bool.false_and]
    | shell text => exact settled.current
    | reflow screen => exact cond.elim
  · cases what with
    | shell text => exact settled.lines
    | reflow screen => exact cond.elim
    | loop e =>
      intro later
      rcases stepWindow look settled.kept.instant (m,e) later with ⟨before,p,outputs,known,_⟩ | ⟨_,same,_⟩
      · refine ⟨p.lines,known,?_⟩
        have mem : .paint p ∈ (step look w.loop (m,e)).2 := by simp [outputs]
        have paints : Repaints look w.loop (m,e) ∨ FillsIn look w.loop (m,e) := by
          by_contra neither
          obtain ⟨still,empty⟩ := not_or.mp neither
          cases quietStep look still empty _ mem
        have fits : Fits w.loop := by
          cases e with
          | header info => exact cond.elim
          | windowChange => exact cond.elim
          | _ => exact cond paints
        rcases (stepPaints look w.loop (m,e)).1 _ mem with quiet | ⟨q,same,lines,_⟩
        · cases quiet
        · cases same
          rw [lines,paintedRows look settled.floor.geometry paints]
          exact fits rows settled.floor.reserved
      · obtain ⟨lines,known,length⟩ := settled.lines here
        exact ⟨lines,same.trans known,length⟩

/-- What happens from one header that is up to the next, when the window changes in between. -/
structure Resizing (ε ρ θ δ : Type) where
  typed : List (Moment ε × Happening ρ θ δ)
  rewrapped : Screen
  noticed : Moment ε
  between : List (Moment ε × Happening ρ θ δ)
  reprint : List Char
  signalled : Moment ε
  newlines : Nat

namespace Resizing
variable (charWidth) (w : Window ρ θ δ) (r : Resizing ε ρ θ δ)

def asked : Window ρ θ δ := (Machine.run (windowStep charWidth (step look)) w r.typed).1

def resized : Window ρ θ δ :=
  (Machine.run (windowStep charWidth (step look)) (r.asked charWidth look w)
    [(r.noticed,.reflow r.rewrapped),(r.noticed,.loop .windowChange)]).1

def waited : Window ρ θ δ := (Machine.run (windowStep charWidth (step look)) (r.resized charWidth look w) r.between).1

def reprinted : Window ρ θ δ :=
  (windowStep charWidth (step look) (r.waited charWidth look w) (r.signalled,.shell r.reprint)).1

def step : Window ρ θ δ × List Unit :=
  ((windowStep charWidth (Engine.step look) (r.reprinted charWidth look w)
    (r.signalled,.loop (.output 1 r.newlines))).1,[])

end Resizing

variable (charWidth) in
def Rewraps (w : Window ρ θ δ) (t : Screen) : Prop :=
  t.mode = .ground ∧ t.row < t.height ∧ 1 ≤ t.width ∧
    ∀ lines shown, w.loop.lastHeader = some lines → Legible charWidth w.screen.width lines shown →
      Holds charWidth w.screen shown → List.Forall₂ (MeasuredAlike charWidth look) lines shown ∧
        Holds charWidth t (shown.flatMap (Screen.wrapped charWidth t.width))

/-- The shell prints its rows again, and the cursor comes back to where it was. -/
structure Reprinted (rows : Nat) (s t : Screen) : Prop where
  ground : t.mode = .ground
  row : t.row = s.row
  above : ∀ r < s.row - rows, t.cells r = s.cells r

variable (charWidth) in
structure Resizes (rows : Nat) (w : Window ρ θ δ) (r : Resizing ε ρ θ δ) : Prop where
  typed : Machine.Guarded (windowStep charWidth (step look)) (AtPrompt charWidth look) w r.typed
  atPrompt : (r.asked charWidth look w).loop.prompt.atPrompt = true
  rewraps : Rewraps charWidth look (r.asked charWidth look w) r.rewrapped
  size : ∃ size, r.noticed.ttySize = some size ∧ size ≠ (r.asked charWidth look w).loop.lastSize ∧
    size.cols.toNat = r.rewrapped.width
  between : Machine.Guarded (windowStep charWidth (step look))
    (fun v h => AtPrompt charWidth look v h ∧
      ∀ what, h.2 = .loop what → NoneCleared (r.resized charWidth look w).loop.resizeExtraRows what)
    (r.resized charWidth look w) r.between
  reprints : Reprinted rows (r.waited charWidth look w).screen (r.reprinted charWidth look w).screen
  fits : (r.reprinted charWidth look w).loop.geometry.headerRows = rows
  signal : Orderly charWidth look (r.reprinted charWidth look w) (r.signalled,.loop (.output 1 r.newlines))

/-- The rows that the wrapped header took are blank down to the new header, and what stood above them stays. -/
structure Cleared (rows taken : Nat) (s t : Screen) : Prop where
  row : t.row = s.row
  above : ∀ r < s.row - taken, t.cells r = s.cells r
  blank : ∀ r, s.row - taken ≤ r → r < s.row - rows → t.cells r = Screen.blank

theorem sizeTaken {m : Moment ε} {s : State ρ θ δ} (drawn : s.instantDrawn = false) (atPrompt : s.prompt.atPrompt = true)
    {size : Size} (read : m.ttySize = some size) (new : size ≠ s.lastSize) : ∃ nudge,
    (step look s (m,.windowChange)).1 = { s with
      lastSize := size
      resizeExtraRows := reflowExtraRows look s.lastHeader size.cols.toNat
      lastPwshNudge := nudge } ∧ ∀ o ∈ (step look s (m,.windowChange)).2, o = .nudge := by
  simp only [step,windowChange,read,Option.getD_some,if_neg new,atPrompt,if_true,drawn,Bool.false_and,
    Bool.false_eq_true,if_false,List.nil_append]
  split
  · exact ⟨some m.now,rfl,fun o mem => List.mem_singleton.mp mem⟩
  · exact ⟨s.lastPwshNudge,rfl,fun o mem => absurd mem List.not_mem_nil⟩

theorem nudgesLeave {s : Screen} {os : List (Output δ)} (nudges : ∀ o ∈ os, o = .nudge) :
    os.foldl (emit charWidth) s = s ∧ os.any isPaint = false := by
  induction os with
  | nil => exact ⟨rfl,rfl⟩
  | cons o os ih =>
    obtain ⟨screen,none'⟩ := ih fun p mem => nudges p (List.mem_cons_of_mem o mem)
    obtain rfl := nudges o List.mem_cons_self
    exact ⟨screen,none'⟩

theorem resizedFloor {rows : Nat} {w : Window ρ θ δ} (settled : HeaderUp charWidth rows w) {r : Resizing ε ρ θ δ}
    (resizes : Resizes charWidth look rows w r) : ∃ lines shown,
    (r.asked charWidth look w).loop.lastHeader = some lines ∧
      Legible charWidth (r.asked charWidth look w).screen.width lines shown ∧
      Holds charWidth (r.asked charWidth look w).screen shown ∧
      let taken := (shown.flatMap (Screen.wrapped charWidth r.rewrapped.width)).length
      rows ≤ taken ∧ taken ≤ r.rewrapped.row ∧ (rows < taken → 1 ≤ rows) ∧
        Floor rows (taken - rows) r.rewrapped (r.resized charWidth look w) := by
  have asked : HeaderUp charWidth rows (r.asked charWidth look w) :=
    Machine.runKeeps (I := HeaderUp charWidth rows) (fun _ _ settled atPrompt => headerUpStep look settled atPrompt) settled
      resizes.typed
  obtain ⟨_,_,lines,shown,known,legible,holds⟩ := asked.kept.header resizes.atPrompt asked.current
  obtain ⟨ground,inside,some',wraps⟩ := resizes.rewraps
  obtain ⟨measured,room,_⟩ := wraps lines shown known legible holds
  obtain ⟨size,read,new,cols⟩ := resizes.size
  obtain ⟨lines',known',length⟩ := asked.lines resizes.atPrompt
  cases known.symm.trans known'
  have counted := reflowRows look some' measured
  obtain ⟨nudge,state,nudges⟩ := sizeTaken look asked.floor.drawn resizes.atPrompt read new
  have screen : (r.resized charWidth look w).screen = r.rewrapped := (nudgesLeave nudges).1
  have loop : (r.resized charWidth look w).loop = { (r.asked charWidth look w).loop with
      lastSize := size
      resizeExtraRows := reflowExtraRows look (r.asked charWidth look w).loop.lastHeader size.cols.toNat
      lastPwshNudge := nudge } := state
  refine ⟨lines,shown,known,legible,holds,by omega,room,fun more => ?_,?_,?_,?_,?_,?_,?_⟩
  · rcases Nat.eq_zero_or_pos rows with rfl | some
    · obtain rfl := List.eq_nil_of_length_eq_zero length
      cases measured
      exact absurd more (Nat.lt_irrefl 0)
    · exact some
  · rw [loop]
    exact asked.floor.drawn
  · rw [loop]
    simp only [known,cols]
    omega
  · rw [loop]
    exact asked.floor.reserved
  · rw [loop]
    exact asked.floor.geometry
  · rw [screen]
  · rw [screen]
    exact fun _ _ => rfl

theorem signalUp {rows : Nat} {w : Window ρ θ δ} (drawn : w.loop.instantDrawn = false)
    (reserved : w.loop.reserved = some rows) (geometry : w.loop.geometry.headerRows = headerRows w.loop.config)
    (fits : w.loop.geometry.headerRows = rows) {m : Moment ε} {count : Nat}
    (orderly : Orderly charWidth look w (m,.loop (.output 1 count))) :
    HeaderUp charWidth rows (windowStep charWidth (step look) w (m,.loop (.output 1 count))).1 := by
  obtain ⟨before,p,outputs,known,_⟩ := signalsEnd look m 0 w.loop
  have mem : .paint p ∈ (step look w.loop (m,.output 1 count)).2 := by
    have last : .paint p ∈ (signals look m 1 w.loop).2 := by simp [outputs]
    exact last
  have painted : (step look w.loop (m,.output 1 count)).2.any isPaint = true := List.any_eq_true.mpr ⟨_,mem,rfl⟩
  -- the paint covers the header, whatever the shell has left of it
  have covered : windowStep charWidth (step look) { w with reflowed := true } (m,.loop (.output 1 count)) =
      windowStep charWidth (step look) w (m,.loop (.output 1 count)) := by
    simp only [windowStep,painted,Bool.not_true,Bool.and_false]
  have kept : HeaderKept charWidth { w with reflowed := true } :=
    ⟨fun instant => absurd instant (by simp only [drawn,Bool.false_eq_true,not_false_eq_true]),
      fun _ current => absurd current (by simp)⟩
  have drawn' : (step look w.loop (m,.output 1 count)).1.instantDrawn = false := rfl
  have extra' : (step look w.loop (m,.output 1 count)).1.resizeExtraRows = 0 := rfl
  have known' : (step look w.loop (m,.output 1 count)).1.lastHeader = some p.lines := known
  refine ⟨covered ▸ headerKeptStep look kept orderly,⟨drawn',extra',
    (stepNoAck look w.loop m (by simp)).2.trans reserved,geometryStep look geometry (m,.output 1 count),rfl,fun _ _ => rfl⟩,
    ?_,fun _ => ⟨p.lines,known',?_⟩⟩
  · simp only [windowStep,painted,Bool.not_true,Bool.and_false]
  · rcases (stepPaints look w.loop (m,.output 1 count)).1 _ mem with quiet | ⟨q,same,lines,_⟩
    · cases quiet
    · cases same
      rcases stepTheme look w.loop m (.output 1 count) with ⟨config,_⟩ | ⟨_,_,_,other,_⟩
      · rw [lines,config,← geometry,fits]
      · cases other

theorem resizingStep {rows : Nat} {w : Window ρ θ δ} (settled : HeaderUp charWidth rows w) {r : Resizing ε ρ θ δ}
    (resizes : Resizes charWidth look rows w r) : HeaderUp charWidth rows (r.step charWidth look w).1 ∧
      ∃ lines shown, (r.asked charWidth look w).loop.lastHeader = some lines ∧
        Legible charWidth (r.asked charWidth look w).screen.width lines shown ∧
        Holds charWidth (r.asked charWidth look w).screen shown ∧
        Cleared rows (shown.flatMap (Screen.wrapped charWidth r.rewrapped.width)).length r.rewrapped
          (r.step charWidth look w).1.screen := by
  obtain ⟨lines,shown,known,legible,holds,most,room,some',floor⟩ := resizedFloor look settled resizes
  have extra := floor.extra
  have waited : Floor rows ((shown.flatMap (Screen.wrapped charWidth r.rewrapped.width)).length - rows) r.rewrapped
      (r.waited charWidth look w) :=
    Machine.runKeeps (I := Floor rows _ r.rewrapped)
      (fun _ _ floor both => floorStep look floor both.1 (extra ▸ both.2)) floor resizes.between
  have reprints := resizes.reprints
  have row : (r.reprinted charWidth look w).screen.row = r.rewrapped.row := reprints.row.trans waited.row
  obtain ⟨row',above,blank⟩ := signalClears look (w := r.reprinted charWidth look w) waited.drawn waited.extra
    waited.geometry resizes.fits (fun some => some' (by omega)) (by omega) resizes.signal
  rw [row] at row' above blank
  rw [Nat.add_sub_cancel' most] at above blank
  refine ⟨signalUp look (w := r.reprinted charWidth look w) waited.drawn waited.reserved waited.geometry
    resizes.fits resizes.signal,lines,shown,known,legible,holds,row',fun x higher => ?_,blank⟩
  have higher' : x < (r.waited charWidth look w).screen.row - rows := by rw [waited.row]; omega
  exact (above x higher).trans ((reprints.above x higher').trans (waited.above x (by omega)))

variable (charWidth) in
/-- However often the window changes at a prompt: each time the new header is in its rows, what the terminal has made
of the old one is gone, and what stood above that is as the terminal has left it. -/
theorem reflowCleared (shell : Shell) (config : Config ρ θ) (configPath : Option Bytes) (size : Size) (cwd : Bytes)
    (screen : Screen) (before : List (Moment ε × Happening ρ θ δ)) (rows : Nat)
    (resizings : List (Resizing ε ρ θ δ)) (r : Resizing ε ρ θ δ)
    (orderly : Machine.Guarded (windowStep charWidth (step look)) (Orderly charWidth look)
      (windowStart look shell config configPath size cwd screen) before) :
    let w := (Machine.run (windowStep charWidth (step look))
      (windowStart look shell config configPath size cwd screen) before).1
    w.loop.prompt.atPrompt = true → w.loop.instantDrawn = false → w.loop.resizeExtraRows = 0 → w.reflowed = false →
    w.loop.reserved = some rows → (w.loop.lastHeader.map List.length) = some rows →
    Machine.Guarded (fun w r => Resizing.step charWidth look w r) (Resizes charWidth look rows) w resizings →
    let v := (Machine.run (fun w r => Resizing.step charWidth look w r) w resizings).1
    Resizes charWidth look rows v r →
    let asked := r.asked charWidth look v
    let after := (r.step charWidth look v).1
    Remembered charWidth after ∧ ∃ lines shown, asked.loop.lastHeader = some lines ∧
      Legible charWidth asked.screen.width lines shown ∧ Holds charWidth asked.screen shown ∧
      Cleared rows (shown.flatMap (Screen.wrapped charWidth r.rewrapped.width)).length r.rewrapped after.screen := by
  intro w atPrompt drawn extra current reserved length guarded v resizes asked after
  have geometry : w.loop.geometry.headerRows = headerRows w.loop.config := geometryRun _ look rfl before
  have kept : HeaderKept charWidth w :=
    Machine.runKeeps (I := HeaderKept charWidth) (fun _ _ kept orderly => headerKeptStep look kept orderly)
      (headerKeptStart look shell config configPath size cwd screen) orderly
  have start' : HeaderUp charWidth rows w :=
    ⟨kept,⟨drawn,extra,reserved,geometry,rfl,fun _ _ => rfl⟩,current,fun _ => Option.map_eq_some_iff.mp length⟩
  have settled : HeaderUp charWidth rows v :=
    Machine.runKeeps (I := HeaderUp charWidth rows) (fun _ _ settled resizes => (resizingStep look settled resizes).1)
      start' guarded
  obtain ⟨last,cleared⟩ := resizingStep look settled resizes
  exact ⟨last.kept.header rfl last.current,cleared⟩

end reflow

theorem drawnSingle (t : List Char) (col : Nat) (cells : Nat → List Char) (k : Nat) :
    Screen.drawn oneCell col cells t k = if col ≤ k then (t[k - col]?).elim (cells k) ([·]) else cells k := by
  induction t generalizing col cells with
  | nil => simp [Screen.drawn]
  | cons c t ih =>
    have placed : Screen.place oneCell cells col c = Function.update cells col [c] := by
      funext j
      have wide : oneCell c ≠ 0 := Nat.one_ne_zero
      have between : ¬ (col < j ∧ j < col + oneCell c) := by simp only [oneCell]; omega
      simp only [Screen.place,if_neg wide,if_neg between,Function.update_apply]
    rw [Screen.drawn,ih,placed,show oneCell c = 1 from rfl]
    rcases Nat.lt_trichotomy k col with left | rfl | right
    · rw [if_neg (by omega),if_neg (by omega),Function.update_of_ne (by omega)]
    · rw [if_neg (by omega),if_pos (Nat.le_refl k),Function.update_self,Nat.sub_self]
      rfl
    · obtain ⟨d,rfl⟩ := Nat.exists_eq_add_of_lt right
      have here : col + d + 1 - col = d + 1 := by omega
      have there : col + d + 1 - (col + 1) = d := by omega
      rw [if_pos (by omega),if_pos (by omega),here,there,List.getElem?_cons_succ,Function.update_of_ne (by omega)]

theorem spanSingle (t : List Char) : span oneCell t = t.length := by
  induction t with
  | nil => rfl
  | cons c t ih =>
    have one : span oneCell (c :: t) = 1 + span oneCell t := by simp only [span,List.map_cons,List.sum_cons,oneCell]
    rw [one,ih,List.length_cons,Nat.add_comm]

theorem showsOnce {t u v : List Char} (shows : Screen.Shows oneCell t u) (again : Screen.Shows oneCell t v) : u = v := by
  let s : Screen := ⟨1,u.length + v.length,fun _ => Screen.blank,0,0,(0,0),.ground⟩
  have same : Screen.write oneCell s u = Screen.write oneCell s v := by
    rw [← shows s rfl (by simp [s,spanSingle]),← again s rfl (by simp [s,spanSingle])]
  have row : Screen.drawn oneCell 0 Screen.blank u = Screen.drawn oneCell 0 Screen.blank v := by
    have cells : (Screen.write oneCell s u).cells 0 = (Screen.write oneCell s v).cells 0 := by rw [same]
    simpa only [Screen.write,s,Function.update_self] using cells
  refine List.ext_getElem? fun k => ?_
  have cell := congrFun row k
  simp only [drawnSingle,Nat.zero_le,if_true,Nat.sub_zero,Screen.blank] at cell
  cases left : u[k]? with
  | none =>
    cases right : v[k]? with
    | none => rfl
    | some d => rw [left,right] at cell; cases cell
  | some c =>
    cases right : v[k]? with
    | none => rw [left,right] at cell; cases cell
    | some d =>
      rw [left,right] at cell
      exact congrArg some (List.head_eq_of_cons_eq cell)

/-- The directory as far as there is room for it. -/
def cutLook : Look Unit Unit Unit Bytes :=
  { plainLook with row := fun _ _ _ info _ cols _ => info.cwd.take cols }

def longPrompt : List (Moment Unit × Happening Unit Unit Bytes) :=
  [(quietMoment,.loop (.header ⟨some 0,[97,98,99,100],0,0,0,[]⟩)),(quietMoment,.loop (.output 1 0))]

/-- A header of four columns in a window of three. -/
def narrowed : Resizing Unit Unit Unit Bytes where
  typed := [(quietMoment,.shell ['l','s'])]
  rewrapped := ⟨24,3,fill oneCell 0 [['a','b','c'],['d']] fun _ => Screen.blank,2,0,(0,0),.ground⟩
  noticed := ⟨0,some ⟨24,3,0,0⟩,()⟩
  between := [(⟨0,some ⟨24,3,0,0⟩,()⟩,.loop .resize)]
  reprint := Screen.csi [] 'A' ++ Screen.newline
  signalled := ⟨0,some ⟨24,3,0,0⟩,()⟩
  newlines := 1

theorem narrowedRewraps (w : Window Unit Unit Bytes) (known : w.loop.lastHeader = some [[97,98,99,100]]) :
    Rewraps oneCell cutLook w narrowed.rewrapped := by
  refine ⟨rfl,by decide,by decide,fun lines shown same legible _ => ?_⟩
  cases known.symm.trans same
  obtain ⟨texts,encoded,shows,_⟩ := legible
  obtain ⟨text,rfl,word⟩ := List.map_eq_singleton_iff.mp encoded.symm
  have text' : text = ['a','b','c','d'] := by
    rw [← Utf8.decodeEncode text,word]
    decide
  subst text'
  cases shows with
  | cons first rest =>
    cases rest
    cases showsOnce (Screen.showsText (by decide)) first
    refine ⟨.cons ⟨by decide,fun _ _ => Nat.le_refl 1⟩ .nil,?_⟩
    exact Screen.fillHolds (by decide) (fun _ => Screen.blank) rfl

theorem narrowedCleared :
    let w := (Machine.run (windowStep oneCell (step cutLook))
      (windowStart cutLook .zsh oneRow none terminal [104] emptyScreen) longPrompt).1
    let asked := narrowed.asked oneCell cutLook w
    let after := (narrowed.step oneCell cutLook w).1
    Remembered oneCell after ∧ ∃ lines shown, asked.loop.lastHeader = some lines ∧
      Legible oneCell asked.screen.width lines shown ∧ Holds oneCell asked.screen shown ∧
      Cleared 1 (shown.flatMap (Screen.wrapped oneCell 3)).length narrowed.rewrapped after.screen := by
  have long : Legible oneCell 80 [[97,98,99,100]] [['a','b','c','d']] :=
    ⟨[['a','b','c','d']],by decide,.cons (Screen.showsText (by decide)) .nil,by decide⟩
  have cut : Legible oneCell 3 [[97,98,99]] [['a','b','c']] :=
    ⟨[['a','b','c']],by decide,.cons (Screen.showsText (by decide)) .nil,by decide⟩
  have typed : Screen.Shows oneCell ['l','s'] ['l','s'] := Screen.showsText (by decide)
  refine reflowCleared oneCell cutLook .zsh oneRow none terminal [104] emptyScreen longPrompt 1 [] narrowed
    ⟨⟨⟨by decide,by decide,trivial⟩,⟨by decide,by decide,trivial⟩,trivial⟩,
      ⟨⟨by decide,by decide,trivial⟩,?_,trivial⟩,trivial⟩
    (by decide) (by decide) (by decide) (by decide) (by decide) (by decide) trivial ?_
  · exact ⟨by decide,by decide,by decide,_,long⟩
  exact {
    typed := ⟨⟨by decide,fun _ => Screen.showsStays typed (by decide) (by decide),trivial⟩,trivial⟩
    atPrompt := by decide
    rewraps := narrowedRewraps _ (by decide)
    size := ⟨⟨24,3,0,0⟩,rfl,by decide,by decide⟩
    between := by
      refine ⟨⟨⟨by decide,⟨⟨by decide,by decide,by decide,_,cut⟩,trivial⟩,fun _ rows acked => ?_⟩,?_⟩,trivial⟩
      · cases acked
        rfl
      · rintro what ⟨⟩
        exact .inr fun _ _ other => by cases other
    reprints := ⟨by decide,by decide,fun _ _ => rfl⟩
    fits := by decide
    signal := ⟨⟨by decide,by decide,by decide,by decide,by decide⟩,⟨by decide,by decide,by decide,_,cut⟩,trivial⟩ }

end P11k.Engine
