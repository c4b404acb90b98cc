import Mathlib.Data.List.Forall2
import Mathlib.Logic.Function.Basic
import P11k.Lib.Terminal

/-! The screen of a terminal: its cells, the cursor, the cursor that was saved, and what each character that is
sent to it does. A row is wrapped when the next character no longer fits, and a line feed at the bottom scrolls. -/
namespace P11k
open P11k.Terminal

structure Screen where
  height : Nat
  width : Nat
  /-- What is drawn in a cell, by row and column. A wide character is drawn in its first cell. -/
  cells : Nat → Nat → List Char
  row : Nat
  col : Nat
  saved : Nat × Nat
  mode : Mode

namespace Screen
variable (charWidth : Char → Nat)

def blank : Nat → List Char := fun _ => []

def span (t : List Char) : Nat := (t.map charWidth).sum

/-- A character of no width joins the one before it. -/
def place (cells : Nat → List Char) (col : Nat) (c : Char) : Nat → List Char :=
  if charWidth c = 0 then
    if col = 0 then cells else Function.update cells (col - 1) (cells (col - 1) ++ [c])
  else fun k => if k = col then [c] else if col < k ∧ k < col + charWidth c then [] else cells k

/-- What a row holds once a text is written into it from a column on. -/
def drawn : Nat → (Nat → List Char) → List Char → Nat → List Char
  | _, cells, [] => cells
  | col, cells, c :: t => drawn (col + charWidth c) (place charWidth cells col c) t

def carriageReturn (s : Screen) : Screen := { s with col := 0 }

/-- The rows move up, and blank ones follow them. -/
def scrolled (height n : Nat) (cells : Nat → Nat → List Char) (r : Nat) : Nat → List Char :=
  if r + n < height then cells (r + n) else if r < height then blank else cells r

def lineFeed (s : Screen) : Screen :=
  if s.row + 1 < s.height then { s with row := s.row + 1 }
  else { s with cells := scrolled s.height 1 s.cells }

def put (s : Screen) (c : Char) : Screen :=
  let s := if charWidth c = 0 ∨ s.col + charWidth c ≤ s.width then s else lineFeed (carriageReturn s)
  { s with
    cells := Function.update s.cells s.row (place charWidth (s.cells s.row) s.col c)
    col := s.col + charWidth c }

def eraseRight (s : Screen) : Screen :=
  let kept := fun k => if min s.col (s.width - 1) ≤ k then [] else s.cells s.row k
  { s with cells := Function.update s.cells s.row kept }

/-- A count that is left out or zero is one. -/
def count (params : List Char) : Nat := max ((Text.parseDigits params).getD 1) 1

/-- The sequences that move the cursor or erase; the others leave the screen as it is. -/
def sequence (s : Screen) (params : List Char) (final : Char) : Screen :=
  if final = 'A' then { s with row := s.row - count params }
  else if final = 'B' then { s with row := min (s.row + count params) (s.height - 1) }
  else if final = 'K' ∧ params = [] then eraseRight s
  else if final = 'H' ∧ params = [] then { s with row := 0, col := 0 }
  else if final = 'J' ∧ params = ['2'] then { s with cells := fun _ => blank }
  else s

def act (s : Screen) (c : Char) : Screen :=
  match s.mode with
  | .ground =>
      if c = '\r' then carriageReturn s else if c = '\n' then lineFeed s
      else if control c then s else put charWidth s c
  | .escape =>
      if c = '7' then { s with saved := (s.row,s.col) }
      else if c = '8' then { s with row := s.saved.1, col := s.saved.2 }
      else s
  | .csi params => if paramChar c then s else sequence s params c
  | .osc => s

def step (s : Screen) (c : Char) : Screen := { act charWidth s c with mode := (Terminal.step ⟨s.mode,false⟩ c).mode }

def feed (s : Screen) (t : List Char) : Screen := t.foldl (step charWidth) s

variable {charWidth}

theorem feedAppend (s : Screen) (t u : List Char) : feed charWidth s (t ++ u) = feed charWidth (feed charWidth s t) u :=
  List.foldl_append

theorem feedCons (s : Screen) (c : Char) (t : List Char) : feed charWidth s (c :: t) = feed charWidth (step charWidth s c) t :=
  rfl

theorem lineFeedSize (s : Screen) : (lineFeed s).height = s.height ∧ (lineFeed s).width = s.width := by
  unfold lineFeed
  split <;> exact ⟨rfl,rfl⟩

theorem lineFeedSaved (s : Screen) (saved : Nat × Nat) :
    lineFeed { s with saved := saved } = { lineFeed s with saved := saved } := by
  unfold lineFeed
  by_cases room : s.row + 1 < s.height
  · simp only [if_pos room]
  · simp only [if_neg room]

theorem putSize (s : Screen) (c : Char) :
    (put charWidth s c).height = s.height ∧ (put charWidth s c).width = s.width := by
  unfold put
  split
  · exact ⟨rfl,rfl⟩
  · exact lineFeedSize (carriageReturn s)

theorem actSize (s : Screen) (c : Char) :
    (act charWidth s c).height = s.height ∧ (act charWidth s c).width = s.width := by
  unfold act sequence
  repeat' split
  all_goals first | exact ⟨rfl,rfl⟩ | exact lineFeedSize s | exact putSize s c

variable (charWidth) in
theorem feedSize (s : Screen) (t : List Char) :
    (feed charWidth s t).height = s.height ∧ (feed charWidth s t).width = s.width := by
  induction t generalizing s with
  | nil => exact ⟨rfl,rfl⟩
  | cons c t ih =>
    obtain ⟨height,width⟩ := ih (step charWidth s c)
    rw [feedCons,height,width]
    exact actSize s c

/-! Sequences. -/

def csi (params : List Char) (final : Char) : List Char := '\x1b' :: '[' :: (params ++ [final])

def osc (text : List Char) : List Char := '\x1b' :: ']' :: (text ++ ['\x07'])

def save : List Char := ['\x1b','7']

def restore : List Char := ['\x1b','8']

theorem stepGround {s : Screen} (ground : s.mode = .ground) {c : Char} (other : c ≠ '\x1b') :
    step charWidth s c = { act charWidth s c with mode := .ground } := by
  rw [step,ground]
  exact congrArg (fun m => { act charWidth s c with mode := m }) (congrArg Pen.mode (if_neg other))

theorem feedParams {params : List Char} (params' : ∀ c ∈ params, paramChar c = true) (s : Screen) (front : List Char) :
    feed charWidth { s with mode := .csi front } params = { s with mode := .csi (front ++ params) } := by
  induction params generalizing front with
  | nil => rw [List.append_nil]; rfl
  | cons c params ih =>
    have param := params' c List.mem_cons_self
    have one : step charWidth { s with mode := .csi front } c = { s with mode := .csi (front ++ [c]) } := by
      simp only [step,act,Terminal.step,param,if_true]
    rw [feedCons,one,ih (fun d mem => params' d (List.mem_cons_of_mem c mem)),List.append_assoc]
    rfl

theorem sequenceMode (s : Screen) (m m' : Mode) (params : List Char) (final : Char) :
    { sequence { s with mode := m } params final with mode := m' } = { sequence s params final with mode := m' } := by
  simp only [sequence,eraseRight]
  repeat' split
  all_goals rfl

theorem sequenceGround {s : Screen} (ground : s.mode = .ground) (params : List Char) (final : Char) :
    { sequence s params final with mode := .ground } = sequence s params final := by
  simp only [sequence,eraseRight]
  repeat' split
  all_goals rw [← ground]

variable (charWidth) in
theorem feedCsi {s : Screen} (ground : s.mode = .ground) {params : List Char}
    (params' : ∀ c ∈ params, paramChar c = true) {final : Char} (last : paramChar final = false) :
    feed charWidth s (csi params final) = sequence s params final := by
  have opens : feed charWidth s (csi params final) =
      feed charWidth { s with mode := .csi [] } (params ++ [final]) := by
    rw [csi,feedCons,feedCons]
    simp only [step,act,ground,Terminal.step]
    rfl
  have closes : ∀ s : Screen, s.mode = .csi params →
      step charWidth s final = { sequence s params final with mode := .ground } := by
    intro s inside
    simp only [step,act,inside,Terminal.step,last,Bool.false_eq_true,if_false]
    split <;> rfl
  rw [opens,feedAppend,feedParams params',List.nil_append,feedCons,closes _ rfl]
  exact (sequenceMode s _ _ params final).trans (sequenceGround ground params final)

variable (charWidth) in
theorem feedUp {s : Screen} (ground : s.mode = .ground) {n : Nat} (some' : 1 ≤ n) :
    feed charWidth s (csi (Text.decimal n) 'A') = { s with row := s.row - n } := by
  have times : count (Text.decimal n) = n := by rw [count,Text.parseDecimal,Option.getD_some,Nat.max_eq_left some']
  have moved : sequence s (Text.decimal n) 'A' = { s with row := s.row - count (Text.decimal n) } := rfl
  rw [feedCsi _ ground (fun _ mem => decimalParam mem) (by decide),moved,times]

variable (charWidth) in
theorem feedDown {s : Screen} (ground : s.mode = .ground) (room : s.row + 1 < s.height) :
    feed charWidth s (csi ['1'] 'B') = { s with row := s.row + 1 } := by
  have next : min (s.row + count ['1']) (s.height - 1) = s.row + 1 := by
    rw [show count ['1'] = 1 by decide]
    omega
  have moved : sequence s ['1'] 'B' = { s with row := min (s.row + count ['1']) (s.height - 1) } := rfl
  rw [feedCsi _ ground (List.forall_mem_singleton.mpr (by decide)) (by decide),moved,next]

theorem feedErase {s : Screen} (ground : s.mode = .ground) :
    feed charWidth s (csi [] 'K') = eraseRight s := by
  rw [feedCsi _ ground (fun _ none' => absurd none' List.not_mem_nil) (by decide)]
  rfl

variable (charWidth) in
theorem feedHome {s : Screen} (ground : s.mode = .ground) :
    feed charWidth s (csi [] 'H') = { s with row := 0, col := 0 } := by
  rw [feedCsi _ ground (fun _ none' => absurd none' List.not_mem_nil) (by decide)]
  rfl

variable (charWidth) in
theorem feedEraseAll {s : Screen} (ground : s.mode = .ground) :
    feed charWidth s (csi ['2'] 'J') = { s with cells := fun _ => blank } := by
  rw [feedCsi _ ground (List.forall_mem_singleton.mpr (by decide)) (by decide)]
  rfl

theorem feedSave {s : Screen} (ground : s.mode = .ground) :
    feed charWidth s save = { s with saved := (s.row,s.col) } := by
  simp only [save,feed,List.foldl_cons,List.foldl_nil,step,act,ground,Terminal.step]
  rw [← ground]
  rfl

theorem feedRestore {s : Screen} (ground : s.mode = .ground) :
    feed charWidth s restore = { s with row := s.saved.1, col := s.saved.2 } := by
  simp only [restore,feed,List.foldl_cons,List.foldl_nil,step,act,ground,Terminal.step]
  rw [← ground]
  rfl

/-- Between a save and a restore the cursor may go anywhere. -/
theorem feedAround {s after : Screen} (ground : s.mode = .ground) {t : List Char}
    (inner : feed charWidth { s with saved := (s.row,s.col) } t = after) (ground' : after.mode = .ground)
    (kept : after.saved = (s.row,s.col)) :
    feed charWidth s (save ++ t ++ restore) = { after with row := s.row, col := s.col } := by
  rw [feedAppend,feedAppend,feedSave ground,inner,feedRestore ground',kept]

theorem feedPaints {t : List Char} (paints : Paints t) {s : Screen} (ground : s.mode = .ground) :
    feed charWidth s t = s := by
  induction paints with
  | nil => rfl
  | cons params' _ ih =>
    have one := feedCsi charWidth ground params' (by decide : paramChar 'm' = false)
    rw [feedAppend]
    exact (congrArg (feed charWidth · _) one).trans ih

theorem feedOsc {t : List Char} (quiet : '\x1b' ∉ t ∧ '\x07' ∉ t) (s : Screen) :
    feed charWidth { s with mode := .osc } t = { s with mode := .osc } := by
  induction t with
  | nil => rfl
  | cons c t ih =>
    obtain ⟨inside,rest⟩ := stepOsc quiet false
    have one : step charWidth { s with mode := .osc } c = { s with mode := .osc } :=
      congrArg (fun p : Pen => { s with mode := p.mode }) inside
    rw [feedCons,one]
    exact ih rest

theorem feedCommand {t : List Char} (quiet : '\x1b' ∉ t ∧ '\x07' ∉ t) {s : Screen} (ground : s.mode = .ground) :
    feed charWidth s (osc t) = s := by
  have opens : feed charWidth s (osc t) = feed charWidth { s with mode := .osc } (t ++ ['\x07']) := by
    rw [osc,feedCons,feedCons]
    simp only [step,act,ground,Terminal.step]
    rfl
  rw [opens,feedAppend,feedOsc quiet]
  exact congrArg (fun m => { s with mode := m }) ground.symm

/-! Texts that fit into their row. -/

/-- The text stands in the row, and nothing else moves but the cursor behind it. -/
def write (charWidth : Char → Nat) (s : Screen) (t : List Char) : Screen :=
  { s with
    cells := Function.update s.cells s.row (drawn charWidth s.col (s.cells s.row) t)
    col := s.col + span charWidth t }

theorem writeNone (s : Screen) : write charWidth s [] = s := by
  simp only [write,drawn,Function.update_eq_self,span,List.map_nil,List.sum_nil,Nat.add_zero]

theorem drawnAppend (col : Nat) (cells : Nat → List Char) (t u : List Char) :
    drawn charWidth col cells (t ++ u) = drawn charWidth (col + span charWidth t) (drawn charWidth col cells t) u := by
  induction t generalizing col cells with
  | nil => rfl
  | cons c t ih =>
    simp only [List.cons_append,drawn,ih,span,List.map_cons,List.sum_cons,Nat.add_assoc]

theorem spanAppend (t u : List Char) : span charWidth (t ++ u) = span charWidth t + span charWidth u := by
  simp [span]

theorem writeAppend (s : Screen) (t u : List Char) :
    write charWidth s (t ++ u) = write charWidth (write charWidth s t) u := by
  simp only [write,drawnAppend,spanAppend,Function.update_self,Function.update_idem,Nat.add_assoc]

/-- Where it has room, `t` shows `shown` and does nothing else. -/
def Shows (charWidth : Char → Nat) (t shown : List Char) : Prop :=
  ∀ s : Screen, s.mode = .ground → s.col + span charWidth shown ≤ s.width →
    feed charWidth s t = write charWidth s shown

theorem showsAppend {t u a b : List Char} (first : Shows charWidth t a) (rest : Shows charWidth u b) :
    Shows charWidth (t ++ u) (a ++ b) := by
  intro s ground fits
  rw [spanAppend] at fits
  rw [feedAppend,first s ground (by omega),writeAppend]
  exact rest _ ground (by simp only [write]; omega)

theorem showsNothing {t : List Char} (still : ∀ s : Screen, s.mode = .ground → feed charWidth s t = s) :
    Shows charWidth t [] := fun s ground _ => (still s ground).trans (writeNone s).symm

theorem showsChar {c : Char} (plain : control c = false) : Shows charWidth [c] [c] := by
  intro s ground fits
  have other : c ≠ '\x1b' ∧ c ≠ '\r' ∧ c ≠ '\n' := by
    refine ⟨?_,?_,?_⟩ <;> rintro rfl <;> exact absurd plain (by decide)
  have room : charWidth c = 0 ∨ s.col + charWidth c ≤ s.width := .inr (by simpa [span] using fits)
  rw [feedCons,stepGround ground other.1]
  simp only [act,ground,if_neg other.2.1,if_neg other.2.2,plain,Bool.false_eq_true,if_false,put,if_pos room]
  simp only [feed,List.foldl_nil,write,drawn,span,List.map_cons,List.map_nil,List.sum_cons,List.sum_nil,Nat.add_zero]
  rw [ground]

theorem showsText {t : List Char} (plain : Plain t) : Shows charWidth t t := by
  induction t with
  | nil => exact showsNothing fun _ _ => rfl
  | cons c t ih =>
    exact showsAppend (t := [c]) (showsChar (plain c List.mem_cons_self))
      (ih fun d mem => plain d (List.mem_cons_of_mem c mem))

/-! Rows. -/

def newline : List Char := ['\r','\n']

variable (charWidth) in
theorem feedReturn {s : Screen} (ground : s.mode = .ground) : feed charWidth s ['\r'] = carriageReturn s := by
  rw [feedCons,stepGround ground (by decide)]
  simp only [act,ground,if_true,feed,List.foldl_nil,carriageReturn]

theorem feedLine {s : Screen} (ground : s.mode = .ground) : feed charWidth s ['\n'] = lineFeed s := by
  have kept : (lineFeed s).mode = .ground := by
    rw [lineFeed]
    split <;> exact ground
  rw [feedCons,stepGround ground (by decide)]
  simp only [act,ground,if_neg (by decide : '\n' ≠ '\r'),if_true,feed,List.foldl_nil]
  exact congrArg (fun m => { lineFeed s with mode := m }) kept.symm

theorem feedNewline {s : Screen} (ground : s.mode = .ground) :
    feed charWidth s newline = lineFeed (carriageReturn s) := by
  have first : feed charWidth s newline = feed charWidth (feed charWidth s ['\r']) ['\n'] := rfl
  rw [first,feedReturn _ ground]
  exact feedLine ground

theorem scrolledNone (height : Nat) (cells : Nat → Nat → List Char) : scrolled height 0 cells = cells := by
  funext r
  unfold scrolled
  split
  · rfl
  · split
    · omega
    · rfl

theorem scrolledMore (height m n : Nat) (cells : Nat → Nat → List Char) :
    scrolled height m (scrolled height n cells) = scrolled height (m + n) cells := by
  funext r
  simp only [scrolled]
  repeat' split
  all_goals first | omega | rw [Nat.add_assoc] | rfl

/-- Down `n` rows, and up again with everything on the screen by the rows that are missing at the bottom. -/
def fallen (s : Screen) (n : Nat) : Screen :=
  { s with
    cells := scrolled s.height (s.row + n - (s.height - 1)) s.cells
    row := min (s.row + n) (s.height - 1)
    col := if n = 0 then s.col else 0 }

theorem fallenNone {s : Screen} (inside : s.row < s.height) : fallen s 0 = s := by
  have none' : s.row + 0 - (s.height - 1) = 0 := by omega
  have here : min (s.row + 0) (s.height - 1) = s.row := by omega
  simp only [fallen,none',here,scrolledNone,if_true]

theorem fallenNext {s : Screen} (inside : s.row < s.height) (n : Nat) :
    lineFeed (carriageReturn (fallen s n)) = fallen s (n + 1) := by
  have col : (if n + 1 = 0 then s.col else 0) = 0 := if_neg (Nat.succ_ne_zero n)
  by_cases room : min (s.row + n) (s.height - 1) + 1 < s.height
  · have same : s.row + (n + 1) - (s.height - 1) = s.row + n - (s.height - 1) := by omega
    have down : min (s.row + (n + 1)) (s.height - 1) = min (s.row + n) (s.height - 1) + 1 := by omega
    refine (if_pos room).trans ?_
    conv_rhs => rw [fallen,same,down,col]
    rfl
  · have more : s.row + (n + 1) - (s.height - 1) = 1 + (s.row + n - (s.height - 1)) := by omega
    have down : min (s.row + (n + 1)) (s.height - 1) = min (s.row + n) (s.height - 1) := by omega
    refine (if_neg room).trans ?_
    conv_rhs => rw [fallen,more,down,col,← scrolledMore]
    rfl

theorem feedNewlines {s : Screen} (ground : s.mode = .ground) (inside : s.row < s.height) (n : Nat) :
    feed charWidth s (List.replicate n newline).flatten = fallen s n := by
  induction n with
  | zero => exact (fallenNone inside).symm
  | succ n ih =>
    rw [List.replicate_succ',List.flatten_append,feedAppend,ih,List.flatten_singleton,feedNewline (s := fallen s n) ground]
    exact fallenNext inside n

/-- Each text in a row of its own, from row `top` on. -/
def fill (charWidth : Char → Nat) (top : Nat) (texts : List (List Char)) (cells : Nat → Nat → List Char) (r : Nat) :
    Nat → List Char :=
  if top ≤ r then (texts[r - top]?).elim (cells r) (drawn charWidth 0 blank) else cells r

theorem fillNone (top : Nat) (cells : Nat → Nat → List Char) : fill charWidth top [] cells = cells := by
  funext r
  simp [fill]

theorem fillCons (top : Nat) (t : List Char) (texts : List (List Char)) (cells : Nat → Nat → List Char) :
    fill charWidth top (t :: texts) cells =
      fill charWidth (top + 1) texts (Function.update cells top (drawn charWidth 0 blank t)) := by
  funext r
  simp only [fill]
  rcases Nat.lt_trichotomy r top with above | rfl | below
  · rw [if_neg (by omega),if_neg (by omega),Function.update_of_ne (by omega)]
  · rw [if_pos (le_refl r),if_neg (by omega),Nat.sub_self,Function.update_self]
    rfl
  · have next : r - top = r - (top + 1) + 1 := by omega
    rw [if_pos (by omega),if_pos (by omega),next,List.getElem?_cons_succ,Function.update_of_ne (by omega)]

variable (charWidth) in
theorem feedClear {s : Screen} (ground : s.mode = .ground) :
    feed charWidth s ('\r' :: csi [] 'K') = { s with cells := Function.update s.cells s.row blank, col := 0 } := by
  have returns : feed charWidth s ('\r' :: csi [] 'K') = feed charWidth (feed charWidth s ['\r']) (csi [] 'K') := rfl
  rw [returns,feedReturn _ ground,feedErase (s := carriageReturn s) ground]
  simp only [eraseRight,carriageReturn,Nat.zero_min,Nat.zero_le,if_true]
  rfl

def block (lines : List (List Char)) : List Char := lines.flatMap fun line => '\r' :: (csi [] 'K' ++ line ++ newline)

theorem feedRow {line text : List Char} (shows : Shows charWidth line text) {s : Screen} (ground : s.mode = .ground)
    (fits : span charWidth text ≤ s.width) (room : s.row + 1 < s.height) :
    feed charWidth s ('\r' :: (csi [] 'K' ++ line ++ newline)) =
      { s with
        cells := Function.update s.cells s.row (drawn charWidth 0 blank text)
        row := s.row + 1
        col := 0 } := by
  have erases := feedClear charWidth ground
  have writes := shows { s with cells := Function.update s.cells s.row blank, col := 0 } ground
    (by simpa using fits)
  have clears : feed charWidth s ('\r' :: (csi [] 'K' ++ line ++ newline)) =
      feed charWidth (feed charWidth s ('\r' :: csi [] 'K')) (line ++ newline) := by
    rw [← feedAppend,List.cons_append,List.append_assoc]
  have ends : feed charWidth (write charWidth { s with cells := Function.update s.cells s.row blank, col := 0 } text)
      newline = lineFeed (carriageReturn (write charWidth { s with
        cells := Function.update s.cells s.row blank, col := 0 } text)) := feedNewline ground
  rw [clears,erases,feedAppend,writes,ends]
  simp only [write,carriageReturn,lineFeed,if_pos room,Function.update_self,Function.update_idem]

theorem feedBlock {lines texts : List (List Char)} (shows : List.Forall₂ (Shows charWidth) lines texts) {s : Screen}
    (ground : s.mode = .ground) (fits : ∀ t ∈ texts, span charWidth t ≤ s.width)
    (room : s.row + texts.length < s.height) :
    feed charWidth s (block lines) =
      { s with
        cells := fill charWidth s.row texts s.cells
        row := s.row + texts.length
        col := if texts = [] then s.col else 0 } := by
  induction shows generalizing s with
  | nil => simp [block,feed,fillNone]
  | @cons line text lines texts first rest ih =>
    rw [List.length_cons] at room
    have here := feedRow first ground (fits text List.mem_cons_self) (by omega : s.row + 1 < s.height)
    have whole : block (line :: lines) = '\r' :: (csi [] 'K' ++ line ++ newline) ++ block lines := rfl
    have behind := ih (s := { s with
        cells := Function.update s.cells s.row (drawn charWidth 0 blank text)
        row := s.row + 1
        col := 0 }) ground (fun t mem => fits t (List.mem_cons_of_mem text mem)) (by simp only; omega)
    have next : s.row + 1 + texts.length = s.row + (text :: texts).length := by rw [List.length_cons]; omega
    rw [whole,feedAppend,here,behind]
    simp only [fillCons,next,ite_self,if_neg (List.cons_ne_nil text texts)]

def sweep (rows : Nat) : List Char :=
  (List.range rows).flatMap fun i => ('\r' :: csi [] 'K') ++ if i + 1 < rows then csi ['1'] 'B' else []

theorem sweepMore (n : Nat) : sweep (n + 2) = ('\r' :: csi [] 'K') ++ (csi ['1'] 'B' ++ sweep (n + 1)) := by
  have later : ∀ i, i + 1 + 1 < n + 2 ↔ i + 1 < n + 1 := fun i => by omega
  rw [sweep,List.range_succ_eq_map,List.flatMap_cons,if_pos (by omega),List.flatMap_map,List.append_assoc]
  simp only [Nat.succ_eq_add_one,later]
  rfl

variable (charWidth) in
theorem feedSweep {s : Screen} (ground : s.mode = .ground) {n : Nat} (room : s.row + n < s.height) :
    feed charWidth s (sweep (n + 1)) =
      { s with cells := fill charWidth s.row (List.replicate (n + 1) []) s.cells, row := s.row + n, col := 0 } := by
  induction n generalizing s with
  | zero =>
    have one : sweep 1 = '\r' :: csi [] 'K' := by decide
    rw [one,feedClear _ ground,List.replicate_one,fillCons,fillNone]
    rfl
  | succ n ih =>
    have down := feedDown charWidth
      (s := { s with cells := Function.update s.cells s.row blank, col := 0 }) ground (by simp only; omega)
    have rest := ih (s := { s with cells := Function.update s.cells s.row blank, row := s.row + 1, col := 0 }) ground
      (by simp only; omega)
    have next : s.row + 1 + n = s.row + (n + 1) := by omega
    rw [sweepMore,feedAppend,feedClear _ ground,feedAppend,down,rest,List.replicate_succ (n := n + 1),fillCons,next]
    rfl

/-! Rows that hold what was last written into them. -/

/-- The rows right above the cursor show the texts, one each. -/
def Holds (charWidth : Char → Nat) (s : Screen) (texts : List (List Char)) : Prop :=
  texts.length ≤ s.row ∧
    ∀ i t, texts[i]? = some t → s.cells (s.row - texts.length + i) = drawn charWidth 0 blank t

theorem holdsFill {s : Screen} {texts : List (List Char)} (holds : Holds charWidth s texts) :
    fill charWidth (s.row - texts.length) texts s.cells = s.cells := by
  funext r
  rw [fill]
  split
  · rename_i below
    cases found : texts[r - (s.row - texts.length)]? with
    | none => rfl
    | some t =>
      have here := holds.2 _ t found
      rw [Nat.add_sub_cancel' below] at here
      exact here.symm
  · rfl

theorem fillHolds {s : Screen} {texts : List (List Char)} (room : texts.length ≤ s.row) (cells : Nat → Nat → List Char)
    (filled : s.cells = fill charWidth (s.row - texts.length) texts cells) : Holds charWidth s texts := by
  refine ⟨room,fun i t found => ?_⟩
  rw [filled,fill,if_pos (Nat.le_add_right _ i),Nat.add_sub_cancel_left,found,Option.elim_some]

/-- The rows above the cursor are as they were, and so is the row that it stands in. -/
structure StaysInRow (s after : Screen) : Prop where
  ground : after.mode = .ground
  row : after.row = s.row
  above : ∀ r < s.row, after.cells r = s.cells r

theorem showsStays {t shown : List Char} (shows : Shows charWidth t shown) {s : Screen} (ground : s.mode = .ground)
    (fits : s.col + span charWidth shown ≤ s.width) : StaysInRow s (feed charWidth s t) := by
  rw [shows s ground fits]
  exact ⟨ground,rfl,fun r above => Function.update_of_ne (Nat.ne_of_lt above) _ _⟩

theorem showsSaved {t shown : List Char} (shows : Shows charWidth t shown) {s : Screen} (ground : s.mode = .ground)
    (fits : s.col + span charWidth shown ≤ s.width) (saved : Nat × Nat) :
    feed charWidth { s with saved := saved } t = { feed charWidth s t with saved := saved } := by
  rw [shows s ground fits,shows { s with saved := saved } ground fits]
  rfl

theorem holdsStill {s after : Screen} (stays : StaysInRow s after) {texts : List (List Char)}
    (holds : Holds charWidth s texts) : Holds charWidth after texts := by
  refine ⟨stays.row ▸ holds.1,fun i t found => ?_⟩
  have inside : i < texts.length := (List.getElem?_eq_some_iff.mp found).1
  have room := holds.1
  rw [stays.row,stays.above _ (by omega)]
  exact holds.2 i t found

theorem fillOutside {top r : Nat} {texts : List (List Char)} (outside : r < top ∨ top + texts.length ≤ r)
    (cells : Nat → Nat → List Char) : fill charWidth top texts cells r = cells r := by
  rw [fill]
  split
  · have past : texts.length ≤ r - top := by omega
    rw [List.getElem?_eq_none past,Option.elim_none]
  · rfl

/-! A line in a terminal of another width. -/

def wrapLoop (charWidth : Char → Nat) (cols : Nat) : List Char → Nat → List Char → List (List Char)
  | row, _, [] => [row]
  | row, col, c :: t =>
      if col + charWidth c ≤ cols then wrapLoop charWidth cols (row ++ [c]) (col + charWidth c) t
      else row :: wrapLoop charWidth cols [c] (charWidth c) t

/-- The rows that a line takes, one at least. -/
def wrapped (charWidth : Char → Nat) (cols : Nat) (t : List Char) : List (List Char) := wrapLoop charWidth cols [] 0 t

theorem wrapLoopRows {cols : Nat} (some' : 1 ≤ cols) {t : List Char} (narrow : ∀ c ∈ t, charWidth c ≤ 1) {row : List Char}
    {col : Nat} (inside : col ≤ cols) :
    (wrapLoop charWidth cols row col t).length = max 1 ((col + span charWidth t + cols - 1) / cols) := by
  induction t generalizing row col with
  | nil =>
    have most : (col + cols - 1) / cols ≤ 1 := Nat.le_of_lt_succ (Nat.div_lt_of_lt_mul (by omega))
    simp only [wrapLoop,List.length_singleton,span,List.map_nil,List.sum_nil,Nat.add_zero]
    omega
  | cons c t ih =>
    have wide := narrow c List.mem_cons_self
    have narrow' : ∀ d ∈ t, charWidth d ≤ 1 := fun d mem => narrow d (List.mem_cons_of_mem c mem)
    have whole : span charWidth (c :: t) = charWidth c + span charWidth t := by
      simp only [span,List.map_cons,List.sum_cons]
    rw [wrapLoop,whole]
    split
    · rename_i fits
      rw [ih narrow' fits,Nat.add_assoc col]
    · rename_i full
      have one : charWidth c = 1 := by omega
      have last : col = cols := by omega
      have here : (1 + span charWidth t + cols - 1) / cols = span charWidth t / cols + 1 := by
        rw [← Nat.add_div_right _ (by omega : 0 < cols)]
        congr 1
        omega
      have both : (cols + (1 + span charWidth t) + cols - 1) / cols = span charWidth t / cols + 1 + 1 := by
        rw [← Nat.add_div_right _ (by omega : 0 < cols),← Nat.add_div_right _ (by omega : 0 < cols)]
        congr 1
        omega
      rw [List.length_cons,one,ih narrow' (by omega),last,here,both,Nat.max_eq_right (Nat.le_add_left 1 _),
        Nat.max_eq_right (Nat.le_add_left 1 _)]

/-- With no character wider than a column, the rows are the width divided and rounded up. -/
theorem wrappedRows {cols : Nat} (some' : 1 ≤ cols) {t : List Char} (narrow : ∀ c ∈ t, charWidth c ≤ 1) :
    (wrapped charWidth cols t).length =
      if span charWidth t = 0 then 1 else (span charWidth t + cols - 1) / cols := by
  rw [wrapped,wrapLoopRows some' narrow (Nat.zero_le cols),Nat.zero_add]
  split
  · rename_i empty
    have most : (0 + cols - 1) / cols ≤ 1 := Nat.le_of_lt_succ (Nat.div_lt_of_lt_mul (by omega))
    rw [empty]
    omega
  · have least : 1 ≤ (span charWidth t + cols - 1) / cols := (Nat.le_div_iff_mul_le (by omega)).mpr (by omega)
    omega

end Screen
end P11k
