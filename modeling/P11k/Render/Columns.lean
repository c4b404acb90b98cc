import P11k.Render.Fits

/-! Display width against the columns that a terminal shows, for texts with colours and links. The width skips
every sequence up to an `m`, which is where a colour ends, but not where a link does. -/
namespace P11k.Render
open P11k P11k.Settings P11k.Terminal

section columns
variable (charWidth : Char → Nat)

def textWidth (t : Str) : Nat := (t.map charWidth).sum

/-- The columns of what reaches the screen. -/
def shownWidth (s : Str) : Nat := textWidth charWidth (printed {} s)

def upToM : Str → Str
  | [] => []
  | c :: s => if c = 'm' then [c] else c :: upToM s

def behindM : Str → Str
  | [] => []
  | c :: s => if c = 'm' then s else behindM s

/-- What a text makes of the width, when `true` says that a sequence is still being skipped before it. -/
structure Miscount where
  shown : Str
  /-- Columns that are shown and not counted. -/
  lost : Bool → Nat
  /-- Columns that are counted and not shown. -/
  leaked : Nat
  /-- Whether a sequence is still being skipped behind it. -/
  skipping : Bool → Bool

def Miscount.nothing : Miscount := ⟨[],fun _ => 0,0,id⟩

def Miscount.append (a b : Miscount) : Miscount where
  shown := a.shown ++ b.shown
  lost skipped := a.lost skipped + b.lost (a.skipping skipped)
  leaked := a.leaked + b.leaked
  skipping := b.skipping ∘ a.skipping

structure Counted (s : Str) (m : Miscount) : Prop where
  width : ∀ b, widthFrom charWidth b s + m.lost b = textWidth charWidth m.shown + m.leaked
  after : ∀ b, escAfter b s = m.skipping b
  shown : ∀ b, printed ⟨.ground,b⟩ s = m.shown
  ground : ∀ b, (run ⟨.ground,b⟩ s).mode = .ground

variable {charWidth}

theorem textWidthAppend (s t : Str) : textWidth charWidth (s ++ t) = textWidth charWidth s + textWidth charWidth t := by
  simp [textWidth]

theorem groundRun {b : Bool} {s : Str} (ground : (run ⟨.ground,b⟩ s).mode = .ground) :
    ∃ b', run ⟨.ground,b⟩ s = ⟨.ground,b'⟩ := by
  cases pen : run ⟨.ground,b⟩ s with
  | mk mode painted =>
    rw [pen] at ground
    exact ⟨painted,by rw [← ground]⟩

theorem countedNothing : Counted charWidth [] .nothing where
  width _ := rfl
  after _ := by simp [escAfter,Miscount.nothing]
  shown _ := rfl
  ground _ := rfl

theorem Counted.append {s t : Str} {a b : Miscount} (first : Counted charWidth s a) (rest : Counted charWidth t b) :
    Counted charWidth (s ++ t) (a.append b) where
  width skipped := by
    have front := first.width skipped
    have back := rest.width (a.skipping skipped)
    have split : textWidth charWidth (a.append b).shown = textWidth charWidth a.shown + textWidth charWidth b.shown :=
      textWidthAppend _ _
    rw [widthAppend,first.after,split]
    simp only [Miscount.append]
    omega
  after skipped := by
    rw [escAppend,first.after,rest.after]
    rfl
  shown b := by
    obtain ⟨b',there⟩ := groundRun (first.ground b)
    rw [printedAppend,there,first.shown,rest.shown]
    rfl
  ground b := by
    obtain ⟨b',there⟩ := groundRun (first.ground b)
    rw [runAppend,there]
    exact rest.ground b'

/-! Texts and colours. -/

theorem quietWidth {t : Str} (quiet : esc ∉ t) : widthFrom charWidth false t = textWidth charWidth t := by
  induction t with
  | nil => rfl
  | cons c t ih =>
    rw [List.mem_cons,not_or] at quiet
    rw [widthFrom,if_neg (Ne.symm quiet.1),ih quiet.2]
    rfl

theorem skippedText {t : Str} (quiet : esc ∉ t) :
    widthFrom charWidth true t + textWidth charWidth (upToM t) = textWidth charWidth t ∧
      escAfter true t = decide ('m' ∉ t) := by
  induction t with
  | nil => exact ⟨rfl,rfl⟩
  | cons c t ih =>
    rw [List.mem_cons,not_or] at quiet
    rw [widthFrom,escAfter,upToM]
    by_cases last : c = 'm'
    · subst last
      have counted := @quietWidth charWidth _ quiet.2
      have after := textAfter quiet.2
      simp [counted,after,textWidth,Nat.add_comm]
    · obtain ⟨width,after⟩ := ih quiet.2
      have other : (c != 'm') = true := bne_iff_ne.mpr last
      rw [other,after,if_neg last]
      simp only [textWidth,List.map_cons,List.sum_cons] at width ⊢
      refine ⟨by omega,?_⟩
      simp [Ne.symm last]

theorem skippedPaints {s : Str} (paints : Paints s) (some' : s ≠ []) (t : Str) :
    widthFrom charWidth true (s ++ t) = widthFrom charWidth false t ∧ escAfter true (s ++ t) = escAfter false t := by
  cases paints with
  | nil => contradiction
  | @cons params rest params' paints =>
    have skip : ∀ u : Str, widthFrom charWidth true (sgr params ++ u) = widthFrom charWidth false u ∧
        escAfter true (sgr params ++ u) = escAfter false u := by
      intro u
      have whole : sgr params ++ u = '\x1b' :: '[' :: (params ++ 'm' :: u) := by simp [sgr]
      obtain ⟨after,width⟩ := skipParams params' ('m' :: u)
      rw [whole]
      exact ⟨width charWidth,after⟩
    obtain ⟨width,after⟩ := skip (rest ++ t)
    rw [List.append_assoc,width,after,widthAppend,escAppend,paintsAfter paints,paintsWidth charWidth paints,
      Nat.zero_add]
    exact ⟨rfl,rfl⟩

/-- A text with the colours before it and the reset behind it. -/
structure Coloured where
  colors : Str
  body : Str
  resets : Bool
  paints : Paints colors

def Coloured.chars (s : Coloured) : Str := s.colors ++ (s.body ++ if s.resets then reset else [])

/-- Only a text without a colour is skipped, as far as its first `m`. -/
def Coloured.miscount (charWidth : Char → Nat) (s : Coloured) : Miscount where
  shown := s.body
  lost skipped := if skipped ∧ s.colors = [] then textWidth charWidth (upToM s.body) else 0
  leaked := 0
  skipping skipped := skipped && (decide (s.colors = []) && (decide ('m' ∉ s.body) && !s.resets))

theorem resetWidth (skipped resets : Bool) :
    widthFrom charWidth skipped (if resets then reset else []) = 0 ∧
      escAfter skipped (if resets then reset else []) = (skipped && !resets) := by
  cases resets with
  | false => cases skipped <;> exact ⟨rfl,rfl⟩
  | true =>
    cases skipped with
    | false => exact ⟨paintsWidth charWidth resetPaints,paintsAfter resetPaints⟩
    | true =>
      have skip := @skippedPaints charWidth _ resetPaints (by decide) []
      rw [List.append_nil] at skip
      exact skip

theorem countedBody {t : Str} (quiet : esc ∉ t) (resets : Bool) :
    widthFrom charWidth false (t ++ if resets then reset else []) = textWidth charWidth t ∧
      escAfter false (t ++ if resets then reset else []) = false := by
  obtain ⟨width,after⟩ := @resetWidth charWidth false resets
  rw [widthAppend,escAppend,quietWidth quiet,textAfter quiet,width,after]
  exact ⟨rfl,rfl⟩

theorem countedColoured {s : Coloured} (plain : Plain s.body) : Counted charWidth s.chars (s.miscount charWidth) := by
  have quiet := (plainQuiet plain).1
  have body := @countedBody charWidth _ quiet s.resets
  have counted : ∀ skipped, widthFrom charWidth skipped s.chars + (s.miscount charWidth).lost skipped =
      textWidth charWidth s.body ∧ escAfter skipped s.chars = (s.miscount charWidth).skipping skipped := by
    intro skipped
    simp only [Coloured.chars,Coloured.miscount]
    cases skipped with
    | false =>
      rw [widthAppend,escAppend,paintsWidth charWidth s.paints,paintsAfter s.paints,Nat.zero_add,body.1,body.2]
      exact ⟨by simp,rfl⟩
    | true =>
      by_cases plainly : s.colors = []
      · obtain ⟨width,after⟩ := @skippedText charWidth _ quiet
        obtain ⟨none',behind⟩ := @resetWidth charWidth (decide ('m' ∉ s.body)) s.resets
        rw [plainly,List.nil_append,widthAppend,escAppend,after,none',behind,Nat.add_zero,if_pos ⟨rfl,rfl⟩]
        exact ⟨width,by simp⟩
      · obtain ⟨width,after⟩ := @skippedPaints charWidth _ s.paints plainly
          (s.body ++ if s.resets then reset else [])
        rw [width,after,body.1,body.2]
        simp [plainly]
  have tail : Paints (if s.resets then reset else []) := by
    split
    · exact resetPaints
    · exact .nil
  refine ⟨fun skipped => (counted skipped).1,fun skipped => (counted skipped).2,fun b => ?_,fun b => ?_⟩
  · obtain ⟨b',there⟩ := groundRun (runPaints s.paints b)
    rw [Coloured.chars,printedAppend,printedPaints s.paints,there,printedAppend,printedText plain,runText quiet,
      printedPaints tail,List.append_nil]
    rfl
  · obtain ⟨b',there⟩ := groundRun (runPaints s.paints b)
    rw [Coloured.chars,runAppend,there,runAppend,runText quiet]
    exact runPaints tail b'

/-! Links. -/

theorem upBehind (t : Str) : upToM t ++ behindM t = t := by
  induction t with
  | nil => rfl
  | cons c t ih =>
    rw [upToM,behindM]
    split
    · rfl
    · rw [List.cons_append,ih]

theorem skippedRest {t : Str} (quiet : esc ∉ t) : widthFrom charWidth true t = textWidth charWidth (behindM t) ∧
    escAfter true t = decide ('m' ∉ t) := by
  obtain ⟨width,after⟩ := @skippedText charWidth _ quiet
  have whole := congrArg (textWidth charWidth) (upBehind t)
  rw [textWidthAppend] at whole
  exact ⟨by omega,after⟩

theorem skippedEsc (skipped : Bool) (t : Str) : widthFrom charWidth skipped (esc :: t) = widthFrom charWidth true t ∧
    escAfter skipped (esc :: t) = escAfter true t := by
  cases skipped with
  | false => exact ⟨if_pos rfl,rfl⟩
  | true => exact ⟨rfl,rfl⟩

/-- The target of a link, from the bracket to the bell. -/
def target (cwd : Str) : Str := "]8;;file://".toList ++ urlEscape cwd ++ ['\x07']

theorem targetQuiet (cwd : Str) : esc ∉ target cwd := by
  intro mem
  rcases List.mem_append.mp mem with front | bell
  · rcases List.mem_append.mp front with scheme | path
    · exact absurd scheme (by decide)
    · exact (plainQuiet (urlEscapePlain cwd)).1 path
  · exact absurd bell (by decide)

def opensMiscount (charWidth : Char → Nat) (cwd : Str) : Miscount :=
  ⟨[],fun _ => 0,textWidth charWidth (behindM (target cwd)),fun _ => decide ('m' ∉ target cwd)⟩

def closesMiscount : Miscount := ⟨[],fun _ => 0,0,fun _ => true⟩

theorem countedOpens (cwd : Str) : Counted charWidth (linkOpens cwd) (opensMiscount charWidth cwd) := by
  have opens : linkOpens cwd = esc :: target cwd := rfl
  have command : linkOpens cwd = '\x1b' :: ']' :: (("8;;file://".toList ++ urlEscape cwd) ++ ['\x07']) := by
    simp [linkOpens,esc]
  obtain ⟨width,after⟩ := @skippedRest charWidth _ (targetQuiet cwd)
  have quiet := plainQuiet (linkBody cwd)
  refine ⟨fun skipped => ?_,fun skipped => ?_,fun b => ?_,fun b => ?_⟩
  · rw [opens,(skippedEsc skipped _).1,width]
    exact Nat.add_comm _ _
  · rw [opens,(@skippedEsc charWidth skipped _).2,after]
    rfl
  · rw [command]
    exact printedCommand quiet b
  · rw [command,runCommand quiet]

theorem countedCloses : Counted charWidth linkCloses closesMiscount := by
  have command : linkCloses = '\x1b' :: ']' :: ("8;;".toList ++ ['\x07']) := by decide
  have quiet : '\x1b' ∉ "8;;".toList ∧ '\x07' ∉ "8;;".toList := by decide
  refine ⟨fun skipped => ?_,fun skipped => ?_,fun b => ?_,fun b => ?_⟩
  · cases skipped <;> rfl
  · cases skipped <;> rfl
  · rw [command]
    exact printedCommand quiet b
  · rw [command,runCommand quiet]

end columns

/-! Pieces. -/

inductive Shown where
  | text (t : Str)
  | paint (t : Str) (style : Style)
  | arrow (ch : Str) (fg bg : Color)

def Shown.ink : Shown → List Ink
  | .text t => Render.text t
  | .paint t style => Render.paint t style
  | .arrow ch fg bg => Render.arrow ch fg bg

/-- The body is what it says, and nothing is painted when it says nothing. -/
def Shown.coloured : Shown → Coloured
  | .text t => ⟨[],t,false,.nil⟩
  | .paint t style => if t = [] then ⟨[],[],false,.nil⟩ else ⟨ansiStyle style,t,true,stylePaints style⟩
  | .arrow ch fg bg =>
      ⟨colorSgr "38".toList fg ++ colorSgr "48".toList bg,ch,true,
        paintsAppend (colorPaints groundDigits.1 fg) (colorPaints groundDigits.2 bg)⟩

theorem paintBody (t : Str) (style : Style) : (Shown.paint t style).coloured.body = t := by
  rw [Shown.coloured]
  split
  · rename_i empty
    exact empty.symm
  · rfl

theorem shownChars (s : Shown) : chars s.ink = s.coloured.chars := by
  cases s with
  | text t => simp [Shown.ink,Shown.coloured,Coloured.chars]
  | paint t style =>
    by_cases empty : t = []
    · simp [Shown.ink,Shown.coloured,Coloured.chars,paint,empty,chars]
    · simp [Shown.ink,Shown.coloured,Coloured.chars,paint,empty]
  | arrow ch fg bg => simp [Shown.ink,Shown.coloured,Coloured.chars,arrow]

inductive Piece where
  | shown (s : Shown)
  | link (cwd : Str) (body : List Shown)

def shownLine (body : List Shown) : List Ink := body.flatMap Shown.ink

def Piece.ink : Piece → List Ink
  | .shown s => s.ink
  | .link cwd body => code (linkOpens cwd) ++ (shownLine body ++ code linkCloses)

def pieceLine (pieces : List Piece) : List Ink := pieces.flatMap Piece.ink

def PlainShown (body : List Shown) : Prop := ∀ s ∈ body, Plain s.coloured.body

/-- The texts are free of control characters. What a link leads to is not shown. -/
def Piece.Plain : Piece → Prop
  | .shown s => Terminal.Plain s.coloured.body
  | .link _ body => PlainShown body

section pieces
variable (charWidth : Char → Nat)

def shownMiscount (body : List Shown) : Miscount :=
  body.foldr (fun s rest => (s.coloured.miscount charWidth).append rest) .nothing

def Piece.miscount : Piece → Miscount
  | .shown s => s.coloured.miscount charWidth
  | .link cwd body => (opensMiscount charWidth cwd).append ((shownMiscount charWidth body).append closesMiscount)

def lineMiscount (pieces : List Piece) : Miscount :=
  pieces.foldr (fun piece rest => (piece.miscount charWidth).append rest) .nothing

variable {charWidth}

theorem countedShown {body : List Shown} (plain : PlainShown body) :
    Counted charWidth (chars (shownLine body)) (shownMiscount charWidth body) := by
  induction body with
  | nil => exact countedNothing
  | cons s body ih =>
    obtain ⟨first,rest⟩ := List.forall_mem_cons.mp plain
    rw [shownLine,List.flatMap_cons,charsAppend,shownChars]
    exact (countedColoured first).append (ih rest)

theorem countedPiece {piece : Piece} (plain : piece.Plain) :
    Counted charWidth (chars piece.ink) (piece.miscount charWidth) := by
  cases piece with
  | shown s =>
    rw [Piece.ink,shownChars]
    exact countedColoured plain
  | link cwd body =>
    rw [Piece.ink,charsAppend,charsAppend,charsCode,charsCode]
    exact (countedOpens cwd).append ((countedShown plain).append countedCloses)

theorem countedLine {pieces : List Piece} (plain : ∀ piece ∈ pieces, piece.Plain) :
    Counted charWidth (chars (pieceLine pieces)) (lineMiscount charWidth pieces) := by
  induction pieces with
  | nil => exact countedNothing
  | cons piece pieces ih =>
    obtain ⟨first,rest⟩ := List.forall_mem_cons.mp plain
    rw [pieceLine,List.flatMap_cons,charsAppend]
    exact (countedPiece first).append (ih rest)

theorem widthMiscount {pieces : List Piece} (plain : ∀ piece ∈ pieces, piece.Plain) (skipped : Bool) :
    widthFrom charWidth skipped (chars (pieceLine pieces)) + (lineMiscount charWidth pieces).lost skipped =
      shownWidth charWidth (chars (pieceLine pieces)) + (lineMiscount charWidth pieces).leaked := by
  have counted := @countedLine charWidth _ plain
  rw [shownWidth,counted.shown false]
  exact counted.width skipped

/-- The display width is that of what is shown when the targets of the links have, behind their first `m`, as
many columns as the texts that begin without a colour inside or behind a wrapper have up to their first `m`.
It adds up when the second line does not begin with such a text behind a wrapper of the first. -/
theorem widthCounts (charWidth : Char → Nat) (a b : List Piece) (first : ∀ piece ∈ a, piece.Plain)
    (rest : ∀ piece ∈ b, piece.Plain) :
    (displayWidth charWidth (chars (pieceLine a)) = shownWidth charWidth (chars (pieceLine a)) ↔
      (lineMiscount charWidth a).leaked = (lineMiscount charWidth a).lost false) ∧
    (displayWidth charWidth (chars (pieceLine (a ++ b))) =
        displayWidth charWidth (chars (pieceLine a)) + displayWidth charWidth (chars (pieceLine b)) ↔
      (lineMiscount charWidth b).lost ((lineMiscount charWidth a).skipping false) =
        (lineMiscount charWidth b).lost false) := by
  constructor
  · have counted := @widthMiscount charWidth _ first false
    rw [displayWidth]
    omega
  · have split : chars (pieceLine (a ++ b)) = chars (pieceLine a) ++ chars (pieceLine b) := by
      rw [pieceLine,List.flatMap_append,charsAppend]
      rfl
    have after := (@countedLine charWidth _ first).after false
    have alone := @widthMiscount charWidth _ rest false
    have behind := @widthMiscount charWidth _ rest ((lineMiscount charWidth a).skipping false)
    rw [split,displayWidth,displayWidth,displayWidth,widthAppend,after]
    omega

theorem widthCountsPainted :
    displayWidth (fun _ => 1) (chars (pieceLine [.shown (.paint "srv".toList { fg := .xterm 4 })])) =
      shownWidth (fun _ => 1) (chars (pieceLine [.shown (.paint "srv".toList { fg := .xterm 4 })])) ∧
    displayWidth (fun _ => 1) (chars (pieceLine ([.shown (.paint "srv".toList { fg := .xterm 4 })] ++
        [.shown (.arrow ">".toList .default .default)]))) =
      displayWidth (fun _ => 1) (chars (pieceLine [.shown (.paint "srv".toList { fg := .xterm 4 })])) +
        displayWidth (fun _ => 1) (chars (pieceLine [.shown (.arrow ">".toList .default .default)])) := by
  have first : ∀ piece ∈ [Piece.shown (.paint "srv".toList { fg := .xterm 4 })], piece.Plain := by
    intro piece mem
    rw [List.mem_singleton.mp mem]
    exact (by decide : Terminal.Plain "srv".toList)
  have rest : ∀ piece ∈ [Piece.shown (.arrow ">".toList .default .default)], piece.Plain := by
    intro piece mem
    rw [List.mem_singleton.mp mem]
    exact (by decide : Terminal.Plain ">".toList)
  have counts := widthCounts (fun _ => 1) _ _ first rest
  exact ⟨counts.1.mpr (by decide +kernel),counts.2.mpr (by decide +kernel)⟩

/-- The link to `/home` counts the `e` behind its `m`. -/
theorem linkMiscounted : ¬ ∀ (charWidth : Char → Nat) (pieces : List Piece), (∀ piece ∈ pieces, piece.Plain) →
    displayWidth charWidth (chars (pieceLine pieces)) = shownWidth charWidth (chars (pieceLine pieces)) := by
  intro claim
  have plain : ∀ piece ∈ [Piece.link "/home".toList [.paint "home".toList { fg := .xterm 4 }]], piece.Plain := by
    intro piece mem
    rw [List.mem_singleton.mp mem]
    intro s inside
    rw [List.mem_singleton.mp inside]
    exact (by decide : Terminal.Plain "home".toList)
  have same := claim (fun c => if control c then 0 else 1) _ plain
  revert same
  decide +kernel

/-! Without links. -/

/-- Nothing is lost behind a counted beginning, and nothing leaks. -/
structure Miscount.Right (m : Miscount) : Prop where
  lost : m.lost false = 0
  leaked : m.leaked = 0
  skipping : m.skipping false = false

theorem Miscount.Right.append {a b : Miscount} (first : a.Right) (rest : b.Right) : (a.append b).Right where
  lost := by simp only [Miscount.append,first.lost,first.skipping,rest.lost]
  leaked := by simp only [Miscount.append,first.leaked,rest.leaked]
  skipping := by simp only [Miscount.append,Function.comp_apply,first.skipping,rest.skipping]

theorem rightShown (body : List Shown) : (shownMiscount charWidth body).Right := by
  induction body with
  | nil => exact ⟨rfl,rfl,rfl⟩
  | cons s body ih =>
    have first : (s.coloured.miscount charWidth).Right := ⟨rfl,rfl,rfl⟩
    exact first.append ih

theorem shownCounts {body : List Shown} (plain : PlainShown body) :
    displayWidth charWidth (chars (shownLine body)) = shownWidth charWidth (chars (shownLine body)) := by
  have counted := @countedShown charWidth _ plain
  have right := @rightShown charWidth body
  have width := counted.width false
  rw [right.lost,right.leaked] at width
  rw [shownWidth,counted.shown false]
  exact width

end pieces
end P11k.Render
