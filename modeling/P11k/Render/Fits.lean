import P11k.Render.Injection

/-! How wide the lines of the header are, and when each of them takes one row of the terminal. -/
namespace P11k.Render
open P11k P11k.Settings P11k.Terminal

/-! Widths of texts one behind the other. -/

section width
variable {charWidth : Char → Nat}

/-- Whether a sequence is still being skipped at the end. -/
def escAfter : Bool → Str → Bool
  | b, [] => b
  | true, c :: s => escAfter (c != 'm') s
  | false, c :: s => escAfter (c == esc) s

theorem escAppend (b : Bool) (s t : Str) : escAfter b (s ++ t) = escAfter (escAfter b s) t := by
  induction s generalizing b with
  | nil => rfl
  | cons c s ih =>
    cases b with
    | true => exact ih _
    | false => exact ih _

theorem widthAppend (b : Bool) (s t : Str) :
    widthFrom charWidth b (s ++ t) = widthFrom charWidth b s + widthFrom charWidth (escAfter b s) t := by
  induction s generalizing b with
  | nil => exact (Nat.zero_add _).symm
  | cons c s ih =>
    cases b with
    | true => exact ih _
    | false =>
      rw [List.cons_append,widthFrom,widthFrom,escAfter]
      split
      · rename_i same
        rw [ih true,same]
        rfl
      · rename_i other
        rw [ih false,beq_false_of_ne other,Nat.add_assoc]

theorem skipParams {params : Str} (params' : ∀ c ∈ params, paramChar c = true) (s : Str) :
    escAfter true (params ++ s) = escAfter true s ∧
      ∀ charWidth, widthFrom charWidth true (params ++ s) = widthFrom charWidth true s := by
  induction params with
  | nil => exact ⟨rfl,fun _ => rfl⟩
  | cons c params ih =>
    have inside : (c != 'm') = true := bne_iff_ne.mpr (paramPlain (params' c List.mem_cons_self)).2
    obtain ⟨after,width⟩ := ih fun d mem => params' d (List.mem_cons_of_mem c mem)
    constructor
    · rw [List.cons_append,escAfter,inside]
      exact after
    · intro charWidth
      rw [List.cons_append,widthFrom,inside]
      exact width charWidth

theorem sgrAfter {params : Str} (params' : ∀ c ∈ params, paramChar c = true) (b : Bool) :
    escAfter b (sgr params) = false := by
  cases b with
  | true => exact (skipParams params' ['m']).1
  | false => exact (skipParams params' ['m']).1

theorem paintsAfter {s : Str} (paints : Paints s) : escAfter false s = false := by
  induction paints with
  | nil => rfl
  | cons params' _ ih =>
    rw [escAppend,sgrAfter params']
    exact ih

theorem paintsWidth (charWidth : Char → Nat) {s : Str} (paints : Paints s) : widthFrom charWidth false s = 0 := by
  induction paints with
  | nil => rfl
  | @cons params _ params' _ ih =>
    have none' : widthFrom charWidth false (sgr params) = 0 := (skipParams params' ['m']).2 charWidth
    rw [widthAppend,none',sgrAfter params',Nat.zero_add]
    exact ih

theorem textAfter {t : Str} (quiet : esc ∉ t) : escAfter false t = false := by
  induction t with
  | nil => rfl
  | cons c t ih =>
    rw [List.mem_cons,not_or] at quiet
    rw [escAfter,beq_false_of_ne (Ne.symm quiet.1)]
    exact ih quiet.2

theorem copiesWidth {t : Str} (quiet : esc ∉ t) (n : Nat) :
    displayWidth charWidth (List.replicate n t).flatten = n * displayWidth charWidth t := by
  induction n with
  | zero => exact (Nat.zero_mul _).symm
  | succ n ih =>
    rw [List.replicate_succ,List.flatten_cons,displayWidth,widthAppend,textAfter quiet]
    rw [displayWidth,displayWidth] at ih
    rw [ih,Nat.succ_mul,displayWidth,Nat.add_comm]

end width

/-! Widths of lines. -/

def Settled (line : List Ink) : Prop := escAfter false (chars line) = false

section lines
variable {φ τ : Type} {o : Outside τ} {config : Config φ} {info : HeaderInfo τ} {vcs : Option GitStatus}

theorem lineWidthAppend {a : List Ink} (settled : Settled a) (b : List Ink) :
    lineWidth o (a ++ b) = lineWidth o a + lineWidth o b := by
  rw [lineWidth,charsAppend,displayWidth,widthAppend,settled]
  rfl

theorem settledNone : Settled [] := rfl

theorem settledAppend {a b : List Ink} (first : Settled a) (rest : Settled b) : Settled (a ++ b) := by
  rw [Settled,charsAppend,escAppend,first]
  exact rest

theorem settledText {t : Str} (quiet : esc ∉ t) : Settled (text t) := by
  rw [Settled,charsText]
  exact textAfter quiet

theorem resetAfter (b : Bool) : escAfter b reset = false := sgrAfter (numberParam (by decide : '0'.isDigit = true)) b

theorem paintEnds {t : Str} (some' : t ≠ []) (style : Style) (b : Bool) :
    escAfter b (chars (paint t style)) = false := by
  rw [paint,if_neg some',charsAppend,charsCode reset,escAppend]
  exact resetAfter _

theorem settledPaint (t : Str) (style : Style) : Settled (paint t style) := by
  cases t with
  | nil => exact settledNone
  | cons c t => exact paintEnds (List.cons_ne_nil c t) style false

theorem settledArrow (ch : Str) (fg bg : Color) : Settled (arrow ch fg bg) := by
  rw [Settled,arrow,charsAppend,charsCode reset,escAppend]
  exact resetAfter _

theorem settledClosed : Closed Settled where
  nothing := settledNone
  append := settledAppend
  paint := settledPaint
  arrow := settledArrow
  space := settledText (by decide)

theorem paintWidth {t : Str} (quiet : esc ∉ t) (style : Style) :
    lineWidth o (paint t style) = displayWidth o.charWidth t := by
  unfold paint
  split
  · rename_i empty
    rw [empty]
    rfl
  · have paints := stylePaints style
    rw [lineWidth,charsAppend,charsAppend,charsCode,charsCode,charsText,displayWidth,widthAppend,widthAppend,
      escAppend,paintsWidth o.charWidth paints,paintsAfter paints,textAfter quiet,
      paintsWidth o.charWidth resetPaints,Nat.zero_add,Nat.add_zero]
    rfl

/-! Columns. -/

theorem settledSegment (name : Str) (right : Bool) (budget : Option Nat) (joinedLeft : Bool) :
    Settled (renderSegment o config name info vcs right budget joinedLeft).text := by
  unfold renderSegment
  dsimp only
  split
  · exact settledNone
  · split
    · exact settledNone
    · rw [Settled,charsAppend,charsAppend,escAppend,escAppend]
      exact paintEnds (by decide) _ _

theorem settledElement (right : Bool) (budget : Option Nat) (e : Element) :
    Settled (renderElement o config info vcs right budget e).text := by
  cases e with
  | seg name => exact settledSegment name right budget false
  | joined name => exact settledSegment name right budget true
  | text t => exact settledPaint _ _

theorem settledGap {seps : Separators} (quiet : esc ∉ gapChar seps) (n : Nat) : Settled (gapText seps n) := by
  unfold gapText
  dsimp only
  split
  · exact settledPaint _ _
  · exact settledText (copiesFree quiet n)

/-- Painted or not, the gap is as wide as its text, once for each cell. -/
theorem gapWidth {seps : Separators} (quiet : esc ∉ gapChar seps) (n : Nat) :
    lineWidth o (gapText seps n) = n * displayWidth o.charWidth (gapChar seps) := by
  unfold gapText
  dsimp only
  split
  · exact (paintWidth (copiesFree quiet n) _).trans (copiesWidth quiet n)
  · rw [lineWidth,charsText]
    exact copiesWidth quiet n

theorem assembledWidth {left right : List SegmentText} {seps : Separators} {cols rightIndent : Nat}
    (quiet : esc ∉ gapChar seps) (left' : ∀ s ∈ left, Settled s.text) (there : visibleSegments right ≠ []) :
    lineWidth o (assembleRow o left right cols seps rightIndent) =
      lineWidth o (leftText seps left) +
        (gapCells (lineWidth o (leftText seps left)) (lineWidth o (rightText seps right)) cols rightIndent *
          displayWidth o.charWidth (gapChar seps) + lineWidth o (rightText seps right)) := by
  rw [assembleRow,if_neg there]
  dsimp only
  rw [lineWidthAppend (closedLeft settledClosed seps left'),lineWidthAppend (settledGap quiet _),gapWidth quiet]

theorem leftByItself (left : List SegmentText) (seps : Separators) (cols rightIndent : Nat) :
    assembleRow o left [] cols seps rightIndent = leftText seps left := rfl

theorem rightByItself {right : List SegmentText} (there : visibleSegments right ≠ []) (seps : Separators) :
    assembleRow o [] right 0 seps 0 = rightText seps right := by
  have none' : gapText seps 0 = [] := by
    unfold gapText
    dsimp only
    split
    · rfl
    · rfl
  have cells : gapCells (lineWidth o (leftText seps [])) (lineWidth o (rightText seps right)) 0 0 = 0 := by
    simp [gapCells]
  rw [assembleRow,if_neg there]
  dsimp only
  rw [cells,none']
  rfl

/-! Rows. -/

theorem textQuiet (own : OwnPlain config) :
    esc ∉ gapChar config.separators ∧ esc ∉ rulerChar config ∧
      ∀ i, esc ∉ (rowShape config i).pre.text ∧ esc ∉ (rowShape config i).suf.text := by
  have steers : control esc = true := by decide
  refine ⟨gapCharQuiet own.separators steers,rulerCharQuiet own steers,fun i => ?_⟩
  have frame := frameQuiet own steers i
  rwa [framePaint,framePaint,shownInPaint,shownInPaint] at frame

theorem planFits {cols i : Nat} (drawn : (rowPlan o config info vcs cols i).2 = true) :
    lineWidth o (assembleRow o (rowColumns o config info vcs cols i).1 [] (bodyBudget o (rowShape config i) cols)
        config.separators 0) +
      lineWidth o (assembleRow o [] (rowColumns o config info vcs cols i).2 0 config.separators 0) +
      config.layout.rightIndent < bodyBudget o (rowShape config i) cols := by
  unfold rowColumns
  dsimp only
  rw [if_pos drawn]
  unfold rowPlan at drawn ⊢
  dsimp only at drawn ⊢
  split
  · rename_i fits
    exact of_decide_eq_true fits
  · rename_i tight
    rw [if_neg tight] at drawn
    split
    · rename_i fits
      exact of_decide_eq_true fits
    · rename_i still
      rw [if_neg still] at drawn
      cases drawn

theorem gapArithmetic (g : Nat) {pre suf lw rw' cols indent : Nat} (room : lw + rw' + indent < cols - (pre + suf)) :
    pre + (lw + (gapCells lw rw' (cols - (pre + suf)) indent * g + rw') + suf) ≤ cols ↔
      gapCells lw rw' (cols - (pre + suf)) indent * (g - 1) ≤ indent := by
  have cells : gapCells lw rw' (cols - (pre + suf)) indent + (lw + rw' + indent + (pre + suf)) = cols := by
    unfold gapCells
    omega
  generalize gapCells lw rw' (cols - (pre + suf)) indent = n at cells ⊢
  cases g with
  | zero => simp; omega
  | succ g =>
    rw [Nat.mul_succ,Nat.add_sub_cancel]
    omega

end lines

section header
variable {φ τ : Type} (o : Outside τ) (config : Config φ) (info : HeaderInfo τ) (vcs : Option GitStatus) (cols : Nat)

/-- The frame of a row and its left column as it is drawn. -/
def leftAlone (i : Nat) : Nat :=
  lineWidth o (framePaint config (rowShape config i).pre) +
    lineWidth o (leftText config.separators (rowColumns o config info vcs cols i).1) +
    lineWidth o (framePaint config (rowShape config i).suf)

/-- Where a right column is drawn, the gap's text may be wider than a cell only as far as the right indent
makes up for it. -/
def GapFits (i : Nat) : Prop :=
  visibleSegments (rowColumns o config info vcs cols i).2 ≠ [] →
    gapCells (lineWidth o (leftText config.separators (rowColumns o config info vcs cols i).1))
        (lineWidth o (rightText config.separators (rowColumns o config info vcs cols i).2))
        (bodyBudget o (rowShape config i) cols) config.layout.rightIndent *
      (displayWidth o.charWidth (gapChar config.separators) - 1) ≤ config.layout.rightIndent

def Unbroken (s : Str) : Prop := '\n' ∉ s ∧ '\r' ∉ s

/-- Every line of the header takes one row of the terminal, and the shell is told how many there are. -/
structure OneRowEach : Prop where
  count : (renderHeaderLines o config info vcs cols).length = headerRows config
  unbroken : ∀ line ∈ renderHeaderLines o config info vcs cols, Unbroken (chars line)
  ruler : config.layout.showRuler = true → lineWidth o (rulerRow o config cols) ≤ cols
  rows : ∀ i < layoutRows config, leftAlone o config info vcs cols i ≤ cols →
    lineWidth o (headerRow o config info vcs cols i) ≤ cols

variable {o config info vcs cols}

theorem headerCount : (renderHeaderLines o config info vcs cols).length = headerRows config := by
  rw [renderHeaderLines,List.length_append,List.length_map,List.length_range,headerRows,Nat.add_comm]
  split
  · rfl
  · rfl

theorem rulerFits (own : OwnPlain config) : lineWidth o (rulerRow o config cols) ≤ cols := by
  have quiet := (textQuiet own).2.1
  rw [rulerRow,paintWidth (copiesFree quiet _),copiesWidth quiet]
  generalize displayWidth o.charWidth (rulerChar config) = w
  calc cols / max w 1 * w ≤ cols / max w 1 * max w 1 := Nat.mul_le_mul_left _ (le_max_left w 1)
    _ ≤ cols := Nat.div_mul_le_self cols (max w 1)

theorem rowFitsIff (own : OwnPlain config) (i : Nat) : (leftAlone o config info vcs cols i ≤ cols →
    lineWidth o (headerRow o config info vcs cols i) ≤ cols) ↔ GapFits o config info vcs cols i := by
  obtain ⟨gap,_,frame⟩ := textQuiet own
  obtain ⟨left',right'⟩ : (∀ s ∈ (rowColumns o config info vcs cols i).1, Settled s.text) ∧
      ∀ s ∈ (rowColumns o config info vcs cols i).2, Settled s.text := closedColumns settledElement cols i
  have whole : lineWidth o (headerRow o config info vcs cols i) =
      lineWidth o (framePaint config (rowShape config i).pre) +
        (lineWidth o (assembleRow o (rowColumns o config info vcs cols i).1 (rowColumns o config info vcs cols i).2
          (bodyBudget o (rowShape config i) cols) config.separators config.layout.rightIndent) +
        lineWidth o (framePaint config (rowShape config i).suf)) := by
    unfold headerRow
    dsimp only
    have framed : Settled (framePaint config (rowShape config i).pre) := settledPaint _ _
    rw [lineWidthAppend framed,lineWidthAppend (closedAssembled settledClosed (settledGap gap) left' right')]
  rw [whole]
  unfold GapFits leftAlone
  by_cases there : visibleSegments (rowColumns o config info vcs cols i).2 = []
  · rw [assembleRow,if_pos there]
    constructor
    · intro _ visible
      exact absurd there visible
    · intro _ fits
      omega
  · have drawn : (rowPlan o config info vcs cols i).2 = true := by
      by_contra dropped
      unfold rowColumns at there
      dsimp only at there
      rw [if_neg dropped] at there
      exact there rfl
    have room := planFits drawn
    rw [leftByItself,rightByItself there] at room
    rw [assembledWidth gap left' there]
    rw [framePaint,framePaint,paintWidth (frame i).1,paintWidth (frame i).2]
    unfold bodyBudget at room ⊢
    have arithmetic := gapArithmetic (displayWidth o.charWidth (gapChar config.separators)) room
    constructor
    · intro fits _
      exact arithmetic.mp (fits (by omega))
    · intro fits _
      exact arithmetic.mpr (fits there)

/-! Line breaks. -/

theorem charMem (c : Char) (line : List Ink) : c ∈ chars line ↔ Ink.code c ∈ line ∨ Ink.text c ∈ line := by
  constructor
  · intro mem
    obtain ⟨ink,there,rfl⟩ := List.mem_map.mp mem
    cases ink with
    | code c => exact .inl there
    | text c => exact .inr there
  · rintro (there | there)
    · exact List.mem_map.mpr ⟨_,there,rfl⟩
    · exact List.mem_map.mpr ⟨_,there,rfl⟩

theorem breakShown {line : List Ink} (mem : line ∈ renderHeaderLines o config info vcs cols) {c : Char}
    (breaks : c = '\n' ∨ c = '\r') : c ∈ chars line ↔ Ink.text c ∈ line := by
  rw [charMem,or_iff_right]
  intro written
  rcases breaks with rfl | rfl
  · exact absurd (writtenControl (drawnWritten (drawnHeader mem)) written (by decide)) (by decide)
  · exact absurd (writtenControl (drawnWritten (drawnHeader mem)) written (by decide)) (by decide)

theorem unbrokenIff (own : OwnPlain config) :
    (∀ line ∈ renderHeaderLines o config info vcs cols, Unbroken (chars line)) ↔
      ∀ i < layoutRows config, ∀ t ∈ rowForeign o config info vcs cols i, Unbroken t := by
  have reach : ∀ {c : Char}, c = '\n' ∨ c = '\r' →
      ((∃ line ∈ renderHeaderLines o config info vcs cols, c ∈ chars line) ↔
        ∃ i < layoutRows config, ∃ t ∈ rowForeign o config info vcs cols i, c ∈ t) := by
    intro c breaks
    have steers : control c = true := by
      rcases breaks with rfl | rfl
      · rfl
      · rfl
    rw [← headerReach own steers]
    exact exists_congr fun line => and_congr_right fun mem => breakShown mem breaks
  constructor
  · intro unbroken i there t foreign
    constructor
    · intro here
      obtain ⟨line,mem,breaks⟩ := (reach (.inl rfl)).mpr ⟨i,there,t,foreign,here⟩
      exact (unbroken line mem).1 breaks
    · intro here
      obtain ⟨line,mem,breaks⟩ := (reach (.inr rfl)).mpr ⟨i,there,t,foreign,here⟩
      exact (unbroken line mem).2 breaks
  · intro unbroken line mem
    constructor
    · intro breaks
      obtain ⟨i,there,t,foreign,here⟩ := (reach (.inl rfl)).mp ⟨line,mem,breaks⟩
      exact (unbroken i there t foreign).1 here
    · intro breaks
      obtain ⟨i,there,t,foreign,here⟩ := (reach (.inr rfl)).mp ⟨line,mem,breaks⟩
      exact (unbroken i there t foreign).2 here

/-- The gap between the directory and the time is filled with a character of two cells. -/
def wideGap : Config Unit where
  layout := { left := [[.seg "dir".toList]], right := [[.seg "time".toList]] }
  separators := { gap := "中".toList }

theorem wideGapPlain : OwnPlain wideGap where
  segments _ mem := absurd mem List.not_mem_nil
  separators := by decide
  frame := by decide
  overrides _ mem := absurd mem List.not_mem_nil
  remotes := by decide
  classes _ mem := absurd mem List.not_mem_nil

end header
end P11k.Render
