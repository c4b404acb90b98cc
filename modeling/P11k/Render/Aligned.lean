import P11k.Render.Columns

/-! Where the right column of a row stands. The row ends at the right indent, and a cell is left between the
columns. -/
namespace P11k.Render
open P11k P11k.Settings P11k.Terminal

/-- Texts without control characters, painted or not, and separators. -/
def ColouredOnly (line : List Ink) : Prop := ∃ body, PlainShown body ∧ line = shownLine body

def QuietLine (line : List Ink) : Prop := ∀ c, control c = true → Ink.text c ∉ line

theorem quietShown {body : List Shown} (plain : PlainShown body) : QuietLine (shownLine body) := by
  intro c steers mem
  obtain ⟨s,there,here⟩ := List.mem_flatMap.mp mem
  have free := plainFree (plain s there) steers
  cases s with
  | text t => exact free ((shownInText t).mp here)
  | paint t style =>
    rw [paintBody] at free
    exact free ((shownInPaint t style).mp here)
  | arrow ch fg bg => exact free ((shownInArrow ch fg bg).mp here)

theorem quietColoured {line : List Ink} (coloured : ColouredOnly line) : QuietLine line := by
  obtain ⟨body,plain,rfl⟩ := coloured
  exact quietShown plain

theorem colouredOne {s : Shown} (plain : Plain s.coloured.body) : ColouredOnly s.ink :=
  ⟨[s],fun _ mem => List.mem_singleton.mp mem ▸ plain,by simp [shownLine]⟩

theorem colouredAppend {a b : List Ink} (first : ColouredOnly a) (rest : ColouredOnly b) : ColouredOnly (a ++ b) := by
  obtain ⟨s,plain,rfl⟩ := first
  obtain ⟨t,plain',rfl⟩ := rest
  refine ⟨s ++ t,fun x mem => ?_,by simp [shownLine]⟩
  rcases List.mem_append.mp mem with here | there
  · exact plain x here
  · exact plain' x there

theorem plainOf {t : Str} (quiet : ∀ c, control c = true → c ∉ t) : Plain t := by
  intro c mem
  cases steers : control c with
  | false => rfl
  | true => exact absurd mem (quiet c steers)

theorem colouredText {t : Str} (plain : Plain t) : ColouredOnly (text t) := colouredOne (s := .text t) plain

theorem colouredPaint {t : Str} (plain : Plain t) (style : Style) : ColouredOnly (paint t style) :=
  colouredOne (s := .paint t style) ((paintBody t style).symm ▸ plain)

/-- Whatever is put together of texts and separators is coloured only, as long as nothing in it is a control
character. -/
theorem colouredClosed : Closed fun line => QuietLine line → ColouredOnly line where
  nothing _ := ⟨[],fun _ mem => absurd mem List.not_mem_nil,rfl⟩
  append first rest quiet :=
    colouredAppend (first fun c steers mem => quiet c steers (List.mem_append_left _ mem))
      (rest fun c steers mem => quiet c steers (List.mem_append_right _ mem))
  paint t style quiet := by
    exact colouredPaint (plainOf fun c steers mem => quiet c steers ((shownInPaint t style).mpr mem)) style
  arrow ch fg bg quiet := by
    exact colouredOne (s := .arrow ch fg bg)
      (plainOf fun c steers mem => quiet c steers ((shownInArrow ch fg bg).mpr mem))
  space _ := colouredText (by decide)

theorem colouredWidth {o : Outside τ} {line : List Ink} (coloured : ColouredOnly line) :
    lineWidth o line = shownWidth o.charWidth (chars line) := by
  obtain ⟨body,plain,rfl⟩ := coloured
  exact shownCounts plain

section rows
variable {φ τ : Type} (o : Outside τ) (config : Config φ) (info : HeaderInfo τ) (vcs : Option GitStatus) (cols i : Nat)

def rowFront : List Ink :=
  framePaint config (rowShape config i).pre ++ leftText config.separators (rowColumns o config info vcs cols i).1

def rowBack : List Ink :=
  rightText config.separators (rowColumns o config info vcs cols i).2 ++ framePaint config (rowShape config i).suf

/-- The row ends at the indent, as it is counted and as it is shown, and between the left column and the right one
there is a gap. -/
structure Aligned : Prop where
  counted : lineWidth o (headerRow o config info vcs cols i) = cols - config.layout.rightIndent
  shown : shownWidth o.charWidth (chars (headerRow o config info vcs cols i)) = cols - config.layout.rightIndent
  apart : ∃ gap, headerRow o config info vcs cols i =
      rowFront o config info vcs cols i ++ (gap ++ rowBack o config info vcs cols i) ∧
    lineWidth o (rowFront o config info vcs cols i) < lineWidth o (rowFront o config info vcs cols i ++ gap) ∧
    shownWidth o.charWidth (chars (rowFront o config info vcs cols i)) <
      shownWidth o.charWidth (chars (rowFront o config info vcs cols i ++ gap))

variable {o config info vcs cols i}

theorem framePlain (frame : ∀ t ∈ frameTexts config.frame, Plain t) :
    Plain (rowShape config i).pre.text ∧ Plain (rowShape config i).suf.text := by
  simp only [frameTexts,List.forall_mem_cons] at frame
  obtain ⟨a,b,c,d,_⟩ := frame
  unfold rowShape
  split
  · exact ⟨a,b⟩
  · exact ⟨c,d⟩

theorem rowPieces (there : visibleSegments (rowColumns o config info vcs cols i).2 ≠ []) :
    headerRow o config info vcs cols i = rowFront o config info vcs cols i ++
      (gapText config.separators (gapCells
        (lineWidth o (leftText config.separators (rowColumns o config info vcs cols i).1))
        (lineWidth o (rightText config.separators (rowColumns o config info vcs cols i).2))
        (bodyBudget o (rowShape config i) cols) config.layout.rightIndent) ++ rowBack o config info vcs cols i) := by
  unfold headerRow rowFront rowBack
  dsimp only
  rw [assembleRow,if_neg there]
  simp only [List.append_assoc]

section plain
variable (separators : ∀ t ∈ separatorTexts config.separators, Plain t)
  (frame : ∀ t ∈ frameTexts config.frame, Plain t)
  (texts : ∀ s ∈ (rowColumns o config info vcs cols i).1 ++ (rowColumns o config info vcs cols i).2,
    ColouredOnly s.text)
include separators frame texts

theorem colouredFront : ColouredOnly (rowFront o config info vcs cols i) := by
  have left' := fun s mem => texts s (List.mem_append_left _ mem)
  refine colouredAppend (colouredPaint (framePlain frame).1 _)
    (closedLeft colouredClosed config.separators (fun s mem _ => left' s mem) fun c steers mem => ?_)
  obtain ⟨s,inside,here⟩ := (leftReach separators steers _).mp mem
  exact quietColoured (left' s inside) c steers here

theorem colouredBack : ColouredOnly (rowBack o config info vcs cols i) := by
  have right' := fun s mem => texts s (List.mem_append_right _ mem)
  refine colouredAppend
    (closedRight colouredClosed config.separators (fun s mem _ => right' s mem) fun c steers mem => ?_)
    (colouredPaint (framePlain frame).2 _)
  obtain ⟨s,inside,here⟩ := (rightReach separators steers _).mp mem
  exact quietColoured (right' s inside) c steers here

end plain

theorem colouredGap (separators : ∀ t ∈ separatorTexts config.separators, Plain t) (n : Nat) :
    ColouredOnly (gapText config.separators n) := by
  have copies : Plain (List.replicate n (gapChar config.separators)).flatten :=
    plainOf fun c steers => copiesFree (gapCharQuiet separators steers) n
  unfold gapText
  dsimp only
  split
  · exact colouredPaint copies _
  · exact colouredText copies

theorem gapCharWidth (space : o.charWidth ' ' = 1)
    (gap : config.separators.gap = [] ∨ ∃ c, config.separators.gap = [c] ∧ o.charWidth c = 1)
    (separators : ∀ t ∈ separatorTexts config.separators, Plain t) :
    displayWidth o.charWidth (gapChar config.separators) = 1 := by
  have quiet : esc ∉ gapChar config.separators := gapCharQuiet separators (by decide)
  rw [displayWidth,quietWidth quiet]
  unfold gapChar
  split
  · simp [textWidth,space]
  · rename_i some'
    obtain ⟨c,one,width⟩ := gap.resolve_left some'
    simp [textWidth,one,width]

theorem rowAligned (space : o.charWidth ' ' = 1)
    (gap : config.separators.gap = [] ∨ ∃ c, config.separators.gap = [c] ∧ o.charWidth c = 1)
    (separators : ∀ t ∈ separatorTexts config.separators, Plain t)
    (frame : ∀ t ∈ frameTexts config.frame, Plain t)
    (texts : ∀ s ∈ (rowColumns o config info vcs cols i).1 ++ (rowColumns o config info vcs cols i).2,
      ColouredOnly s.text)
    (fits : (rowPlan o config info vcs cols i).2 = true)
    (there : visibleSegments (rowColumns o config info vcs cols i).2 ≠ []) : Aligned o config info vcs cols i := by
  have front := colouredFront separators frame texts
  have back := colouredBack separators frame texts
  have whole := rowPieces there
  have room := planFits fits
  rw [leftByItself,rightByItself there] at room
  -- Each piece is as wide as it is shown, so the widths add up.
  have settled : ∀ {line : List Ink}, ColouredOnly line → Settled line := by
    rintro line ⟨body,plain,rfl⟩
    have counted := @countedShown o.charWidth _ plain
    exact (counted.after false).trans (rightShown body).skipping
  have quiet : esc ∉ gapChar config.separators := gapCharQuiet separators (by decide)
  have frontWidth : lineWidth o (rowFront o config info vcs cols i) =
      displayWidth o.charWidth (rowShape config i).pre.text +
        lineWidth o (leftText config.separators (rowColumns o config info vcs cols i).1) := by
    rw [rowFront,framePaint,lineWidthAppend (settled (colouredPaint (framePlain frame).1 _)),
      paintWidth (plainFree (framePlain frame).1 (by decide))]
  have backWidth : lineWidth o (rowBack o config info vcs cols i) =
      lineWidth o (rightText config.separators (rowColumns o config info vcs cols i).2) +
        displayWidth o.charWidth (rowShape config i).suf.text := by
    have right' := fun s mem => settled (texts s (List.mem_append_right _ mem))
    rw [rowBack,lineWidthAppend (closedRight settledClosed _ right'),framePaint,
      paintWidth (plainFree (framePlain frame).2 (by decide))]
  generalize cells : gapCells (lineWidth o (leftText config.separators (rowColumns o config info vcs cols i).1))
    (lineWidth o (rightText config.separators (rowColumns o config info vcs cols i).2))
    (bodyBudget o (rowShape config i) cols) config.layout.rightIndent = n at whole
  have gapped : lineWidth o (gapText config.separators n) = n := by
    rw [gapWidth quiet,gapCharWidth space gap separators,Nat.mul_one]
  have middle := colouredGap separators n
  have total : lineWidth o (headerRow o config info vcs cols i) = cols - config.layout.rightIndent := by
    rw [whole,lineWidthAppend (settled front),lineWidthAppend (settled middle),frontWidth,backWidth,gapped]
    unfold gapCells at cells
    unfold bodyBudget at cells room
    omega
  have apart : lineWidth o (rowFront o config info vcs cols i) <
      lineWidth o (rowFront o config info vcs cols i ++ gapText config.separators n) := by
    rw [lineWidthAppend (settled front),gapped]
    unfold gapCells at cells
    omega
  have row : ColouredOnly (headerRow o config info vcs cols i) :=
    whole ▸ colouredAppend front (colouredAppend middle back)
  refine ⟨total,(colouredWidth row).symm.trans total,gapText config.separators n,whole,apart,?_⟩
  rw [← colouredWidth front,← colouredWidth (colouredAppend front middle)]
  exact apart

theorem colouredTexts (plain : ∀ e ∈ (rowShape config i).left.getD [] ++ (rowShape config i).right.getD [],
      ∃ t, e = .text t ∧ Plain (expandEnv o t)) :
    ∀ s ∈ (rowColumns o config info vcs cols i).1 ++ (rowColumns o config info vcs cols i).2, ColouredOnly s.text := by
  have side : ∀ (elements : Option (List Element)) right budget,
      (∀ e ∈ elements.getD [], ∃ t, e = .text t ∧ Plain (expandEnv o t)) →
        ∀ s ∈ renderSide o config elements info vcs right budget, ColouredOnly s.text := by
    intro elements right budget all s mem
    cases elements with
    | none => cases mem
    | some elements =>
      obtain ⟨e,there,rfl⟩ := List.mem_map.mp mem
      obtain ⟨t,rfl,clear⟩ := all e there
      exact colouredPaint clear _
  intro s mem
  rcases List.mem_append.mp mem with left' | right'
  · exact side _ _ _ (fun e there => plain e (List.mem_append_left _ there)) s left'
  · unfold rowColumns at right'
    dsimp only at right'
    split at right'
    · exact side _ _ _ (fun e there => plain e (List.mem_append_right _ there)) s right'
    · cases right'

end rows

def twoTexts : Config Unit where
  layout := { left := [[.text "ab".toList]], right := [[.text "cd".toList]] }
  separators := { gap := "·".toList }

theorem rowAlignedTexts : Aligned silent twoTexts (standing "/srv".toList) none 20 0 := by
  refine rowAligned (by decide) (.inr ⟨'·',rfl,by decide⟩) (by decide) (by decide) (colouredTexts ?_)
    (by decide +kernel) (by decide +kernel)
  intro e mem
  rcases List.mem_append.mp mem with left' | right'
  · exact ⟨"ab".toList,List.mem_singleton.mp left',by decide⟩
  · exact ⟨"cd".toList,List.mem_singleton.mp right',by decide⟩

end P11k.Render
