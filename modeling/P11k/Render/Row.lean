import P11k.Render.Segments

/-! A row put together: separators between the segments of a column, the gap between the columns, and
the frame around them. -/
namespace P11k.Render
open P11k.Settings

/-! Display width. -/

section width
variable (charWidth : Char → Nat)

/-- `inEsc` says whether a sequence is being skipped, up to its `m`. -/
def widthFrom : Bool → Str → Nat
  | _, [] => 0
  | true, c :: s => widthFrom (c != 'm') s
  | false, c :: s => if c = esc then widthFrom true s else charWidth c + widthFrom false s

def displayWidth (s : Str) : Nat := widthFrom charWidth false s

end width

/-! The columns. -/

section columns

/-- What stands between two segments of the left column, the first of them with this background and
padding. -/
def leftBetween (seps : Separators) (prevBg : Color) (prevPadded : Bool) (s : SegmentText) : List Ink :=
  let space := if prevPadded then [] else text " ".toList
  if s.joinedLeft then []
  else if prevBg = .default then space
  else
    let same := decide (s.style.bg ≠ .default ∧ s.style.bg = prevBg)
    let ch := if same then seps.sub else seps.segment
    if ch = [] then space
    else if same then paint ch { s.style with fg := seps.subForeground.getD s.style.fg }
    else arrow ch prevBg s.style.bg

def leftRest (seps : Separators) (prev : SegmentText) : List SegmentText → List Ink
  | [] =>
      if seps.endSymbol ≠ [] ∧ prev.style.bg ≠ .default then arrow seps.endSymbol prev.style.bg .default else []
  | s :: rest => leftBetween seps prev.style.bg prev.padded s ++ (s.text ++ leftRest seps s rest)

/-- A segment without text is not there. -/
def visibleSegments (column : List SegmentText) : List SegmentText := column.filter (·.text ≠ [])

def leftText (seps : Separators) (left : List SegmentText) : List Ink :=
  match visibleSegments left with
  | [] => []
  | first :: rest =>
      (if seps.leftTail ≠ [] ∧ first.style.bg ≠ .default then arrow seps.leftTail first.style.bg .default else []) ++
        ((if first.joinedLeft ∧ first.style.bg ≠ .default then paint " ".toList first.style else []) ++
          (first.text ++ leftRest seps first rest))

def rightBetween (seps : Separators) (prevBg : Color) (s : SegmentText) : List Ink :=
  if s.joinedLeft ∨ prevBg = .default then []
  else if s.style.bg ≠ .default ∧ s.style.bg = prevBg then
    paint seps.rightSub { s.style with fg := seps.rightSubForeground.getD s.style.fg }
  else if seps.rightSegment ≠ [] then arrow seps.rightSegment s.style.bg prevBg
  else []

def rightRest (seps : Separators) (prev : SegmentText) : List SegmentText → List Ink
  | [] =>
      if seps.rightTail ≠ [] ∧ prev.style.bg ≠ .default then arrow seps.rightTail prev.style.bg .default else []
  | s :: rest => rightBetween seps prev.style.bg s ++ (s.text ++ rightRest seps s rest)

def rightText (seps : Separators) (right : List SegmentText) : List Ink :=
  match visibleSegments right with
  | [] => []
  | first :: rest =>
      (if seps.rightStart ≠ [] then arrow seps.rightStart first.style.bg .default else []) ++
        ((if first.joinedLeft then paint " ".toList first.style else []) ++ (first.text ++ rightRest seps first rest))

end columns

section rows
variable {φ τ : Type} (o : Outside τ)

def lineWidth (line : List Ink) : Nat := displayWidth o.charWidth (chars line)

def gapChar (seps : Separators) : Str := if seps.gap = [] then " ".toList else seps.gap

/-- The columns between the left column and the right one. -/
def gapCells (lw rw cols rightIndent : Nat) : Nat := cols - rightIndent - rw - lw

def gapText (seps : Separators) (n : Nat) : List Ink :=
  let gapStr := (List.replicate n (gapChar seps)).flatten
  match seps.gapForeground with
  | some fg => paint gapStr { fg := fg }
  | none => text gapStr

def assembleRow (left right : List SegmentText) (cols : Nat) (seps : Separators) (rightIndent : Nat) : List Ink :=
  let out := leftText seps left
  if visibleSegments right = [] then out
  else
    let rightStr := rightText seps right
    out ++ (gapText seps (gapCells (lineWidth o out) (lineWidth o rightStr) cols rightIndent) ++ rightStr)

/-! The rows of the header. -/

structure RowShape where
  left : Option (List Element)
  right : Option (List Element)
  pre : FramePiece
  suf : FramePiece

def rowShape (config : Config φ) (i : Nat) : RowShape where
  left := config.layout.left[i]?
  right := config.layout.right[i]?
  pre := if i = 0 then config.frame.firstPrefix else config.frame.newlinePrefix
  suf := if i = 0 then config.frame.firstSuffix else config.frame.newlineSuffix

def renderSide (config : Config φ) (elements : Option (List Element)) (info : HeaderInfo τ)
    (vcs : Option GitStatus) (right : Bool) (budget : Option Nat) : List SegmentText :=
  (elements.map fun elements => renderRow o config elements info vcs right budget).getD []

def bodyBudget (shape : RowShape) (cols : Nat) : Nat :=
  cols - (displayWidth o.charWidth shape.pre.text + displayWidth o.charWidth shape.suf.text)

/-- The row is drawn whole if it fits, else with the directory shortened, else without its right column:
what the directory has to save, and whether the right column is drawn. -/
def rowPlan (config : Config φ) (info : HeaderInfo τ) (vcs : Option GitStatus) (cols i : Nat) :
    Option Nat × Bool :=
  let shape := rowShape config i
  let budget := bodyBudget o shape cols
  let leftW (b : Option Nat) : Nat :=
    lineWidth o (assembleRow o (renderSide o config shape.left info vcs false b) [] budget config.separators 0)
  let rightW (b : Option Nat) : Nat :=
    lineWidth o (assembleRow o [] (renderSide o config shape.right info vcs true b) 0 config.separators 0)
  let fits (b : Option Nat) : Bool := decide (leftW b + rightW b + config.layout.rightIndent < budget)
  -- what is shortened is always the whole path
  let overflow := leftW none + rightW none + config.layout.rightIndent + 1 - budget
  if fits none then (none,true)
  else if fits (some overflow) then (some overflow,true)
  else (some (leftW none - budget),false)

def rowColumns (config : Config φ) (info : HeaderInfo τ) (vcs : Option GitStatus) (cols i : Nat) :
    List SegmentText × List SegmentText :=
  let shape := rowShape config i
  let (budget,right) := rowPlan o config info vcs cols i
  (renderSide o config shape.left info vcs false budget,
    if right then renderSide o config shape.right info vcs true budget else [])

def framePaint (config : Config φ) (piece : FramePiece) : List Ink :=
  paint piece.text (config.framePieceStyle piece)

def headerRow (config : Config φ) (info : HeaderInfo τ) (vcs : Option GitStatus) (cols i : Nat) : List Ink :=
  let shape := rowShape config i
  let (l,r) := rowColumns o config info vcs cols i
  framePaint config shape.pre ++
    (assembleRow o l r (bodyBudget o shape cols) config.separators config.layout.rightIndent ++
      framePaint config shape.suf)

def rulerChar (config : Config φ) : Str := (iconStr config "ruler".toList).getD ['\u2500']

def rulerRow (config : Config φ) (cols : Nat) : List Ink :=
  let ch := rulerChar config
  paint (List.replicate (cols / max (displayWidth o.charWidth ch) 1) ch).flatten
    ((config.segment "ruler".toList).effectiveStyle none config.defaults)

def layoutRows (config : Config φ) : Nat := max config.layout.left.length config.layout.right.length

def renderHeaderLines (config : Config φ) (info : HeaderInfo τ) (vcs : Option GitStatus) (cols : Nat) :
    List (List Ink) :=
  (if config.layout.showRuler then [rulerRow o config cols] else []) ++
    (List.range (layoutRows config)).map (headerRow o config info vcs cols)

/-- What the shell is told about the height of the header. -/
def headerRows (config : Config φ) : Nat := layoutRows config + if config.layout.showRuler then 1 else 0

end rows
end P11k.Render
