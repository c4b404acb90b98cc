import P11k.Settings.Types
import P11k.Lib.Text

/-! A document read as a configuration. Warnings about unknown keys go to stderr and are left
out. The text of a float, the translation of a message and the locale are parameters. -/
namespace P11k.Settings
open P11k

/-! Colours. -/

/-- The first `n` bytes and the rest. Inside a character there is no such slice. -/
def sliceBytes : Str → Nat → Option (Str × Str)
  | s, 0 => some ([],s)
  | [], _+1 => none
  | c :: s, n+1 =>
      if c.utf8Size ≤ n+1 then (sliceBytes s (n+1 - c.utf8Size)).map fun cut => (c :: cut.1,cut.2)
      else none

def byteLength (s : Str) : Nat := (s.map Char.utf8Size).sum

def hexDigit (c : Char) : Option Nat :=
  if '0' ≤ c ∧ c ≤ '9' then some (c.toNat - 48)
  else if 'a' ≤ c ∧ c ≤ 'f' then some (c.toNat - 87)
  else if 'A' ≤ c ∧ c ≤ 'F' then some (c.toNat - 55)
  else none

/-- `u8::from_str_radix` for texts of two bytes, which cannot overflow. It takes a plus sign. -/
def fromStrRadix (s : Str) : Option UInt8 :=
  let digits := if s.head? = some '+' ∧ 1 < s.length then s.tail else s
  if digits = [] then none
  else (digits.mapM hexDigit).map fun ds => UInt8.ofNat (ds.foldl (fun n d => 16 * n + d) 0)

def Color.fromStr (s : Str) : Except Failure Color :=
  match s with
  | '#' :: hex =>
      if byteLength hex = 6 then
        match (sliceBytes hex 2).bind fun cut => (sliceBytes cut.2 2).map fun cut' => (cut.1,cut'.1,cut'.2) with
        | none => .error .panicked
        | some (r,g,b) =>
            match fromStrRadix r, fromStrRadix g, fromStrRadix b with
            | some r, some g, some b => .ok (.rgb r g b)
            | _, _, _ => .ok (.named s)
      else .ok (.named s)
  | _ => .ok (if s = "default".toList then .default else .named s)

def clamp (n : Int) (most : Nat) : Nat := (max 0 (min n most)).toNat

section parse
variable {φ : Type}

def Color.fromValue : KdlValue φ → Except Failure Color
  | .string s => Color.fromStr s
  | .integer n => .ok (.xterm (UInt8.ofNat (clamp n 255)))
  | _ => .ok .default

/-! Values. -/

def boolVal : KdlValue φ → Bool
  | .bool b => b
  | _ => false

def strVal (floatText : φ → Str) : KdlValue φ → Option Str
  | .string s => some s
  | .integer n => some (Text.signed n)
  | .float f => some (floatText f)
  | .bool b => some (if b then "true".toList else "false".toList)
  | .null => none

def propVal : KdlValue φ → PropValue φ
  | .string s => .str s
  | .integer n => .int (Int64.ofInt n)
  | .float f => .float f
  | .bool b => .bool b
  | .null => .str []

def firstValue (node : KdlNode φ) : Option (KdlValue φ) :=
  (node.entries.find? (·.name.isNone)).map (·.value)

def firstStateName (node : KdlNode φ) : Option Str :=
  match firstValue node with
  | some (.string s) => some s
  | _ => none

def namedEntry (node : KdlNode φ) (name : Str) : Option (KdlEntry φ) :=
  node.entries.find? (·.name = some name)

def namedColor (node : KdlNode φ) (name : Str) : Except Failure (Option Color) :=
  match namedEntry node name with
  | none => .ok none
  | some e => (Color.fromValue e.value).map some

variable (floatText : φ → Str) (t : Str → Str)

def namedStr (node : KdlNode φ) (name : Str) : Option Str :=
  (namedEntry node name).bind fun e => strVal floatText e.value

/-! Styles. -/

def styleEntry (s : Style) (e : KdlEntry φ) : Except Failure Style :=
  if e.name = some "fg".toList then (Color.fromValue e.value).map fun c => { s with fg := c }
  else if e.name = some "bg".toList then (Color.fromValue e.value).map fun c => { s with bg := c }
  else if e.name = some "bold".toList then .ok { s with bold := boolVal e.value }
  else .ok s

def Style.parse (entries : List (KdlEntry φ)) : Except Failure Style := entries.foldlM styleEntry {}

/-! Layout. -/

def TransientPrompt.fromStr (s : Str) : TransientPrompt :=
  if s = "always".toList then .always
  else if s = "same-dir".toList then .sameDir
  else .off

/-- A string value is static text, and an explicit `#false` leaves a segment out. -/
def parseElement (child : KdlNode φ) : Option Element :=
  match firstValue child with
  | some (.string s) => some (.text s)
  | v =>
      if (v.map boolVal).getD true then
        match child.name.dropSuffix? "_joined".toList with
        | some base => some (.joined base)
        | none => some (.seg child.name)
      else none

def parseLine (node : KdlNode φ) : List Element := node.kids.filterMap parseElement

def parseLines (node : KdlNode φ) : List (List Element) := node.kids.map parseLine

def layoutChild (layout : Layout) (child : KdlNode φ) : Layout :=
  if child.name = "left".toList then { layout with left := parseLines child }
  else if child.name = "right".toList then { layout with right := parseLines child }
  else if child.name = "prompt-add-newline".toList then
    { layout with promptAddNewline := match firstValue child with
      | some (.integer n) => clamp n 9
      | v => if (v.map boolVal).getD false then 1 else 0 }
  else if child.name = "transient-prompt".toList then
    { layout with transientPrompt := match firstValue child with
      | some (.string s) => TransientPrompt.fromStr s
      | v => if (v.map boolVal).getD false then .always else .off }
  else if child.name = "show-ruler".toList then
    { layout with showRuler := ((firstValue child).map boolVal).getD false }
  else if child.name = "right-indent".toList then
    match firstValue child with
    | some (.integer n) => { layout with rightIndent := clamp n 9 }
    | _ => layout
  else layout

def parseLayout (node : KdlNode φ) : Layout := node.kids.foldl layoutChild {}

/-! Segments. -/

/-- Names that are not behaviour properties. -/
def ownNames : List Str :=
  ["fg".toList,"bg".toList,"bold".toList,"content".toList,"prefix".toList,"suffix".toList,"disabled".toList]

def segmentEntry (seg : Segment φ) (e : KdlEntry φ) : Segment φ :=
  match e.name with
  | none => seg
  | some name =>
      if name = "content".toList then { seg with content := strVal floatText e.value }
      else if name = "prefix".toList then { seg with pre := strVal floatText e.value }
      else if name = "suffix".toList then { seg with suf := strVal floatText e.value }
      else if name = "disabled".toList then { seg with shown := !boolVal e.value }
      else if name ∈ ownNames then seg
      else { seg with props := seg.props.insert name (propVal e.value) }

def segmentChild (seg : Segment φ) (child : KdlNode φ) : Except Failure (Segment φ) :=
  if child.name = "state".toList then
    match firstStateName child with
    | none => .error (.rejected (t "`state` needs a name (a positional string)".toList))
    | some nm => (Style.parse child.entries).map fun st =>
        { seg with states := seg.states.insert nm ⟨st,namedStr floatText child "char".toList⟩ }
  else if child.name ∈ ["text-left".toList,"text-middle".toList,"text-right".toList] then
    match firstStateName child with
    | none => .error (.rejected (child.name ++ t " needs text (a positional string)".toList))
    | some text => (namedColor child "fg".toList).map fun fg =>
        if child.name = "text-left".toList then { seg with textLeft := some ⟨text,fg⟩ }
        else if child.name = "text-middle".toList then { seg with textMiddle := some ⟨text,fg⟩ }
        else { seg with textRight := some ⟨text,fg⟩ }
  else .ok seg

def parseSegment (node : KdlNode φ) : Except Failure (Segment φ) := do
  let style ← Style.parse node.entries
  node.kids.foldlM (segmentChild floatText t)
    (node.entries.foldl (segmentEntry floatText) { style := style })

/-- What a later node of the same segment says takes over. -/
def mergeSegment (a b : Segment φ) : Segment φ :=
  { style :=
      { fg := if b.style.fg = .default then a.style.fg else b.style.fg
        bg := if b.style.bg = .default then a.style.bg else b.style.bg
        bold := a.style.bold || b.style.bold }
    states := b.states.entries.foldl (fun states e => states.insert e.1 e.2) a.states
    content := b.content.or a.content
    textLeft := b.textLeft.or a.textLeft
    textMiddle := b.textMiddle.or a.textMiddle
    textRight := b.textRight.or a.textRight
    pre := b.pre.or a.pre
    suf := b.suf.or a.suf
    shown := a.shown && b.shown
    props := b.props.entries.foldl (fun props e => props.insert e.1 e.2) a.props }

def segmentNamed (segments : SortedMap Str (Segment φ)) (node : KdlNode φ) :
    Except Failure (SortedMap Str (Segment φ)) := do
  let parsed ← parseSegment floatText t node
  match segments.get? node.name with
  | some existing => .ok (segments.insert node.name (mergeSegment existing parsed))
  | none => .ok (segments.insert node.name parsed)

/-! Separators, frame, icons, classes. -/

def separatorsChild (s : Separators) (child : KdlNode φ) : Separators :=
  match (firstValue child).bind (strVal floatText) with
  | none => s
  | some ch =>
      if child.name = "segment".toList then { s with segment := ch }
      else if child.name = "sub".toList then { s with sub := ch }
      else if child.name = "end".toList then { s with endSymbol := ch }
      else if child.name = "right-start".toList then { s with rightStart := ch }
      else if child.name = "right-segment".toList then { s with rightSegment := ch }
      else if child.name = "right-sub".toList then { s with rightSub := ch }
      else if child.name = "left-tail".toList then { s with leftTail := ch }
      else if child.name = "right-tail".toList then { s with rightTail := ch }
      else if child.name = "gap".toList then { s with gap := ch }
      else s

def parseSeparators (node : KdlNode φ) : Except Failure Separators := do
  let gapForeground ← namedColor node "gap-foreground".toList
  let subForeground ← namedColor node "sub-foreground".toList
  let rightSubForeground ← namedColor node "right-sub-foreground".toList
  let s : Separators := { gapForeground, subForeground, rightSubForeground }
  pure (node.kids.foldl (separatorsChild floatText) s)

def setPiece (f : Frame) (name : Str) (piece : FramePiece) : Frame :=
  if name = "first-prefix".toList then { f with firstPrefix := piece }
  else if name = "first-suffix".toList then { f with firstSuffix := piece }
  else if name = "newline-prefix".toList then { f with newlinePrefix := piece }
  else if name = "newline-suffix".toList then { f with newlineSuffix := piece }
  else if name = "last-prefix".toList then { f with lastPrefix := piece }
  else if name = "last-suffix".toList then { f with lastSuffix := piece }
  else f

/-- A child without colours has no style of its own. -/
def frameChild (f : Frame) (child : KdlNode φ) : Except Failure Frame :=
  match (firstValue child).bind (strVal floatText) with
  | none => .ok f
  | some text => (Style.parse child.entries).map fun st =>
      setPiece f child.name ⟨text,if st = {} then none else some st⟩

def parseFrame (node : KdlNode φ) : Except Failure Frame := do
  let style ← Style.parse node.entries
  node.kids.foldlM (frameChild floatText) { style := style }

def parseRemoteIcons (node : KdlNode φ) : List (Str × Str) :=
  node.kids.filterMap fun child => (firstStateName child).map fun icon => (child.name,icon)

def iconField (ov : IconOverride) (f : KdlNode φ) : IconOverride :=
  match (firstValue f).bind (strVal floatText) with
  | none => ov
  | some v =>
      if f.name = "all".toList then { ov with all := some v }
      else if f.name = "nf".toList then { ov with nf := some v }
      else if f.name = "compat".toList then { ov with compat := some v }
      else if f.name = "ascii".toList then { ov with ascii := some v }
      else ov

def iconChild (out : SortedMap Str IconOverride) (child : KdlNode φ) : SortedMap Str IconOverride :=
  out.insert child.name (child.kids.foldl (iconField floatText) {})

def parseIconTable (node : KdlNode φ) : SortedMap Str IconOverride :=
  node.kids.foldl (iconChild floatText) .empty

/-- A property that is not a string counts as absent here. -/
def classAttr (child : KdlNode φ) (key : Str) : Str :=
  match namedEntry child key with
  | some ⟨_,.string s⟩ => s
  | _ => []

def parseDirClass (child : KdlNode φ) : Option DirClass :=
  if child.name = "class".toList then (firstStateName child).map fun pattern =>
    ⟨pattern,classAttr child "state".toList,classAttr child "icon".toList⟩
  else none

def parseDirClasses (node : KdlNode φ) : List DirClass := node.kids.filterMap parseDirClass

/-! The document. -/

def IconMode.fromStr (s : Str) : IconMode :=
  if s = "ascii".toList then .ascii
  else if s = "compatible".toList then .compatible
  else if s = "nerdfont-fontconfig".toList then .nerdfontFontconfig
  else .nerdfontComplete

def IconPadding.fromStr (s : Str) : IconPadding := if s = "moderate".toList then .moderate else .none

def docNode (c : Config φ) (node : KdlNode φ) : Except Failure (Config φ) :=
  if node.name = "layout".toList then .ok { c with layout := parseLayout node }
  else if node.name = "segments".toList then
    (node.kids.foldlM (segmentNamed floatText t) c.segments).map fun segments => { c with segments := segments }
  else if node.name = "defaults".toList then
    (Style.parse node.entries).map fun defaults => { c with defaults := defaults }
  else if node.name = "separators".toList then
    (parseSeparators floatText node).map fun separators => { c with separators := separators }
  else if node.name = "frame".toList then
    (parseFrame floatText node).map fun frame => { c with frame := frame }
  else if node.name = "vcs-remote-icons".toList then .ok { c with vcsRemoteIcons := parseRemoteIcons node }
  else if node.name = "mode".toList then
    match (firstValue node).bind (strVal floatText) with
    | some s => .ok { c with mode := IconMode.fromStr s }
    | none => .ok c
  else if node.name = "icon".toList then .ok { c with iconOverrides := parseIconTable floatText node }
  else if node.name = "dir-classes".toList then .ok { c with dirClasses := parseDirClasses node }
  else if node.name = "shell".toList then
    .ok { c with shell := (firstValue node).bind (strVal floatText) }
  else if node.name = "icon-padding".toList then
    match (firstValue node).bind (strVal floatText) with
    | some s => .ok { c with iconPadding := IconPadding.fromStr s }
    | none => .ok c
  else .ok c

/-- Without a mode in the document the locale decides. -/
def parseDoc (localeIsUtf8 : Bool) (doc : KdlDocument φ) : Except Failure (Config φ) :=
  doc.foldlM (docNode floatText t) { mode := if localeIsUtf8 then .nerdfontComplete else .ascii }

end parse
end P11k.Settings
