import P11k.Settings.Parse

/-! A configuration written as a document. What equals the reader's default is left out. -/
namespace P11k.Settings
open P11k

section write
variable {φ : Type}

def argument (value : KdlValue φ) : KdlEntry φ := ⟨none,value⟩

def property (name : Str) (value : KdlValue φ) : KdlEntry φ := ⟨some name,value⟩

def leaf (name : Str) (value : KdlValue φ) : KdlNode φ := ⟨name,[argument value],none⟩

def modeStr : IconMode → Str
  | .nerdfontComplete => "nerdfont-complete".toList
  | .nerdfontFontconfig => "nerdfont-fontconfig".toList
  | .compatible => "compatible".toList
  | .ascii => "ascii".toList

def hexChar (n : Nat) : Char := if n < 10 then Char.ofNat (n + 48) else Char.ofNat (n + 87)

/-- Two lower-case hexadecimal digits. -/
def hexByte (b : UInt8) : Str := [hexChar (b.toNat / 16),hexChar (b.toNat % 16)]

def colorValue : Color → KdlValue φ
  | .default => .null
  | .xterm n => .integer n.toNat
  | .rgb r g b => .string ('#' :: (hexByte r ++ hexByte g ++ hexByte b))
  | .named n => .string n

def styleEntries (style : Style) : List (KdlEntry φ) :=
  (if style.fg ≠ .default then [property "fg".toList (colorValue style.fg)] else []) ++
    ((if style.bg ≠ .default then [property "bg".toList (colorValue style.bg)] else []) ++
      (if style.bold = true then [property "bold".toList (.bool true)] else []))

def propValue : PropValue φ → KdlValue φ
  | .str s => .string s
  | .int n => .integer n.toInt
  | .float f => .float f
  | .bool b => .bool b

def elementNode : Element → KdlNode φ
  | .seg name => ⟨name,[],none⟩
  | .joined name => ⟨name ++ "_joined".toList,[],none⟩
  | .text t => leaf "text".toList (.string t)

def lineNode (row : List Element) : KdlNode φ := ⟨"line".toList,[],some (row.map elementNode)⟩

def rowsNode (name : Str) (rows : List (List Element)) : KdlNode φ :=
  ⟨name,[],if rows = [] then none else some (rows.map lineNode)⟩

def transientNodes : TransientPrompt → List (KdlNode φ)
  | .off => []
  | .always => [leaf "transient-prompt".toList (.bool true)]
  | .sameDir => [leaf "transient-prompt".toList (.string "same-dir".toList)]

def newlineNodes (n : Nat) : List (KdlNode φ) :=
  if n = 1 then [leaf "prompt-add-newline".toList (.bool true)]
  else if 1 < n then [leaf "prompt-add-newline".toList (.integer n)]
  else []

def layoutNode (layout : Layout) : KdlNode φ :=
  ⟨"layout".toList,[],some ([rowsNode "left".toList layout.left,rowsNode "right".toList layout.right] ++
    (newlineNodes layout.promptAddNewline ++ (transientNodes layout.transientPrompt ++
      ((if layout.showRuler = true then [leaf "show-ruler".toList (.bool true)] else []) ++
        (if layout.rightIndent ≠ 1 then [leaf "right-indent".toList (.integer layout.rightIndent)] else [])))))⟩

def colorEntry (name : Str) (c : Option Color) : List (KdlEntry φ) :=
  (c.map fun c => property name (colorValue c)).toList

def symbolNode (name val : Str) : List (KdlNode φ) :=
  if val ≠ [] then [leaf name (.string val)] else []

def separatorsNode (s : Separators) : KdlNode φ :=
  ⟨"separators".toList,
    colorEntry "gap-foreground".toList s.gapForeground ++
      (colorEntry "sub-foreground".toList s.subForeground ++
        colorEntry "right-sub-foreground".toList s.rightSubForeground),
    some (symbolNode "segment".toList s.segment ++ (symbolNode "sub".toList s.sub ++
      (symbolNode "end".toList s.endSymbol ++ (symbolNode "right-start".toList s.rightStart ++
        (symbolNode "right-segment".toList s.rightSegment ++ (symbolNode "right-sub".toList s.rightSub ++
          (symbolNode "left-tail".toList s.leftTail ++ (symbolNode "right-tail".toList s.rightTail ++
            symbolNode "gap".toList s.gap))))))))⟩

def pieceNode (name : Str) (piece : FramePiece) : List (KdlNode φ) :=
  if ¬ (piece.text = [] ∧ piece.style = none) then
    [⟨name,argument (.string piece.text) :: (piece.style.map styleEntries).getD [],none⟩]
  else []

def frameNode (f : Frame) : KdlNode φ :=
  ⟨"frame".toList,styleEntries f.style,
    some (pieceNode "first-prefix".toList f.firstPrefix ++ (pieceNode "first-suffix".toList f.firstSuffix ++
      (pieceNode "newline-prefix".toList f.newlinePrefix ++
        (pieceNode "newline-suffix".toList f.newlineSuffix ++
          (pieceNode "last-prefix".toList f.lastPrefix ++ pieceNode "last-suffix".toList f.lastSuffix)))))⟩

def stateNode (s : Str × StateSpec) : KdlNode φ :=
  ⟨"state".toList,argument (.string s.1) :: (styleEntries s.2.style ++
    (s.2.char.map fun c => property "char".toList (.string c)).toList),none⟩

def attachNode (name : Str) (a : AttachText) : KdlNode φ :=
  ⟨name,argument (.string a.text) :: colorEntry "fg".toList a.fg,none⟩

def textEntry (name : Str) (s : Option Str) : List (KdlEntry φ) :=
  (s.map fun s => property name (.string s)).toList

def segmentNode (s : Str × Segment φ) : KdlNode φ :=
  let seg := s.2
  ⟨s.1,
    styleEntries seg.style ++ (textEntry "content".toList seg.content ++
      (textEntry "prefix".toList seg.pre ++ (textEntry "suffix".toList seg.suf ++
        ((if seg.shown = false then [property "disabled".toList (.bool true)] else []) ++
          seg.props.entries.map fun p => property p.1 (propValue p.2))))),
    if seg.states.entries ≠ [] ∨ seg.textLeft.isSome ∨ seg.textMiddle.isSome ∨ seg.textRight.isSome then
      some (seg.states.entries.map stateNode ++
        ((seg.textLeft.map (attachNode "text-left".toList)).toList ++
          ((seg.textMiddle.map (attachNode "text-middle".toList)).toList ++
            (seg.textRight.map (attachNode "text-right".toList)).toList)))
    else none⟩

def segmentsNode (segments : SortedMap Str (Segment φ)) : KdlNode φ :=
  ⟨"segments".toList,[],some (segments.entries.map segmentNode)⟩

def remoteIconsNode (icons : List (Str × Str)) : KdlNode φ :=
  ⟨"vcs-remote-icons".toList,[],some (icons.map fun i => leaf i.1 (.string i.2))⟩

def textNode (name : Str) (v : Option Str) : List (KdlNode φ) := (v.map fun v => leaf name (.string v)).toList

def overrideNode (o : Str × IconOverride) : KdlNode φ :=
  ⟨o.1,[],some (textNode "all".toList o.2.all ++ (textNode "nf".toList o.2.nf ++
    (textNode "compat".toList o.2.compat ++ textNode "ascii".toList o.2.ascii)))⟩

def iconNode (overrides : SortedMap Str IconOverride) : KdlNode φ :=
  ⟨"icon".toList,[],some (overrides.entries.map overrideNode)⟩

def attrEntry (name val : Str) : List (KdlEntry φ) :=
  if val ≠ [] then [property name (.string val)] else []

def dirClassNode (c : DirClass) : KdlNode φ :=
  ⟨"class".toList,argument (.string c.pattern) ::
    (attrEntry "state".toList c.state ++ attrEntry "icon".toList c.icon),none⟩

def dirClassesNode (classes : List DirClass) : KdlNode φ :=
  ⟨"dir-classes".toList,[],some (classes.map dirClassNode)⟩

def toDocument (c : Config φ) : KdlDocument φ :=
  [leaf "mode".toList (.string (modeStr c.mode)),layoutNode c.layout] ++
    ((if c.defaults ≠ {} then [⟨"defaults".toList,styleEntries c.defaults,none⟩] else []) ++
      ((if c.separators ≠ {} then [separatorsNode c.separators] else []) ++
        ((if c.frame ≠ {} then [frameNode c.frame] else []) ++
          ((if c.segments.entries ≠ [] then [segmentsNode c.segments] else []) ++
            ((if c.vcsRemoteIcons ≠ defaultRemoteIcons then [remoteIconsNode c.vcsRemoteIcons] else []) ++
              ((if c.iconOverrides.entries ≠ [] then [iconNode c.iconOverrides] else []) ++
                ((if c.dirClasses ≠ [] then [dirClassesNode c.dirClasses] else []) ++
                  ((c.shell.map fun shell => leaf "shell".toList (.string shell)).toList ++
                    (if c.iconPadding = .moderate then
                      [leaf "icon-padding".toList (.string "moderate".toList)] else [])))))))))

end write
end P11k.Settings
