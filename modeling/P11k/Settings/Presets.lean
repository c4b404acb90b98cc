import P11k.Settings.Lookup

/-! The built-in themes, and the constructors that the wizard and the engine build them with. -/
namespace P11k.Presets
open Settings

section presets
variable {φ : Type}

def bgColors : List UInt8 := [240,238,236,234]
def sepColors : List UInt8 := [248,246,244,242]
def frameColors : List UInt8 := [244,242,240,238]

/-- The shade of one of the four, counted from 1; another number is the next that there is. -/
def shade (colors : List UInt8) (color : Nat) : UInt8 := colors.getD (max 1 (min color 4) - 1) 0

def x (n : UInt8) : Color := .xterm n

def styled (fg : Color) (bg : Option UInt8) : Style := { fg := fg, bg := bg.elim .default x }

def foregrounds (colors : List (Str × UInt8)) : SortedMap Str (PropValue φ) :=
  colors.foldl (fun props c => props.insert c.1 (.int (Int64.ofNat c.2.toNat))) .empty

def dirSeg (fg short anchor : UInt8) (anchorBold : Bool) (bg : Option UInt8) : Segment φ where
  style := styled (x fg) bg
  props := (SortedMap.empty.insert "shorten-strategy".toList (.str "truncate_to_unique".toList)).insert
    "shorten-dir-length".toList (.int 1)
  states := (SortedMap.empty.insert "SHORTENED".toList ⟨{ fg := x short },none⟩).insert
    "ANCHOR".toList ⟨{ fg := x anchor, bold := anchorBold },none⟩

def vcsSeg (fg : Option UInt8) (clean modified conflicted untracked metaColor : UInt8) (bg : Option UInt8) : Segment φ where
  style := styled (fg.elim .default x) bg
  props := (((foregrounds [("clean-foreground".toList,clean),("modified-foreground".toList,modified),
      ("conflicted-foreground".toList,conflicted),("untracked-foreground".toList,untracked),
      ("meta-foreground".toList,metaColor)]).insert "shorten-length".toList (.int 12)).insert
    "shorten-min-length".toList (.int 32)).insert "shorten-strategy".toList (.str "truncate_middle".toList)

def statusSeg (ok err : UInt8) (bg : Option UInt8) : Segment φ where
  style := styled .default bg
  props := (foregrounds [("ok-foreground".toList,ok),("error-foreground".toList,err)]).insert "verbose".toList (.bool true)

def execSeg (fg : UInt8) (bg : Option UInt8) : Segment φ where
  style := styled (x fg) bg
  props := (SortedMap.empty.insert "threshold-seconds".toList (.int 3)).insert "precision".toList (.int 0)

def jobsSeg (fg : UInt8) (bg : Option UInt8) : Segment φ where
  style := styled (x fg) bg
  props := SortedMap.empty.insert "verbose".toList (.bool false)

def osIconSeg (fg : UInt8) (bg : Option UInt8) : Segment φ where
  style := styled (x fg) bg

def promptCharSeg (ok err : UInt8) : Segment φ where
  style := { fg := x ok }
  states := SortedMap.empty.insert "ERROR".toList ⟨{ fg := x err },none⟩

def piece (text : String) : FramePiece := { text := text.toList }

/-- `╭─` above, `├─` between, `╰─` before the input. -/
def powerlineFrame (color : UInt8) : Frame where
  style := { fg := x color }
  firstPrefix := piece "╭─"
  firstSuffix := piece "─╮"
  newlinePrefix := piece "├─"
  newlineSuffix := piece "─┤"
  lastPrefix := piece "╰─"

def glyph (n : Nat) : Str := [Char.ofNat n]

def powerlineSeparators (subForeground : Option UInt8) : Separators where
  segment := glyph 0xe0b0
  sub := glyph 0xe0b1
  rightStart := glyph 0xe0b2
  rightSegment := glyph 0xe0b2
  rightSub := glyph 0xe0b3
  gap := [' ']
  subForeground := subForeground.map x
  rightSubForeground := subForeground.map x

def segs (names : List String) : List Element := names.map fun name => .seg name.toList

def segments (entries : List (String × Segment φ)) : SortedMap Str (Segment φ) :=
  entries.foldl (fun segments e => segments.insert e.1.toList e.2) .empty

/-- What the shades and shapes of a `lean` theme differ in. -/
structure LeanColors where
  dir : UInt8
  short : UInt8
  anchor : UInt8
  anchorBold : Bool
  vcsClean : UInt8
  vcsMod : UInt8
  vcsConf : UInt8
  vcsUnt : UInt8
  vcsMeta : UInt8
  stOk : UInt8
  stErr : UInt8
  exec : UInt8
  jobs : UInt8
  pcOk : UInt8
  pcErr : UInt8

def leanColors (colors8 : Bool) : LeanColors :=
  if colors8 then ⟨4,4,4,false,2,3,1,4,0,2,1,3,1,2,1⟩
  else ⟨31,103,39,true,76,178,196,39,246,70,160,101,70,76,196⟩

def lean (colors8 : Bool) : Config φ :=
  let c := leanColors colors8
  { layout := {
      left := [segs ["dir","vcs"]]
      right := [segs ["status","command_execution_time","background_jobs"]] }
    segments := segments [
      ("dir",dirSeg c.dir c.short c.anchor c.anchorBold none),
      ("vcs",vcsSeg none c.vcsClean c.vcsMod c.vcsConf c.vcsUnt c.vcsMeta none),
      ("status",statusSeg c.stOk c.stErr none),
      ("command_execution_time",execSeg c.exec none),
      ("background_jobs",jobsSeg c.jobs none),
      ("prompt_char",promptCharSeg c.pcOk c.pcErr)] }

def arrowLayout : Layout where
  left := [segs ["os_icon","dir","vcs"]]
  right := [segs ["status","command_execution_time","background_jobs"]]

def classic (color : Nat) : Config φ :=
  let bg := some (shade bgColors color)
  { layout := arrowLayout
    separators := powerlineSeparators (some (shade sepColors color))
    frame := powerlineFrame (shade frameColors color)
    segments := segments [
      ("os_icon",osIconSeg 255 bg),
      ("dir",dirSeg 31 103 39 true bg),
      ("vcs",vcsSeg none 76 178 196 39 246 bg),
      ("status",statusSeg 70 160 bg),
      ("command_execution_time",execSeg 248 bg),
      ("background_jobs",jobsSeg 37 bg),
      ("prompt_char",promptCharSeg 76 196)] }

def rainbow (color : Nat) : Config φ where
  layout := arrowLayout
  separators := powerlineSeparators none
  frame := powerlineFrame (shade frameColors color)
  segments := segments [
    ("os_icon",osIconSeg 232 (some 7)),
    ("dir",dirSeg 254 250 255 true (some 4)),
    ("vcs",vcsSeg none 0 0 1 0 7 (some 2)),
    ("status",statusSeg 2 3 (some 0)),
    ("command_execution_time",execSeg 0 (some 3)),
    ("background_jobs",jobsSeg 6 (some 0)),
    ("prompt_char",promptCharSeg 76 196)]

def withFg (seg : Segment φ) (c : Color) : Segment φ := { seg with style := { seg.style with fg := c } }

def withStateFg (seg : Segment φ) (name : String) (c : Color) : Segment φ :=
  match seg.states.get? name.toList with
  | none => seg
  | some spec => { seg with states := seg.states.insert name.toList { spec with style := { spec.style with fg := c } } }

/-- Grey, red, yellow, blue and magenta. -/
structure Palette where
  grey : Color
  red : Color
  yellow : Color
  blue : Color
  magenta : Color

def palette (snazzy : Bool) : Palette :=
  if snazzy then ⟨x 242,.rgb 255 92 87,.rgb 243 249 157,.rgb 87 199 255,.rgb 255 106 193⟩
  else ⟨x 242,x 1,x 3,x 4,x 5⟩

def pure (snazzy : Bool) : Config φ :=
  let c := palette snazzy
  { layout := { left := [segs ["context","dir","vcs","command_execution_time"]] }
    segments := segments [
      ("context",withFg {} c.grey),
      ("dir",withStateFg (withStateFg (withFg (dirSeg 0 0 0 false none) c.blue) "SHORTENED" c.grey) "ANCHOR" c.blue),
      ("vcs",withFg {} c.grey),
      ("command_execution_time",withFg (execSeg 0 none) c.yellow),
      ("prompt_char",withStateFg (withFg (promptCharSeg 0 0) c.magenta) "ERROR" c.red)] }

end presets

inductive PresetKind where
  | lean
  | classic
  | rainbow
  | pure
  deriving DecidableEq, Repr

def PresetKind.name : PresetKind → String
  | .lean => "lean"
  | .classic => "classic"
  | .rainbow => "rainbow"
  | .pure => "pure"

def PresetKind.title : PresetKind → String
  | .lean => "Lean."
  | .classic => "Classic."
  | .rainbow => "Rainbow."
  | .pure => "Pure."

/-- In the order in which the wizard shows them. -/
def PresetKind.all : List PresetKind := [.lean,.classic,.rainbow,.pure]

def byName (name : Str) : Option PresetKind := PresetKind.all.find? fun kind => kind.name.toList = name

def build {φ : Type} : PresetKind → Config φ
  | .lean => lean false
  | .classic => classic 2
  | .rainbow => rainbow 2
  | .pure => pure true

end P11k.Presets
