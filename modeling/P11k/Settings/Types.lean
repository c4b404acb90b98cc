import Mathlib.Data.List.Lex
import Mathlib.Data.Char
import P11k.Lib.SortedMap

/-! The configuration of a theme, and KDL documents as far as it reads and writes them. A float
is whatever the document holds; only its text is ever looked at. -/
namespace P11k.Settings
open P11k

abbrev Str := List Char

inductive Color where
  | default
  | xterm (n : UInt8)
  | rgb (r g b : UInt8)
  | named (name : Str)
  deriving DecidableEq, Repr

structure Style where
  fg : Color := .default
  bg : Color := .default
  bold : Bool := false
  deriving DecidableEq, Repr

inductive Element where
  | seg (name : Str)
  | joined (name : Str)
  | text (t : Str)
  deriving DecidableEq, Repr

inductive TransientPrompt where
  | off
  | always
  | sameDir
  deriving DecidableEq, Repr

structure Layout where
  left : List (List Element) := []
  right : List (List Element) := []
  promptAddNewline : Nat := 0
  transientPrompt : TransientPrompt := .off
  showRuler : Bool := false
  rightIndent : Nat := 1
  deriving DecidableEq, Repr

structure Separators where
  segment : Str := []
  sub : Str := []
  endSymbol : Str := []
  rightStart : Str := []
  rightSegment : Str := []
  rightSub : Str := []
  leftTail : Str := []
  rightTail : Str := []
  gap : Str := []
  gapForeground : Option Color := none
  subForeground : Option Color := none
  rightSubForeground : Option Color := none
  deriving DecidableEq, Repr

structure FramePiece where
  text : Str := []
  style : Option Style := none
  deriving DecidableEq, Repr

structure Frame where
  style : Style := {}
  firstPrefix : FramePiece := {}
  firstSuffix : FramePiece := {}
  newlinePrefix : FramePiece := {}
  newlineSuffix : FramePiece := {}
  lastPrefix : FramePiece := {}
  lastSuffix : FramePiece := {}
  deriving DecidableEq, Repr

inductive PropValue (φ : Type) where
  | str (s : Str)
  | int (n : Int64)
  | float (f : φ)
  | bool (b : Bool)

structure StateSpec where
  style : Style
  char : Option Str
  deriving DecidableEq, Repr

structure AttachText where
  text : Str := []
  fg : Option Color := none
  deriving DecidableEq, Repr

structure Segment (φ : Type) where
  style : Style := {}
  states : SortedMap Str StateSpec := .empty
  content : Option Str := none
  textLeft : Option AttachText := none
  textMiddle : Option AttachText := none
  textRight : Option AttachText := none
  pre : Option Str := none
  suf : Option Str := none
  shown : Bool := true
  props : SortedMap Str (PropValue φ) := .empty

inductive IconMode where
  | nerdfontComplete
  | nerdfontFontconfig
  | compatible
  | ascii
  deriving DecidableEq, Repr

structure IconOverride where
  all : Option Str := none
  nf : Option Str := none
  compat : Option Str := none
  ascii : Option Str := none
  deriving DecidableEq, Repr

structure DirClass where
  pattern : Str
  state : Str
  icon : Str
  deriving DecidableEq, Repr

inductive IconPadding where
  | none
  | moderate
  deriving DecidableEq, Repr

def defaultRemoteIcons : List (Str × Str) :=
  [("github".toList,[Char.ofNat 0xf113]),("gitlab".toList,[Char.ofNat 0xf296]),
    ("bitbucket".toList,[Char.ofNat 0xf171]),("aur.archlinux.org".toList,[Char.ofNat 0xf303]),
    ("archlinux.org".toList,[Char.ofNat 0xf303])]

structure Config (φ : Type) where
  layout : Layout := {}
  segments : SortedMap Str (Segment φ) := .empty
  defaults : Style := {}
  separators : Separators := {}
  frame : Frame := {}
  vcsRemoteIcons : List (Str × Str) := defaultRemoteIcons
  mode : IconMode := .nerdfontComplete
  iconOverrides : SortedMap Str IconOverride := .empty
  dirClasses : List DirClass := []
  shell : Option Str := none
  iconPadding : IconPadding := .none

/-! Documents. -/

inductive KdlValue (φ : Type) where
  | string (s : Str)
  | integer (n : Int)
  | float (f : φ)
  | bool (b : Bool)
  | null

structure KdlEntry (φ : Type) where
  name : Option Str
  value : KdlValue φ

structure KdlNode (φ : Type) where
  name : Str
  entries : List (KdlEntry φ)
  children : Option (List (KdlNode φ))

abbrev KdlDocument (φ : Type) := List (KdlNode φ)

/-- The nodes a loop over the children goes through. -/
def KdlNode.kids {φ : Type} (n : KdlNode φ) : List (KdlNode φ) := n.children.getD []

/-- Why a document does not become a configuration. -/
inductive Failure where
  | rejected (message : Str)
  | panicked
  deriving DecidableEq, Repr

end P11k.Settings
