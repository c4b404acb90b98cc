import P11k.Settings.Types

/-! What the configuration says about a segment and about a piece of the frame. -/
namespace P11k.Settings
open P11k

section lookup
variable {φ : Type}

/-- Fields of the upper layer that are set win. -/
def mergeStyle (upper base : Style) : Style where
  fg := if upper.fg = .default then base.fg else upper.fg
  bg := if upper.bg = .default then base.bg else upper.bg
  bold := upper.bold || base.bold

def Segment.effectiveStyle (seg : Segment φ) (state : Option Str) (globals : Style) : Style :=
  let base := mergeStyle seg.style globals
  match state.bind seg.states.get? with
  | some spec => mergeStyle spec.style base
  | none => base

def Segment.prop (seg : Segment φ) (name : Str) : Option (PropValue φ) := seg.props.get? name

def Segment.charFor (seg : Segment φ) (state : Option Str) (defaultChar : Str) : Str :=
  match (state.bind seg.states.get?).bind StateSpec.char with
  | some c => c
  | none =>
    match seg.prop "char".toList with
    | some (.str c) => c
    | _ => defaultChar

/-- A segment that is not configured is the default one. -/
def Config.segment (config : Config φ) (name : Str) : Segment φ := (config.segments.get? name).getD {}

/-- The frame never takes its background from the defaults. -/
def Config.framePieceStyle (config : Config φ) (piece : FramePiece) : Style :=
  let base := { mergeStyle config.frame.style config.defaults with bg := config.frame.style.bg }
  match piece.style with
  | some s => mergeStyle s base
  | none => base

end lookup
end P11k.Settings
