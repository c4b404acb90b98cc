import P11k.Lib.Dialogue
import P11k.Settings.Presets

/-! `p11k configure`: the keys, the questions, and what each answer does to the theme. -/
namespace P11k.Wizard
open Settings
open Dialogue (Step Ask ask)
open Presets (PresetKind segs)

/-! Keys. -/

/-- A byte from the terminal, and whether it is there within the time that an escape sequence takes. -/
structure Press where
  byte : UInt8
  soon : Bool
  deriving DecidableEq, Repr

def normalizeKey (byte : UInt8) : UInt8 := if byte = 3 ∨ byte = 27 then 113 else byte

def isEscapeFinal (byte : UInt8) : Bool := 64 ≤ byte && byte ≤ 126

/-- One key, inside of an escape sequence or not; behind the last byte it is `q`. -/
def key : Bool → List Press → UInt8 × List Press
  | _, [] => (113,[])
  | true, p :: ps => key (!isEscapeFinal p.byte) ps
  | false, p :: ps =>
      if p.byte ≠ 27 then (normalizeKey p.byte,ps)
      else match ps with
        | [] => (113,[])
        | n :: ns =>
            if !n.soon then (113,n :: ns)
            else if n.byte = 91 ∨ n.byte = 79 then key true ns
            else (113,ns)

/-! Questions. -/

structure Question where
  title : String
  options : List String
  deriving DecidableEq, Repr

abbrev Asking (α : Type) := Ask UInt8 Question α

def choiceKey (n : Nat) (k : UInt8) : Option (Step Nat) :=
  if k = 113 then some .quit
  else if k = 114 then some .restart
  else if 49 ≤ k ∧ k ≤ 57 then
    if (k - 49).toNat < n then some (.answer (k - 49).toNat) else none
  else none

def askChoicePreview (q : Question) : Asking Nat := ask q (choiceKey q.options.length)

def ynKey (k : UInt8) : Option (Step Bool) :=
  if k = 113 then some .quit
  else if k = 114 then some .restart
  else if k = 121 then some (.answer true)
  else if k = 110 then some (.answer false)
  else none

def askYn (title yes no : String) : Asking Bool := ask ⟨title,[yes,no]⟩ ynKey

section flow
variable {φ : Type}

/-- The same edit makes the preview and the theme. -/
def askApply (q : Question) (c : Config φ) (apply : Config φ → Nat → Config φ) : Asking (Config φ) := do
  let i ← askChoicePreview q
  return apply c i

def askFont : Asking IconMode := do
  let diamond ← askYn "Does this look like a diamond (rotated square)?" "Yes." "No."
  if diamond then
    let lock ← askYn "Does this look like a lock?" "Yes." "No."
    return if lock then .nerdfontComplete else .compatible
  else
    let taller ← askYn "Does this look like >< but taller and fatter?" "Yes." "No."
    return if taller then .compatible else .ascii

def askStyle : Asking PresetKind := do
  let i ← askChoicePreview ⟨"Prompt Style",PresetKind.all.map PresetKind.title⟩
  return PresetKind.all.getD i .lean

def buildWithColor (kind : PresetKind) (i : Nat) : Config φ :=
  match kind with
  | .lean => Presets.lean (i == 1)
  | .classic => Presets.classic (i + 1)
  | .rainbow => Presets.rainbow (i + 1)
  | .pure => Presets.pure (i == 1)

def four : List String := ["Lightest.","Light.","Dark.","Darkest."]

def colorQuestion : PresetKind → Question
  | .lean => ⟨"Prompt Colors",["256 colors.","8 colors."]⟩
  | .classic => ⟨"Prompt Color",four⟩
  | .rainbow => ⟨"Frame Color",four⟩
  | .pure => ⟨"Prompt Colors",["Original.","Snazzy."]⟩

def askColor (kind : PresetKind) (mode : IconMode) : Asking (Config φ) := do
  let i ← askChoicePreview (colorQuestion kind)
  return { buildWithColor kind i with mode := mode }

def askCharset : Asking Bool := do
  let i ← askChoicePreview ⟨"Character Set",["Unicode.","ASCII."]⟩
  return i == 1

/-! Edits. -/

def isSeg (name : String) : Element → Bool
  | .seg s => s = name.toList
  | _ => false

def without (name : String) (rows : List (List Element)) : List (List Element) :=
  rows.map fun row => row.filter fun e => !isSeg name e

def pushFirst (name : String) : List (List Element) → List (List Element)
  | [] => [segs [name]]
  | row :: rows => (row ++ segs [name]) :: rows

def removeSegment (c : Config φ) (name : String) : Config φ :=
  { c with layout := { c.layout with left := without name c.layout.left, right := without name c.layout.right } }

def addToRight (c : Config φ) (name : String) : Config φ :=
  if c.layout.right.flatten.any (isSeg name) then c
  else { c with layout := { c.layout with right := pushFirst name c.layout.right } }

def setPrefix (c : Config φ) (name : String) (told : Option String) : Config φ :=
  match c.segments.get? name.toList with
  | none => c
  | some seg => { c with segments := c.segments.insert name.toList { seg with pre := told.map String.toList } }

def rpromptQuestion : Question := ⟨"Non-permanent content location",["Left.","Right."]⟩

def useRprompt (c : Config φ) (i : Nat) : Config φ :=
  let c := removeSegment c "command_execution_time"
  let layout := c.layout
  if i = 0 then { c with layout := { layout with left := pushFirst "command_execution_time" layout.left } }
  else { c with layout := { layout with right := pushFirst "command_execution_time" layout.right } }

def timeBg (kind : PresetKind) (c : Config φ) : Option UInt8 :=
  match kind with
  | .rainbow => some 7
  | .classic => (match (c.segment "dir".toList).style.bg with
    | .xterm n => some n
    | _ => none)
  | .lean | .pure => none

def timeQuestion : Question := ⟨"Show current time?",["No.","12-hour format.","24-hour format."]⟩

def timeSegment (kind : PresetKind) (c : Config φ) : Segment φ :=
  (c.segments.get? "time".toList).getD { style := Presets.styled (Presets.x 66) (timeBg kind c) }

def showTime (kind : PresetKind) (c : Config φ) (i : Nat) : Config φ :=
  if i = 0 then removeSegment c "time"
  else
    let c := addToRight c "time"
    let seg := timeSegment kind c
    let format := if i = 1 then "12h" else "24h"
    let seg := { seg with props := seg.props.insert "time-format".toList (.str format.toList) }
    { c with segments := c.segments.insert "time".toList seg }

def symbol (codes : List Nat) : Str := codes.map Char.ofNat

def separatorsQuestion : Question := ⟨"Prompt Separators",["Angled.","Vertical.","Slanted.","Round."]⟩

def setSeparators (c : Config φ) (i : Nat) : Config φ :=
  let (seg,sub,rseg,rsub) := match i with
    | 0 => (symbol [0xe0b0],symbol [0xe0b1],symbol [0xe0b2],symbol [0xe0b3])
    | 1 => ([],symbol [0x2502],[],symbol [0x2502])
    | 2 => (symbol [0xe0bc],symbol [0x2571],symbol [0xe0ba],symbol [0x2571])
    | _ => (symbol [0xe0b4],symbol [0xe0b5],symbol [0xe0b6],symbol [0xe0b7])
  { c with separators := { c.separators with segment := seg, sub := sub, rightSegment := rseg, rightSub := rsub } }

def fiveEnds : List String := ["Flat.","Blurred.","Sharp.","Slanted.","Round."]

def setHeads (c : Config φ) (i : Nat) : Config φ :=
  let (last,rstart) := match i with
    | 0 => ([],[])
    | 1 => (symbol [0x2593,0x2592,0x2591],symbol [0x2591,0x2592,0x2593])
    | 2 => (symbol [0xe0b0],symbol [0xe0b2])
    | 3 => (symbol [0xe0bc],symbol [0xe0ba])
    | _ => (symbol [0xe0b4],symbol [0xe0b6])
  { c with separators := { c.separators with endSymbol := last, rightStart := rstart } }

def setTails (c : Config φ) (i : Nat) : Config φ :=
  let (ltail,rtail) := match i with
    | 0 => ([],[])
    | 1 => (symbol [0x2591,0x2592,0x2593],symbol [0x2593,0x2592,0x2591])
    | 2 => (symbol [0xe0b2],symbol [0xe0b0])
    | 3 => (symbol [0xe0ba],symbol [0xe0bc])
    | _ => (symbol [0xe0b6],symbol [0xe0b4])
  { c with separators := { c.separators with leftTail := ltail, rightTail := rtail } }

def setNumLines (c : Config φ) (i : Nat) : Config φ :=
  if i = 0 then { c with layout := { c.layout with left := [], right := [] }, frame := {}, separators := {} } else c

def setGapChar (c : Config φ) (i : Nat) : Config φ :=
  let gap := match i with
    | 0 => [' ']
    | 1 => ['·']
    | _ => ['─']
  { c with separators := { c.separators with
      gap := gap
      gapForeground := if i = 0 then none else some (Presets.x 240) } }

def clearPrefix (f : Frame) : Frame := { f with firstPrefix := {}, newlinePrefix := {}, lastPrefix := {} }

def clearSuffix (f : Frame) : Frame := { f with firstSuffix := {}, newlineSuffix := {}, lastSuffix := {} }

def setFrame (c : Config φ) (i : Nat) : Config φ :=
  { c with frame := match i with
      | 0 => clearSuffix (clearPrefix c.frame)
      | 1 => clearSuffix c.frame
      | 2 => clearPrefix c.frame
      | _ => c.frame }

def setEmptyLine (c : Config φ) (i : Nat) : Config φ :=
  { c with layout := { c.layout with promptAddNewline := if i = 1 then 1 else 0 } }

def setExtraIcons (c : Config φ) (i : Nat) : Config φ :=
  if i = 0 then
    let c := removeSegment c "os_icon"
    { c with
      vcsRemoteIcons := []
      iconOverrides := ["folder","git","branch","time","execution-time"].foldl
        (fun icons name => icons.insert name.toList { all := some [] }) c.iconOverrides }
  else c

def setPrefixes (c : Config φ) (i : Nat) : Config φ :=
  let c := ["vcs","command_execution_time","time"].foldl (fun c name => setPrefix c name none) c
  if i = 1 then
    setPrefix (setPrefix (setPrefix c "vcs" (some "on ")) "command_execution_time" (some "took ")) "time" (some "at ")
  else c

def headerOn (c : Config φ) : Bool := !(c.layout.left.isEmpty && c.layout.right.isEmpty)

def arrows (kind : PresetKind) : Bool := kind = .classic || kind = .rainbow

def askTransient (c : Config φ) : Asking (Config φ) := do
  let b ← askYn "Enable Transient Prompt?" "Yes." "No."
  return { c with layout := { c.layout with transientPrompt := if b then .always else .off } }

/-! The flow. -/

def confirmation : Question := ⟨"Use this theme?",["Yes, write the config.","No."]⟩

def overwriting : Question := ⟨"p11k config file already exists. Overwrite",["Yes.","No."]⟩

/-- Yes, or the wizard is left. -/
def confirm (q : Question) : Asking Unit :=
  ask q fun k => (ynKey k).map fun
    | .answer true => .answer ()
    | .answer false => .quit
    | .restart => .restart
    | .quit => .quit

def askShape (kind : PresetKind) (c : Config φ) : Asking (Config φ) := do
  if arrows kind then
    let c ← askApply separatorsQuestion c setSeparators
    let c ← askApply ⟨"Prompt Heads",fiveEnds⟩ c setHeads
    askApply ⟨"Prompt Tails",fiveEnds⟩ c setTails
  else return c

def askConnection (kind : PresetKind) (c : Config φ) : Asking (Config φ) := do
  if headerOn c && arrows kind then
    let c ← askApply ⟨"Prompt Connection",["Disconnected.","Dotted.","Solid."]⟩ c setGapChar
    askApply ⟨"Prompt Frame",["No frame.","Left.","Right.","Full."]⟩ c setFrame
  else return c

def askUnicode (c : Config φ) : Asking (Config φ) := do
  if c.mode ≠ .ascii then
    let ascii ← askCharset
    return if ascii then { c with mode := .ascii } else c
  else return c

def askRprompt (kind : PresetKind) (c : Config φ) : Asking (Config φ) :=
  if kind = .pure then askApply rpromptQuestion c useRprompt else return c

def askTheme : Asking (Config φ) := do
  let mode ← askFont
  let kind ← askStyle
  let c ← askColor kind mode
  let c ← askUnicode c
  let c ← askRprompt kind c
  let c ← askApply timeQuestion c (showTime kind)
  let c ← askShape kind c
  let c ← askApply ⟨"Prompt Height",["One line.","Two lines."]⟩ c setNumLines
  let c ← askConnection kind c
  let c ← askApply ⟨"Prompt Spacing",["Compact.","Sparse."]⟩ c setEmptyLine
  let c ← askApply ⟨"Icons",["Few icons.","Many icons."]⟩ c setExtraIcons
  let c ← askApply ⟨"Prompt Flow",["Concise.","Fluent."]⟩ c setPrefixes
  askTransient c

/-- The theme that is to be written; a file that is there is overwritten on a further yes only. -/
def flow (exists' : Bool) : Asking (Config φ) := do
  let c ← askTheme
  confirm confirmation
  if exists' then confirm overwriting
  return c

def run (exists' : Bool) (keys : List UInt8) : Option (Config φ) × List (Dialogue.Reply UInt8 Question) :=
  Dialogue.converse (flow exists') (keys.length + 1) keys

/-- What the configuration file holds afterwards. -/
def configured (write : Config φ → Str) (file : Option Str) (keys : List UInt8) : Option Str :=
  match (run file.isSome keys).1 with
  | some c => some (write c)
  | none => file

end flow
end P11k.Wizard
