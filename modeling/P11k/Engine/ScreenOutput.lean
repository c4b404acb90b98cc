import P11k.Engine.Repaint
import P11k.Lib.Screen
import P11k.Lib.Utf8

/-! The bytes that the loop writes to the terminal, and what they leave on its screen: a header fills the rows
above the cursor, and nothing else on the screen changes. -/
namespace P11k.Engine
open Gitstatus (Bytes)
open Screen (csi osc newline save restore block sweep feed fill drawn span Shows Holds)
open Utf8 (encode decode)
open Text (decimal)

def promptStart : Bytes := encode (osc "133;A".toList)

def promptEnd : Bytes := encode (osc "133;B".toList)

def headerBody (lines : List Bytes) : Bytes :=
  lines.flatMap fun line => encode ('\r' :: csi [] 'K') ++ line ++ encode newline

def renderHeader (lines : List Bytes) : Bytes := promptStart ++ headerBody lines

def redrawText (up : Nat) (lines : List Bytes) : Bytes :=
  encode (save ++ csi (decimal up) 'A') ++ headerBody lines ++ encode restore

def renderPrompt (inputPrefix : Bytes) : Bytes :=
  encode (save ++ ['\r']) ++ inputPrefix ++ encode restore ++ promptEnd

def instantText (lines : List Bytes) (inputPrefix : Bytes) : Bytes :=
  renderHeader lines ++ encode ['\r'] ++ inputPrefix ++ promptEnd

def clearText (up rows : Nat) : Bytes := encode (save ++ csi (decimal up) 'A' ++ sweep rows ++ restore)

/-- What an output writes to the terminal. An ack is a file, and a nudge goes to the shell. -/
def Output.text {δ : Type} : Output δ → Bytes
  | .paint p => redrawText p.up p.lines
  | .ack _ _ _ => []
  | .promptStart => Engine.promptStart
  | .blankRow => encode newline
  | .instantHeader lines inputPrefix => encode (csi ['2'] 'J' ++ csi [] 'H') ++ instantText lines inputPrefix
  | .clearReflowed up rows => clearText up rows
  | .stepUp => encode (csi ['1'] 'A')
  | .nudge => []
  | .promptPrefix text => renderPrompt text

section screen
variable (charWidth : Char → Nat) {δ : Type}

def emit (s : Screen) (o : Output δ) : Screen := feed charWidth s (decode o.text)

/-- The lines are texts, and each shows something that fits into its row. -/
def Legible (cols : Nat) (lines : List Bytes) (shown : List (List Char)) : Prop :=
  ∃ texts, lines = texts.map encode ∧ List.Forall₂ (Shows charWidth) texts shown ∧
    ∀ t ∈ shown, span charWidth t ≤ cols

variable {charWidth}

theorem encodeAppend (s t : List Char) : encode (s ++ t) = encode s ++ encode t := List.flatMap_append

theorem legibleRows {cols : Nat} {lines : List Bytes} {shown : List (List Char)}
    (legible : Legible charWidth cols lines shown) : shown.length = lines.length := by
  obtain ⟨texts,rfl,shows,_⟩ := legible
  rw [List.length_map,List.Forall₂.length_eq shows]

theorem bodyText (texts : List (List Char)) : headerBody (texts.map encode) = encode (block texts) := by
  induction texts with
  | nil => rfl
  | cons text texts ih =>
    have tail : headerBody ((text :: texts).map encode) =
        encode ('\r' :: csi [] 'K') ++ encode text ++ encode newline ++ headerBody (texts.map encode) := rfl
    have whole : block (text :: texts) = ('\r' :: csi [] 'K') ++ text ++ newline ++ block texts := by
      simp only [block,List.flatMap_cons,List.cons_append,List.append_assoc]
    rw [tail,ih,whole,encodeAppend,encodeAppend,encodeAppend]

theorem feedPromptStart {s : Screen} (ground : s.mode = .ground) : feed charWidth s (decode promptStart) = s := by
  rw [promptStart,Utf8.decodeEncode]
  exact Screen.feedCommand (by decide) ground

theorem feedPromptEnd {s : Screen} (ground : s.mode = .ground) : feed charWidth s (decode promptEnd) = s := by
  rw [promptEnd,Utf8.decodeEncode]
  exact Screen.feedCommand (by decide) ground

theorem emitText {o : Output δ} {t : List Char} (said : o.text = encode t) (s : Screen) :
    emit charWidth s o = feed charWidth s t := by
  rw [emit,said,Utf8.decodeEncode]

/-- Up to the header, over its rows, and back to where the cursor was. -/
theorem emitPaint {s : Screen} (ground : s.mode = .ground) (inside : s.row < s.height) {p : Paint δ}
    {shown : List (List Char)} (legible : Legible charWidth s.width p.lines shown) (room : p.lines.length ≤ s.row)
    (up : p.up = max p.lines.length 1) :
    emit charWidth s (.paint p) =
      { s with cells := fill charWidth (s.row - shown.length) shown s.cells, saved := (s.row,s.col) } := by
  obtain ⟨texts,lines,shows,fits⟩ := legible
  have rows : shown.length = p.lines.length := legibleRows ⟨texts,lines,shows,fits⟩
  have text : (Output.paint p).text = encode (save ++ (csi (decimal p.up) 'A' ++ block texts) ++ restore) := by
    have said : (Output.paint p).text = redrawText p.up p.lines := rfl
    rw [said,redrawText,lines,bodyText,encodeAppend,encodeAppend,encodeAppend,encodeAppend,List.append_assoc,
      List.append_assoc,List.append_assoc,List.append_assoc]
  have moves := Screen.feedUp charWidth (s := { s with saved := (s.row,s.col) }) ground
    (up ▸ Nat.le_max_right _ 1 : 1 ≤ p.up)
  have fills := Screen.feedBlock (s := { s with row := s.row - p.up, saved := (s.row,s.col) }) shows ground fits
    (by simp only; omega)
  have inner := (Screen.feedAppend _ _ _).trans ((congrArg (feed charWidth · (block texts)) moves).trans fills)
  rw [emitText text,Screen.feedAround ground inner ground rfl]
  cases shown with
  | nil => simp only [Screen.fillNone]
  | cons first rest =>
    have same : s.row - p.up = s.row - (first :: rest).length := by
      rw [rows,up,Nat.max_eq_left (by rw [← rows]; simp)]
    rw [same]

theorem emitClear {s : Screen} (ground : s.mode = .ground) {up rows : Nat} (some' : 1 ≤ rows)
    (room : s.row - up + rows ≤ s.height) (above : 1 ≤ up) :
    emit charWidth s (.clearReflowed up rows : Output δ) =
      { s with
        cells := fill charWidth (s.row - up) (List.replicate rows []) s.cells
        saved := (s.row,s.col) } := by
  obtain ⟨n,rfl⟩ := Nat.exists_eq_add_of_le' some'
  have moves := Screen.feedUp charWidth (s := { s with saved := (s.row,s.col) }) ground above
  have clears := Screen.feedSweep charWidth (n := n)
    (s := { s with row := s.row - up, saved := (s.row,s.col) }) ground (by simp only; omega)
  have inner := (Screen.feedAppend _ _ _).trans ((congrArg (feed charWidth · (sweep (n + 1))) moves).trans clears)
  have said : (.clearReflowed up (n + 1) : Output δ).text =
      encode (save ++ csi (decimal up) 'A' ++ sweep (n + 1) ++ restore) := rfl
  rw [emitText said,List.append_assoc save,Screen.feedAround ground inner ground rfl]

theorem emitStepUp {s : Screen} (ground : s.mode = .ground) :
    emit charWidth s (.stepUp : Output δ) = { s with row := s.row - 1 } := by
  have said : (.stepUp : Output δ).text = encode (csi ['1'] 'A') := rfl
  rw [emitText said]
  exact Screen.feedUp _ (n := 1) ground (Nat.le_refl 1)

theorem emitPrefix {s : Screen} (ground : s.mode = .ground) {text : Bytes} {t shown : List Char}
    (same : text = encode t) (shows : Shows charWidth t shown) (fits : span charWidth shown ≤ s.width) :
    emit charWidth s (.promptPrefix text : Output δ) =
      { s with
        cells := Function.update s.cells s.row (drawn charWidth 0 (s.cells s.row) shown)
        saved := (s.row,s.col) } := by
  have whole : (Output.promptPrefix text : Output δ).text = encode (save ++ (['\r'] ++ t) ++ restore) ++ promptEnd := by
    have said : (Output.promptPrefix text : Output δ).text = renderPrompt text := rfl
    rw [said,renderPrompt,same,encodeAppend,encodeAppend,encodeAppend,encodeAppend,List.append_assoc (encode save)]
  have returns := Screen.feedReturn charWidth (s := { s with saved := (s.row,s.col) }) ground
  have writes := shows { s with saved := (s.row,s.col), col := 0 } ground (by simpa using fits)
  have inner := (Screen.feedAppend _ _ _).trans ((congrArg (feed charWidth · t) returns).trans writes)
  rw [emit,whole,Utf8.decodeAppend,Screen.feedAppend,Screen.feedAround ground inner ground rfl]
  exact feedPromptEnd ground

theorem emitBlank {s : Screen} (ground : s.mode = .ground) :
    emit charWidth s (.blankRow : Output δ) = Screen.lineFeed (Screen.carriageReturn s) := by
  have said : (.blankRow : Output δ).text = encode newline := rfl
  rw [emitText said]
  exact Screen.feedNewline ground

/-- A header from the row of the cursor on, and the prefix below it. -/
def headed (charWidth : Char → Nat) (s : Screen) (shown : List (List Char)) (shownPrefix : List Char) : Screen :=
  Screen.write charWidth
    { s with cells := fill charWidth s.row shown s.cells, row := s.row + shown.length, col := 0 } shownPrefix

theorem feedInstant {s : Screen} (ground : s.mode = .ground) {lines : List Bytes} {shown : List (List Char)}
    (legible : Legible charWidth s.width lines shown) (room : s.row + lines.length < s.height) {text : Bytes}
    {t shownPrefix : List Char} (same : text = encode t) (shows : Shows charWidth t shownPrefix)
    (fits : span charWidth shownPrefix ≤ s.width) :
    feed charWidth s (decode (instantText lines text)) = headed charWidth s shown shownPrefix := by
  obtain ⟨texts,lines',shows',fits'⟩ := legible
  have rows : shown.length = lines.length := legibleRows ⟨texts,lines',shows',fits'⟩
  let filled : Screen := { s with
    cells := fill charWidth s.row shown s.cells
    row := s.row + shown.length
    col := if shown = [] then s.col else 0 }
  have body : feed charWidth s (decode (promptStart ++ encode (block texts))) = filled := by
    rw [promptStart,← encodeAppend,Utf8.decodeEncode,Screen.feedAppend,Screen.feedCommand (by decide) ground]
    exact Screen.feedBlock shows' ground fits' (by omega)
  have whole : instantText lines text =
      encode (osc "133;A".toList ++ block texts ++ (['\r'] ++ (t ++ osc "133;B".toList))) := by
    rw [instantText,renderHeader,lines',bodyText,same,promptStart,promptEnd,← encodeAppend,← encodeAppend,
      ← encodeAppend,← encodeAppend,List.append_assoc,List.append_assoc]
  rw [promptStart,← encodeAppend,Utf8.decodeEncode] at body
  have returns := Screen.feedReturn charWidth (s := filled) ground
  have writes := shows (Screen.carriageReturn filled) ground (by simpa [Screen.carriageReturn] using fits)
  rw [whole,Utf8.decodeEncode,Screen.feedAppend,body,Screen.feedAppend,returns,Screen.feedAppend,writes]
  exact Screen.feedCommand (by decide) ground

theorem emitInstant {s : Screen} (ground : s.mode = .ground) {lines : List Bytes} {shown : List (List Char)}
    (legible : Legible charWidth s.width lines shown) (room : lines.length < s.height) {text : Bytes}
    {t shownPrefix : List Char} (same : text = encode t) (shows : Shows charWidth t shownPrefix)
    (fits : span charWidth shownPrefix ≤ s.width) :
    emit charWidth s (.instantHeader lines text : Output δ) =
      headed charWidth { s with cells := fun _ => Screen.blank, row := 0, col := 0 } shown shownPrefix := by
  have erases := Screen.feedEraseAll charWidth ground
  have homes := Screen.feedHome charWidth (s := { s with cells := fun _ => Screen.blank }) ground
  have clears := (Screen.feedAppend _ _ _).trans ((congrArg (feed charWidth · (csi [] 'H')) erases).trans homes)
  have fills := feedInstant (s := { s with cells := fun _ => Screen.blank, row := 0, col := 0 }) ground legible
    (by simpa using room) same shows fits
  have said : (.instantHeader lines text : Output δ).text =
      encode (csi ['2'] 'J' ++ csi [] 'H') ++ instantText lines text := rfl
  rw [emit,said,Utf8.decodeAppend,Screen.feedAppend,clears,fills]

/-- Over rows that already show the header, a paint changes nothing that is seen. -/
theorem emitAgain {s : Screen} (ground : s.mode = .ground) (inside : s.row < s.height) {p : Paint δ}
    {shown : List (List Char)} (legible : Legible charWidth s.width p.lines shown) (holds : Holds charWidth s shown)
    (up : p.up = max p.lines.length 1) : emit charWidth s (.paint p) = { s with saved := (s.row,s.col) } := by
  have room : p.lines.length ≤ s.row := legibleRows legible ▸ holds.1
  rw [emitPaint ground inside legible room up,Screen.holdsFill holds]

end screen
end P11k.Engine
