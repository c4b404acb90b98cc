import Mathlib.Data.List.Basic

/-! Quoted strings of KDL 2: what one that stands on a single line says. -/
namespace P11k.KdlString

/-- The code points that end a line. -/
def newline (c : Char) : Bool :=
  let n := c.toNat
  (0x0A ≤ n && n ≤ 0x0D) || n == 0x85 || n == 0x2028 || n == 0x2029

/-- The code points that no document holds literally. -/
def disallowed (c : Char) : Bool :=
  let n := c.toNat
  n ≤ 0x08 || (0x0E ≤ n && n ≤ 0x1F) || n == 0x7F || n == 0x200E || n == 0x200F ||
    (0x202A ≤ n && n ≤ 0x202E) || (0x2066 ≤ n && n ≤ 0x2069) || n == 0xFEFF

def space (c : Char) : Bool :=
  let n := c.toNat
  n == 0x09 || n == 0x20 || n == 0xA0 || n == 0x1680 || (0x2000 ≤ n && n ≤ 0x200A) || n == 0x202F ||
    n == 0x205F || n == 0x3000

def literal (c : Char) : Bool := !newline c && !disallowed c

/-- What a letter behind a backslash stands for. -/
def escaped (c : Char) : Option Char :=
  if c = '"' ∨ c = '\\' then some c
  else if c = 'b' then some (Char.ofNat 0x08)
  else if c = 'f' then some (Char.ofNat 0x0C)
  else if c = 'n' then some '\n'
  else if c = 'r' then some '\r'
  else if c = 't' then some '\t'
  else if c = 's' then some ' '
  else none

def hexValue (c : Char) : Option Nat :=
  if '0' ≤ c ∧ c ≤ '9' then some (c.toNat - 48)
  else if 'a' ≤ c ∧ c ≤ 'f' then some (c.toNat - 87)
  else if 'A' ≤ c ∧ c ≤ 'F' then some (c.toNat - 55)
  else none

/-- One to six digits that name a scalar value. -/
def scalar (digits : List Nat) : Option Char :=
  let n := digits.foldl (fun n d => 16 * n + d) 0
  if digits ≠ [] ∧ digits.length ≤ 6 ∧ n.isValidChar then some (Char.ofNat n) else none

inductive Reading where
  /-- `skipping` white space that stands behind a backslash. -/
  | text (skipping : Bool)
  | escape
  | brace
  | hex (digits : List Nat)

/-- What stands before the closing quote, which is the last character. -/
def body : Reading → List Char → Option (List Char)
  | _, [] => none
  | .text skipping, c :: rest =>
      if skipping ∧ (space c ∨ newline c) then body (.text true) rest
      else if c = '"' then (if rest = [] then some [] else none)
      else if c = '\\' then body .escape rest
      else if literal c then (body (.text false) rest).map (c :: ·)
      else none
  | .escape, c :: rest =>
      match escaped c with
      | some d => (body (.text false) rest).map (d :: ·)
      | none =>
          if c = 'u' then body .brace rest
          else if space c ∨ newline c then body (.text true) rest
          else none
  | .brace, c :: rest => if c.toNat = 0x7B then body (.hex []) rest else none
  | .hex digits, c :: rest =>
      if c.toNat = 0x7D then (scalar digits).bind fun d => (body (.text false) rest).map (d :: ·)
      else (hexValue c).bind fun d => body (.hex (digits ++ [d])) rest

def decode : List Char → Option (List Char)
  | [] => none
  | c :: rest => if c = '"' then body (.text false) rest else none

theorem bodyText (c : Char) (rest : List Char) : body (.text false) (c :: rest) =
    if c = '"' then (if rest = [] then some [] else none)
    else if c = '\\' then body .escape rest
    else if literal c then (body (.text false) rest).map (c :: ·)
    else none := by
  rw [body,if_neg (by simp)]

theorem bodyEnd : body (.text false) ['"'] = some [] := by
  simp [bodyText]

theorem bodyLiteral {c : Char} (plain : c ≠ '"' ∧ c ≠ '\\') (allowed : literal c = true) (rest : List Char) :
    body (.text false) (c :: rest) = (body (.text false) rest).map (c :: ·) := by
  simp [bodyText,plain,allowed]

theorem bodyForbidden {c : Char} (plain : c ≠ '"' ∧ c ≠ '\\') (forbidden : literal c = false) (rest : List Char) :
    body (.text false) (c :: rest) = none := by
  simp [bodyText,plain,forbidden]

theorem bodyEscaped {c d : Char} (read : escaped c = some d) (rest : List Char) :
    body (.text false) ('\\' :: c :: rest) = (body (.text false) rest).map (d :: ·) := by
  rw [bodyText,if_neg (by decide),if_pos rfl,body,read]

/-- A text written piece by piece, where every piece says its character. -/
theorem bodyPieces {piece : Char → List Char} {s : List Char}
    (said : ∀ c ∈ s, ∀ rest, body (.text false) (piece c ++ rest) = (body (.text false) rest).map (c :: ·)) :
    decode ('"' :: (s.flatMap piece ++ ['"'])) = some s := by
  simp only [decode,if_true]
  induction s with
  | nil => exact bodyEnd
  | cons c s ih =>
    have tail := ih fun d hd => said d (List.mem_cons_of_mem _ hd)
    rw [List.flatMap_cons,List.append_assoc,said c List.mem_cons_self,tail]
    rfl

/-- A piece that cannot be read spoils the whole text, when those before it can. -/
theorem bodySpoilt {piece : Char → List Char} {s : List Char}
    (read : ∀ c rest, body (.text false) (piece c ++ rest) = (body (.text false) rest).map (c :: ·) ∨
      body (.text false) (piece c ++ rest) = none)
    {c : Char} (mem : c ∈ s) (bad : ∀ rest, body (.text false) (piece c ++ rest) = none) :
    decode ('"' :: (s.flatMap piece ++ ['"'])) = none := by
  simp only [decode,if_true]
  induction s with
  | nil => cases mem
  | cons d s ih =>
    rw [List.flatMap_cons,List.append_assoc]
    rcases List.mem_cons.mp mem with rfl | mem
    · exact bad _
    · rcases read d (s.flatMap piece ++ ['"']) with kept | lost
      · rw [kept,ih mem]
        rfl
      · exact lost

end P11k.KdlString
