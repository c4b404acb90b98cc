import P11k.Settings.Types
import P11k.Lib.KdlString

/-! A string value as it is written into a saved theme, and when it can be read again. -/
namespace P11k.Settings
open P11k KdlString

/-- The characters with an escape. All others are written as they are. -/
def quoteChar (c : Char) : Str :=
  if c = '\\' ∨ c = '"' then ['\\',c]
  else if c = '\n' then "\\n".toList
  else if c = '\r' then "\\r".toList
  else if c = '\t' then "\\t".toList
  else if c = Char.ofNat 0x08 then "\\b".toList
  else if c = Char.ofNat 0x0C then "\\f".toList
  else [c]

def quoteKdlString (s : Str) : Str := '"' :: (s.flatMap quoteChar ++ ['"'])

/-- The control characters other than backspace, tab, newline, form feed and return, the line ends beyond
them, the marks that change the direction, and the byte order mark. -/
def unprotected (c : Char) : Bool :=
  let n := c.toNat
  n ≤ 0x07 || n == 0x0B || (0x0E ≤ n && n ≤ 0x1F) || n == 0x7F || n == 0x85 || n == 0x200E || n == 0x200F ||
    (0x2028 ≤ n && n ≤ 0x202E) || (0x2066 ≤ n && n ≤ 0x2069) || n == 0xFEFF

theorem charEq {c d : Char} (same : c.toNat = d.toNat) : c = d := by
  have := congrArg Char.ofNat same
  simpa using this

theorem literalUnprotected {c : Char}
    (other : c.toNat ≠ 0x08 ∧ c.toNat ≠ 0x0A ∧ c.toNat ≠ 0x0C ∧ c.toNat ≠ 0x0D) :
    literal c = !unprotected c := by
  rw [Bool.eq_iff_iff]
  simp only [literal,newline,disallowed,unprotected,Bool.and_eq_true,Bool.not_eq_true',Bool.or_eq_false_iff,
    Bool.and_eq_false_iff,decide_eq_false_iff_not,beq_eq_false_iff_ne]
  omega

theorem quotedChar (c : Char) (rest : Str) :
    body (.text false) (quoteChar c ++ rest) =
      if unprotected c = true then none else (body (.text false) rest).map (c :: ·) := by
  by_cases escape : c = '\\' ∨ c = '"' ∨ c = '\n' ∨ c = '\r' ∨ c = '\t' ∨ c = Char.ofNat 0x08 ∨ c = Char.ofNat 0x0C
  · rcases escape with rfl | rfl | rfl | rfl | rfl | rfl | rfl
    all_goals exact bodyEscaped (by decide) rest
  · simp only [not_or] at escape
    obtain ⟨slash,quote,lf,cr,tab,bs,ff⟩ := escape
    have written : quoteChar c = [c] := by
      simp [quoteChar,slash,quote,lf,cr,tab,bs,ff]
    have known := literalUnprotected (c := c)
      ⟨fun h => bs (charEq h),fun h => lf (charEq h),fun h => ff (charEq h),fun h => cr (charEq h)⟩
    rw [written]
    cases bad : unprotected c with
    | true => exact bodyForbidden ⟨quote,slash⟩ (by simp [known,bad]) rest
    | false => exact bodyLiteral ⟨quote,slash⟩ (by simp [known,bad]) rest

theorem quotedReads (s : Str) :
    decode (quoteKdlString s) = if s.any unprotected = true then none else some s := by
  split
  · rename_i bad
    obtain ⟨c,hc,bad⟩ := List.any_eq_true.mp bad
    refine bodySpoilt (fun d rest => ?_) hc fun rest => ?_
    · rw [quotedChar]
      split <;> simp
    · rw [quotedChar,if_pos bad]
  · rename_i safe
    refine bodyPieces fun c hc rest => ?_
    rw [quotedChar,if_neg]
    exact fun bad => safe (List.any_eq_true.mpr ⟨c,hc,bad⟩)

theorem quotedReadable (s : Str) :
    decode (quoteKdlString s) = some s ↔ ∀ c ∈ s, unprotected c = false := by
  have safe : s.any unprotected = false ↔ ∀ c ∈ s, unprotected c = false := by simp
  rw [quotedReads,← safe]
  cases s.any unprotected <;> simp

/-- A line separator in a prefix of a theme. -/
theorem quotedLost : ¬ ∀ s : Str, decode (quoteKdlString s) = some s := by
  intro claim
  have read := claim ['a',Char.ofNat 0x2028,'b']
  revert read
  decide

end P11k.Settings
