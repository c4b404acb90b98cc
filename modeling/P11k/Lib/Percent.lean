import P11k.Lib.KdlString
import P11k.Lib.Utf8

/-! Percent-encoding: bytes as characters of an alphabet, and every other byte as a `%` with two
hexadecimal digits. -/
namespace P11k.Percent
open P11k.KdlString (hexValue)

def upperDigit (n : Nat) : Char := if n < 10 then Char.ofNat (n + 48) else Char.ofNat (n + 55)

def triple (b : UInt8) : List Char := ['%',upperDigit (b.toNat / 16),upperDigit (b.toNat % 16)]

def escape (keeps : UInt8 → Bool) (bs : List UInt8) : List Char :=
  bs.flatMap fun b => if keeps b then [Char.ofNat b.toNat] else triple b

/-- The byte that a `%` and the characters behind it stand for. -/
def escaped (c : Char) (cs : List Char) : Option UInt8 :=
  match cs with
  | high :: low :: _ =>
      if c = '%' then (hexValue high).bind fun h => (hexValue low).map fun l => UInt8.ofNat (16 * h + l)
      else none
  | _ => none

/-- `skip` characters still belong to the byte before. -/
def decodeLoop : Nat → List Char → List UInt8
  | _, [] => []
  | skip+1, _ :: cs => decodeLoop skip cs
  | 0, c :: cs =>
      match escaped c cs with
      | some b => b :: decodeLoop 2 cs
      | none => String.utf8EncodeChar c ++ decodeLoop 0 cs

def decode (cs : List Char) : List UInt8 := decodeLoop 0 cs

/-- Nothing but characters of the alphabet, and `%` with two upper-case digits. -/
inductive Escaped (safe : Char → Prop) : List Char → Prop where
  | nil : Escaped safe []
  | kept {c : Char} {s : List Char} (here : safe c) (rest : Escaped safe s) : Escaped safe (c :: s)
  | triple {high low : Char} {s : List Char} (first : high ∈ "0123456789ABCDEF".toList)
      (second : low ∈ "0123456789ABCDEF".toList) (rest : Escaped safe s) :
      Escaped safe ('%' :: high :: low :: s)

theorem upperDigitValue : ∀ n < 16, hexValue (upperDigit n) = some n ∧
    upperDigit n ∈ "0123456789ABCDEF".toList := by decide

theorem halves (b : UInt8) : b.toNat / 16 < 16 ∧ b.toNat % 16 < 16 ∧
    UInt8.ofNat (16 * (b.toNat / 16) + b.toNat % 16) = b := by
  have small := b.toNat_lt
  refine ⟨Nat.div_lt_of_lt_mul small,Nat.mod_lt _ (by decide),?_⟩
  rw [Nat.div_add_mod,UInt8.ofNat_toNat]

theorem decodeTriple (b : UInt8) (cs : List Char) : decode (triple b ++ cs) = b :: decode cs := by
  obtain ⟨high,low,whole⟩ := halves b
  have read : escaped '%' (upperDigit (b.toNat / 16) :: upperDigit (b.toNat % 16) :: cs) = some b := by
    rw [escaped,if_pos rfl,(upperDigitValue _ high).1,(upperDigitValue _ low).1,Option.bind_some,
      Option.map_some,whole]
  simp only [decode,triple,List.cons_append,List.nil_append,decodeLoop,read]

theorem decodeKept {b : UInt8} (small : b.toNat < 128) (free : b ≠ 37) (cs : List Char) :
    decode (Char.ofNat b.toNat :: cs) = b :: decode cs := by
  have value := Utf8.ofNatValue (n := b.toNat) (.inl (by omega))
  have apart : Char.ofNat b.toNat ≠ '%' := by
    intro same
    have : b.toNat = 37 := value.symm.trans (congrArg Char.toNat same)
    exact free (UInt8.toNat_inj.mp this)
  have literal : escaped (Char.ofNat b.toNat) cs = none := by
    unfold escaped
    split
    · exact if_neg apart
    · rfl
  have bytes : String.utf8EncodeChar (Char.ofNat b.toNat) = [b] := by
    have val : (Char.ofNat b.toNat).val.toNat = b.toNat := value
    simp only [String.utf8EncodeChar,val]
    rw [if_pos (by omega)]
    simp
  rw [decode,decodeLoop,literal]
  dsimp only
  rw [bytes]
  rfl

section escape
variable {keeps : UInt8 → Bool}

theorem decodeEscape (single : ∀ b, keeps b = true → b.toNat < 128 ∧ b ≠ 37) (bs : List UInt8) :
    decode (escape keeps bs) = bs := by
  induction bs with
  | nil => rfl
  | cons b bs ih =>
    rw [escape,List.flatMap_cons]
    split
    · rename_i kept
      obtain ⟨small,free⟩ := single b kept
      exact (decodeKept small free _).trans (congrArg (b :: ·) ih)
    · exact (decodeTriple b _).trans (congrArg (b :: ·) ih)

theorem escapeInjective (single : ∀ b, keeps b = true → b.toNat < 128 ∧ b ≠ 37) {bs cs : List UInt8}
    (same : escape keeps bs = escape keeps cs) : bs = cs := by
  rw [← decodeEscape single bs,same,decodeEscape single]

theorem escapeEscaped {safe : Char → Prop} (kept : ∀ b, keeps b = true → safe (Char.ofNat b.toNat))
    (bs : List UInt8) : Escaped safe (escape keeps bs) := by
  induction bs with
  | nil => exact .nil
  | cons b bs ih =>
    rw [escape,List.flatMap_cons]
    split
    · rename_i here
      exact .kept (kept b here) ih
    · obtain ⟨high,low,_⟩ := halves b
      exact .triple (upperDigitValue _ high).2 (upperDigitValue _ low).2 ih

end escape
end P11k.Percent
