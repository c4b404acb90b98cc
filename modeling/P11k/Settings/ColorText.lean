import P11k.Settings.Readable

/-! Which texts are colours. The reader cuts the six bytes behind the number sign into three without looking
at the characters, and its integer parser takes a sign. -/
namespace P11k.Settings
open P11k

/-! Slices of bytes. -/

theorem byteLengthCons (c : Char) (s : Str) : byteLength (c :: s) = c.utf8Size + byteLength s := by
  simp [byteLength]

theorem byteLengthAppend (a b : Str) : byteLength (a ++ b) = byteLength a + byteLength b := by
  simp [byteLength]

theorem sliceSound {s a b : Str} {n : Nat} (cut : sliceBytes s n = some (a,b)) : s = a ++ b ∧ byteLength a = n := by
  induction s generalizing n a with
  | nil =>
    cases n with
    | zero =>
      obtain ⟨rfl,rfl⟩ : [] = a ∧ [] = b := by simpa [sliceBytes] using cut
      exact ⟨rfl,rfl⟩
    | succ n => simp [sliceBytes] at cut
  | cons c s ih =>
    cases n with
    | zero =>
      obtain ⟨rfl,rfl⟩ : [] = a ∧ c :: s = b := by simpa [sliceBytes] using cut
      exact ⟨rfl,rfl⟩
    | succ n =>
      unfold sliceBytes at cut
      split at cut
      · rename_i fits
        obtain ⟨⟨front,rest⟩,inner,out⟩ := Option.map_eq_some_iff.mp cut
        obtain ⟨rfl,rfl⟩ : c :: front = a ∧ rest = b := by simpa using out
        obtain ⟨whole,size⟩ := ih inner
        exact ⟨by rw [whole,List.cons_append],by rw [byteLengthCons,size]; omega⟩
      · cases cut

theorem sliceComplete (a b : Str) : sliceBytes (a ++ b) (byteLength a) = some (a,b) := by
  induction a with
  | nil => cases b <;> rfl
  | cons c a ih =>
    have positive := c.utf8Size_pos
    obtain ⟨n,size⟩ : ∃ n, byteLength (c :: a) = n + 1 := ⟨byteLength (c :: a) - 1,by rw [byteLengthCons]; omega⟩
    have rest : n + 1 - c.utf8Size = byteLength a := by
      rw [← size,byteLengthCons]
      omega
    rw [size,List.cons_append,sliceBytes,if_pos (by rw [← size,byteLengthCons]; omega),rest,ih]
    rfl

/-- The byte offset `n` lies inside a character. -/
def Inside (s : Str) (n : Nat) : Prop :=
  ∃ front c rest, s = front ++ c :: rest ∧ byteLength front < n ∧ n < byteLength front + c.utf8Size

theorem insideNone {s : Str} {n : Nat} (within : Inside s n) : sliceBytes s n = none := by
  obtain ⟨front,c,rest,rfl,below,above⟩ := within
  cases cut : sliceBytes (front ++ c :: rest) n with
  | none => rfl
  | some pieces =>
    obtain ⟨whole,size⟩ := sliceSound cut
    rcases List.append_eq_append_iff.mp whole with ⟨more,first,second⟩ | ⟨more,first,-⟩
    · cases more with
      | nil =>
        rw [List.append_nil] at first
        rw [first] at size
        omega
      | cons d more =>
        obtain ⟨rfl,-⟩ := List.cons.inj second
        rw [first,byteLengthAppend,byteLengthCons] at size
        omega
    · rw [first,byteLengthAppend] at below
      omega

theorem noneInside {s : Str} {n : Nat} (long : n ≤ byteLength s) (torn : sliceBytes s n = none) : Inside s n := by
  induction s generalizing n with
  | nil =>
    obtain rfl : n = 0 := by simpa [byteLength] using long
    cases torn
  | cons c s ih =>
    cases n with
    | zero => cases torn
    | succ n =>
      unfold sliceBytes at torn
      rw [byteLengthCons] at long
      split at torn
      · rename_i fits
        obtain ⟨front,d,rest,rfl,below,above⟩ := ih (by omega) (Option.map_eq_none_iff.mp torn)
        refine ⟨c :: front,d,rest,rfl,?_,?_⟩ <;> rw [byteLengthCons] <;> omega
      · exact ⟨[],c,s,rfl,by simp [byteLength],by simp [byteLength]; omega⟩

/-! Two characters as a number. -/

def hexPair (c d : Char) : Option UInt8 :=
  (hexDigit c).bind fun high => (hexDigit d).map fun low => UInt8.ofNat (16 * high + low)

/-- As the integer parser reads them. -/
def lenientPair (c d : Char) : Option UInt8 := if c = '+' then (hexDigit d).map UInt8.ofNat else hexPair c d

theorem hexDigitAscii {c : Char} {n : Nat} (read : hexDigit c = some n) : c.utf8Size = 1 ∧ c ≠ '+' := by
  have small : 48 ≤ c.toNat ∧ c.toNat ≤ 102 := by
    unfold hexDigit at read
    simp only [Char.le_def,UInt32.le_iff_toNat_le] at read
    have bounds : ('0' : Char).val.toNat = 48 ∧ ('9' : Char).val.toNat = 57 ∧ ('a' : Char).val.toNat = 97 ∧
        ('f' : Char).val.toNat = 102 ∧ ('A' : Char).val.toNat = 65 ∧ ('F' : Char).val.toNat = 70 := by decide
    have same : c.toNat = c.val.toNat := rfl
    split at read
    · omega
    · split at read
      · omega
      · split at read
        · omega
        · cases read
  constructor
  · rw [Char.utf8Size_eq_one_iff,UInt32.le_iff_toNat_le]
    exact Nat.le_trans small.2 (by decide)
  · rintro rfl
    exact absurd small.1 (by decide)

theorem radixPair (c d : Char) : fromStrRadix [c,d] = lenientPair c d := by
  unfold fromStrRadix lenientPair hexPair
  by_cases sign : c = '+'
  · cases low : hexDigit d <;> simp [sign,low]
  · cases high : hexDigit c <;> cases low : hexDigit d <;> simp [sign,high,low]

theorem lenientBytes {c d : Char} {n : UInt8} (read : lenientPair c d = some n) : byteLength [c,d] = 2 := by
  have sizes : c.utf8Size = 1 ∧ d.utf8Size = 1 := by
    unfold lenientPair at read
    split at read
    · rename_i sign
      obtain ⟨low,digit,-⟩ := Option.map_eq_some_iff.mp read
      exact ⟨by rw [sign]; rfl,(hexDigitAscii digit).1⟩
    · obtain ⟨high,first,more⟩ := Option.bind_eq_some_iff.mp read
      obtain ⟨low,second,-⟩ := Option.map_eq_some_iff.mp more
      exact ⟨(hexDigitAscii first).1,(hexDigitAscii second).1⟩
  simp [byteLength,sizes]

theorem pairRead {a : Str} {n : UInt8} (size : byteLength a = 2) (read : fromStrRadix a = some n) :
    ∃ c d, a = [c,d] ∧ lenientPair c d = some n := by
  cases a with
  | nil => simp [byteLength] at size
  | cons c a =>
    cases a with
    | nil =>
      have wide : c.utf8Size = 2 := by simpa [byteLength] using size
      cases digit : hexDigit c with
      | none => simp [fromStrRadix,digit] at read
      | some v =>
        have := (hexDigitAscii digit).1
        omega
    | cons d a =>
      have first := c.utf8Size_pos
      have second := d.utf8Size_pos
      simp only [byteLengthCons] at size
      cases a with
      | nil => exact ⟨c,d,rfl,(radixPair c d).symm.trans read⟩
      | cons e a =>
        have third := e.utf8Size_pos
        rw [byteLengthCons] at size
        omega

/-! Texts. -/

/-- A number sign and three pairs that `pair` takes as `r`, `g` and `b`. -/
def Pairs (pair : Char → Char → Option UInt8) (s : Str) (r g b : UInt8) : Prop :=
  ∃ c₁ c₂ c₃ c₄ c₅ c₆, s = ['#',c₁,c₂,c₃,c₄,c₅,c₆] ∧
    pair c₁ c₂ = some r ∧ pair c₃ c₄ = some g ∧ pair c₅ c₆ = some b

/-- Six bytes behind the number sign, and a cut between the second and the third or the fourth and the fifth
would go through a character. -/
def Torn (s : Str) : Prop := ∃ hex, s = '#' :: hex ∧ byteLength hex = 6 ∧ (Inside hex 2 ∨ Inside hex 4)

def hexPieces (hex : Str) : Option (Str × Str × Str) :=
  (sliceBytes hex 2).bind fun cut => (sliceBytes cut.2 2).map fun cut' => (cut.1,cut'.1,cut'.2)

theorem piecesSound {hex r g b : Str} (cut : hexPieces hex = some (r,g,b)) :
    hex = r ++ (g ++ b) ∧ byteLength r = 2 ∧ byteLength g = 2 := by
  obtain ⟨⟨r',rest⟩,first,more⟩ := Option.bind_eq_some_iff.mp cut
  obtain ⟨⟨g',b'⟩,second,out⟩ := Option.map_eq_some_iff.mp more
  obtain ⟨rfl,rfl,rfl⟩ : r' = r ∧ g' = g ∧ b' = b := by simpa using out
  obtain ⟨whole,size⟩ := sliceSound first
  obtain ⟨rfl,size'⟩ := sliceSound second
  exact ⟨whole,size,size'⟩

theorem piecesComplete {r g : Str} (size : byteLength r = 2) (size' : byteLength g = 2) (b : Str) :
    hexPieces (r ++ (g ++ b)) = some (r,g,b) := by
  have first := sliceComplete r (g ++ b)
  have second := sliceComplete g b
  rw [size] at first
  rw [size'] at second
  rw [hexPieces,first,Option.bind_some,second]
  rfl

theorem piecesNone {hex : Str} (six : byteLength hex = 6) : hexPieces hex = none ↔ Inside hex 2 ∨ Inside hex 4 := by
  cases cut : sliceBytes hex 2 with
  | none => exact iff_of_true (by rw [hexPieces,cut]; rfl) (.inl (noneInside (by omega) cut))
  | some pieces =>
    have first : ¬ Inside hex 2 := fun within => by
      rw [insideNone within] at cut
      cases cut
    obtain ⟨whole,size⟩ := sliceSound cut
    rw [whole,byteLengthAppend,size] at six
    rw [or_iff_right first,hexPieces,cut,Option.bind_some,Option.map_eq_none_iff]
    constructor
    · intro cut'
      obtain ⟨front,c,rest,split,below,above⟩ := noneInside (by omega) cut'
      refine ⟨pieces.1 ++ front,c,rest,by rw [whole,split,List.append_assoc],?_,?_⟩
      · rw [byteLengthAppend,size]
        omega
      · rw [byteLengthAppend,size]
        omega
    · intro second
      cases cut' : sliceBytes pieces.2 2 with
      | none => rfl
      | some pieces' =>
        obtain ⟨whole',size'⟩ := sliceSound cut'
        have front := sliceComplete (pieces.1 ++ pieces'.1) pieces'.2
        rw [byteLengthAppend,size,size',List.append_assoc,← whole',← whole,insideNone second] at front
        cases front

theorem fromStrSix {hex : Str} (six : byteLength hex = 6) :
    Color.fromStr ('#' :: hex) = match hexPieces hex with
      | none => .error .panicked
      | some (r,g,b) =>
          match fromStrRadix r, fromStrRadix g, fromStrRadix b with
          | some r, some g, some b => .ok (.rgb r g b)
          | _, _, _ => .ok (.named ('#' :: hex)) := by
  simp only [Color.fromStr,if_pos six]
  rfl

theorem tornPanics {s : Str} (torn : Torn s) : Color.fromStr s = .error .panicked := by
  obtain ⟨hex,rfl,six,within⟩ := torn
  rw [fromStrSix six,(piecesNone six).mpr within]

theorem panicsTorn {s : Str} {failure : Failure} (failed : Color.fromStr s = .error failure) : Torn s := by
  unfold Color.fromStr at failed
  split at failed
  · rename_i hex
    split at failed
    · rename_i six
      split at failed
      · rename_i noCut
        exact ⟨hex,rfl,six,(piecesNone six).mp noCut⟩
      · split at failed <;> cases failed
    · cases failed
  · cases failed

theorem rgbPairs {s : Str} {r g b : UInt8} : Color.fromStr s = .ok (.rgb r g b) ↔ Pairs lenientPair s r g b := by
  constructor
  · intro read
    unfold Color.fromStr at read
    split at read
    · rename_i hex
      split at read
      · rename_i six
        split at read
        · cases read
        · rename_i r' g' b' cut
          obtain ⟨rfl,size,size'⟩ := piecesSound cut
          have last : byteLength b' = 2 := by
            rw [byteLengthAppend,byteLengthAppend,size,size'] at six
            omega
          split at read
          · rename_i first second third
            cases read
            obtain ⟨c₁,c₂,rfl,pair₁⟩ := pairRead size first
            obtain ⟨c₃,c₄,rfl,pair₂⟩ := pairRead size' second
            obtain ⟨c₅,c₆,rfl,pair₃⟩ := pairRead last third
            exact ⟨c₁,c₂,c₃,c₄,c₅,c₆,rfl,pair₁,pair₂,pair₃⟩
          · cases read
      · cases read
    · split at read <;> cases read
  · rintro ⟨c₁,c₂,c₃,c₄,c₅,c₆,rfl,pair₁,pair₂,pair₃⟩
    have size₁ := lenientBytes pair₁
    have size₂ := lenientBytes pair₂
    have six : byteLength ([c₁,c₂] ++ ([c₃,c₄] ++ [c₅,c₆])) = 6 := by
      rw [byteLengthAppend,byteLengthAppend,size₁,size₂,lenientBytes pair₃]
    have read : Color.fromStr ('#' :: ([c₁,c₂] ++ ([c₃,c₄] ++ [c₅,c₆]))) = .ok (.rgb r g b) := by
      rw [fromStrSix six,piecesComplete size₁ size₂]
      simp only [radixPair,pair₁,pair₂,pair₃]
    exact read

theorem defaultRead {s : Str} : Color.fromStr s = .ok .default ↔ s = "default".toList := by
  constructor
  · intro read
    unfold Color.fromStr at read
    split at read
    · split at read
      · split at read
        · cases read
        · split at read <;> cases read
      · cases read
    · split at read
      · assumption
      · cases read
  · rintro rfl
    rfl

theorem namedRead {s : Str} {c : Color} (read : Color.fromStr s = .ok c) :
    c = .default ∨ (∃ r g b, c = .rgb r g b) ∨ c = .named s := by
  unfold Color.fromStr at read
  split at read
  · split at read
    · split at read
      · cases read
      · split at read
        · exact .inr (.inl ⟨_,_,_,(Except.ok.inj read).symm⟩)
        · exact .inr (.inr (Except.ok.inj read).symm)
    · exact .inr (.inr (Except.ok.inj read).symm)
  · split at read
    · exact .inl (Except.ok.inj read).symm
    · exact .inr (.inr (Except.ok.inj read).symm)

/-- A plus sign in the place of a digit that could be left out. -/
def Signed (s : Str) : Prop :=
  ∃ c₁ c₂ c₃ c₄ c₅ c₆, s = ['#',c₁,c₂,c₃,c₄,c₅,c₆] ∧ (c₁ = '+' ∨ c₃ = '+' ∨ c₅ = '+') ∧
    (∀ c ∈ [c₁,c₃,c₅], c = '+' ∨ (hexDigit c).isSome) ∧ ∀ c ∈ [c₂,c₄,c₆], (hexDigit c).isSome

/-- A text of six digits is their colour, `default` is no colour, and every other text is a name. -/
structure Exact (s : Str) : Prop where
  rgb : ∀ r g b, Color.fromStr s = .ok (.rgb r g b) ↔ Pairs hexPair s r g b
  noColor : Color.fromStr s = .ok .default ↔ s = "default".toList
  name : Color.fromStr s = .ok (.named s) ↔ s ≠ "default".toList ∧ ∀ r g b, ¬ Pairs hexPair s r g b
  total : ∃ c, Color.fromStr s = .ok c

theorem hexLenient {c d : Char} {n : UInt8} (read : hexPair c d = some n) : lenientPair c d = some n := by
  obtain ⟨high,first,-⟩ := Option.bind_eq_some_iff.mp read
  rw [lenientPair,if_neg (hexDigitAscii first).2,read]

theorem hexPairsLenient {s : Str} {r g b : UInt8} (read : Pairs hexPair s r g b) : Pairs lenientPair s r g b := by
  obtain ⟨c₁,c₂,c₃,c₄,c₅,c₆,whole,pair₁,pair₂,pair₃⟩ := read
  exact ⟨c₁,c₂,c₃,c₄,c₅,c₆,whole,hexLenient pair₁,hexLenient pair₂,hexLenient pair₃⟩

theorem lenientChars {c d : Char} :
    (lenientPair c d).isSome ↔ (c = '+' ∨ (hexDigit c).isSome) ∧ (hexDigit d).isSome := by
  unfold lenientPair hexPair
  by_cases sign : c = '+'
  · simp [sign]
  · cases hexDigit c <;> simp [sign]

theorem lenientHex {c d : Char} (digit : c ≠ '+') : lenientPair c d = hexPair c d := if_neg digit

theorem signedPairs {s : Str} (signed : Signed s) :
    (∃ r g b, Pairs lenientPair s r g b) ∧ ∀ r g b, ¬ Pairs hexPair s r g b := by
  obtain ⟨c₁,c₂,c₃,c₄,c₅,c₆,rfl,sign,firsts,seconds⟩ := signed
  constructor
  · obtain ⟨r,pair₁⟩ := Option.isSome_iff_exists.mp (lenientChars.mpr ⟨firsts c₁ (by simp),seconds c₂ (by simp)⟩)
    obtain ⟨g,pair₂⟩ := Option.isSome_iff_exists.mp (lenientChars.mpr ⟨firsts c₃ (by simp),seconds c₄ (by simp)⟩)
    obtain ⟨b,pair₃⟩ := Option.isSome_iff_exists.mp (lenientChars.mpr ⟨firsts c₅ (by simp),seconds c₆ (by simp)⟩)
    exact ⟨r,g,b,c₁,c₂,c₃,c₄,c₅,c₆,rfl,pair₁,pair₂,pair₃⟩
  · rintro r g b ⟨d₁,d₂,d₃,d₄,d₅,d₆,same,pair₁,pair₂,pair₃⟩
    simp only [List.cons.injEq,true_and,and_true] at same
    obtain ⟨rfl,rfl,rfl,rfl,rfl,rfl⟩ := same
    obtain ⟨_,first,-⟩ := Option.bind_eq_some_iff.mp pair₁
    obtain ⟨_,second,-⟩ := Option.bind_eq_some_iff.mp pair₂
    obtain ⟨_,third,-⟩ := Option.bind_eq_some_iff.mp pair₃
    rcases sign with sign | sign | sign
    · exact (hexDigitAscii first).2 sign
    · exact (hexDigitAscii second).2 sign
    · exact (hexDigitAscii third).2 sign

theorem pairsUnsigned {s : Str} (unsigned : ¬ Signed s) {r g b : UInt8} (read : Pairs lenientPair s r g b) :
    Pairs hexPair s r g b := by
  obtain ⟨c₁,c₂,c₃,c₄,c₅,c₆,rfl,pair₁,pair₂,pair₃⟩ := read
  have some₁ := lenientChars.mp (Option.isSome_of_eq_some pair₁)
  have some₂ := lenientChars.mp (Option.isSome_of_eq_some pair₂)
  have some₃ := lenientChars.mp (Option.isSome_of_eq_some pair₃)
  have plain : ¬ (c₁ = '+' ∨ c₃ = '+' ∨ c₅ = '+') := fun sign =>
    unsigned ⟨c₁,c₂,c₃,c₄,c₅,c₆,rfl,sign,by simp [some₁.1,some₂.1,some₃.1],by simp [some₁.2,some₂.2,some₃.2]⟩
  simp only [not_or] at plain
  rw [lenientHex plain.1] at pair₁
  rw [lenientHex plain.2.1] at pair₂
  rw [lenientHex plain.2.2] at pair₃
  exact ⟨c₁,c₂,c₃,c₄,c₅,c₆,rfl,pair₁,pair₂,pair₃⟩

theorem exactUnless {s : Str} (whole : ¬ Torn s) (unsigned : ¬ Signed s) : Exact s := by
  have six : ∀ r g b, Color.fromStr s = .ok (.rgb r g b) ↔ Pairs hexPair s r g b := fun r g b =>
    rgbPairs.trans ⟨pairsUnsigned unsigned,hexPairsLenient⟩
  obtain ⟨c,read⟩ : ∃ c, Color.fromStr s = .ok c := by
    cases read : Color.fromStr s with
    | ok c => exact ⟨c,rfl⟩
    | error failure => exact absurd (panicsTorn read) whole
  refine ⟨six,defaultRead,⟨fun named => ⟨fun same => ?_,fun r g b pairs => ?_⟩,fun ⟨other,notHex⟩ => ?_⟩,c,read⟩
  · rw [defaultRead.mpr same] at named
    cases named
  · rw [(six r g b).mpr pairs] at named
    cases named
  · rcases namedRead read with rfl | ⟨r,g,b,rfl⟩ | rfl
    · exact absurd (defaultRead.mp read) other
    · exact absurd ((six r g b).mp read) (notHex r g b)
    · exact read

/-- The reader is exact where the cuts fall between characters and no sign stands for a digit, and what it
reads from a value it reads again from the value written for it. -/
theorem colorsExact {φ : Type} (s : Str) (v : KdlValue φ) (c : Color) :
    (Exact s ↔ ¬ Torn s ∧ ¬ Signed s) ∧
      (Color.fromValue v = .ok c → Color.fromValue (colorValue c : KdlValue φ) = .ok c) := by
  constructor
  · constructor
    · intro precise
      constructor
      · intro torn
        obtain ⟨c,read⟩ := precise.total
        rw [tornPanics torn] at read
        cases read
      · intro signed
        obtain ⟨⟨r,g,b,lenient⟩,notHex⟩ := signedPairs signed
        exact notHex r g b ((precise.rgb r g b).mp (rgbPairs.mpr lenient))
    · rintro ⟨whole,unsigned⟩
      exact exactUnless whole unsigned
  · intro read
    exact colorRead (fromValueReadable read)

theorem colorsExactGreen : Color.fromValue (colorValue (.rgb 0 255 0) : KdlValue Unit) = .ok (.rgb 0 255 0) :=
  (colorsExact "#00ff00".toList (.string "#00ff00".toList) (.rgb 0 255 0)).2 (by decide)

/-- A wide character at the second offset. -/
theorem colorTorn : ¬ ∀ s : Str, Exact s := by
  intro claim
  obtain ⟨c,read⟩ := (claim "#a€bc".toList).total
  have torn : Color.fromStr "#a€bc".toList = .error .panicked := by decide
  rw [torn] at read
  cases read

end P11k.Settings
