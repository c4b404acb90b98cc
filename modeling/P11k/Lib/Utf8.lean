import Mathlib.Data.List.Basic

/-! UTF-8 both ways. Decoding is lossy: what is not UTF-8 becomes U+FFFD, one for each longest
beginning of a character that the bytes break off. -/
namespace P11k.Utf8

def encode (s : List Char) : List UInt8 := s.flatMap String.utf8EncodeChar

/-- The bits of a first byte, and how many bytes follow it. -/
def lead (b : Nat) : Option (Nat × Nat) :=
  if b < 0xC2 then none
  else if b < 0xE0 then some (b - 0xC0,1)
  else if b < 0xF0 then some (b - 0xE0,2)
  else if b < 0xF5 then some (b - 0xF0,3)
  else none

/-- What the byte behind the first byte may be. -/
def second (b : Nat) : Nat × Nat :=
  if b = 0xE0 then (0xA0,0xBF)
  else if b = 0xED then (0x80,0x9F)
  else if b = 0xF0 then (0x90,0xBF)
  else if b = 0xF4 then (0x80,0x8F)
  else (0x80,0xBF)

def replacement : Char := Char.ofNat 0xFFFD

/-- The character whose bits so far are `acc`, and how many bytes it takes beyond those `used`. -/
def follow (acc : Nat) : Nat → Nat × Nat → List UInt8 → Nat → Char × Nat
  | 0, _, _, used => (Char.ofNat acc,used)
  | _+1, _, [], used => (replacement,used)
  | n+1, range, b :: bs, used =>
      if range.1 ≤ b.toNat ∧ b.toNat ≤ range.2 then
        follow (acc * 64 + (b.toNat - 0x80)) n (0x80,0xBF) bs (used+1)
      else (replacement,used)

def scan (b : UInt8) (bs : List UInt8) : Char × Nat :=
  if b.toNat < 0x80 then (Char.ofNat b.toNat,0)
  else match lead b.toNat with
    | none => (replacement,0)
    | some (acc,n) => follow acc n (second b.toNat) bs 0

/-- `skip` bytes still belong to the character before. -/
def decodeLoop : Nat → List UInt8 → List Char
  | _, [] => []
  | skip+1, _ :: bs => decodeLoop skip bs
  | 0, b :: bs => (scan b bs).1 :: decodeLoop (scan b bs).2 bs

def decode (bs : List UInt8) : List Char := decodeLoop 0 bs

theorem toNatOfNat {n : Nat} (small : n < 256) : (UInt8.ofNat n).toNat = n := by
  rw [UInt8.toNat_ofNat']
  exact Nat.mod_eq_of_lt small

theorem followTail {acc n used low high bits : Nat} {bs : List UInt8} (small : bits < 64)
    (least : low ≤ bits + 0x80) (most : bits + 0x80 ≤ high) :
    follow acc (n+1) (low,high) (UInt8.ofNat (bits + 0x80) :: bs) used =
      follow (acc * 64 + bits) n (0x80,0xBF) bs (used+1) := by
  have value : (UInt8.ofNat (bits + 0x80)).toNat = bits + 0x80 := toNatOfNat (by omega)
  rw [follow,value,if_pos ⟨least,most⟩,Nat.add_sub_cancel]

theorem scanOne {v : Nat} (small : v ≤ 0x7f) (bs : List UInt8) :
    scan (UInt8.ofNat v) bs = (Char.ofNat v,0) := by
  have value : (UInt8.ofNat v).toNat = v := toNatOfNat (by omega)
  rw [scan,value,if_pos (by omega)]

theorem scanTwo {v : Nat} (above : 0x7f < v) (small : v ≤ 0x7ff) (bs : List UInt8) :
    scan (UInt8.ofNat (v / 64 % 0x20 + 0xc0)) (UInt8.ofNat (v % 0x40 + 0x80) :: bs) = (Char.ofNat v,1) := by
  have bits : v / 64 % 0x20 = v / 64 := by omega
  have value : (UInt8.ofNat (v / 64 + 0xc0)).toNat = v / 64 + 0xc0 := toNatOfNat (by omega)
  have first : lead (v / 64 + 0xc0) = some (v / 64,1) := by
    rw [lead,if_neg (by omega),if_pos (by omega),Nat.add_sub_cancel]
  have next : second (v / 64 + 0xc0) = (0x80,0xBF) := by
    rw [second,if_neg (by omega),if_neg (by omega),if_neg (by omega),if_neg (by omega)]
  rw [bits,scan,value,if_neg (by omega),first,next]
  dsimp only
  rw [followTail (by omega) (by omega) (by omega),follow]
  congr 2
  omega

theorem scanThree {v : Nat} (above : 0x7ff < v) (small : v ≤ 0xffff)
    (valid : v < 0xD800 ∨ (0xDFFF < v ∧ v < 0x110000)) (bs : List UInt8) :
    scan (UInt8.ofNat (v / 4096 % 0x10 + 0xe0))
      (UInt8.ofNat (v / 64 % 0x40 + 0x80) :: UInt8.ofNat (v % 0x40 + 0x80) :: bs) = (Char.ofNat v,2) := by
  have bits : v / 4096 % 0x10 = v / 4096 := by omega
  have value : (UInt8.ofNat (v / 4096 + 0xe0)).toNat = v / 4096 + 0xe0 := toNatOfNat (by omega)
  have first : lead (v / 4096 + 0xe0) = some (v / 4096,2) := by
    rw [lead,if_neg (by omega),if_neg (by omega),if_pos (by omega),Nat.add_sub_cancel]
  rw [bits,scan,value,if_neg (by omega),first]
  have range : (second (v / 4096 + 0xe0)).1 ≤ v / 64 % 0x40 + 0x80 ∧
      v / 64 % 0x40 + 0x80 ≤ (second (v / 4096 + 0xe0)).2 := by
    unfold second
    repeat' split
    all_goals dsimp only
    all_goals omega
  dsimp only
  rw [followTail (by omega) range.1 range.2,followTail (by omega) (by omega) (by omega),follow]
  congr 2
  omega

theorem scanFour {v : Nat} (above : 0xffff < v) (small : v < 0x110000) (bs : List UInt8) :
    scan (UInt8.ofNat (v / 262144 % 0x08 + 0xf0))
      (UInt8.ofNat (v / 4096 % 0x40 + 0x80) :: UInt8.ofNat (v / 64 % 0x40 + 0x80) ::
        UInt8.ofNat (v % 0x40 + 0x80) :: bs) = (Char.ofNat v,3) := by
  have bits : v / 262144 % 0x08 = v / 262144 := by omega
  have value : (UInt8.ofNat (v / 262144 + 0xf0)).toNat = v / 262144 + 0xf0 := toNatOfNat (by omega)
  have first : lead (v / 262144 + 0xf0) = some (v / 262144,3) := by
    rw [lead,if_neg (by omega),if_neg (by omega),if_neg (by omega),if_pos (by omega),Nat.add_sub_cancel]
  rw [bits,scan,value,if_neg (by omega),first]
  have range : (second (v / 262144 + 0xf0)).1 ≤ v / 4096 % 0x40 + 0x80 ∧
      v / 4096 % 0x40 + 0x80 ≤ (second (v / 262144 + 0xf0)).2 := by
    unfold second
    repeat' split
    all_goals dsimp only
    all_goals omega
  dsimp only
  rw [followTail (by omega) range.1 range.2,followTail (by omega) (by omega) (by omega),
    followTail (by omega) (by omega) (by omega),follow]
  congr 2
  omega

theorem scanEncoded (c : Char) (bs : List UInt8) : ∃ b rest, String.utf8EncodeChar c = b :: rest ∧
    scan b (rest ++ bs) = (c,rest.length) := by
  have whole : Char.ofNat c.val.toNat = c := Char.ofNat_toNat c
  have valid : c.val.toNat < 0xD800 ∨ (0xDFFF < c.val.toNat ∧ c.val.toNat < 0x110000) := c.valid
  unfold String.utf8EncodeChar
  dsimp only
  split
  · rename_i one
    exact ⟨_,_,rfl,(scanOne one bs).trans (congrArg (·,0) whole)⟩
  · rename_i above
    split
    · rename_i two
      exact ⟨_,_,rfl,(scanTwo (Nat.lt_of_not_le above) two bs).trans (congrArg (·,1) whole)⟩
    · rename_i above'
      split
      · rename_i three
        exact ⟨_,_,rfl,(scanThree (Nat.lt_of_not_le above') three valid bs).trans (congrArg (·,2) whole)⟩
      · rename_i above
        have most : c.val.toNat < 0x110000 := by omega
        exact ⟨_,_,rfl,(scanFour (Nat.lt_of_not_le above) most bs).trans (congrArg (·,3) whole)⟩

theorem decodeSkip (skip : Nat) (bs : List UInt8) : decodeLoop skip bs = decodeLoop 0 (bs.drop skip) := by
  induction bs generalizing skip with
  | nil => simp [decodeLoop]
  | cons b bs ih =>
    cases skip with
    | zero => rfl
    | succ skip => exact ih skip

theorem decodeChar (c : Char) (bs : List UInt8) :
    decode (String.utf8EncodeChar c ++ bs) = c :: decode bs := by
  obtain ⟨b,rest,bytes,read⟩ := scanEncoded c bs
  rw [bytes,List.cons_append,decode,decodeLoop,read,decodeSkip,List.drop_left]
  rfl

theorem decodeAppend (s : List Char) (bs : List UInt8) : decode (encode s ++ bs) = s ++ decode bs := by
  induction s with
  | nil => rfl
  | cons c s ih =>
    rw [encode,List.flatMap_cons,List.append_assoc,decodeChar]
    exact congrArg (c :: ·) ih

theorem decodeEncode (s : List Char) : decode (encode s) = s := by
  have := decodeAppend s []
  simpa [decode,decodeLoop] using this

theorem encodeInjective {s t : List Char} (same : encode s = encode t) : s = t := by
  rw [← decodeEncode s,same,decodeEncode]

/-- The first byte of a character is none of those that follow one. -/
theorem firstApart (c : Char) : ∃ b rest, String.utf8EncodeChar c = b :: rest ∧
    (b.toNat < 0x80 ∨ 0xC0 ≤ b.toNat) ∧ ∀ a ∈ rest, 0x80 ≤ a.toNat ∧ a.toNat < 0xC0 := by
  have later : ∀ n, 0x80 ≤ (UInt8.ofNat (n % 0x40 + 0x80)).toNat ∧ (UInt8.ofNat (n % 0x40 + 0x80)).toNat < 0xC0 := by
    intro n
    rw [toNatOfNat (by omega)]
    omega
  unfold String.utf8EncodeChar
  dsimp only
  split
  · rename_i one
    exact ⟨_,_,rfl,.inl (by rw [toNatOfNat (by omega)]; omega),nofun⟩
  · split
    · refine ⟨_,_,rfl,.inr ?_,by simpa using later _⟩
      rw [toNatOfNat (by omega)]
      omega
    · split
      · refine ⟨_,_,rfl,.inr ?_,by simpa using ⟨later _,later _⟩⟩
        rw [toNatOfNat (by omega)]
        omega
      · refine ⟨_,_,rfl,.inr ?_,by simpa using ⟨later _,later _,later _⟩⟩
        rw [toNatOfNat (by omega)]
        omega

/-! A byte of a single character cuts the bytes before it from those behind it. -/

theorem secondLeast (b : Nat) : 0x80 ≤ (second b).1 := by
  unfold second
  repeat' split
  all_goals decide

theorem followCut {b : UInt8} (single : b.toNat < 0x80) (bs rest : List UInt8) {acc n used : Nat} {range : Nat × Nat}
    (least : 0x80 ≤ range.1) : follow acc n range (bs ++ b :: rest) used = follow acc n range bs used := by
  induction bs generalizing acc n used range with
  | nil =>
    cases n with
    | zero => rfl
    | succ n =>
      have stop : ¬ (range.1 ≤ b.toNat ∧ b.toNat ≤ range.2) := by omega
      simp only [List.nil_append,follow,stop,if_false]
  | cons d bs ih =>
    cases n with
    | zero => rfl
    | succ n =>
      rw [List.cons_append,follow,follow]
      split
      · exact ih (by decide)
      · rfl

theorem followUsed (bs : List UInt8) (acc n used : Nat) (range : Nat × Nat) :
    (follow acc n range bs used).2 ≤ used + bs.length := by
  induction bs generalizing acc n used range with
  | nil => cases n <;> exact Nat.le_refl _
  | cons d bs ih =>
    cases n with
    | zero => exact Nat.le_add_right _ _
    | succ n =>
      rw [follow,List.length_cons]
      split
      · have := ih (acc * 64 + (d.toNat - 0x80)) n (used + 1) (0x80,0xBF)
        omega
      · exact Nat.le_add_right _ _

theorem scanCut {b : UInt8} (single : b.toNat < 0x80) (a : UInt8) (bs rest : List UInt8) :
    scan a (bs ++ b :: rest) = scan a bs := by
  unfold scan
  split
  · rfl
  · cases lead a.toNat with
    | none => rfl
    | some first => exact followCut single bs rest (secondLeast _)

theorem scanUsed (a : UInt8) (bs : List UInt8) : (scan a bs).2 ≤ bs.length := by
  unfold scan
  split
  · exact Nat.zero_le _
  · cases lead a.toNat with
    | none => exact Nat.zero_le _
    | some first => simpa using followUsed bs first.1 first.2 0 (second a.toNat)

theorem decodeCut {b : UInt8} (single : b.toNat < 0x80) (rest : List UInt8) {skip : Nat} {bs : List UInt8}
    (inside : skip ≤ bs.length) :
    decodeLoop skip (bs ++ b :: rest) = decodeLoop skip bs ++ decodeLoop 0 (b :: rest) := by
  induction bs generalizing skip with
  | nil =>
    obtain rfl : skip = 0 := Nat.le_zero.mp inside
    rfl
  | cons a bs ih =>
    cases skip with
    | zero =>
      rw [List.cons_append,decodeLoop,decodeLoop,scanCut single,ih (scanUsed a bs),List.cons_append]
    | succ skip => exact ih (Nat.le_of_succ_le_succ inside)

theorem decodeSingle {b : UInt8} (single : b.toNat < 0x80) (bs rest : List UInt8) :
    decode (bs ++ b :: rest) = decode bs ++ Char.ofNat b.toNat :: decode rest := by
  have here : scan b rest = (Char.ofNat b.toNat,0) := by rw [scan,if_pos single]
  rw [decode,decodeCut single rest (Nat.zero_le _),decodeLoop,here]
  rfl

theorem ofNatValue {n : Nat} (valid : n.isValidChar) : (Char.ofNat n).toNat = n := by
  rw [Char.ofNat,dif_pos valid]
  rfl

theorem followWide (bs : List UInt8) {acc n used least : Nat} {range : Nat × Nat} (wide : least ≤ acc)
    (low : least ≤ 0xFFFD) :
    (follow acc n range bs used).1 = Char.ofNat 0 ∨ least ≤ (follow acc n range bs used).1.toNat := by
  have value : ∀ v, least ≤ v → Char.ofNat v = Char.ofNat 0 ∨ least ≤ (Char.ofNat v).toNat := by
    intro v above
    by_cases valid : v.isValidChar
    · exact .inr (by rwa [ofNatValue valid])
    · exact .inl (by rw [Char.ofNat,dif_neg valid]; rfl)
  induction bs generalizing acc n used range with
  | nil =>
    cases n with
    | zero => exact value acc wide
    | succ n => exact value 0xFFFD low
  | cons d bs ih =>
    cases n with
    | zero => exact value acc wide
    | succ n =>
      rw [follow]
      split
      · exact ih (by omega)
      · exact value 0xFFFD low

theorem scanWide {a : UInt8} (wide : 0x80 ≤ a.toNat) (bs : List UInt8) :
    (scan a bs).1 = Char.ofNat 0 ∨ 16 ≤ (scan a bs).1.toNat := by
  have lost : replacement = Char.ofNat 0 ∨ 16 ≤ replacement.toNat := .inr (by decide)
  rw [scan,if_neg (by omega)]
  cases first : lead a.toNat with
  | none => exact lost
  | some first' =>
    obtain ⟨acc,n⟩ := first'
    have more : 0 < n ∧ (acc = 0 → 0x90 ≤ (second a.toNat).1) := by
      unfold lead at first
      split at first
      · cases first
      · split at first
        · simp only [Option.some.injEq,Prod.mk.injEq] at first
          omega
        · split at first
          · simp only [Option.some.injEq,Prod.mk.injEq] at first
            refine ⟨by omega,fun zero => ?_⟩
            have range : second a.toNat = (0xA0,0xBF) := by rw [second,if_pos (by omega)]
            simp [range]
          · split at first
            · simp only [Option.some.injEq,Prod.mk.injEq] at first
              refine ⟨by omega,fun zero => ?_⟩
              have range : second a.toNat = (0x90,0xBF) := by
                rw [second,if_neg (by omega),if_neg (by omega),if_pos (by omega)]
              simp [range]
            · cases first
    obtain ⟨n,rfl⟩ : ∃ n', n = n' + 1 := ⟨n - 1,by omega⟩
    cases bs with
    | nil => exact lost
    | cons b bs =>
      dsimp only
      rw [follow]
      split
      · rename_i inside
        refine followWide bs ?_ (by decide)
        rcases Nat.eq_zero_or_pos acc with zero | positive
        · have := more.2 zero
          omega
        · omega
      · exact lost

theorem decodeNewline {bs : List UInt8} {skip : Nat} (mem : '\n' ∈ decodeLoop skip bs) : 10 ∈ bs := by
  induction bs generalizing skip with
  | nil => cases skip <;> cases mem
  | cons a bs ih =>
    cases skip with
    | succ skip => exact List.mem_cons_of_mem a (ih mem)
    | zero =>
      rcases List.mem_cons.mp mem with here | later
      · by_cases single : a.toNat < 0x80
        · rw [scan,if_pos single] at here
          have value := ofNatValue (n := a.toNat) (.inl (by omega))
          have same : a.toNat = 10 := value.symm.trans (congrArg Char.toNat here).symm
          rw [List.mem_cons]
          exact .inl (UInt8.toNat_inj.mp same).symm
        · rcases scanWide (Nat.le_of_not_lt single) bs with zero | large
          · rw [← here] at zero
            exact absurd zero (by decide)
          · rw [← here] at large
            exact absurd large (by decide)
      · exact List.mem_cons_of_mem a (ih later)

end P11k.Utf8
