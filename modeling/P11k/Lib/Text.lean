import Mathlib.Data.List.Basic
import Mathlib.Algebra.Order.Ring.Int

/-! Texts as lists of characters: white space, lines, pieces, and decimal numbers as they are printed and
read. -/
namespace P11k.Text

/-- The characters with the property White_Space. -/
def whiteSpace (c : Char) : Bool :=
  let n := c.toNat
  (9 ≤ n && n ≤ 13) || n == 0x20 || n == 0x85 || n == 0xA0 || n == 0x1680 || (0x2000 ≤ n && n ≤ 0x200A) ||
    n == 0x2028 || n == 0x2029 || n == 0x202F || n == 0x205F || n == 0x3000

def trimStart (s : List Char) : List Char := s.dropWhile whiteSpace

def trimEnd (s : List Char) : List Char := (s.reverse.dropWhile whiteSpace).reverse

def trim (s : List Char) : List Char := trimEnd (trimStart s)

/-- A carriage return goes with the newline behind it. -/
def stripReturn (line : List Char) : List Char := if line.getLast? = some '\r' then line.dropLast else line

def linesLoop (line : List Char) : List Char → List (List Char)
  | [] => if line = [] then [] else [line]
  | c :: s => if c = '\n' then stripReturn line :: linesLoop [] s else linesLoop (line ++ [c]) s

def lines (s : List Char) : List (List Char) := linesLoop [] s

/-! Searching. -/

/-- What stands before and behind the first occurrence. -/
def splitOnce (needle : List Char) : List Char → Option (List Char × List Char)
  | [] => if needle = [] then some ([],[]) else none
  | c :: s =>
      if needle.isPrefixOf (c :: s) then some ([],(c :: s).drop needle.length)
      else (splitOnce needle s).map fun (front,rest) => (c :: front,rest)

def contains (needle s : List Char) : Bool := (splitOnce needle s).isSome

/-- The first piece of a split. -/
def before (needle s : List Char) : List Char := ((splitOnce needle s).map Prod.fst).getD s

/-- The second piece of a split. -/
def second (needle s : List Char) : Option (List Char) :=
  (splitOnce needle s).map fun (_,rest) => before needle rest

/-- The last piece of a split. -/
def afterLast (c : Char) (s : List Char) : List Char := (s.reverse.takeWhile (· != c)).reverse

/-- What stands behind the last occurrence. -/
def behindLast (needle : List Char) : List Char → Option (List Char)
  | [] => if needle = [] then some [] else none
  | c :: s =>
      match behindLast needle s with
      | some rest => some rest
      | none => if needle.isPrefixOf (c :: s) then some ((c :: s).drop needle.length) else none

def stripPrefix (front s : List Char) : Option (List Char) :=
  if front.isPrefixOf s then some (s.drop front.length) else none

/-- The pattern is taken off as often as it stands in front. -/
def trimStartMatches (front : List Char) (s : List Char) : List Char :=
  trimLoop front s s.length
where
  trimLoop (front s : List Char) : Nat → List Char
    | 0 => s
    | n + 1 =>
        match stripPrefix front s with
        | some rest => trimLoop front rest n
        | none => s

def trimEndChar (c : Char) (s : List Char) : List Char := (s.reverse.dropWhile (· == c)).reverse

def wordsLoop (word : List Char) : List Char → List (List Char)
  | [] => if word = [] then [] else [word]
  | c :: s =>
      if whiteSpace c then (if word = [] then wordsLoop [] s else word :: wordsLoop [] s)
      else wordsLoop (word ++ [c]) s

def words (s : List Char) : List (List Char) := wordsLoop [] s

/-! Numbers. -/

def decimal (n : Nat) : List Char := Nat.toDigits 10 n

def signed : Int → List Char
  | .ofNat n => decimal n
  | .negSucc n => '-' :: decimal (n+1)

def parseDigits (s : List Char) : Option Nat :=
  if s.isEmpty || !s.all Char.isDigit then none else some (Nat.ofDigitChars 10 s 0)

def dropPlus (s : List Char) : List Char := if s.head? = some '+' then s.tail else s

/-- The numbers that fit are those up to `most`. -/
def parseNat (most : Nat) (s : List Char) : Option Nat := (parseDigits (dropPlus s)).filter (· ≤ most)

def parseInt (least most : Int) (s : List Char) : Option Int :=
  (if s.head? = some '-' then (parseDigits s.tail).map fun n => -(n : Int)
    else (parseDigits (dropPlus s)).map fun n => (n : Int)).filter fun n => least ≤ n ∧ n ≤ most

theorem digitRange {c : Char} (digit : c.isDigit = true) : 48 ≤ c.toNat ∧ c.toNat ≤ 57 :=
  Char.isDigit_iff_toNat.mp digit

theorem letterRange {c : Char} (letter : c.isAlpha = true) :
    (65 ≤ c.toNat ∧ c.toNat ≤ 90) ∨ (97 ≤ c.toNat ∧ c.toNat ≤ 122) := by
  have either : (c.isUpper || c.isLower) = true := letter
  rcases Bool.or_eq_true_iff.mp either with upper | lower
  · obtain ⟨low,high⟩ : c.val ≥ 'A'.val ∧ c.val ≤ 'Z'.val := of_decide_eq_true upper
    exact .inl ⟨UInt32.le_iff_toNat_le.mp low,UInt32.le_iff_toNat_le.mp high⟩
  · have both : (decide (c.val ≥ 'a'.val) && decide (c.val ≤ 'z'.val)) = true := lower
    obtain ⟨low,high⟩ := Bool.and_eq_true_iff.mp both
    exact .inr ⟨UInt32.le_iff_toNat_le.mp (of_decide_eq_true low),UInt32.le_iff_toNat_le.mp (of_decide_eq_true high)⟩

theorem digitPlain {c : Char} (digit : c.isDigit = true) :
    whiteSpace c = false ∧ c ≠ '-' ∧ c ≠ '+' ∧ c ≠ ',' ∧ c ≠ '\t' ∧ c ≠ '\n' ∧ c ≠ '\r' := by
  obtain ⟨low,high⟩ := digitRange digit
  refine ⟨?_,?_,?_,?_,?_,?_,?_⟩
  · simp [whiteSpace]
    omega
  all_goals
    rintro rfl
    contradiction

theorem decimalDigits {n : Nat} {c : Char} (mem : c ∈ decimal n) : c.isDigit = true :=
  Nat.isDigit_of_mem_toDigits (by decide) (by decide) mem

theorem decimalSome (n : Nat) : decimal n ≠ [] := Nat.toDigits_ne_nil

theorem parseDecimal (n : Nat) : parseDigits (decimal n) = some n := by
  have all : (decimal n).all Char.isDigit = true := List.all_eq_true.mpr fun c mem => decimalDigits mem
  have some' : (decimal n).isEmpty = false := by simpa using decimalSome n
  rw [parseDigits,all,some']
  exact congrArg some (Nat.ofDigitChars_toDigits (by decide) (by decide))

theorem decimalFront (n : Nat) : (decimal n).head? ≠ some '-' ∧ (decimal n).head? ≠ some '+' := by
  obtain ⟨c,s,whole⟩ := List.exists_cons_of_ne_nil (decimalSome n)
  obtain ⟨_,minus,plus,_⟩ := digitPlain (decimalDigits (whole ▸ List.mem_cons_self))
  rw [whole]
  simpa using ⟨minus,plus⟩

theorem parseNatDecimal {n most : Nat} (fits : n ≤ most) : parseNat most (decimal n) = some n := by
  rw [parseNat,dropPlus,if_neg (decimalFront n).2,parseDecimal]
  simpa using fits

theorem parseIntSigned {n least most : Int} (low : least ≤ n) (high : n ≤ most) :
    parseInt least most (signed n) = some n := by
  cases n with
  | ofNat n =>
    rw [parseInt,signed,if_neg (decimalFront n).1,dropPlus,if_neg (decimalFront n).2,parseDecimal]
    exact Option.filter_eq_some_iff.mpr ⟨rfl,by simpa using ⟨low,high⟩⟩
  | negSucc n =>
    rw [parseInt,signed,List.head?_cons,if_pos rfl,List.tail_cons,parseDecimal]
    refine Option.filter_eq_some_iff.mpr ⟨rfl,?_⟩
    rw [Int.negSucc_eq] at low high
    exact decide_eq_true ⟨low,high⟩

theorem dropWhileNone {p : Char → Bool} {s : List Char} (none' : ∀ c ∈ s, p c = false) : s.dropWhile p = s := by
  cases s with
  | nil => rfl
  | cons c s => rw [List.dropWhile_cons,none' c List.mem_cons_self]; rfl

theorem trimPlain {s : List Char} (plain : ∀ c ∈ s, whiteSpace c = false) : trim s = s := by
  rw [trim,trimStart,dropWhileNone plain,trimEnd,
    dropWhileNone (fun c mem => plain c (List.mem_reverse.mp mem)),List.reverse_reverse]

theorem trimEndCons {c : Char} (solid : whiteSpace c = false) (s : List Char) : trimEnd (c :: s) = c :: trimEnd s := by
  rw [trimEnd,trimEnd,List.reverse_cons,List.dropWhile_append]
  split
  · rename_i blank
    rw [List.isEmpty_iff.mp blank,List.dropWhile_cons,solid]
    rfl
  · rw [List.reverse_append]
    rfl

theorem trimCons {c : Char} (solid : whiteSpace c = false) (s : List Char) : trim (c :: s) = c :: trimEnd s := by
  rw [trim,trimStart,List.dropWhile_cons,solid]
  exact trimEndCons solid s

theorem trimMem {s : List Char} {c : Char} (mem : c ∈ trim s) : c ∈ s := by
  have back := List.mem_reverse.mp ((List.dropWhile_suffix _).subset (List.mem_reverse.mp mem))
  exact (List.dropWhile_suffix _).subset back

theorem linesPlain {s : List Char} (plain : '\n' ∉ s) (line t : List Char) :
    linesLoop line (s ++ '\n' :: t) = stripReturn (line ++ s) :: linesLoop [] t := by
  induction s generalizing line with
  | nil => simp [linesLoop]
  | cons c s ih =>
    rw [List.mem_cons,not_or] at plain
    rw [List.cons_append,linesLoop,if_neg (Ne.symm plain.1),ih plain.2,List.append_assoc,List.singleton_append]

theorem stripPrefixSome {front s rest : List Char} : stripPrefix front s = some rest ↔ s = front ++ rest := by
  rw [stripPrefix]
  constructor
  · intro found
    split at found
    · rename_i inside
      obtain ⟨tail,rfl⟩ := List.isPrefixOf_iff_prefix.mp inside
      rw [List.drop_left] at found
      rw [Option.some.inj found]
    · cases found
  · rintro rfl
    rw [if_pos (List.isPrefixOf_iff_prefix.mpr (List.prefix_append front rest)),List.drop_left]

theorem splitOnceSome {c : Char} {s a b : List Char} : splitOnce [c] s = some (a,b) ↔ s = a ++ c :: b ∧ c ∉ a := by
  induction s generalizing a with
  | nil => simp [splitOnce]
  | cons d s ih =>
    rw [splitOnce]
    by_cases same : c = d
    · subst same
      cases a with
      | nil => simp
      | cons e a =>
        simp only [List.isPrefixOf_cons_cons,beq_self_eq_true,List.isPrefixOf_nil_left,Bool.and_self,if_true]
        refine iff_of_false (by simp) fun both => ?_
        obtain ⟨rfl,_⟩ := List.cons.inj both.1
        exact both.2 List.mem_cons_self
    · have front : [c].isPrefixOf (d :: s) = false := by simp [List.isPrefixOf,same]
      rw [front,if_neg Bool.false_ne_true,Option.map_eq_some_iff]
      constructor
      · rintro ⟨⟨front',rest⟩,found,both⟩
        cases both
        obtain ⟨rfl,fresh⟩ := ih.mp found
        exact ⟨rfl,by simp [same,fresh]⟩
      · rintro ⟨whole,fresh⟩
        cases a with
        | nil => exact absurd (List.cons.inj whole).1.symm same
        | cons e a =>
          obtain ⟨rfl,rest⟩ := List.cons.inj whole
          exact ⟨(a,b),ih.mpr ⟨rest,fun mem => fresh (List.mem_cons_of_mem _ mem)⟩,rfl⟩

theorem splitOnceNone {c : Char} {s : List Char} : splitOnce [c] s = none ↔ c ∉ s := by
  rw [Option.eq_none_iff_forall_ne_some]
  constructor
  · intro none' mem
    obtain ⟨a,b,split,fresh⟩ := List.eq_append_cons_of_mem mem
    exact none' (a,b) (splitOnceSome.mpr ⟨split,fresh⟩)
  · rintro fresh ⟨a,b⟩ found
    rw [(splitOnceSome.mp found).1] at fresh
    exact fresh (by simp)

end P11k.Text
