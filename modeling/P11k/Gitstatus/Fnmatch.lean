import Mathlib.Data.List.Infix
import P11k.Gitstatus.Path

/-! The version glob: the matcher of the source beside the rules of the C library, both over bytes. -/
namespace P11k.Gitstatus

def asterisk : UInt8 := 42
def dash : UInt8 := 45
def questionMark : UInt8 := 63
def openBracket : UInt8 := 91
def backslash : UInt8 := 92
def closeBracket : UInt8 := 93

/-- `!` or `^`. -/
def negates (b : UInt8) : Bool := b == 33 || b == 94

structure CharClass where
  ranges : List (UInt8 × UInt8)
  negate : Bool
  deriving DecidableEq, Repr

def inRanges (ranges : List (UInt8 × UInt8)) (c : UInt8) : Bool := ranges.any fun r => r.1 ≤ c && c ≤ r.2

def CharClass.matches (cls : CharClass) (c : UInt8) : Bool := inRanges cls.ranges c != cls.negate

/-- The ranges up to the closing bracket and what stands behind it. -/
def classLoop (ranges : List (UInt8 × UInt8)) : Bytes → Option (List (UInt8 × UInt8) × Bytes)
  | [] => none
  | c :: rest =>
      if c = closeBracket ∧ ranges ≠ [] then some (ranges,rest)
      else if c = closeBracket then classLoop (ranges ++ [(c,c)]) rest
      else
        match rest with
        | [] => none
        | d :: more =>
          if c = backslash then classLoop (ranges ++ [(d,d)]) more
          else
            match more with
            | [] => classLoop (ranges ++ [(c,c)]) [d]
            | high :: tail =>
              if d = dash ∧ high ≠ closeBracket then classLoop (ranges ++ [(c,high)]) tail
              else classLoop (ranges ++ [(c,c)]) (d :: high :: tail)

def negated (pat : Bytes) : Bool := (pat.head?.map negates).getD false

def classBody (pat : Bytes) : Bytes := if negated pat then pat.tail else pat

def parseClass (pat : Bytes) : Option (CharClass × Bytes) :=
  (classLoop [] (classBody pat)).map fun (ranges,rest) => (⟨ranges,negated pat⟩,rest)

/-- Each step takes at least one byte of the pattern, and `fuel` is its length. -/
def fnmatchGo : Nat → Bytes → Bytes → Bool
  | _, [], text => text.isEmpty
  | 0, _ :: _, _ => false
  | fuel + 1, p :: rest, text =>
      if p = asterisk then text.tails.any (fnmatchGo fuel rest)
      else if p = backslash ∧ rest = [] then text == [backslash]
      else
        match text with
        | [] => false
        | c :: text =>
          if p = questionMark then fnmatchGo fuel rest text
          else if p = openBracket then
            match parseClass rest with
            | some (cls,after) => cls.matches c && fnmatchGo fuel after text
            | none => c == openBracket && fnmatchGo fuel rest text
          else if p = backslash then rest.head? == some c && fnmatchGo fuel rest.tail text
          else c == p && fnmatchGo fuel rest text

def fnmatch (pat text : Bytes) : Bool := fnmatchGo pat.length pat text

/-! The rules of the C library without flags. -/

/-- One end point of a range: a byte, or the byte behind a backslash. -/
def endPoint : Bytes → Option (UInt8 × Bytes)
  | [] => none
  | c :: rest => if c ≠ backslash then some (c,rest) else rest.head?.map fun d => (d,rest.tail)

/-- The high end of a range, where a dash and more than the closing bracket follow. -/
def rangeEnd : Bytes → Option Bytes
  | d :: e :: rest => if d = dash ∧ e ≠ closeBracket then some (e :: rest) else none
  | _ => none

/-- A member of a bracket; the closing bracket is one in first place. -/
inductive Member : Bool → Bytes → UInt8 × UInt8 → Bytes → Prop where
  | single {first bytes low rest} (opens : bytes.head? = some closeBracket → first = true)
      (point : endPoint bytes = some (low,rest)) (alone : rangeEnd rest = none) : Member first bytes (low,low) rest
  | range {first bytes low rest upper high after} (opens : bytes.head? = some closeBracket → first = true)
      (point : endPoint bytes = some (low,rest)) (spans : rangeEnd rest = some upper)
      (top : endPoint upper = some (high,after)) : Member first bytes (low,high) after

inductive Bracket : Bool → Bytes → List (UInt8 × UInt8) → Bytes → Prop where
  | close {rest} : Bracket false (closeBracket :: rest) [] rest
  | member {first bytes range rest ranges after} (read : Member first bytes range rest)
      (more : Bracket false rest ranges after) : Bracket first bytes (range :: ranges) after

inductive Posix : Bytes → Bytes → Prop where
  | done : Posix [] []
  | star {pat a b} (rest : Posix pat b) : Posix (asterisk :: pat) (a ++ b)
  | any {pat c text} (rest : Posix pat text) : Posix (questionMark :: pat) (c :: text)
  | bracket {pat ranges after c text} (read : Bracket true (classBody pat) ranges after)
      (hit : inRanges ranges c ≠ negated pat) (rest : Posix after text) : Posix (openBracket :: pat) (c :: text)
  | unclosed {pat text} (opening : ∀ ranges after, ¬ Bracket true (classBody pat) ranges after)
      (rest : Posix pat text) : Posix (openBracket :: pat) (openBracket :: text)
  | escaped {pat c text} (rest : Posix pat text) : Posix (backslash :: c :: pat) (c :: text)
  | trailing : Posix [backslash] [backslash]
  | plain {pat c text} (plain : c ≠ asterisk ∧ c ≠ questionMark ∧ c ≠ openBracket ∧ c ≠ backslash)
      (rest : Posix pat text) : Posix (c :: pat) (c :: text)

/-- Ranges that the source reads as single members: one that begins with a closing bracket in first place
or with an escaped byte, and one whose end is escaped. -/
inductive OddRange : Bool → Bytes → Prop where
  | closing {e rest} (spans : e ≠ closeBracket) : OddRange true (closeBracket :: dash :: e :: rest)
  | escapedLow {first c e rest} (spans : e ≠ closeBracket) : OddRange first (backslash :: c :: dash :: e :: rest)
  | escapedHigh {first c rest} (plain : c ≠ backslash) (opens : c = closeBracket → first = true) :
      OddRange first (c :: dash :: backslash :: rest)
  | later {first bytes range rest} (read : Member first bytes range rest) (odd : OddRange false rest) :
      OddRange first bytes

/-- A bracket of the pattern holds such a range. -/
inductive Odd : Bytes → Prop where
  | here {pat} (odd : OddRange true (classBody pat)) : Odd (openBracket :: pat)
  | behind {pat ranges after} (read : Bracket true (classBody pat) ranges after) (odd : Odd after) :
      Odd (openBracket :: pat)
  | unclosed {pat} (opening : ∀ ranges after, ¬ Bracket true (classBody pat) ranges after) (odd : Odd pat) :
      Odd (openBracket :: pat)
  | escaped {c pat} (odd : Odd pat) : Odd (backslash :: c :: pat)
  | plain {c pat} (plain : c ≠ openBracket ∧ c ≠ backslash) (odd : Odd pat) : Odd (c :: pat)

theorem endPointPlain {c : UInt8} (plain : c ≠ backslash) (rest : Bytes) : endPoint (c :: rest) = some (c,rest) :=
  if_pos plain

theorem endPointCases {bytes : Bytes} {low : UInt8} {rest : Bytes} (point : endPoint bytes = some (low,rest)) :
    bytes = low :: rest ∧ low ≠ backslash ∨ bytes = backslash :: low :: rest := by
  cases bytes with
  | nil => cases point
  | cons c bytes =>
    rw [endPoint] at point
    split at point
    · rename_i plain
      cases point
      exact .inl ⟨rfl,plain⟩
    · rename_i escape
      cases bytes with
      | nil => cases point
      | cons d bytes =>
        cases point
        exact .inr (by rw [not_not.mp escape]; rfl)

theorem rangeEndCases {rest upper : Bytes} (spans : rangeEnd rest = some upper) :
    ∃ e tail, rest = dash :: e :: tail ∧ upper = e :: tail ∧ e ≠ closeBracket := by
  rcases rest with _ | ⟨d,_ | ⟨e,tail⟩⟩ <;> simp only [rangeEnd] at spans <;> try cases spans
  split at spans
  · rename_i both
    cases spans
    exact ⟨e,tail,by rw [both.1],rfl,both.2⟩
  · cases spans

theorem memberShrinks {first : Bool} {bytes rest : Bytes} {range : UInt8 × UInt8}
    (read : Member first bytes range rest) : rest.length < bytes.length := by
  have pointShrinks : ∀ {a : Bytes} {c : UInt8} {b : Bytes}, endPoint a = some (c,b) → b.length < a.length := by
    intro a c b point
    rcases endPointCases point with ⟨rfl,_⟩ | rfl <;> simp only [List.length_cons] <;> omega
  cases read with
  | single _ point _ => exact pointShrinks point
  | range _ point spans top =>
    obtain ⟨e,tail,rfl,rfl,_⟩ := rangeEndCases spans
    have low := pointShrinks point
    have high := pointShrinks top
    simp only [List.length_cons] at low high
    omega

theorem bracketShrinks {first : Bool} {bytes after : Bytes} {ranges : List (UInt8 × UInt8)}
    (read : Bracket first bytes ranges after) : after.length < bytes.length := by
  induction read with
  | close => exact Nat.lt_succ_self _
  | member read _ ih => exact Nat.lt_trans ih (memberShrinks read)

theorem classLoopCons (ranges : List (UInt8 × UInt8)) (c : UInt8) (rest : Bytes) :
    classLoop ranges (c :: rest) =
      if c = closeBracket ∧ ranges ≠ [] then some (ranges,rest)
      else if c = closeBracket then classLoop (ranges ++ [(c,c)]) rest
      else
        match rest with
        | [] => none
        | d :: more =>
          if c = backslash then classLoop (ranges ++ [(d,d)]) more
          else
            match more with
            | [] => classLoop (ranges ++ [(c,c)]) [d]
            | high :: tail =>
              if d = dash ∧ high ≠ closeBracket then classLoop (ranges ++ [(c,high)]) tail
              else classLoop (ranges ++ [(c,c)]) (d :: high :: tail) :=
  classLoop.eq_def ranges (c :: rest)

theorem classLoopClose {ranges : List (UInt8 × UInt8)} (some' : ranges ≠ []) (rest : Bytes) :
    classLoop ranges (closeBracket :: rest) = some (ranges,rest) := by
  rw [classLoopCons]
  exact if_pos ⟨rfl,some'⟩

theorem classLoopFirst (rest : Bytes) :
    classLoop [] (closeBracket :: rest) = classLoop [(closeBracket,closeBracket)] rest := by
  rw [classLoopCons]
  simp

theorem classLoopEscaped (ranges : List (UInt8 × UInt8)) (c : UInt8) (rest : Bytes) :
    classLoop ranges (backslash :: c :: rest) = classLoop (ranges ++ [(c,c)]) rest := by
  rw [classLoopCons]
  simp [show backslash ≠ closeBracket by decide]

theorem classLoopRange (ranges : List (UInt8 × UInt8)) {c e : UInt8} (plain : c ≠ backslash)
    (member : c ≠ closeBracket) (spans : e ≠ closeBracket) (rest : Bytes) :
    classLoop ranges (c :: dash :: e :: rest) = classLoop (ranges ++ [(c,e)]) rest := by
  rw [classLoopCons]
  simp [plain,member,spans]

theorem classLoopSingle (ranges : List (UInt8 × UInt8)) {c : UInt8} (plain : c ≠ backslash)
    (member : c ≠ closeBracket) {rest : Bytes} (alone : rangeEnd rest = none) :
    classLoop ranges (c :: rest) = classLoop (ranges ++ [(c,c)]) rest := by
  rw [classLoopCons]
  rcases rest with _ | ⟨d,_ | ⟨e,rest⟩⟩
  · simp only [member,false_and,if_false]
    rfl
  · simp [plain,member]
  · rw [rangeEnd] at alone
    have single : ¬ (d = dash ∧ e ≠ closeBracket) := fun both => by simp [both] at alone
    simp only [member,plain,single,false_and,if_false]

theorem memberStep {first : Bool} {bytes rest : Bytes} {range : UInt8 × UInt8} (read : Member first bytes range rest)
    {ranges : List (UInt8 × UInt8)} (place : first = true ↔ ranges = []) (even : ¬ OddRange first bytes) :
    classLoop ranges bytes = classLoop (ranges ++ [range]) rest := by
  cases read with
  | @single low _ opens point alone =>
    rcases endPointCases point with ⟨rfl,plain⟩ | rfl
    · by_cases closing : low = closeBracket
      · subst closing
        obtain rfl := place.mp (opens rfl)
        exact classLoopFirst rest
      · exact classLoopSingle ranges plain closing alone
    · exact classLoopEscaped ranges low rest
  | @range low _ upper high _ opens point spans top =>
    obtain ⟨e,tail,rfl,rfl,inside⟩ := rangeEndCases spans
    rcases endPointCases point with ⟨rfl,plain⟩ | rfl
    · have member : low ≠ closeBracket := by
        rintro rfl
        obtain rfl := opens rfl
        exact even (.closing inside)
      have straight : e ≠ backslash := by
        rintro rfl
        exact even (.escapedHigh plain fun closing => absurd closing member)
      rw [endPointPlain straight] at top
      cases top
      exact classLoopRange ranges plain member inside rest
    · exact absurd (.escapedLow inside) even

theorem memberExists {first : Bool} {c : UInt8} {bytes : Bytes} (opens : c = closeBracket → first = true)
    (even : ¬ OddRange first (c :: bytes)) (more : c = backslash → bytes ≠ []) :
    ∃ range rest, Member first (c :: bytes) range rest := by
  have opens' : (c :: bytes).head? = some closeBracket → first = true := fun head => opens (Option.some.inj head)
  obtain ⟨low,rest,point⟩ : ∃ low rest, endPoint (c :: bytes) = some (low,rest) := by
    by_cases escape : c = backslash
    · obtain ⟨d,tail,rfl⟩ := List.exists_cons_of_ne_nil (more escape)
      exact ⟨d,tail,by rw [escape]; rfl⟩
    · exact ⟨c,bytes,endPointPlain escape bytes⟩
  cases spans : rangeEnd rest with
  | none => exact ⟨_,_,.single opens' point spans⟩
  | some upper =>
    obtain ⟨e,tail,rfl,rfl,inside⟩ := rangeEndCases spans
    by_cases escape : e = backslash
    · subst escape
      rcases endPointCases point with ⟨same,plain⟩ | same
      · rw [same] at even
        exact absurd (.escapedHigh plain fun closing => opens ((List.cons.inj same).1.trans closing)) even
      · rw [same] at even
        exact absurd (.escapedLow inside) even
    · exact ⟨_,_,.range opens' point spans (endPointPlain escape tail)⟩

/-- Without odd ranges the source reads a bracket as the rules do. -/
theorem classLoopReads {first : Bool} {bytes after : Bytes} {rs : List (UInt8 × UInt8)}
    (read : Bracket first bytes rs after) (ranges : List (UInt8 × UInt8)) (place : first = true ↔ ranges = [])
    (even : ¬ OddRange first bytes) : classLoop ranges bytes = some (ranges ++ rs,after) := by
  induction read generalizing ranges with
  | close =>
    have some' : ranges ≠ [] := fun none' => Bool.false_ne_true (place.mpr none')
    rw [classLoopClose some',List.append_nil]
  | @member first bytes range rest rs after read more ih =>
    have next := ih (ranges ++ [range]) (by simp) fun odd => even (.later read odd)
    rw [List.append_assoc] at next
    exact (memberStep read place even).trans next

theorem classLoopSound (ranges : List (UInt8 × UInt8)) (bytes : Bytes) {all : List (UInt8 × UInt8)} {after : Bytes}
    (closed : classLoop ranges bytes = some (all,after)) {first : Bool} (place : first = true ↔ ranges = [])
    (even : ¬ OddRange first bytes) : ∃ rs, Bracket first bytes rs after := by
  induction size : bytes.length using Nat.strong_induction_on generalizing ranges bytes first with
  | _ n ih =>
    cases bytes with
    | nil => cases closed
    | cons c bytes =>
      by_cases last : c = closeBracket ∧ first = false
      · obtain ⟨rfl,rfl⟩ := last
        have some' : ranges ≠ [] := fun none' => Bool.false_ne_true (place.mpr none')
        rw [classLoopClose some'] at closed
        cases closed
        exact ⟨[],.close⟩
      · have opens : c = closeBracket → first = true := fun closing => by simpa [closing] using last
        have more : c = backslash → bytes ≠ [] := by
          rintro rfl rfl
          cases closed
        obtain ⟨range,rest,read⟩ := memberExists opens even more
        rw [memberStep read place even] at closed
        obtain ⟨rs,bracket⟩ := ih rest.length (size ▸ memberShrinks read) _ rest closed
          (iff_of_false Bool.false_ne_true (by simp)) (fun odd => even (.later read odd)) rfl
        exact ⟨range :: rs,.member read bracket⟩

theorem parseClassIff {pat : Bytes} (even : ¬ OddRange true (classBody pat)) {cls : CharClass} {after : Bytes} :
    parseClass pat = some (cls,after) ↔
      Bracket true (classBody pat) cls.ranges after ∧ cls.negate = negated pat := by
  have place : true = true ↔ ([] : List (UInt8 × UInt8)) = [] := by simp
  rw [parseClass,Option.map_eq_some_iff]
  constructor
  · rintro ⟨⟨ranges,rest⟩,closed,same⟩
    obtain ⟨rs,read⟩ := classLoopSound [] (classBody pat) closed place even
    rw [classLoopReads read [] place even] at closed
    cases same
    cases closed
    exact ⟨read,rfl⟩
  · rintro ⟨read,negate⟩
    exact ⟨_,classLoopReads read [] place even,by rw [← negate]; rfl⟩

theorem posixCons {p : UInt8} {pat text : Bytes} : Posix (p :: pat) text ↔
    (p = asterisk ∧ ∃ a b, text = a ++ b ∧ Posix pat b) ∨
    (p = backslash ∧ pat = [] ∧ text = [backslash]) ∨
    (p = backslash ∧ ∃ c rest t, pat = c :: rest ∧ text = c :: t ∧ Posix rest t) ∨
    (p = questionMark ∧ ∃ c t, text = c :: t ∧ Posix pat t) ∨
    (p = openBracket ∧ ∃ ranges after c t, text = c :: t ∧ Bracket true (classBody pat) ranges after ∧
      inRanges ranges c ≠ negated pat ∧ Posix after t) ∨
    (p = openBracket ∧ (∀ ranges after, ¬ Bracket true (classBody pat) ranges after) ∧
      ∃ t, text = openBracket :: t ∧ Posix pat t) ∨
    ((p ≠ asterisk ∧ p ≠ questionMark ∧ p ≠ openBracket ∧ p ≠ backslash) ∧ ∃ t, text = p :: t ∧ Posix pat t) := by
  constructor
  · intro whole
    cases whole with
    | star rest => exact .inl ⟨rfl,_,_,rfl,rest⟩
    | any rest => exact .inr (.inr (.inr (.inl ⟨rfl,_,_,rfl,rest⟩)))
    | bracket read hit rest => exact .inr (.inr (.inr (.inr (.inl ⟨rfl,_,_,_,_,rfl,read,hit,rest⟩))))
    | unclosed opening rest => exact .inr (.inr (.inr (.inr (.inr (.inl ⟨rfl,opening,_,rfl,rest⟩)))))
    | escaped rest => exact .inr (.inr (.inl ⟨rfl,_,_,_,rfl,rfl,rest⟩))
    | trailing => exact .inr (.inl ⟨rfl,rfl,rfl⟩)
    | plain plain rest => exact .inr (.inr (.inr (.inr (.inr (.inr ⟨plain,_,rfl,rest⟩)))))
  · rintro (⟨rfl,a,b,rfl,rest⟩ | ⟨rfl,rfl,rfl⟩ | ⟨rfl,c,rest,t,rfl,rfl,last⟩ | ⟨rfl,c,t,rfl,rest⟩ |
      ⟨rfl,ranges,after,c,t,rfl,read,hit,rest⟩ | ⟨rfl,opening,t,rfl,rest⟩ | ⟨plain,t,rfl,rest⟩)
    · exact .star rest
    · exact .trailing
    · exact .escaped last
    · exact .any rest
    · exact .bracket read hit rest
    · exact .unclosed opening rest
    · exact .plain plain rest

section steps
variable (fuel : Nat) (pat text : Bytes)

theorem goEmpty : fnmatchGo fuel [] text = text.isEmpty := by
  cases fuel <;> rfl

theorem goCons (p : UInt8) : fnmatchGo (fuel + 1) (p :: pat) text =
    if p = asterisk then text.tails.any (fnmatchGo fuel pat)
    else if p = backslash ∧ pat = [] then text == [backslash]
    else
      match text with
      | [] => false
      | c :: text =>
        if p = questionMark then fnmatchGo fuel pat text
        else if p = openBracket then
          match parseClass pat with
          | some (cls,after) => cls.matches c && fnmatchGo fuel after text
          | none => c == openBracket && fnmatchGo fuel pat text
        else if p = backslash then pat.head? == some c && fnmatchGo fuel pat.tail text
        else c == p && fnmatchGo fuel pat text :=
  fnmatchGo.eq_def (fuel + 1) (p :: pat) text

theorem goAsterisk : fnmatchGo (fuel + 1) (asterisk :: pat) text = text.tails.any (fnmatchGo fuel pat) := by
  rw [goCons]
  exact if_pos rfl

theorem goTrailing : fnmatchGo (fuel + 1) [backslash] text = (text == [backslash]) := by
  rw [goCons]
  rfl

theorem goNil {p : UInt8} (taking : p ≠ asterisk) : fnmatchGo (fuel + 1) (p :: pat) [] = false := by
  rw [goCons]
  simp only [taking,if_false,ite_eq_right_iff]
  exact fun _ => rfl

theorem goQuestion (c : UInt8) : fnmatchGo (fuel + 1) (questionMark :: pat) (c :: text) = fnmatchGo fuel pat text := by
  rw [goCons]
  rfl

theorem goBracket (c : UInt8) : fnmatchGo (fuel + 1) (openBracket :: pat) (c :: text) =
    match parseClass pat with
    | some (cls,after) => cls.matches c && fnmatchGo fuel after text
    | none => c == openBracket && fnmatchGo fuel pat text := by
  rw [goCons]
  rfl

theorem goEscaped (c d : UInt8) :
    fnmatchGo (fuel + 1) (backslash :: d :: pat) (c :: text) = (d == c && fnmatchGo fuel pat text) := by
  rw [goCons]
  rfl

theorem goPlain {p : UInt8} (plain : p ≠ asterisk ∧ p ≠ questionMark ∧ p ≠ openBracket ∧ p ≠ backslash) (c : UInt8) :
    fnmatchGo (fuel + 1) (p :: pat) (c :: text) = (c == p && fnmatchGo fuel pat text) := by
  rw [goCons]
  simp only [plain.1,plain.2.1,plain.2.2.1,plain.2.2.2,false_and,if_false]

end steps

section rules
variable {pat text : Bytes}

theorem bytesApart : (asterisk ≠ backslash ∧ asterisk ≠ questionMark ∧ asterisk ≠ openBracket) ∧
    (backslash ≠ asterisk ∧ backslash ≠ questionMark ∧ backslash ≠ openBracket) ∧
    (questionMark ≠ asterisk ∧ questionMark ≠ backslash ∧ questionMark ≠ openBracket) ∧
    openBracket ≠ asterisk ∧ openBracket ≠ backslash ∧ openBracket ≠ questionMark := by
  decide

theorem posixNil : Posix [] text ↔ text = [] := by
  constructor
  · rintro ⟨⟩
    rfl
  · rintro rfl
    exact .done

theorem posixAsterisk : Posix (asterisk :: pat) text ↔ ∃ a b, text = a ++ b ∧ Posix pat b := by
  rw [posixCons]
  simp [bytesApart]

theorem posixTrailing : Posix [backslash] text ↔ text = [backslash] := by
  rw [posixCons]
  simp [bytesApart]

theorem posixEscaped {d : UInt8} : Posix (backslash :: d :: pat) text ↔ ∃ t, text = d :: t ∧ Posix pat t := by
  rw [posixCons]
  simp [bytesApart]

theorem posixQuestion : Posix (questionMark :: pat) text ↔ ∃ c t, text = c :: t ∧ Posix pat t := by
  rw [posixCons]
  simp [bytesApart]

theorem posixBracket : Posix (openBracket :: pat) text ↔
    (∃ ranges after c t, text = c :: t ∧ Bracket true (classBody pat) ranges after ∧
      inRanges ranges c ≠ negated pat ∧ Posix after t) ∨
    (∀ ranges after, ¬ Bracket true (classBody pat) ranges after) ∧ ∃ t, text = openBracket :: t ∧ Posix pat t := by
  rw [posixCons]
  simp [bytesApart]

theorem posixPlain {p : UInt8} (plain : p ≠ asterisk ∧ p ≠ questionMark ∧ p ≠ openBracket ∧ p ≠ backslash) :
    Posix (p :: pat) text ↔ ∃ t, text = p :: t ∧ Posix pat t := by
  rw [posixCons]
  simp [plain]

end rules

theorem classBodyLength (pat : Bytes) : (classBody pat).length ≤ pat.length := by
  unfold classBody
  split
  · exact List.length_tail ▸ Nat.sub_le _ _
  · exact Nat.le_refl _

theorem goBracketRules {fuel : Nat} {pat : Bytes} (even : ¬ Odd (openBracket :: pat))
    (next : ∀ {rest : Bytes}, rest.length ≤ pat.length → ¬ Odd rest → ∀ t, fnmatchGo fuel rest t = true ↔ Posix rest t)
    (c : UInt8) (text : Bytes) :
    fnmatchGo (fuel + 1) (openBracket :: pat) (c :: text) = true ↔ Posix (openBracket :: pat) (c :: text) := by
  have body : ¬ OddRange true (classBody pat) := fun odd => even (.here odd)
  rw [goBracket,posixBracket]
  cases closed : parseClass pat with
  | none =>
    have opening : ∀ ranges after, ¬ Bracket true (classBody pat) ranges after := fun ranges after read => by
      rw [(@parseClassIff pat body ⟨ranges,negated pat⟩ _).mpr ⟨read,rfl⟩] at closed
      cases closed
    have follow := next (Nat.le_refl _) (fun odd => even (.unclosed opening odd)) text
    simp [opening,follow]
  | some found =>
    obtain ⟨cls,after⟩ := found
    obtain ⟨read,negate⟩ := (parseClassIff body).mp closed
    have short : after.length ≤ pat.length := (bracketShrinks read).le.trans (classBodyLength pat)
    have follow := next short (fun odd => even (.behind read odd)) text
    simp only [Bool.and_eq_true,follow]
    constructor
    · rintro ⟨hit,rest⟩
      exact .inl ⟨_,_,_,_,rfl,read,by simpa [CharClass.matches,negate] using hit,rest⟩
    · rintro (⟨ranges,rest,d,t,same,read',hit,last⟩ | ⟨opening,_⟩)
      · have again := (@parseClassIff pat body ⟨ranges,negated pat⟩ _).mpr ⟨read',rfl⟩
        rw [closed] at again
        cases same
        cases again
        exact ⟨by simpa [CharClass.matches] using hit,last⟩
      · exact absurd read (opening _ _)

/-- The matcher follows the rules wherever no bracket holds an odd range; any fuel from the length on does. -/
theorem fnmatchGoRules (fuel : Nat) {pat : Bytes} (size : pat.length ≤ fuel) (even : ¬ Odd pat) (text : Bytes) :
    fnmatchGo fuel pat text = true ↔ Posix pat text := by
  induction fuel generalizing pat text with
  | zero =>
    obtain rfl := List.length_eq_zero_iff.mp (Nat.le_zero.mp size)
    simp [posixNil,goEmpty]
  | succ fuel ih =>
    cases pat with
    | nil => simp [posixNil,goEmpty]
    | cons p pat =>
      have room : pat.length ≤ fuel := Nat.le_of_succ_le_succ size
      by_cases isStar : p = asterisk
      · subst isStar
        have next := fun t => @ih pat room (fun odd => even (.plain (by decide) odd)) t
        rw [goAsterisk,posixAsterisk]
        simp only [List.any_eq_true,List.mem_tails,next]
        constructor
        · rintro ⟨b,⟨a,rfl⟩,rest⟩
          exact ⟨a,b,rfl,rest⟩
        · rintro ⟨a,b,rfl,rest⟩
          exact ⟨b,⟨a,rfl⟩,rest⟩
      by_cases isEscape : p = backslash
      · subst isEscape
        cases pat with
        | nil => rw [goTrailing,posixTrailing,beq_iff_eq]
        | cons d pat =>
          rw [posixEscaped]
          cases text with
          | nil => simp [goNil fuel (d :: pat) (show backslash ≠ asterisk by decide)]
          | cons c text =>
            have next := ih (Nat.le_of_succ_le room) (fun odd => even (.escaped odd)) text
            rw [goEscaped,Bool.and_eq_true,beq_iff_eq,next]
            constructor
            · rintro ⟨rfl,rest⟩
              exact ⟨text,rfl,rest⟩
            · rintro ⟨t,same,rest⟩
              cases same
              exact ⟨rfl,rest⟩
      cases text with
      | nil =>
        rw [goNil fuel pat isStar,posixCons]
        simp [isStar]
      | cons c text =>
        by_cases isBracket : p = openBracket
        · subst isBracket
          exact goBracketRules even (fun short => ih (Nat.le_trans short room)) c text
        have next := ih room (fun odd => even (.plain ⟨isBracket,isEscape⟩ odd)) text
        by_cases isQuestion : p = questionMark
        · subst isQuestion
          rw [goQuestion,posixQuestion,next]
          simp
        · have plain := And.intro isStar (And.intro isQuestion (And.intro isBracket isEscape))
          rw [goPlain fuel pat text plain,posixPlain plain]
          simp [next]

theorem endPointSuffix {bytes rest : Bytes} {low : UInt8} (point : endPoint bytes = some (low,rest)) :
    rest <:+ bytes := by
  rcases endPointCases point with ⟨rfl,_⟩ | rfl
  · exact ⟨[low],rfl⟩
  · exact ⟨[backslash,low],rfl⟩

theorem memberSuffix {first : Bool} {bytes rest : Bytes} {range : UInt8 × UInt8}
    (read : Member first bytes range rest) : rest <:+ bytes := by
  cases read with
  | single _ point _ => exact endPointSuffix point
  | range _ point spans top =>
    obtain ⟨e,tail,rfl,rfl,_⟩ := rangeEndCases spans
    exact (endPointSuffix top).trans ((List.suffix_cons dash _).trans (endPointSuffix point))

theorem bracketSuffix {first : Bool} {bytes after : Bytes} {ranges : List (UInt8 × UInt8)}
    (read : Bracket first bytes ranges after) : after <:+ bytes := by
  induction read with
  | close => exact List.suffix_cons _ _
  | member read _ ih => exact ih.trans (memberSuffix read)

/-- What stands in every pattern with an odd range. -/
def Marked (bytes : Bytes) : Prop := backslash ∈ bytes ∨ [closeBracket,dash] <:+: bytes

theorem markedSuffix {rest bytes : Bytes} (marked : Marked rest) (suffix : rest <:+ bytes) : Marked bytes :=
  marked.imp (fun mem => suffix.mem mem) fun inside => inside.trans suffix.isInfix

theorem oddRangeMarked {first : Bool} {bytes : Bytes} (odd : OddRange first bytes) : Marked bytes := by
  induction odd with
  | @closing e rest => exact .inr ⟨[],e :: rest,rfl⟩
  | escapedLow => exact .inl List.mem_cons_self
  | escapedHigh => exact .inl (by simp)
  | later read _ ih => exact markedSuffix ih (memberSuffix read)

theorem oddMarked {pat : Bytes} (odd : Odd pat) : Marked pat := by
  have body : ∀ pat : Bytes, classBody pat <:+ openBracket :: pat := by
    intro pat
    unfold classBody
    split
    · exact (List.tail_suffix pat).trans (List.suffix_cons _ _)
    · exact List.suffix_cons _ _
  induction odd with
  | here odd => exact markedSuffix (oddRangeMarked odd) (body _)
  | behind read _ ih => exact markedSuffix ih ((bracketSuffix read).trans (body _))
  | unclosed _ _ ih => exact markedSuffix ih (List.suffix_cons _ _)
  | escaped _ _ => exact .inl List.mem_cons_self
  | plain _ _ ih => exact markedSuffix ih (List.suffix_cons _ _)

end P11k.Gitstatus
