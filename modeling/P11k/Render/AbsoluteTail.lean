import Mathlib.Data.List.Infix
import Mathlib.Algebra.BigOperators.Group.List.Basic
import P11k.Render.Shorten

/-! The path cut to its last characters. The component that no longer fits is shown once cut and once whole, and
nothing is cut when it is the first one. -/
namespace P11k.Render
open P11k P11k.Settings

def joined (parts : List Str) : Str := ['/'].intercalate parts

/-- The characters of these components, each with a separator before it. -/
def span (parts : List Str) : Nat := (parts.map fun part => part.length + 1).sum

def texts (out : List DirPart) : List Str := out.map (·.text)

/-- A tail of the path: the end of one component, which the delimiter may mark, and all components behind it. What
is kept of the path has at most `len` characters. -/
def KeepsTail (parts : List Str) (len : Nat) (delim : Str) (shown : List Str) : Prop :=
  (parts = [] ∧ shown = []) ∨
    ∃ front part behind kept, parts = front ++ part :: behind ∧ kept <:+ part ∧
      (shown = kept :: behind ∨ shown = (delim ++ kept) :: behind) ∧ (joined (kept :: behind)).length ≤ len

theorem joinedLength (part : Str) (behind : List Str) :
    (joined (part :: behind)).length = part.length + span behind := by
  induction behind generalizing part with
  | nil => simp [joined,span]
  | cons next behind ih =>
    have rest := ih next
    unfold joined at rest ⊢
    rw [List.intercalate_cons_cons,List.length_append,List.length_append,rest]
    simp [span]
    omega

theorem spanAppend (a b : List Str) : span (a ++ b) = span a + span b := by simp [span]

theorem spanCons (part : Str) (behind : List Str) : span (part :: behind) = part.length + 1 + span behind := by
  simp [span]

theorem plainFromTexts (n i : Nat) (parts : List Str) : texts (plainFrom n i parts) = parts := by
  induction parts generalizing i with
  | nil => rfl
  | cons part parts ih => exact congrArg (part :: ·) (ih (i + 1))

theorem joinedFront (delim kept : Str) (behind : List Str) :
    joined ((delim ++ kept) :: behind) = delim ++ joined (kept :: behind) := by
  cases behind with
  | nil => simp [joined]
  | cons next behind => simp [joined,List.intercalate_cons_cons]

theorem joinedBehind (front : List Str) (part : Str) (behind : List Str) :
    joined (part :: behind) <:+ joined (front ++ part :: behind) := by
  induction front with
  | nil => exact List.suffix_refl _
  | cons first front ih =>
    have more : front ++ part :: behind ≠ [] := by simp
    refine ih.trans ?_
    rw [List.cons_append,joined,joined,List.intercalate_cons_of_ne_nil more]
    exact List.suffix_append _ _

theorem tailSuffix {parts : List Str} {len : Nat} {delim : Str} {shown : List Str}
    (tail : KeepsTail parts len delim shown) :
    ∃ kept : Str, kept <:+ joined parts ∧ kept.length ≤ len ∧ (joined shown = kept ∨ joined shown = delim ++ kept) := by
  rcases tail with ⟨rfl,rfl⟩ | ⟨front,part,behind,kept,rfl,suffix,shown',short⟩
  · exact ⟨[],List.suffix_refl _,Nat.zero_le _,.inl rfl⟩
  · obtain ⟨lost,rfl⟩ := suffix
    refine ⟨joined (kept :: behind),?_,short,?_⟩
    · have end' : joined (kept :: behind) <:+ joined ((lost ++ kept) :: behind) := by
        rw [joinedFront]
        exact List.suffix_append _ _
      exact end'.trans (joinedBehind front _ behind)
    · rcases shown' with rfl | rfl
      · exact .inl rfl
      · exact .inr (joinedFront delim kept behind)

theorem absoluteStops {len acc : Nat} {before behind : List Str} (counted : acc = span behind) (fits : acc ≤ len) :
    (absoluteLoop len before acc = (0,span (before.reverse ++ behind)) ∧ span (before.reverse ++ behind) ≤ len) ∨
      ∃ front part rest, before.reverse ++ behind = front ++ part :: rest ∧
        absoluteLoop len before acc = (front.length,span rest) ∧ span rest ≤ len ∧
          len < span rest + (part.length + 1) := by
  induction before generalizing acc behind with
  | nil =>
    subst counted
    exact .inl ⟨rfl,fits⟩
  | cons part before ih =>
    rw [absoluteLoop]
    split
    · rename_i wide
      subst counted
      exact .inr ⟨before.reverse,part,behind,by simp,by simp,fits,wide⟩
    · rename_i still
      have whole : (part :: before).reverse ++ behind = before.reverse ++ part :: behind := by simp
      rw [whole]
      exact ih (by rw [counted,spanCons]; omega) (by omega)

/-- Without a cut the whole path is shown; else the component at the cut comes twice. -/
theorem absoluteTexts (parts : List Str) (len : Nat) (delim : Str) :
    texts (foldAbsolute parts len delim) = parts ∨
      ∃ front part behind cut, front ≠ [] ∧ parts = front ++ part :: behind ∧ len < span (part :: behind) ∧
        texts (foldAbsolute parts len delim) = cut :: part :: behind := by
  have stops : _ ∨ _ := @absoluteStops len 0 parts.reverse [] rfl (Nat.zero_le _)
  rw [List.reverse_reverse,List.append_nil] at stops
  have whole : ∀ acc, absoluteLoop len parts.reverse 0 = (0,acc) → texts (foldAbsolute parts len delim) = parts := by
    intro acc loop
    rw [foldAbsolute,loop]
    exact plainFromTexts _ _ _
  rcases stops with ⟨loop,-⟩ | ⟨front,part,behind,split,loop,-,wide⟩
  · exact .inl (whole _ loop)
  · cases front with
    | nil => exact .inl (whole _ loop)
    | cons first front =>
      have rest : parts.drop (first :: front).length = part :: behind := by
        rw [split]
        exact List.drop_left
      have shown : ∃ cut, texts (foldAbsolute parts len delim) = cut :: part :: behind := by
        rw [foldAbsolute,loop]
        dsimp only
        rw [if_pos (by simp),rest,texts,List.map_append]
        exact ⟨_,congrArg (_ :: ·) (plainFromTexts _ _ _)⟩
      obtain ⟨cut,twice⟩ := shown
      exact .inr ⟨first :: front,part,behind,cut,List.cons_ne_nil _ _,split,by rw [spanCons]; omega,twice⟩

theorem twiceLong {front behind : List Str} {part kept : Str} {len : Nat} (wide : len < span (part :: behind)) :
    len < (joined (kept :: (front ++ part :: behind))).length := by
  rw [joinedLength,spanAppend]
  omega

theorem keptBehind {delim kept first : Str} {shown behind : List Str}
    (tail : first :: shown = kept :: behind ∨ first :: shown = (delim ++ kept) :: behind) : shown = behind := by
  rcases tail with tail | tail
  · exact (List.cons.inj tail).2
  · exact (List.cons.inj tail).2

/-- A tail is kept only where there is nothing to cut: the path fits, or it does so without a delimiter that its
first component happens to begin with. -/
theorem absoluteTail (parts : List Str) (len : Nat) (delim : Str) :
    KeepsTail parts len delim (texts (foldAbsolute parts len delim)) ↔
      (joined parts).length ≤ len ∨
        ∃ kept behind, parts = (delim ++ kept) :: behind ∧ (joined (kept :: behind)).length ≤ len := by
  rcases absoluteTexts parts len delim with whole | ⟨front,part,behind,cut,some',split,wide,twice⟩
  · rw [whole]
    constructor
    · rintro (⟨rfl,-⟩ | ⟨front,part,behind,kept,-,-,shown | shown,short⟩)
      · exact .inl (Nat.zero_le _)
      · exact .inl (shown ▸ short)
      · exact .inr ⟨kept,behind,shown,short⟩
    · rintro (short | ⟨kept,behind,rfl,short⟩)
      · cases parts with
        | nil => exact .inl ⟨rfl,rfl⟩
        | cons part behind => exact .inr ⟨[],part,behind,part,rfl,List.suffix_refl _,.inl rfl,short⟩
      · exact .inr ⟨[],delim ++ kept,behind,kept,rfl,List.suffix_append _ _,.inr rfl,short⟩
  · rw [twice]
    constructor
    · rintro (⟨-,none'⟩ | ⟨_,_,behind',kept,-,-,shown,short⟩)
      · cases none'
      · rw [← keptBehind shown] at short
        exact absurd short (Nat.not_le.mpr (@twiceLong [] behind part kept len wide))
    · obtain ⟨first,front,rfl⟩ := List.exists_cons_of_ne_nil some'
      rintro (short | ⟨kept,rest,same,short⟩)
      · rw [split] at short
        exact absurd short (Nat.not_le.mpr (twiceLong wide))
      · obtain ⟨-,rfl⟩ := List.cons.inj (split.symm.trans same)
        exact absurd short (Nat.not_le.mpr (twiceLong wide))

/-- `/a/bravo/charlie` in ten characters: `bravo` comes once cut and once whole. -/
theorem absoluteTwice : ¬ ∀ (parts : List Str) (len : Nat) (delim : Str),
    KeepsTail parts len delim (texts (foldAbsolute parts len delim)) := by
  intro claim
  have shown : texts (foldAbsolute ["a".toList,"bravo".toList,"charlie".toList] 10 ['…']) =
      ["…vo".toList,"bravo".toList,"charlie".toList] := by decide
  rcases claim ["a".toList,"bravo".toList,"charlie".toList] 10 ['…'] with ⟨none',-⟩ | ⟨_,_,behind,kept,-,-,tail,short⟩
  · cases none'
  · rw [shown] at tail
    rw [← keptBehind tail] at short
    exact absurd short (Nat.not_le.mpr (@twiceLong [] _ _ kept 10 (by decide)))

end P11k.Render
