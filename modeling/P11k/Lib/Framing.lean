import Mathlib.Data.List.Basic

/-! A stream cut into messages, each ended by a separator: what is complete and what is left
over, and why it does not matter in which pieces the stream arrives. -/
namespace P11k.Framing

variable {α : Type} [DecidableEq α] (sep : α)

def split : List α → List (List α) × List α
  | [] => ([],[])
  | a :: s =>
      if a = sep then ([] :: (split s).1,(split s).2)
      else match (split s).1 with
        | [] => ([],a :: (split s).2)
        | m :: ms => ((a :: m) :: ms,(split s).2)

def join (messages : List (List α)) : List α := messages.flatMap (· ++ [sep])

theorem splitCons (a : α) (s : List α) : split sep (a :: s) =
    if a = sep then ([] :: (split sep s).1,(split sep s).2)
    else match (split sep s).1 with
      | [] => ([],a :: (split sep s).2)
      | m :: ms => ((a :: m) :: ms,(split sep s).2) := rfl

variable {sep}

theorem splitOpen {s : List α} (unended : sep ∉ s) : split sep s = ([],s) := by
  induction s with
  | nil => rfl
  | cons a s ih =>
    rw [List.mem_cons,not_or] at unended
    rw [splitCons,if_neg (Ne.symm unended.1),ih unended.2]

theorem splitFirst {m : List α} (clean : sep ∉ m) (s : List α) :
    split sep (m ++ sep :: s) = (m :: (split sep s).1,(split sep s).2) := by
  induction m with
  | nil => rw [List.nil_append,splitCons,if_pos rfl]
  | cons a m ih =>
    rw [List.mem_cons,not_or] at clean
    rw [List.cons_append,splitCons,if_neg (Ne.symm clean.1),ih clean.2]

theorem splitJoin {ms : List (List α)} (clean : ∀ m ∈ ms, sep ∉ m) (s : List α) :
    split sep (join sep ms ++ s) = (ms ++ (split sep s).1,(split sep s).2) := by
  induction ms with
  | nil => rfl
  | cons m ms ih =>
    have whole : join sep (m :: ms) ++ s = m ++ sep :: (join sep ms ++ s) := by simp [join]
    rw [whole,splitFirst (clean m List.mem_cons_self),ih fun m' mem => clean m' (List.mem_cons_of_mem m mem)]
    rfl

variable (sep)

theorem splitClean (s : List α) : (∀ m ∈ (split sep s).1, sep ∉ m) ∧ sep ∉ (split sep s).2 := by
  induction s with
  | nil => exact ⟨fun _ none' => absurd none' List.not_mem_nil,List.not_mem_nil⟩
  | cons a s ih =>
    rw [splitCons]
    split
    · exact ⟨List.forall_mem_cons.mpr ⟨List.not_mem_nil,ih.1⟩,ih.2⟩
    · rename_i other
      have fresh : ∀ m : List α, sep ∉ m → sep ∉ a :: m := by
        intro m clean mem
        rcases List.mem_cons.mp mem with here | there
        · exact other here.symm
        · exact clean there
      cases cut : (split sep s).1 with
      | nil => exact ⟨fun _ none' => absurd none' List.not_mem_nil,fresh _ ih.2⟩
      | cons m ms =>
        rw [cut] at ih
        obtain ⟨first,rest⟩ := List.forall_mem_cons.mp ih.1
        exact ⟨List.forall_mem_cons.mpr ⟨fresh m first,rest⟩,ih.2⟩

theorem joinSplit (s : List α) : join sep (split sep s).1 ++ (split sep s).2 = s := by
  induction s with
  | nil => rfl
  | cons a s ih =>
    rw [splitCons]
    split
    · rename_i same
      subst same
      simpa [join] using ih
    · cases cut : (split sep s).1 with
      | nil =>
        rw [cut] at ih
        simpa [join] using ih
      | cons m ms =>
        rw [cut] at ih
        simpa [join] using ih

theorem splitLength (s : List α) : (split sep s).1.length = s.count sep := by
  induction s with
  | nil => rfl
  | cons a s ih =>
    rw [splitCons,List.count_cons]
    split
    · rename_i same
      rw [List.length_cons,ih,if_pos (beq_iff_eq.mpr same)]
    · rename_i other
      rw [if_neg (mt beq_iff_eq.mp other),Nat.add_zero,← ih]
      cases (split sep s).1 <;> rfl

/-- What was left over is the beginning of the next message. -/
theorem splitAppend (s t : List α) :
    split sep (s ++ t) = ((split sep s).1 ++ (split sep ((split sep s).2 ++ t)).1,
      (split sep ((split sep s).2 ++ t)).2) := by
  have cut := splitJoin (splitClean sep s).1 ((split sep s).2 ++ t)
  rw [← List.append_assoc,joinSplit] at cut
  exact cut

theorem splitEnded (s : List α) : split sep (s ++ [sep]) = ((split sep s).1 ++ [(split sep s).2],[]) := by
  rw [splitAppend,splitFirst (splitClean sep s).2]
  rfl

/-- What stands before the first separator grows by the bytes in front of it. -/
theorem splitGrow {u : List α} (clean : sep ∉ u) (s : List α) :
    split sep (u ++ s) = match (split sep s).1 with
      | [] => ([],u ++ (split sep s).2)
      | m :: ms => ((u ++ m) :: ms,(split sep s).2) := by
  induction u with
  | nil => cases cut : (split sep s).1 <;> simp [← cut]
  | cons a u ih =>
    rw [List.mem_cons,not_or] at clean
    rw [List.cons_append,splitCons,if_neg (Ne.symm clean.1),ih clean.2]
    cases (split sep s).1 <;> rfl

/-- No message is longer than `most`, and neither is what is left over. -/
def Bounded (most : Nat) (s : List α) : Prop :=
  (∀ m ∈ (split sep s).1, m.length ≤ most) ∧ (split sep s).2.length ≤ most

theorem boundedRest {most : Nat} {s t : List α} (bounded : Bounded sep most (s ++ t)) :
    Bounded sep most ((split sep s).2 ++ t) := by
  rw [Bounded,splitAppend] at bounded
  exact ⟨fun m mem => bounded.1 m (List.mem_append_right _ mem),bounded.2⟩

theorem boundedOpen {most : Nat} {u t : List α} (clean : sep ∉ u) (bounded : Bounded sep most (u ++ t)) :
    u.length ≤ most := by
  rw [Bounded,splitGrow sep clean] at bounded
  cases cut : (split sep t).1 with
  | nil =>
    rw [cut] at bounded
    have := bounded.2
    rw [List.length_append] at this
    omega
  | cons m ms =>
    rw [cut] at bounded
    have := bounded.1 (u ++ m) List.mem_cons_self
    rw [List.length_append] at this
    omega

theorem boundedFront {most : Nat} {s t : List α} (bounded : Bounded sep most (s ++ t)) : Bounded sep most s := by
  refine ⟨fun m mem => ?_,boundedOpen sep (splitClean sep s).2 (boundedRest sep bounded)⟩
  rw [Bounded,splitAppend] at bounded
  exact bounded.1 m (List.mem_append_left _ mem)

theorem splitOnClean (s : List α) : ∀ field ∈ s.splitOn sep, sep ∉ field := by
  induction s with
  | nil => simp
  | cons a s ih =>
    rw [List.splitOn_cons_eq_if_modifyHead]
    split
    · exact List.forall_mem_cons.mpr ⟨List.not_mem_nil,ih⟩
    · rename_i other
      cases cut : s.splitOn sep with
      | nil => exact absurd cut (List.splitOn_ne_nil sep s)
      | cons field fields =>
        rw [cut] at ih
        obtain ⟨first,rest⟩ := List.forall_mem_cons.mp ih
        have apart : a ≠ sep := by simpa using other
        exact List.forall_mem_cons.mpr ⟨by simpa [Ne.symm apart] using first,rest⟩

omit [DecidableEq α] in
theorem intercalateFlat (m : List α) (ms : List (List α)) :
    [sep].intercalate (m :: ms) = m ++ ms.flatMap (sep :: ·) := by
  induction ms generalizing m with
  | nil => simp
  | cons n ms ih =>
    rw [List.intercalate_cons_cons,ih,List.flatMap_cons,List.append_assoc,List.singleton_append,List.cons_append]

end P11k.Framing
