import Mathlib.Data.List.Sort
import Mathlib.Data.List.Destutter

/-! A stable sort by a key followed by the removal of equal neighbours. The result repeats
no element unless the input returns to an element after another one with the same key. -/
namespace P11k.StableSort
open scoped List

section repeats
variable {α : Type}

theorem returnPassesAnother {p : α} {l : List α} (chain : l.IsChain (· ≠ ·))
    (twice : [p,p] <+ l) : ∃ q, q ≠ p ∧ [p,q,p] <+ l := by
  induction l with
  | nil => simp at twice
  | cons a l ih =>
    cases twice with
    | cons _ rest =>
      obtain ⟨q,ne,sub⟩ := ih (List.isChain_of_isChain_cons chain) rest
      exact ⟨q,ne,sub.cons a⟩
    | cons_cons _ rest =>
      cases l with
      | nil => simp at rest
      | cons b l =>
        have ne : p ≠ b := (List.isChain_cons_cons.mp chain).1
        cases rest with
        | cons _ rest => exact ⟨b,ne.symm,(rest.cons_cons b).cons_cons p⟩
        | cons_cons _ rest => exact absurd rfl ne

/-- `m` is `l` with repetitions of neighbours left out or put in. -/
inductive Stutters : List α → List α → Prop where
  | nil : Stutters [] []
  | cons {a l m} : Stutters l m → Stutters (a :: l) (a :: m)
  | again {a l m} : Stutters (a :: l) m → Stutters (a :: a :: l) m

theorem stuttersRefl (l : List α) : Stutters l l := by
  induction l with
  | nil => exact .nil
  | cons a l ih => exact .cons ih

theorem stuttersAppend {l m l' m' : List α} (first : Stutters l m) (second : Stutters l' m') :
    Stutters (l ++ l') (m ++ m') := by
  induction first with
  | nil => exact second
  | cons _ ih => exact .cons ih
  | again _ ih => exact .again ih

theorem stuttersReplicate (a : α) (n k : Nat) (l : List α) :
    Stutters (List.replicate n a ++ (List.replicate (k+1) a ++ l)) (List.replicate (k+1) a ++ l) := by
  induction n with
  | zero => exact stuttersRefl _
  | succ n ih =>
    cases n with
    | zero => exact .again ih
    | succ n => exact .again ih

end repeats

section dedup
variable {α : Type} [DecidableEq α]

def dedup (l : List α) : List α := l.destutter (· ≠ ·)

theorem chainBelowDedup' {a : α} {c l : List α} (chain : c.IsChain (· ≠ ·)) (sub : c <+ a :: l) :
    c <+ l.destutter' (· ≠ ·) a := by
  induction l generalizing a c with
  | nil => simpa using sub
  | cons b l ih =>
    by_cases same : a = b
    · subst same
      have skip : ¬ a ≠ a := fun h => h rfl
      rw [List.destutter'_cons_neg _ skip]
      apply ih chain
      cases sub with
      | cons _ rest => exact rest
      | cons_cons _ rest =>
        cases rest with
        | cons _ rest => exact rest.cons_cons a
        | cons_cons _ rest => simp at chain
    · rw [List.destutter'_cons_pos _ same]
      cases sub with
      | cons _ rest => exact (ih chain rest).cons a
      | cons_cons _ rest => exact (ih (List.isChain_of_isChain_cons chain) rest).cons_cons a

theorem chainBelowDedup {c l : List α} (chain : c.IsChain (· ≠ ·)) (sub : c <+ l) :
    c <+ dedup l := by
  cases l with
  | nil => simpa [dedup] using sub
  | cons a l => exact chainBelowDedup' chain sub

theorem dedupSublist (l : List α) : dedup l <+ l := List.destutter_sublist _ l

theorem memDedup {x : α} {l : List α} : x ∈ dedup l ↔ x ∈ l := by
  refine ⟨fun h => (dedupSublist l).subset h,fun h => ?_⟩
  have single : [x] <+ l := List.singleton_sublist.mpr h
  exact (chainBelowDedup (List.isChain_singleton x) single).subset (by simp)

theorem dedupTwice (a : α) (l : List α) : dedup (a :: a :: l) = dedup (a :: l) :=
  List.destutter'_cons_neg _ (fun h => h rfl)

theorem dedupNew {a b : α} (ne : a ≠ b) (l : List α) : dedup (a :: b :: l) = a :: dedup (b :: l) :=
  List.destutter'_cons_pos _ ne

theorem dedupStutters {l m : List α} (alike : Stutters l m) : dedup l = dedup m := by
  have tail : ∀ {l m : List α}, Stutters l m → l.head? = m.head? := by
    intro l m alike
    induction alike with
    | nil => rfl
    | cons _ _ => rfl
    | again _ ih => exact ih
  induction alike with
  | nil => rfl
  | @cons a l m rest ih =>
    have same := tail rest
    cases l with
    | nil =>
      cases m with
      | nil => rfl
      | cons b m => contradiction
    | cons b l =>
      cases m with
      | nil => contradiction
      | cons c m =>
        cases same
        by_cases eq : a = b
        · subst eq
          rw [dedupTwice,dedupTwice,ih]
        · rw [dedupNew eq,dedupNew eq,ih]
  | again _ ih => rw [dedupTwice,ih]

end dedup

section sorting
variable {α κ : Type} [LE κ] [DecidableLE κ] [Std.IsLinearOrder κ] (key : α → κ)

def sortBy (l : List α) : List α := l.insertionSort (fun a b => key a ≤ key b)

instance keyTotal : Std.Total (fun a b : α => key a ≤ key b) := ⟨fun _ _ => Std.le_total⟩
instance keyTrans : IsTrans α (fun a b : α => key a ≤ key b) := ⟨fun _ _ _ h k => Std.le_trans h k⟩

omit [Std.IsLinearOrder κ] in
theorem sortByPerm (l : List α) : (sortBy key l).Perm l := List.perm_insertionSort _ l

theorem sortByPairwise (l : List α) : (sortBy key l).Pairwise (fun a b => key a ≤ key b) :=
  List.pairwise_insertionSort _ l

theorem sortByClass [DecidableEq κ] (l : List α) (k : κ) :
    (sortBy key l).filter (fun a => key a = k) = l.filter (fun a => key a = k) := by
  have flat : (l.filter (fun a => key a = k)).Pairwise (fun a b => key a ≤ key b) := by
    apply List.pairwise_of_forall_mem_list
    intro a ha b hb
    have ka : key a = k := by simpa using (List.mem_filter.mp ha).2
    have kb : key b = k := by simpa using (List.mem_filter.mp hb).2
    rw [ka,kb]
    exact Std.le_refl k
  have below : l.filter (fun a => key a = k) <+ sortBy key l :=
    List.sublist_insertionSort flat List.filter_sublist
  have inside := below.filter (fun a => decide (key a = k))
  rw [List.filter_filter] at inside
  simp only [Bool.and_self] at inside
  exact (inside.eq_of_length ((sortByPerm key l).filter _).length_eq.symm).symm

variable [DecidableEq α]

def sortDedup (l : List α) : List α := dedup (sortBy key l)

omit [Std.IsLinearOrder κ] in
theorem memSortDedup {x : α} {l : List α} : x ∈ sortDedup key l ↔ x ∈ l :=
  memDedup.trans (sortByPerm key l).mem_iff

theorem sortDedupPairwise (l : List α) :
    (sortDedup key l).Pairwise (fun a b => key a ≤ key b) :=
  (sortByPairwise key l).sublist (dedupSublist _)

theorem sortDedupNodupIff (l : List α) :
    (sortDedup key l).Nodup ↔ ∀ p q, key p = key q → [p,q,p] <+ l → p = q := by
  classical
  constructor
  · intro nodup p q same sub
    by_contra ne
    have flat : [p,q,p].Pairwise (fun a b => key a ≤ key b) := by simp [same,Std.le_refl]
    have sorted := List.sublist_insertionSort (r := fun a b => key a ≤ key b) flat sub
    have kept : [p,q,p] <+ sortDedup key l :=
      chainBelowDedup (by simp [ne,Ne.symm ne]) sorted
    have twice : [p,p] <+ [p,q,p] := by simp
    exact (List.nodup_iff_sublist.mp nodup p) (twice.trans kept)
  · intro back
    apply List.nodup_iff_sublist.mpr
    intro p twice
    obtain ⟨q,ne,sub⟩ := returnPassesAnother (List.isChain_destutter _ _) twice
    have sorted := sub.trans (dedupSublist _)
    have order := (sortByPairwise key l).sublist sorted
    simp only [List.pairwise_cons,List.mem_cons,List.not_mem_nil] at order
    have same : key p = key q :=
      Std.le_antisymm (order.1 q (by simp)) (order.2.1 p (by simp))
    have inside := sorted.filter (fun a => decide (key a = key p))
    rw [sortByClass] at inside
    simp only [List.filter_cons,same.symm,decide_true,if_true,List.filter_nil] at inside
    exact ne (back p q same (inside.trans List.filter_sublist)).symm

theorem sortDedupNodup (inj : Function.Injective key) (l : List α) : (sortDedup key l).Nodup :=
  (sortDedupNodupIff key l).mpr (fun _ _ same _ => inj same)

/-! A sorted list is the sequence of its classes. -/

omit [DecidableLE κ] [DecidableEq α] in
theorem sortedClasses [DecidableEq κ] {l m : List α} (sortedL : l.Pairwise (fun a b => key a ≤ key b))
    (sortedM : m.Pairwise (fun a b => key a ≤ key b))
    (classes : ∀ k, l.filter (fun a => key a = k) = m.filter (fun a => key a = k)) : l = m := by
  have mem : ∀ x, x ∈ l ↔ x ∈ m := by
    intro x
    have same := congrArg (x ∈ ·) (classes (key x))
    simpa using same
  induction l generalizing m with
  | nil =>
    cases m with
    | nil => rfl
    | cons b m => exact absurd ((mem b).mpr List.mem_cons_self) List.not_mem_nil
  | cons a l ih =>
    cases m with
    | nil => exact absurd ((mem a).mp List.mem_cons_self) List.not_mem_nil
    | cons b m =>
      obtain ⟨aboveA,tailL⟩ := List.pairwise_cons.mp sortedL
      obtain ⟨aboveB,tailM⟩ := List.pairwise_cons.mp sortedM
      have le : key a ≤ key b := by
        rcases List.mem_cons.mp ((mem b).mpr List.mem_cons_self) with rfl | later
        · exact Std.le_refl _
        · exact aboveA b later
      have ge : key b ≤ key a := by
        rcases List.mem_cons.mp ((mem a).mp List.mem_cons_self) with rfl | later
        · exact Std.le_refl _
        · exact aboveB a later
      have same : key a = key b := Std.le_antisymm le ge
      have front := classes (key b)
      rw [List.filter_cons_of_pos (by simpa using same),List.filter_cons_of_pos (by simp)] at front
      obtain ⟨rfl,_⟩ := List.cons.inj front
      have rest : ∀ k, l.filter (fun x => key x = k) = m.filter (fun x => key x = k) := by
        intro k
        have here := classes k
        by_cases this : key a = k
        · rw [List.filter_cons_of_pos (by simpa using this),List.filter_cons_of_pos (by simpa using this)] at here
          exact (List.cons.inj here).2
        · rwa [List.filter_cons_of_neg (by simpa using this),List.filter_cons_of_neg (by simpa using this)] at here
      rw [ih tailL tailM rest fun x => by simpa using congrArg (x ∈ ·) (rest (key x))]

omit [DecidableEq α] in
theorem sortByPermSame [DecidableEq κ] {l m : List α} (perm : l.Perm m) (distinct : (l.map key).Nodup) :
    sortBy key l = sortBy key m := by
  apply sortedClasses key (sortByPairwise key l) (sortByPairwise key m)
  intro k
  rw [sortByClass,sortByClass]
  have same := perm.filter (fun a => decide (key a = k))
  have few := List.nodup_iff_count_le_one.mp distinct k
  rw [List.count,List.countP_map,List.countP_eq_length_filter] at few
  have few' : (l.filter (fun a => key a = k)).length ≤ 1 := by
    simpa only [Function.comp_def,beq_eq_decide] using few
  cases front : l.filter (fun a => key a = k) with
  | nil => rw [front] at same; exact same.nil_eq
  | cons a rest =>
    rw [front] at few' same
    have none : rest = [] := by simpa using few'
    subst none
    exact same.singleton_eq

omit [DecidableLE κ] in
theorem dedupClass [DecidableEq κ] {l : List α} (sorted : l.Pairwise (fun a b => key a ≤ key b)) (k : κ) :
    (dedup l).filter (fun a => key a = k) = dedup (l.filter (fun a => key a = k)) := by
  induction l with
  | nil => rfl
  | cons a l ih =>
    obtain ⟨above,tail⟩ := List.pairwise_cons.mp sorted
    cases l with
    | nil => by_cases here : key a = k <;> simp [dedup,here]
    | cons b l =>
      have next := ih tail
      by_cases same : a = b
      · subst same
        rw [dedupTwice,next]
        by_cases here : key a = k
        · simp only [List.filter_cons,here,decide_true,if_true,dedupTwice]
        · simp only [List.filter_cons,here,decide_false,Bool.false_eq_true,if_false]
      · rw [dedupNew same]
        by_cases here : key a = k
        · have whole : (a :: b :: l).filter (fun x => key x = k) =
              a :: (b :: l).filter (fun x => key x = k) := List.filter_cons_of_pos (by simpa using here)
          rw [List.filter_cons_of_pos (by simpa using here),next,whole]
          by_cases there : key b = k
          · rw [List.filter_cons_of_pos (by simpa using there),dedupNew same]
          · have none : (b :: l).filter (fun x => key x = k) = [] := by
              apply List.filter_eq_nil_iff.mpr
              intro x mem eq
              have xk : key x = k := by simpa using eq
              have ba : key b ≤ key a := by
                rw [here,← xk]
                rcases List.mem_cons.mp mem with rfl | later
                · exact Std.le_refl _
                · exact (List.pairwise_cons.mp tail).1 x later
              exact there ((Std.le_antisymm ba (above b List.mem_cons_self)).trans here)
            rw [none]
            rfl
        · have whole : (a :: b :: l).filter (fun x => key x = k) =
              (b :: l).filter (fun x => key x = k) := List.filter_cons_of_neg (by simpa using here)
          rw [List.filter_cons_of_neg (by simpa using here),next,whole]

theorem sortDedupAlike [DecidableEq κ] {l m : List α}
    (alike : ∀ k, Stutters (l.filter (fun a => key a = k)) (m.filter (fun a => key a = k))) :
    sortDedup key l = sortDedup key m := by
  apply sortedClasses key (sortDedupPairwise key l) (sortDedupPairwise key m)
  intro k
  rw [sortDedup,sortDedup,dedupClass key (sortByPairwise key l),dedupClass key (sortByPairwise key m),
    sortByClass,sortByClass]
  exact dedupStutters (alike k)

end sorting
end P11k.StableSort
