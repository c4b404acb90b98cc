import Mathlib.Data.List.Sort

/-! Prefixes under the lexicographic order of lists: a prefix class is an interval of the
order. -/
namespace P11k.PrefixOrder

variable {α : Type} [LE α] [LT α] [Std.LawfulOrderLT α]

theorem appendLt (p a b : List α) : p ++ a < p ++ b ↔ a < b := by
  induction p with
  | nil => rfl
  | cons x p ih =>
    simp only [List.cons_append,List.cons_lt_cons_iff,ih,true_and]
    exact or_iff_right Std.lt_irrefl

theorem appendLe (p a b : List α) : p ++ a ≤ p ++ b ↔ a ≤ b := by
  rw [← List.not_lt,← List.not_lt,appendLt]

theorem prefixLe {p q : List α} (h : p <+: q) : p ≤ q := by
  obtain ⟨t,rfl⟩ := h
  have nil := (appendLe p [] t).mpr (List.nil_le t)
  simpa using nil

theorem sortedMono {l : List (List α)} (sorted : l.Pairwise (· ≤ ·)) {i j : Nat} {a b : List α}
    (ij : i ≤ j) (ha : l[i]? = some a) (hb : l[j]? = some b) : a ≤ b := by
  obtain ⟨hi,rfl⟩ := List.getElem?_eq_some_iff.mp ha
  obtain ⟨hj,rfl⟩ := List.getElem?_eq_some_iff.mp hb
  rcases Nat.lt_or_eq_of_le ij with lt | rfl
  · exact List.pairwise_iff_getElem.mp sorted i j hi hj lt
  · exact Std.le_refl _

theorem inversionOrders {sep c : α} (small : c < sep) (n t r s : List α) :
    n < n ++ c :: t ∧ (n ++ c :: t) ++ sep :: s < n ++ sep :: r := by
  constructor
  · have h := (appendLt n [] (c :: t)).mpr (List.nil_lt_cons c t)
    simpa using h
  · rw [List.append_assoc,appendLt]
    exact List.cons_lt_cons_iff.mpr (.inl small)

variable [Std.IsLinearOrder α]

theorem prefixBetween {p a x b : List α} (pa : p <+: a) (pb : p <+: b)
    (ax : a ≤ x) (xb : x ≤ b) : p <+: x := by
  induction p generalizing a x b with
  | nil => exact List.nil_prefix
  | cons c p ih =>
    obtain ⟨a',rfl,inA⟩ := List.cons_prefix_iff.mp pa
    obtain ⟨b',rfl,inB⟩ := List.cons_prefix_iff.mp pb
    cases x with
    | nil => simp at ax
    | cons d x =>
      rcases List.cons_le_cons_iff.mp ax with up | ⟨rfl,low⟩
      · rcases List.cons_le_cons_iff.mp xb with down | ⟨rfl,_⟩
        · exact absurd (Std.lt_trans up down) Std.lt_irrefl
        · exact absurd up Std.lt_irrefl
      · rcases List.cons_le_cons_iff.mp xb with down | ⟨_,high⟩
        · exact absurd down Std.lt_irrefl
        · exact List.cons_prefix_iff.mpr ⟨x,rfl,ih inA inB low high⟩

/- Two names are compared bare by one side of a join and with a separator behind them by
the other. The two orders disagree exactly when one name extends the other by an element
below the separator. -/
theorem separatedInversion {sep : α} {n m r s : List α} (clean : sep ∉ m)
    (bare : n < m) (separated : m ++ sep :: s < n ++ sep :: r) :
    ∃ c t, m = n ++ c :: t ∧ c < sep := by
  induction n generalizing m with
  | nil =>
    cases m with
    | nil => exact absurd bare (List.lt_irrefl _)
    | cons c t =>
      refine ⟨c,t,rfl,?_⟩
      rcases List.cons_lt_cons_iff.mp separated with lt | ⟨rfl,_⟩
      · exact lt
      · simp at clean
  | cons a n ih =>
    cases m with
    | nil => simp at bare
    | cons b m =>
      rcases List.cons_lt_cons_iff.mp bare with lt | ⟨rfl,tail⟩
      · rcases List.cons_lt_cons_iff.mp separated with gt | ⟨rfl,_⟩
        · exact absurd (Std.lt_trans lt gt) Std.lt_irrefl
        · exact absurd lt Std.lt_irrefl
      · rcases List.cons_lt_cons_iff.mp separated with gt | ⟨_,rest⟩
        · exact absurd gt Std.lt_irrefl
        · obtain ⟨c,t,rfl,small⟩ := ih (fun h => clean (List.mem_cons_of_mem _ h)) tail rest
          exact ⟨c,t,rfl,small⟩

end P11k.PrefixOrder
