import Mathlib.Order.Lattice
import Mathlib.Data.List.Basic

/-! Finite maps with their entries in the order of the keys, and readers that go through a list
and keep a state: what every step keeps, what one piece of the list does, and how a map is built
up again from its entries. -/
namespace P11k

/-! Reading a list step by step, with errors. -/

namespace Reading
variable {ε σ β : Type} {step : σ → β → Except ε σ}

theorem mapOk {α : Type} {x : Except ε α} {f : α → σ} {b : σ} (ok : x.map f = .ok b) :
    ∃ a, x = .ok a ∧ f a = b := by
  cases x with
  | error e => simp [Except.map] at ok
  | ok a => exact ⟨a,rfl,Except.ok.inj ok⟩

theorem bindOk {α : Type} {x : Except ε α} {f : α → Except ε σ} {b : σ} (ok : x >>= f = .ok b) :
    ∃ a, x = .ok a ∧ f a = .ok b := by
  cases x with
  | error e => simp [bind,Except.bind] at ok
  | ok a => exact ⟨a,rfl,ok⟩

theorem readKeeps {I : σ → Prop} {xs : List β} (keeps : ∀ a x b, x ∈ xs → I a → step a x = .ok b → I b)
    {a b : σ} (start : I a) (read : xs.foldlM step a = .ok b) : I b := by
  induction xs generalizing a with
  | nil => exact Except.ok.inj read ▸ start
  | cons x xs ih =>
    rw [List.foldlM_cons] at read
    obtain ⟨c,one,rest⟩ := bindOk read
    exact ih (fun a x b mem => keeps a x b (List.mem_cons_of_mem _ mem))
      (keeps a x c List.mem_cons_self start one) rest

theorem readThen {xs ys : List β} {a b c : σ} (first : xs.foldlM step a = .ok b)
    (rest : ys.foldlM step b = .ok c) : (xs ++ ys).foldlM step a = .ok c := by
  rw [List.foldlM_append,first]
  exact rest

theorem readOne {x : β} {a b : σ} (one : step a x = .ok b) : [x].foldlM step a = .ok b := by
  rw [List.foldlM_cons,one]
  rfl

theorem readSame {xs : List β} {a : σ} (same : ∀ x ∈ xs, step a x = .ok a) : xs.foldlM step a = .ok a := by
  induction xs with
  | nil => rfl
  | cons x xs ih =>
    rw [List.foldlM_cons,same x List.mem_cons_self]
    exact ih fun y mem => same y (List.mem_cons_of_mem x mem)

/-- A piece that is left out when the state is already the one it would lead to. -/
theorem readPiece {p : Prop} [Decidable p] {piece : List β} {a b : σ} (absent : ¬ p → a = b)
    (present : p → piece.foldlM step a = .ok b) : (if p then piece else []).foldlM step a = .ok b := by
  by_cases there : p
  · rw [if_pos there]
    exact present there
  · rw [if_neg there,absent there]
    rfl

theorem readOption {α : Type} {o : Option α} {node : α → β} {a b : σ} (absent : o = none → a = b)
    (present : ∀ x, o = some x → step a (node x) = .ok b) :
    (o.map node).toList.foldlM step a = .ok b := by
  cases there : o with
  | none =>
    rw [absent there]
    rfl
  | some x => exact readOne (present x there)

end Reading

structure SortedMap (κ α : Type) [LinearOrder κ] where
  entries : List (κ × α)
  sorted : (entries.map Prod.fst).Pairwise (· < ·)

namespace SortedMap
variable {κ α : Type} [LinearOrder κ]

theorem ext {m n : SortedMap κ α} (same : m.entries = n.entries) : m = n := by
  cases m
  cases n
  cases same
  rfl

def empty : SortedMap κ α := ⟨[],.nil⟩

def insertEntry (k : κ) (v : α) : List (κ × α) → List (κ × α)
  | [] => [(k,v)]
  | e :: es =>
      if k < e.1 then (k,v) :: e :: es
      else if k = e.1 then (k,v) :: es
      else e :: insertEntry k v es

theorem insertMem {k : κ} {v : α} {es : List (κ × α)} {e : κ × α} (mem : e ∈ insertEntry k v es) :
    e = (k,v) ∨ e ∈ es := by
  induction es with
  | nil => simpa [insertEntry] using mem
  | cons f es ih =>
    unfold insertEntry at mem
    split at mem
    · simpa using mem
    · split at mem
      · rcases List.mem_cons.mp mem with here | there
        · exact .inl here
        · exact .inr (List.mem_cons_of_mem f there)
      · rcases List.mem_cons.mp mem with here | there
        · exact .inr (here ▸ List.mem_cons_self)
        · exact (ih there).imp_right (List.mem_cons_of_mem f)

theorem insertSorted (k : κ) (v : α) {es : List (κ × α)} (sorted : (es.map Prod.fst).Pairwise (· < ·)) :
    ((insertEntry k v es).map Prod.fst).Pairwise (· < ·) := by
  induction es with
  | nil => simp [insertEntry]
  | cons f es ih =>
    rw [List.map_cons,List.pairwise_cons] at sorted
    unfold insertEntry
    split
    · rename_i below
      rw [List.map_cons,List.pairwise_cons,List.map_cons,List.pairwise_cons]
      refine ⟨fun j mem => ?_,sorted⟩
      rcases List.mem_cons.mp mem with rfl | there
      · exact below
      · exact lt_trans below (sorted.1 j there)
    · split
      · rename_i same
        rw [List.map_cons,List.pairwise_cons]
        exact ⟨same ▸ sorted.1,sorted.2⟩
      · rename_i notBelow other
        rw [List.map_cons,List.pairwise_cons]
        refine ⟨fun j mem => ?_,ih sorted.2⟩
        obtain ⟨e,there,rfl⟩ := List.mem_map.mp mem
        rcases insertMem there with rfl | old
        · exact lt_of_le_of_ne (not_lt.mp notBelow) (Ne.symm other)
        · exact sorted.1 e.1 (List.mem_map_of_mem old)

def insert (m : SortedMap κ α) (k : κ) (v : α) : SortedMap κ α :=
  ⟨insertEntry k v m.entries,insertSorted k v m.sorted⟩

theorem insertAllMem {es : List (κ × α)} {m : SortedMap κ α} {e : κ × α}
    (mem : e ∈ (es.foldl (fun m e => m.insert e.1 e.2) m).entries) : e ∈ es ∨ e ∈ m.entries := by
  induction es generalizing m with
  | nil => exact .inr mem
  | cons f es ih =>
    rcases ih mem with later | now
    · exact .inl (List.mem_cons_of_mem f later)
    · rcases insertMem now with rfl | old
      · exact .inl List.mem_cons_self
      · exact .inr old

def get? (m : SortedMap κ α) (k : κ) : Option α := m.entries.lookup k

theorem insertLast {es : List (κ × α)} {k : κ} (above : ∀ e ∈ es, e.1 < k) (v : α) :
    insertEntry k v es = es ++ [(k,v)] := by
  induction es with
  | nil => rfl
  | cons e es ih =>
    have least := above e List.mem_cons_self
    rw [insertEntry,if_neg (lt_asymm least),if_neg (Ne.symm (ne_of_lt least)),
      ih fun f mem => above f (List.mem_cons_of_mem e mem),List.cons_append]

theorem getAbove {m : SortedMap κ α} {k : κ} (above : ∀ e ∈ m.entries, e.1 < k) : m.get? k = none := by
  rw [get?,List.lookup_eq_none_iff]
  intro e mem
  simpa using Ne.symm (ne_of_lt (above e mem))

theorem getMem {m : SortedMap κ α} {k : κ} {v : α} (there : m.get? k = some v) : (k,v) ∈ m.entries := by
  rw [get?,List.lookup_eq_some_iff] at there
  obtain ⟨before,after,whole,_⟩ := there
  rw [whole]
  exact List.mem_append_right before List.mem_cons_self

/-- A reader that enters each entry behind those before it builds the map up again. -/
theorem readEntries {ε σ β : Type} {step : σ → β → Except ε σ} (put : SortedMap κ α → σ)
    (node : κ × α → β) (m : SortedMap κ α)
    (enters : ∀ acc : SortedMap κ α, ∀ e ∈ m.entries, (∀ f ∈ acc.entries, f.1 < e.1) →
      step (put acc) (node e) = .ok (put (acc.insert e.1 e.2))) :
    (m.entries.map node).foldlM step (put empty) = .ok (put m) := by
  suffices all : ∀ (rest : List (κ × α)) (acc : SortedMap κ α), acc.entries ++ rest = m.entries →
      (rest.map node).foldlM step (put acc) = .ok (put m) from all m.entries empty rfl
  intro rest
  induction rest with
  | nil =>
    intro acc whole
    rw [ext (by simpa using whole : acc.entries = m.entries)]
    rfl
  | cons e rest ih =>
    intro acc whole
    have above : ∀ f ∈ acc.entries, f.1 < e.1 := by
      intro f mem
      have sorted := m.sorted
      rw [← whole,List.map_append,List.pairwise_append] at sorted
      exact sorted.2.2 f.1 (List.mem_map_of_mem mem) e.1 (List.mem_map_of_mem List.mem_cons_self)
    have mem : e ∈ m.entries := by
      rw [← whole]
      exact List.mem_append_right acc.entries List.mem_cons_self
    rw [List.map_cons,List.foldlM_cons,enters acc e mem above]
    refine ih (acc.insert e.1 e.2) ?_
    calc insertEntry e.1 e.2 acc.entries ++ rest = acc.entries ++ [e] ++ rest := by rw [insertLast above]
      _ = m.entries := by rw [List.append_assoc]; exact whole

end SortedMap
end P11k
