import Mathlib.Data.List.Induction
import P11k.Lib.SortedMap

/-! Settings made one after another: the last one that is made, the last one that is no default, and maps
that are filled one after another. -/
namespace P11k

namespace Overrides
variable {α : Type}

/-- The last setting that is made. -/
def lastSet (os : List (Option α)) : Option α := os.foldl (fun acc o => o.or acc) none

theorem lastSetFrom (os : List (Option α)) (acc : Option α) :
    os.foldl (fun acc o => o.or acc) acc = (lastSet os).or acc := by
  induction os generalizing acc with
  | nil => rfl
  | cons o os ih => rw [lastSet,List.foldl_cons,List.foldl_cons,ih,ih (o.or none),Option.or_none,Option.or_assoc]

theorem lastSetAppend (os ps : List (Option α)) : lastSet (os ++ ps) = (lastSet ps).or (lastSet os) := by
  rw [lastSet,List.foldl_append,lastSetFrom]
  rfl

theorem lastSetCons (o : Option α) (os : List (Option α)) : lastSet (o :: os) = (lastSet os).or o := by
  rw [← List.singleton_append,lastSetAppend]
  simp [lastSet]

theorem lastSetFlatten (lists : List (List (Option α))) : lastSet lists.flatten = lastSet (lists.map lastSet) := by
  induction lists with
  | nil => rfl
  | cons l lists ih => rw [List.flatten_cons,lastSetAppend,ih,List.map_cons,lastSetCons]

theorem lastSetMem {os : List (Option α)} {v : α} (last : lastSet os = some v) : some v ∈ os := by
  induction os with
  | nil => cases last
  | cons o os ih =>
    rw [lastSetCons] at last
    cases later : lastSet os with
    | none =>
      rw [later,Option.none_or] at last
      exact last ▸ List.mem_cons_self
    | some u =>
      rw [later,Option.some_or] at last
      exact List.mem_cons_of_mem o (ih (later.trans last))

variable [DecidableEq α] (d : α)

/-- A later value counts unless it is the default. -/
def keep (a b : α) : α := if b = d then a else b

theorem keepDefault (a : α) : keep d a d = a := if_pos rfl

/-- Set back to the default by the last setting, after one to another value. -/
def SetBack (os : List (Option α)) : Prop := lastSet os = some d ∧ ∃ v, some v ∈ os ∧ v ≠ d

theorem keepAll (os : List (Option α)) (all : ∀ v, some v ∈ os → v = d) :
    os.foldl (fun a o => keep d a (o.getD d)) d = d := by
  induction os with
  | nil => rfl
  | cons o os ih =>
    have here : o.getD d = d := by
      cases o with
      | none => rfl
      | some v => exact all v List.mem_cons_self
    rw [List.foldl_cons,here,keepDefault]
    exact ih fun v mem => all v (List.mem_cons_of_mem o mem)

theorem keepOther {os : List (Option α)} {v : α} (mem : some v ∈ os) (other : v ≠ d) (a : α) :
    os.foldl (fun a o => keep d a (o.getD d)) a ≠ d := by
  have stays : ∀ (ps : List (Option α)) (a : α), a ≠ d → ps.foldl (fun a o => keep d a (o.getD d)) a ≠ d := by
    intro ps
    induction ps with
    | nil => exact fun _ here => here
    | cons o ps ih =>
      intro a here
      refine ih _ ?_
      change (if o.getD d = d then a else o.getD d) ≠ d
      split
      · exact here
      · assumption
  induction os generalizing a with
  | nil => cases mem
  | cons o os ih =>
    rcases List.mem_cons.mp mem with rfl | later
    · refine stays os _ ?_
      change (if v = d then a else v) ≠ d
      rwa [if_neg other]
    · exact ih later _

theorem keepLast (os : List (Option α)) :
    os.foldl (fun a o => keep d a (o.getD d)) d = (lastSet os).getD d ↔ ¬ SetBack d os := by
  induction os using List.reverseRecOn with
  | nil => simp [lastSet,SetBack]
  | append_singleton os o ih =>
    rw [List.foldl_append,lastSetAppend]
    cases o with
    | none =>
      have same : SetBack d (os ++ [none]) ↔ SetBack d os := by simp [SetBack,lastSet]
      rw [same,← ih,List.foldl_cons,Option.getD_none,keepDefault]
      simp [lastSet]
    | some v =>
      have last : lastSet [some v] = some v := rfl
      rw [last,Option.some_or,Option.getD_some,List.foldl_cons,Option.getD_some,List.foldl_nil]
      by_cases other : v = d
      · subst other
        rw [keepDefault]
        constructor
        · rintro none' ⟨_,u,mem,different⟩
          rw [List.mem_append] at mem
          rcases mem with mem | mem
          · exact keepOther v mem different v none'
          · exact different (Option.some.inj (List.mem_singleton.mp mem))
        · intro notBack
          refine keepAll v os fun u mem => ?_
          by_contra different
          exact notBack ⟨by rw [lastSetAppend]; rfl,u,List.mem_append_left _ mem,different⟩
      · refine iff_of_true (if_neg other) ?_
        rintro ⟨back,_⟩
        rw [lastSetAppend] at back
        exact other (Option.some.inj back)

end Overrides

namespace SortedMap
variable {κ α : Type} [LinearOrder κ]

theorem lookupCons (j : κ) (e : κ × α) (es : List (κ × α)) :
    (e :: es).lookup j = if j = e.1 then some e.2 else es.lookup j := by
  rw [List.lookup_cons]
  by_cases same : j = e.1
  · rw [if_pos same,beq_iff_eq.mpr same]
  · rw [if_neg same,beq_eq_false_iff_ne.mpr same]

theorem lookupInsert (k j : κ) (v : α) (es : List (κ × α)) :
    (insertEntry k v es).lookup j = if j = k then some v else es.lookup j := by
  induction es with
  | nil => rw [insertEntry,lookupCons]
  | cons e es ih =>
    rw [insertEntry]
    split
    · rw [lookupCons]
    · split
      · rename_i here
        rw [lookupCons,lookupCons,← here]
        split <;> rfl
      · rename_i other
        rw [lookupCons,lookupCons,ih]
        split
        · rename_i same
          rw [if_neg (same ▸ Ne.symm other)]
        · rfl

theorem getInsert (m : SortedMap κ α) (k j : κ) (v : α) :
    (m.insert k v).get? j = if j = k then some v else m.get? j := lookupInsert k j v m.entries

theorem getOf {m : SortedMap κ α} {k : κ} {v : α} (mem : (k,v) ∈ m.entries) : m.get? k = some v := by
  obtain ⟨before,after,whole⟩ := List.append_of_mem mem
  refine List.lookup_eq_some_iff.mpr ⟨before,after,whole,fun e there => ?_⟩
  have sorted := m.sorted
  rw [whole,List.map_append,List.pairwise_append] at sorted
  have below := sorted.2.2 e.1 (List.mem_map_of_mem there) k List.mem_cons_self
  simpa using Ne.symm (ne_of_lt below)

theorem extGet {m n : SortedMap κ α} (alike : ∀ k, m.get? k = n.get? k) : m = n := by
  have nodup : ∀ m : SortedMap κ α, m.entries.Nodup := fun m =>
    (List.pairwise_map.mp m.sorted).imp fun below same => absurd (congrArg Prod.fst same) (ne_of_lt below)
  have inside : ∀ e, e ∈ m.entries ↔ e ∈ n.entries := by
    intro e
    constructor
    · exact fun mem => getMem ((alike e.1).symm.trans (getOf mem))
    · exact fun mem => getMem ((alike e.1).trans (getOf mem))
  have perm := (List.perm_ext_iff_of_nodup (nodup m) (nodup n)).mpr inside
  exact ext (perm.eq_of_pairwise (fun a b _ _ up down => absurd up (lt_asymm down)) (List.pairwise_map.mp m.sorted)
    (List.pairwise_map.mp n.sorted))

def insertAll (m : SortedMap κ α) (es : List (κ × α)) : SortedMap κ α := es.foldl (fun m e => m.insert e.1 e.2) m

/-- The last entry under a key. -/
def lastEntry (es : List (κ × α)) (k : κ) : Option α :=
  Overrides.lastSet (es.map fun e => if k = e.1 then some e.2 else none)

theorem lastEntryCons (e : κ × α) (es : List (κ × α)) (k : κ) :
    lastEntry (e :: es) k = (lastEntry es k).or (if k = e.1 then some e.2 else none) := Overrides.lastSetCons _ _

theorem getInsertAll (es : List (κ × α)) (m : SortedMap κ α) (k : κ) :
    (m.insertAll es).get? k = (lastEntry es k).or (m.get? k) := by
  induction es generalizing m with
  | nil => rfl
  | cons e es ih =>
    rw [insertAll,List.foldl_cons,← insertAll,ih,getInsert,lastEntryCons,Option.or_assoc]
    split <;> rfl

theorem lastEntrySorted {es : List (κ × α)} (sorted : (es.map Prod.fst).Pairwise (· < ·)) (k : κ) :
    lastEntry es k = es.lookup k := by
  induction es with
  | nil => rfl
  | cons e es ih =>
    rw [List.map_cons,List.pairwise_cons] at sorted
    rw [lastEntryCons,ih sorted.2,lookupCons]
    by_cases same : k = e.1
    · have absent : es.lookup k = none := by
        refine List.lookup_eq_none_iff.mpr fun f mem => ?_
        have above := sorted.1 f.1 (List.mem_map_of_mem mem)
        simpa [same] using ne_of_lt above
      rw [absent,if_pos same,Option.none_or]
    · rw [if_neg same,if_neg same,Option.or_none]

theorem insertAllFilled (es : List (κ × α)) (m : SortedMap κ α) :
    m.insertAll (insertAll empty es).entries = m.insertAll es := by
  refine extGet fun k => ?_
  have single : lastEntry (insertAll empty es).entries k = (insertAll empty es).get? k :=
    lastEntrySorted (insertAll empty es).sorted k
  rw [getInsertAll,getInsertAll,single,getInsertAll]
  have none' : (empty : SortedMap κ α).get? k = none := rfl
  rw [none',Option.or_none]

end SortedMap
end P11k
