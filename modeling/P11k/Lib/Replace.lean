import P11k.Lib.Markers
import P11k.Lib.Utf8

/-! A stream written anew with a replacement for each marker that a scan from the left finds in it. -/
namespace P11k.Replace
open P11k.Markers (marks marksSkip)

section fill
variable {α : Type} [DecidableEq α]

/-- The elements of a stream, and `p` for each marker. -/
def fill (p : List α) (ms : List (Option α)) : List α := ms.flatMap fun m => m.elim p ([·])

variable {v : List α}

theorem marksFront (some' : v ≠ []) (s : List α) : marks v 0 (v ++ s) = none :: marks v 0 s := by
  obtain ⟨a,t,rfl⟩ := List.exists_cons_of_ne_nil some'
  rw [List.cons_append,marks,if_pos (by simp),marksSkip]
  congr 2
  simp

theorem marksPast {a : α} {s : List α} (miss : ¬ v <+: a :: s) : marks v 0 (a :: s) = some a :: marks v 0 s := by
  rw [marks,if_neg miss]

/-- The scan is at an occurrence, or goes on by one element. -/
theorem scanInduction {Q : List α → Prop} (some' : v ≠ []) (nil : Q []) (hit : ∀ s, Q s → Q (v ++ s))
    (miss : ∀ a s, ¬ v <+: a :: s → Q s → Q (a :: s)) (s : List α) : Q s := by
  obtain ⟨n,short⟩ : ∃ n, s.length ≤ n := ⟨_,Nat.le_refl _⟩
  induction n generalizing s with
  | zero =>
    rw [List.eq_nil_of_length_eq_zero (Nat.le_zero.mp short)]
    exact nil
  | succ n ih =>
    cases s with
    | nil => exact nil
    | cons a s =>
      rw [List.length_cons] at short
      by_cases here : v <+: a :: s
      · obtain ⟨t,whole⟩ := here
        have longer := congrArg List.length whole
        have positive := List.length_pos_iff.mpr some'
        simp only [List.length_append,List.length_cons] at longer
        rw [← whole]
        exact hit t (ih t (by omega))
      · exact miss a s here (ih s (by omega))

theorem fillOwn (some' : v ≠ []) (s : List α) : fill v (marks v 0 s) = s := by
  refine scanInduction (Q := fun s => fill v (marks v 0 s) = s) some' rfl (fun s ih => ?_)
    (fun a s miss ih => ?_) s
  · rw [marksFront some']
    exact congrArg (v ++ ·) ih
  · rw [marksPast miss]
    exact congrArg (a :: ·) ih

theorem marksOther {r : List α} (other : ∀ a ∈ r, v.head? ≠ some a) (some' : v ≠ []) (s : List α) :
    marks v 0 (r ++ s) = r.map some ++ marks v 0 s := by
  induction r with
  | nil => rfl
  | cons a r ih =>
    have miss : ¬ v <+: a :: (r ++ s) := by
      intro here
      obtain ⟨b,t,rfl⟩ := List.exists_cons_of_ne_nil some'
      exact other a List.mem_cons_self (congrArg some (List.cons_prefix_cons.mp here).1)
    rw [List.cons_append,marksPast miss,ih fun b mem => other b (List.mem_cons_of_mem a mem)]
    rfl

omit [DecidableEq α] in
theorem fillPlain (p r : List α) (ms : List (Option α)) :
    fill p (r.map some ++ ms) = r ++ fill p ms := by
  induction r with
  | nil => rfl
  | cons a r ih => exact congrArg (a :: ·) ih

end fill

/-! The same on the bytes of a text. -/

open Utf8 (encode)

theorem encodePrefix {v s : List Char} : encode v <+: encode s ↔ v <+: s := by
  constructor
  · rintro ⟨t,whole⟩
    have read := congrArg Utf8.decode whole
    rw [Utf8.decodeAppend,Utf8.decodeEncode] at read
    exact ⟨_,read⟩
  · rintro ⟨t,rfl⟩
    exact ⟨encode t,by rw [encode,encode,encode,List.flatMap_append]⟩

theorem encodeSome {v : List Char} (some' : v ≠ []) : encode v ≠ [] := by
  intro none'
  exact some' (Utf8.encodeInjective (none'.trans rfl))

theorem fillEncoded {v : List Char} (some' : v ≠ []) (p s : List Char) :
    fill (encode p) (marks (encode v) 0 (encode s)) = encode (fill p (marks v 0 s)) := by
  refine scanInduction (Q := fun s => fill (encode p) (marks (encode v) 0 (encode s)) = encode (fill p (marks v 0 s)))
    some' rfl (fun s ih => ?_) (fun c s miss ih => ?_) s
  · have whole : encode (v ++ s) = encode v ++ encode s := List.flatMap_append
    rw [whole,marksFront (encodeSome some'),marksFront some']
    have filled : encode (fill p (none :: marks v 0 s)) = encode p ++ encode (fill p (marks v 0 s)) :=
      List.flatMap_append
    rw [filled,← ih]
    rfl
  · obtain ⟨b,rest,bytes,first,later⟩ := Utf8.firstApart c
    have whole : encode (c :: s) = b :: (rest ++ encode s) := by
      rw [encode,List.flatMap_cons,bytes]
      rfl
    have missed : ¬ encode v <+: b :: (rest ++ encode s) := by
      rw [← whole,encodePrefix]
      exact miss
    have inner : ∀ a ∈ rest, (encode v).head? ≠ some a := by
      obtain ⟨d,t,rfl⟩ := List.exists_cons_of_ne_nil some'
      obtain ⟨b',rest',bytes',first',_⟩ := Utf8.firstApart d
      intro a mem same
      rw [encode,List.flatMap_cons,bytes'] at same
      have first : b' = a := Option.some.inj same
      have := later a mem
      rw [first] at first'
      omega
    rw [whole,marksPast missed,marksOther inner (encodeSome some'),marksPast miss]
    have filled : encode (fill p (some c :: marks v 0 s)) = b :: (rest ++ encode (fill p (marks v 0 s))) := by
      show encode (c :: fill p (marks v 0 s)) = _
      rw [encode,List.flatMap_cons,bytes]
      rfl
    rw [filled,← ih]
    exact congrArg (b :: ·) (fillPlain _ _ _)

end P11k.Replace
