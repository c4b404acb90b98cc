import Mathlib.Data.List.Nodup

/-! A sequence of finite sets, read as what each one has and the one before had not. No
element appears twice exactly when none goes away and comes back. -/
namespace P11k.Appearances
open scoped List

variable {α β : Type} (parts : α → List β)

theorem flatMapOnceIff {xs : List α} (nodup : xs.Nodup) (each : ∀ x ∈ xs, (parts x).Nodup) :
    (xs.flatMap parts).Nodup ↔ ∀ x ∈ xs, ∀ y ∈ xs, ∀ b, b ∈ parts x → b ∈ parts y → x = y := by
  induction xs with
  | nil => simp
  | cons z xs ih =>
    obtain ⟨fresh,rest⟩ := List.nodup_cons.mp nodup
    rw [List.flatMap_cons,List.nodup_append',ih rest fun x mem => each x (List.mem_cons_of_mem z mem)]
    constructor
    · rintro ⟨_,later,apart⟩ x hx y hy b inX inY
      rcases List.mem_cons.mp hx with sameX | restX <;> rcases List.mem_cons.mp hy with sameY | restY
      · exact sameX.trans sameY.symm
      · exact (apart (sameX ▸ inX) (List.mem_flatMap.mpr ⟨y,restY,inY⟩)).elim
      · exact (apart (sameY ▸ inY) (List.mem_flatMap.mpr ⟨x,restX,inX⟩)).elim
      · exact later x restX y restY b inX inY
    · intro once
      refine ⟨each z List.mem_cons_self,fun x hx y hy => once x (List.mem_cons_of_mem z hx) y
        (List.mem_cons_of_mem z hy),?_⟩
      intro b first second
      obtain ⟨y,hy,inY⟩ := List.mem_flatMap.mp second
      have same := once z List.mem_cons_self y (List.mem_cons_of_mem z hy) b first inY
      exact fresh (same ▸ hy)

variable [DecidableEq β]

def added (prev x : α) : List β := (parts x).filter (fun b => b ∉ parts prev)

theorem addedSplit {prev x : α} {old new : List β} (whole : parts x = old ++ new)
    (known : ∀ b ∈ old, b ∈ parts prev) (unknown : ∀ b ∈ new, b ∉ parts prev) :
    added parts prev x = new := by
  have gone : old.filter (fun b => b ∉ parts prev) = [] :=
    List.filter_eq_nil_iff.mpr (fun b mem => by simp [known b mem])
  have kept : new.filter (fun b => b ∉ parts prev) = new :=
    List.filter_eq_self.mpr (fun b mem => by simp [unknown b mem])
  rw [added,whole,List.filter_append,gone,kept,List.nil_append]

def appear : α → List α → List β
  | _, [] => []
  | prev, x :: xs => added parts prev x ++ appear x xs

theorem memAppear {b : β} {prev : α} {xs : List α} :
    b ∈ appear parts prev xs ↔ ∃ x y, [x,y] <+ prev :: xs ∧ b ∉ parts x ∧ b ∈ parts y := by
  induction xs generalizing prev with
  | nil =>
    simp only [appear,List.not_mem_nil,false_iff,not_exists]
    intro x y ⟨sub,_⟩
    have := sub.length_le
    simp at this
  | cons z xs ih =>
    simp only [appear,added,List.mem_append,List.mem_filter,decide_eq_true_eq,ih]
    constructor
    · rintro (⟨now,before⟩ | ⟨x,y,sub,before,later⟩)
      · exact ⟨prev,z,by simp,before,now⟩
      · exact ⟨x,y,sub.cons prev,before,later⟩
    · rintro ⟨x,y,sub,before,later⟩
      cases sub with
      | cons _ sub => exact .inr ⟨x,y,sub,before,later⟩
      | cons_cons _ sub =>
        by_cases now : b ∈ parts z
        · exact .inl ⟨now,before⟩
        · cases sub with
          | cons _ sub => exact .inr ⟨z,y,sub.cons_cons z,now,later⟩
          | cons_cons _ sub => exact absurd later now

theorem memParts {b : β} {prev x : α} {xs : List α} (mem : x ∈ xs) (inside : b ∈ parts x)
    (before : b ∉ parts prev) : b ∈ appear parts prev xs :=
  (memAppear parts).mpr ⟨prev,x,(List.singleton_sublist.mpr mem).cons_cons prev,before,inside⟩

/-- Between two sets that have an element, no set lacks it. -/
def Contiguous (xs : List α) : Prop :=
  ∀ b p x r, [p,x,r] <+ xs → b ∈ parts p → b ∈ parts r → b ∈ parts x

theorem nodupAppearIff (nodup : ∀ x, (parts x).Nodup) (prev : α) (xs : List α) :
    (appear parts prev xs).Nodup ↔ ∀ b w p x r, [w,p,x,r] <+ prev :: xs →
      b ∉ parts w → b ∈ parts p → b ∈ parts r → b ∈ parts x := by
  induction xs generalizing prev with
  | nil =>
    simp only [appear,List.nodup_nil,true_iff]
    intro b w p x r sub
    have := sub.length_le
    simp at this
  | cons y xs ih =>
    simp only [appear,added,List.nodup_append',ih]
    constructor
    · rintro ⟨_,later,apart⟩ b w p x r sub before inside last
      cases sub with
      | cons _ sub => exact later b w p x r sub before inside last
      | cons_cons _ sub =>
        by_contra gone
        by_cases now : b ∈ parts y
        · have first : b ∈ (parts y).filter (fun b => b ∉ parts prev) := by simp [now,before]
          have sub' : [x,r] <+ y :: xs := (List.sublist_cons_self p [x,r]).trans sub
          exact apart first ((memAppear parts).mpr ⟨x,r,sub',gone,last⟩)
        · cases sub with
          | cons _ sub => exact gone (later b y p x r (sub.cons_cons y) now inside last)
          | cons_cons _ sub => exact now inside
    · intro runs
      refine ⟨(nodup y).filter _,fun b w p x r sub => runs b w p x r (sub.cons prev),?_⟩
      intro b first second
      simp only [List.mem_filter,decide_eq_true_eq] at first
      obtain ⟨x,r,sub,gone,last⟩ := (memAppear parts).mp second
      cases sub with
      | cons _ sub =>
        exact gone (runs b prev y x r ((sub.cons_cons y).cons_cons prev) first.2 first.1 last)
      | cons_cons _ sub => exact gone first.1

theorem nodupAppear (nodup : ∀ x, (parts x).Nodup) {prev : α} (none : parts prev = [])
    (xs : List α) : (appear parts prev xs).Nodup ↔ Contiguous parts xs := by
  rw [nodupAppearIff parts nodup]
  constructor
  · intro runs b p x r sub
    exact runs b prev p x r (sub.cons_cons prev) (by simp [none])
  · intro runs b w p x r sub _
    exact runs b p x r (by
      cases sub with
      | cons _ sub => exact (List.sublist_cons_self w _).trans sub
      | cons_cons _ sub => exact sub)

end P11k.Appearances
