import Mathlib.Data.List.Infix
import Mathlib.Data.List.Basic

/-! A stream with a marker in it, taken out at its leftmost occurrences that do not overlap. A
reader of chunks that holds back the longest possible beginning of a marker takes out the same
ones, wherever the chunks end. -/
namespace P11k.Markers
open scoped List

variable {α : Type}

theorem prefixShort {needle s c : List α} (fits : needle.length ≤ s.length) :
    needle <+: s ++ c ↔ needle <+: s :=
  ⟨fun begins => List.prefix_of_prefix_length_le begins (List.prefix_append s c) fits,
    fun begins => begins.trans (List.prefix_append s c)⟩

/-- `y` is the longest end of `s` that a marker could begin with and not be complete. -/
structure Held (needle s y : List α) : Prop where
  suffix : y <:+ s
  begins : y <+: needle
  short : y.length < needle.length
  longest : ∀ t, t <:+ s → t <+: needle → t.length < needle.length → t.length ≤ y.length

theorem heldUnique {needle s y y' : List α} (held : Held needle s y) (held' : Held needle s y') :
    y = y' := by
  have one := held.longest y' held'.suffix held'.begins held'.short
  have two := held'.longest y held.suffix held.begins held.short
  exact (List.prefix_of_prefix_length_le held.begins held'.begins two).eq_of_length
    (Nat.le_antisymm two one)

/-- What has been let go ends in nothing that a marker could still grow from. -/
theorem heldAppend {needle s y c z : List α} (held : Held needle s y) (next : Held needle (y ++ c) z) :
    Held needle (s ++ c) z := by
  obtain ⟨gone,whole⟩ := held.suffix
  refine ⟨?_,next.begins,next.short,fun t suffix begins short => ?_⟩
  · rw [← whole,List.append_assoc]
    exact next.suffix.trans (List.suffix_append gone (y ++ c))
  · rw [← whole,List.append_assoc] at suffix
    rcases List.suffix_or_suffix_of_suffix suffix (List.suffix_append gone (y ++ c)) with inside | beyond
    · exact next.longest t inside begins short
    · obtain ⟨more,rfl⟩ := beyond
      by_cases none' : more = []
      · subst none'
        exact next.longest _ (by simp) begins short
      · have earlier : more ++ y <:+ s := by
          have tail : more ++ y ++ c <:+ s ++ c := by
            rw [← whole,List.append_assoc,List.append_assoc]
            exact suffix
          obtain ⟨front,split⟩ := tail
          rw [← List.append_assoc] at split
          exact ⟨front,List.append_cancel_right split⟩
        have start : more ++ y <+: needle := by
          rw [← List.append_assoc] at begins
          exact (List.prefix_append _ c).trans begins
        have bound := held.longest (more ++ y) earlier start (by
          simp only [List.length_append] at short ⊢
          omega)
        have size := List.length_pos_of_ne_nil none'
        simp only [List.length_append] at bound
        omega

/-- The elements behind the last marker. -/
def remaining (ms : List (Option α)) : List α :=
  ms.foldl (fun acc m => m.elim [] (fun a => acc ++ [a])) []

theorem remainingAppend (ms : List (Option α)) (as : List α) :
    remaining (ms ++ as.map some) = remaining ms ++ as := by
  induction as generalizing ms with
  | nil => simp
  | cons a as ih =>
    have one : remaining (ms ++ [some a]) = remaining ms ++ [a] := by simp [remaining]
    have := ih (ms ++ [some a])
    rwa [one,List.append_assoc,List.append_assoc,List.singleton_append,List.singleton_append,
      ← List.map_cons] at this

theorem remainingReset (ms ns : List (Option α)) : remaining (ms ++ none :: ns) = remaining ns := by
  simp [remaining]

variable [DecidableEq α] (needle : List α)

/-- What a stream shows: its elements, and `none` for each marker. `skip` elements still belong
to the marker before. -/
def marks : Nat → List α → List (Option α)
  | _, [] => []
  | skip+1, _ :: s => marks skip s
  | 0, a :: s =>
      if needle <+: a :: s then none :: marks (needle.length - 1) s else some a :: marks 0 s

def find : List α → Option Nat
  | [] => none
  | a :: s => if needle <+: a :: s then some 0 else (find s).map (· + 1)

variable {needle}

theorem marksSkip (skip : Nat) (s : List α) : marks needle skip s = marks needle 0 (s.drop skip) := by
  induction s generalizing skip with
  | nil => simp [marks]
  | cons a s ih =>
    cases skip with
    | zero => rfl
    | succ skip => exact ih skip

theorem findHit {s : List α} {i : Nat} (hit : find needle s = some i) :
    needle <+: s.drop i ∧ ∀ j < i, ¬ needle <+: s.drop j := by
  induction s generalizing i with
  | nil => contradiction
  | cons a s ih =>
    unfold find at hit
    split at hit
    · rename_i begins
      cases hit
      exact ⟨begins,fun j before => by omega⟩
    · rename_i later
      obtain ⟨k,found,rfl⟩ := Option.map_eq_some_iff.mp hit
      obtain ⟨here,first⟩ := ih found
      refine ⟨here,fun j before => ?_⟩
      cases j with
      | zero => exact later
      | succ j => exact first j (by omega)

theorem findNone {s : List α} (none' : find needle s = none) {t : List α} (suffix : t <:+ s)
    (some' : t ≠ []) : ¬ needle <+: t := by
  induction s with
  | nil => exact absurd (List.suffix_nil.mp suffix) some'
  | cons a s ih =>
    unfold find at none'
    split at none'
    · contradiction
    · rename_i here
      rcases List.suffix_cons_iff.mp suffix with rfl | later
      · exact here
      · exact ih (Option.map_eq_none_iff.mp none') later

theorem marksHit (proper : 0 < needle.length) {s : List α} {i : Nat} (hit : find needle s = some i)
    (c : List α) : marks needle 0 (s ++ c) =
      (s.take i).map some ++ none :: marks needle 0 (s.drop (i + needle.length) ++ c) := by
  induction s generalizing i with
  | nil => contradiction
  | cons a s ih =>
    have fits := (findHit hit).1.length_le
    simp only [List.length_drop] at fits
    have same : needle <+: a :: (s ++ c) ↔ needle <+: a :: s :=
      prefixShort (s := a :: s) (by omega)
    unfold find at hit
    split at hit
    · rename_i begins
      cases hit
      obtain ⟨n,size⟩ := Nat.exists_eq_succ_of_ne_zero (Nat.ne_of_gt proper)
      simp only [size,List.length_cons] at fits
      rw [List.cons_append,marks,if_pos (same.mpr begins),marksSkip,size,Nat.zero_add,List.drop_succ_cons,
        Nat.succ_sub_one,List.drop_append_of_le_length (by omega)]
      rfl
    · rename_i later
      obtain ⟨k,found,rfl⟩ := Option.map_eq_some_iff.mp hit
      rw [List.cons_append,marks,if_neg (mt same.mp later),ih found]
      simp only [List.take_succ_cons,List.map_cons,Nat.add_right_comm k 1,List.drop_succ_cons,
        List.cons_append]

/-- Behind the last marker everything but the held end is let go, whatever follows. -/
theorem marksHeld {gone y : List α} (none' : find needle (gone ++ y) = none)
    (held : Held needle (gone ++ y) y) (c : List α) :
    marks needle 0 (gone ++ y ++ c) = gone.map some ++ marks needle 0 (y ++ c) := by
  induction gone with
  | nil => rfl
  | cons a gone ih =>
    have bound := held.longest (a :: gone ++ y) List.suffix_rfl
    have ahead : ¬ needle <+: a :: (gone ++ y ++ c) := by
      intro begins
      by_cases fits : needle.length ≤ (a :: (gone ++ y)).length
      · exact findNone none' List.suffix_rfl (by simp) ((prefixShort (s := a :: (gone ++ y)) fits).mp begins)
      · have grows : a :: (gone ++ y) <+: needle :=
          List.prefix_of_prefix_length_le (List.prefix_append (a :: (gone ++ y)) c) begins (by omega)
        have most := bound grows (by simpa using fits)
        rw [List.length_append,List.length_cons] at most
        omega
    have none'' : find needle (gone ++ y) = none := by
      have := none'
      rw [List.cons_append] at this
      unfold find at this
      split at this
      · contradiction
      · exact Option.map_eq_none_iff.mp this
    have rest : Held needle (gone ++ y) y := ⟨List.suffix_append gone y,held.begins,held.short,
      fun t suffix => held.longest t (suffix.trans (List.suffix_cons a _))⟩
    rw [List.cons_append,List.cons_append,marks,if_neg ahead,ih none'' rest,List.map_cons,List.cons_append]

theorem marksShort {y : List α} (short : y.length < needle.length) : marks needle 0 y = y.map some := by
  induction y with
  | nil => rfl
  | cons a y ih =>
    have unfit : ¬ needle <+: a :: y := fun begins => by have := begins.length_le; omega
    rw [marks,if_neg unfit,ih (Nat.lt_of_succ_lt short),List.map_cons]

/-- Reading `s` marker by marker shows `out` and stops before `rest`, which has none. -/
inductive Reads (needle : List α) : List α → List (Option α) → List α → Prop where
  | stop {s} : find needle s = none → Reads needle s [] s
  | hit {s i out rest} : find needle s = some i → Reads needle (s.drop (i + needle.length)) out rest →
      Reads needle s ((s.take i).map some ++ none :: out) rest

theorem readsFree {s rest : List α} {out : List (Option α)} (reads : Reads needle s out rest) :
    find needle rest = none := by
  induction reads with
  | stop none' => exact none'
  | hit _ _ ih => exact ih

theorem readsMarks (proper : 0 < needle.length) {s rest : List α} {out : List (Option α)}
    (reads : Reads needle s out rest) (c : List α) :
    marks needle 0 (s ++ c) = out ++ marks needle 0 (rest ++ c) := by
  induction reads with
  | stop => rfl
  | hit found _ ih => rw [marksHit proper found,ih,List.append_assoc,List.cons_append]

theorem remainingReads {s rest : List α} {out : List (Option α)} (reads : Reads needle s out rest)
    (ms : List (Option α)) : (out = [] ∧ rest = s) ∨ remaining (ms ++ out) = [] := by
  induction reads generalizing ms with
  | stop => exact .inl ⟨rfl,rfl⟩
  | hit found tail ih =>
    right
    rw [← List.append_assoc,remainingReset]
    rcases ih [] with ⟨rfl,_⟩ | reset
    · rfl
    · exact reset

/-- A reader that has let `out` go and holds `y`, after the stream `x`. -/
structure Held.After (needle x : List α) (out : List (Option α)) (y : List α) : Prop where
  shows : ∀ c, marks needle 0 (x ++ c) = out ++ marks needle 0 (y ++ c)
  held : Held needle (remaining out ++ y) y

theorem afterNothing (proper : 0 < needle.length) : Held.After needle ([] : List α) [] [] :=
  ⟨fun _ => rfl,⟨List.suffix_rfl,List.nil_prefix,proper,fun t suffix => by simp [List.suffix_nil.mp suffix]⟩⟩

theorem afterMarks {x y : List α} {out : List (Option α)} (after : Held.After needle x out y) :
    marks needle 0 x = out ++ y.map some := by
  have := after.shows []
  rwa [List.append_nil,List.append_nil,marksShort after.held.short] at this

theorem afterRemaining {x y : List α} {out : List (Option α)} (after : Held.After needle x out y) :
    remaining (marks needle 0 x) = remaining out ++ y := by rw [afterMarks after,remainingAppend]

theorem afterRead (proper : 0 < needle.length) {x y c gone z : List α} {out new : List (Option α)}
    (after : Held.After needle x out y) (reads : Reads needle (y ++ c) new (gone ++ z))
    (held : Held needle (gone ++ z) z) :
    Held.After needle (x ++ c) (out ++ new ++ gone.map some) z := by
  refine ⟨fun d => ?_,?_⟩
  · rw [List.append_assoc,after.shows,← List.append_assoc,readsMarks proper reads,
      marksHeld (readsFree reads) held]
    simp only [List.append_assoc]
  · rw [remainingAppend,List.append_assoc]
    rcases remainingReads reads out with ⟨rfl,same⟩ | reset
    · rw [List.append_nil,same,← List.append_assoc]
      exact heldAppend after.held (same ▸ held)
    · rwa [reset]

theorem afterUnique {x y y' : List α} {out out' : List (Option α)} (after : Held.After needle x out y)
    (after' : Held.After needle x out' y') : out = out' ∧ y = y' := by
  have held := after.held
  rw [← afterRemaining after] at held
  have held' := after'.held
  rw [← afterRemaining after'] at held'
  have same := heldUnique held held'
  have shown := (afterMarks after).symm.trans (afterMarks after')
  rw [same] at shown
  exact ⟨List.append_cancel_right shown,same⟩

/-- A stream that a single marker fills shows it or nothing of it. -/
theorem readsOnce {s rest : List α} {out : List (Option α)} (reads : Reads needle s out rest)
    (proper : 0 < needle.length) (size : s.length ≤ needle.length) :
    out = [] ∨ out = [none] ∧ rest = [] := by
  cases reads with
  | stop => exact .inl rfl
  | @hit _ i tail _ found reads =>
    have fits := (findHit found).1.length_le
    rw [List.length_drop] at fits
    have front : i = 0 := by omega
    have gone : s.drop (0 + needle.length) = [] := List.drop_eq_nil_of_le (by omega)
    subst front
    rw [gone] at reads
    cases reads with
    | stop => exact .inr ⟨rfl,rfl⟩
    | hit found' => contradiction

end P11k.Markers
