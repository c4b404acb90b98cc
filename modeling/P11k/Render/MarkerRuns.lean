import P11k.Render.AbsoluteTail

/-! The path folded at the directories that hold a marker. What lies between two of them is hidden when they are
far enough apart, and one delimiter is shown for all that is hidden. -/
namespace P11k.Render
open P11k P11k.Settings

section runs
variable (hidden : Nat → Bool)

/-- The runs of hidden components from the `i`th on; `inside` says whether one goes on there. -/
def runs (inside : Bool) (i : Nat) : List Str → Nat
  | [] => 0
  | _ :: rest =>
      if hidden i then (if inside then 0 else 1) + runs true (i + 1) rest else runs false (i + 1) rest

def replaceRuns (delim : Str) (inside : Bool) (i : Nat) : List Str → List Str
  | [] => []
  | part :: rest =>
      if hidden i then (if inside then [] else [delim]) ++ replaceRuns delim true (i + 1) rest
      else part :: replaceRuns delim false (i + 1) rest

def visibleParts (i : Nat) : List Str → List Str
  | [] => []
  | part :: rest => if hidden i then visibleParts (i + 1) rest else part :: visibleParts (i + 1) rest

variable {hidden} {delim : Str}

theorem runsCons (inside : Bool) (i : Nat) (part : Str) (rest : List Str) : runs hidden inside i (part :: rest) =
    if hidden i then (if inside then 0 else 1) + runs hidden true (i + 1) rest
    else runs hidden false (i + 1) rest := rfl

theorem replaceCons (inside : Bool) (i : Nat) (part : Str) (rest : List Str) :
    replaceRuns hidden delim inside i (part :: rest) =
      if hidden i then (if inside then [] else [delim]) ++ replaceRuns hidden delim true (i + 1) rest
      else part :: replaceRuns hidden delim false (i + 1) rest := rfl

theorem visibleCons (i : Nat) (part : Str) (rest : List Str) : visibleParts hidden i (part :: rest) =
    if hidden i then visibleParts hidden (i + 1) rest else part :: visibleParts hidden (i + 1) rest := rfl

theorem loopCons (n i : Nat) (elided : Bool) (part : Str) (rest : List Str) :
    markerLoop n delim hidden i elided (part :: rest) =
      if hidden i then
        if elided = false ∧ delim ≠ [] then ⟨delim,.shortened⟩ :: markerLoop n delim hidden (i + 1) true rest
        else markerLoop n delim hidden (i + 1) elided rest
      else ⟨part,classFor i n⟩ :: markerLoop n delim hidden (i + 1) elided rest := rfl

theorem replaceLength (inside : Bool) (i : Nat) (parts : List Str) :
    (replaceRuns hidden delim inside i parts).length =
      (visibleParts hidden i parts).length + runs hidden inside i parts := by
  induction parts generalizing inside i with
  | nil => rfl
  | cons part parts ih =>
    rw [replaceCons,visibleCons,runsCons]
    split
    · rw [List.length_append,ih]
      cases inside with
      | false => simp; omega
      | true => simp
    · simp only [List.length_cons,ih]
      omega

theorem replaceNone {inside : Bool} {i : Nat} {parts : List Str} (none' : runs hidden inside i parts = 0) :
    replaceRuns hidden delim inside i parts = visibleParts hidden i parts := by
  induction parts generalizing inside i with
  | nil => rfl
  | cons part parts ih =>
    rw [runsCons] at none'
    rw [replaceCons,visibleCons]
    split
    · rename_i here
      rw [if_pos here] at none'
      cases inside with
      | false => simp at none'
      | true => exact ih (by simpa using none')
    · rename_i here
      rw [if_neg here] at none'
      rw [ih none']

/-! The loop. -/

/-- When it has shown the delimiter, or there is none, it shows what is visible. -/
theorem loopVisible {n i : Nat} {elided : Bool} (spent : elided = true ∨ delim = []) (parts : List Str) :
    texts (markerLoop n delim hidden i elided parts) = visibleParts hidden i parts := by
  have none' : ¬ (elided = false ∧ delim ≠ []) := by
    rintro ⟨fresh,some'⟩
    rcases spent with shown | empty
    · rw [fresh] at shown
      cases shown
    · exact some' empty
  induction parts generalizing i with
  | nil => rfl
  | cons part parts ih =>
    rw [loopCons,visibleCons,if_neg none']
    split
    · exact ih
    · exact congrArg (part :: ·) ih

theorem loopLength (some' : delim ≠ []) (n i : Nat) (parts : List Str) :
    (texts (markerLoop n delim hidden i false parts)).length =
      (visibleParts hidden i parts).length + min 1 (runs hidden false i parts) := by
  induction parts generalizing i with
  | nil => rfl
  | cons part parts ih =>
    rw [loopCons,visibleCons,runsCons]
    split
    · rw [if_pos ⟨rfl,some'⟩]
      have rest := @loopVisible hidden delim n (i + 1) true (.inl rfl) parts
      have shape : texts (⟨delim,.shortened⟩ :: markerLoop n delim hidden (i + 1) true parts) =
          delim :: visibleParts hidden (i + 1) parts := congrArg (delim :: ·) rest
      rw [shape,List.length_cons]
      simp
    · have rest := ih (i + 1)
      simp only [texts,List.map_cons,List.length_cons] at rest ⊢
      omega

theorem loopOnce (some' : delim ≠ []) {n i : Nat} {parts : List Str} (few : runs hidden false i parts ≤ 1) :
    texts (markerLoop n delim hidden i false parts) = replaceRuns hidden delim false i parts := by
  induction parts generalizing i with
  | nil => rfl
  | cons part parts ih =>
    rw [runsCons] at few
    rw [loopCons,replaceCons]
    split
    · rename_i here
      rw [if_pos here] at few
      rw [if_pos ⟨rfl,some'⟩]
      simp only [Bool.false_eq_true,if_false] at few
      have last : runs hidden true (i + 1) parts = 0 := by omega
      rw [replaceNone last]
      exact congrArg (delim :: ·) (loopVisible (.inl rfl) parts)
    · rename_i here
      rw [if_neg here] at few
      exact congrArg (part :: ·) (ih few)

/-! Where the runs begin. -/

/-- A run begins at a hidden component behind one that is not, or at the front. -/
def begins (hidden : Nat → Bool) (i : Nat) : Bool := hidden i && (decide (i = 0) || !hidden (i - 1))

def runsTo (hidden : Nat → Bool) : Nat → Nat
  | 0 => 0
  | n + 1 => runsTo hidden n + if begins hidden n then 1 else 0

theorem runsLast (inside : Bool) (i : Nat) (parts : List Str) (part : Str) :
    runs hidden inside i (parts ++ [part]) = runs hidden inside i parts +
      if hidden (i + parts.length) ∧ (if parts = [] then inside else hidden (i + parts.length - 1)) = false then 1
      else 0 := by
  induction parts generalizing inside i with
  | nil =>
    cases inside <;> cases here : hidden i <;> simp [runs,here]
  | cons first parts ih =>
    have next : i + 1 + parts.length = i + (first :: parts).length := by rw [List.length_cons]; omega
    have before : i + (first :: parts).length - 1 = i + parts.length := by rw [List.length_cons]; omega
    have state : ∀ b : Bool, hidden i = b →
        (if parts = [] then b else hidden (i + (first :: parts).length - 1)) = hidden (i + parts.length) := by
      intro b here
      split
      · rename_i empty
        simp [empty,here]
      · rw [before]
    rw [List.cons_append,runsCons,runsCons,ih,ih,if_neg (List.cons_ne_nil _ _),before,next]
    cases here : hidden i with
    | true =>
      rw [state true here]
      simp only [if_true]
      omega
    | false =>
      rw [state false here]
      simp only [Bool.false_eq_true,if_false]

theorem runsBegin (parts : List Str) : runs hidden false 0 parts = runsTo hidden parts.length := by
  induction parts using List.reverseRecOn with
  | nil => rfl
  | append_singleton parts part ih =>
    rw [runsLast,ih,List.length_append,List.length_singleton,runsTo,Nat.zero_add]
    congr 1
    cases parts with
    | nil => simp [begins]
    | cons first parts => simp [begins]

theorem runsAgree {other : Nat → Bool} {n : Nat} (agree : ∀ i < n, hidden i = other i) :
    runsTo hidden n = runsTo other n := by
  induction n with
  | zero => rfl
  | succ n ih =>
    have here : begins hidden n = begins other n := by
      rw [begins,begins,agree n (Nat.lt_succ_self n)]
      rcases Nat.eq_zero_or_pos n with zero | positive
      · simp [zero]
      · rw [agree (n - 1) (by omega)]
    rw [runsTo,runsTo,ih fun i small => agree i (Nat.lt_succ_of_lt small),here]

theorem runsQuiet {m n : Nat} (reach : m ≤ n) (quiet : ∀ i, m ≤ i → i < n → hidden i = false) :
    runsTo hidden n = runsTo hidden m := by
  induction reach with
  | refl => rfl
  | @step n more ih =>
    have none' : begins hidden n = false := by rw [begins,quiet n more (Nat.lt_succ_self n),Bool.false_and]
    rw [runsTo,none',ih fun i above below => quiet i above (Nat.lt_succ_of_lt below)]
    rfl

theorem runsStretch {m n : Nat} (some' : m < n) (front : m = 0 ∨ hidden (m - 1) = false)
    (inside : ∀ i, m ≤ i → i < n → hidden i = true) : runsTo hidden n = runsTo hidden m + 1 := by
  induction n with
  | zero => cases some'
  | succ n ih =>
    have here := inside n (by omega) (by omega)
    rcases Nat.lt_or_ge m n with more | last
    · have before := inside (n - 1) (by omega) (by omega)
      have goes : begins hidden n = false := by
        rw [begins,here,before]
        simp
        omega
      rw [runsTo,goes,ih more fun i above below => inside i above (by omega)]
      rfl
    · obtain rfl : m = n := by omega
      have starts : begins hidden m = true := by
        rw [begins,here]
        rcases front with zero | visible
        · simp [zero]
        · simp [visible]
      rw [runsTo,starts]
      rfl

end runs

/-! Gaps between marks. -/

/-- The marks, from the last to the first, each with the one before it; `none` stands for the front. -/
def gapsOf (marks : List Nat) : List (Nat × Option Nat) := marks.zip (marks.tail.map some ++ [none])

def hiddenAt (marks : List Nat) (i : Nat) : Bool := (gapsOf marks).any fun run => hiddenBetween run.1 run.2 i

/-- At least two components lie between a mark and the one before it, or the front. -/
def wide : Nat × Option Nat → Bool
  | (hi,none) => 2 ≤ hi
  | (hi,some lo) => lo + 2 < hi

def wideGaps (marks : List Nat) : Nat := (gapsOf marks).countP wide

theorem gapsMore (a b : Nat) (marks : List Nat) : gapsOf (a :: b :: marks) = (a,some b) :: gapsOf (b :: marks) := rfl

theorem hiddenMore (a b : Nat) (marks : List Nat) (i : Nat) :
    hiddenAt (a :: b :: marks) i =
      ((decide (b + 2 < a) && (decide (b < i) && decide (i < a))) || hiddenAt (b :: marks) i) := by
  have here : hiddenBetween a (some b) i = (decide (b + 2 < a) && (decide (b < i) && decide (i < a))) := by
    rw [Bool.eq_iff_iff]
    simp only [hiddenBetween,Bool.and_eq_true,decide_eq_true_eq]
    omega
  rw [hiddenAt,gapsMore,List.any_cons,here]
  rfl

theorem hiddenOne (a i : Nat) : hiddenAt [a] i = (decide (2 ≤ a) && decide (i < a)) := by
  have here : hiddenBetween a none i = (decide (2 ≤ a) && decide (i < a)) := by
    rw [Bool.eq_iff_iff]
    simp only [hiddenBetween,Bool.and_eq_true,decide_eq_true_eq]
    omega
  have gaps : gapsOf [a] = [(a,none)] := rfl
  rw [hiddenAt,gaps,List.any_cons,here,List.any_nil,Bool.or_false]

theorem markGreatest {a : Nat} {marks : List Nat} (sorted : (a :: marks).Pairwise (· > ·)) {m : Nat}
    (mem : m ∈ a :: marks) : m ≤ a := by
  rcases List.mem_cons.mp mem with rfl | mem
  · exact Nat.le_refl m
  · exact Nat.le_of_lt ((List.pairwise_cons.mp sorted).1 m mem)

theorem hiddenApart {marks : List Nat} (sorted : marks.Pairwise (· > ·)) {i : Nat} (hidden : hiddenAt marks i = true) :
    i ∉ marks ∧ ∃ hi ∈ marks, i < hi := by
  induction marks with
  | nil => cases hidden
  | cons a marks ih =>
    obtain ⟨above,rest⟩ := List.pairwise_cons.mp sorted
    cases marks with
    | nil =>
      rw [hiddenOne,Bool.and_eq_true,decide_eq_true_eq,decide_eq_true_eq] at hidden
      exact ⟨by simp; omega,a,List.mem_cons_self,hidden.2⟩
    | cons b marks =>
      rw [hiddenMore,Bool.or_eq_true,Bool.and_eq_true,Bool.and_eq_true,decide_eq_true_eq,decide_eq_true_eq,
        decide_eq_true_eq] at hidden
      rcases hidden with ⟨-,after,before⟩ | below
      · refine ⟨fun mem => ?_,a,List.mem_cons_self,before⟩
        rcases List.mem_cons.mp mem with rfl | mem
        · omega
        · have := markGreatest rest mem
          omega
      · obtain ⟨apart,hi,mem,small⟩ := ih rest below
        refine ⟨fun mem' => ?_,hi,List.mem_cons_of_mem a mem,small⟩
        rcases List.mem_cons.mp mem' with rfl | mem'
        · have := above hi mem
          omega
        · exact apart mem'

theorem markShown {marks : List Nat} (sorted : marks.Pairwise (· > ·)) {i : Nat} (mem : i ∈ marks) :
    hiddenAt marks i = false := by
  cases here : hiddenAt marks i with
  | false => rfl
  | true => exact absurd mem (hiddenApart sorted here).1

theorem lastShown {marks : List Nat} (sorted : marks.Pairwise (· > ·)) {i : Nat} (behind : ∀ m ∈ marks, m ≤ i) :
    hiddenAt marks i = false := by
  cases here : hiddenAt marks i with
  | false => rfl
  | true =>
    obtain ⟨-,hi,mem,small⟩ := hiddenApart sorted here
    exact absurd small (Nat.not_lt.mpr (behind hi mem))

theorem runsGaps {marks : List Nat} (sorted : marks.Pairwise (· > ·)) {n : Nat} (fit : ∀ m ∈ marks, m < n) :
    runsTo (hiddenAt marks) n = wideGaps marks := by
  induction marks generalizing n with
  | nil => exact runsQuiet (Nat.zero_le n) fun i _ _ => rfl
  | cons a marks ih =>
    have behind : runsTo (hiddenAt (a :: marks)) n = runsTo (hiddenAt (a :: marks)) a :=
      runsQuiet (Nat.le_of_lt (fit a List.mem_cons_self)) fun i after _ =>
        lastShown sorted fun m mem => Nat.le_trans (markGreatest sorted mem) after
    rw [behind]
    cases marks with
    | nil =>
      by_cases far : 2 ≤ a
      · have stretch := @runsStretch (hiddenAt [a]) 0 a (by omega) (.inl rfl)
          (fun i _ below => by rw [hiddenOne]; simp [far,below])
        rw [stretch]
        simp [runsTo,wideGaps,gapsOf,wide,far]
      · have quiet := @runsQuiet (hiddenAt [a]) 0 a (Nat.zero_le a) (fun i _ _ => by rw [hiddenOne]; simp [far])
        rw [quiet]
        simp [runsTo,wideGaps,gapsOf,wide,far]
    | cons b marks =>
      obtain ⟨above,rest⟩ := List.pairwise_cons.mp sorted
      have order : b < a := above b List.mem_cons_self
      have below : runsTo (hiddenAt (a :: b :: marks)) (b + 1) = wideGaps (b :: marks) := by
        rw [← ih rest fun m mem => Nat.lt_succ_of_le (markGreatest rest mem)]
        refine runsAgree fun i small => ?_
        rw [hiddenMore]
        simp
        omega
      have count : wideGaps (a :: b :: marks) = wideGaps (b :: marks) + if b + 2 < a then 1 else 0 := by
        rw [wideGaps,gapsMore,List.countP_cons,wideGaps]
        simp [wide]
      rw [count,← below]
      by_cases far : b + 2 < a
      · rw [if_pos far]
        refine runsStretch (by omega) (.inr ?_) fun i after before => ?_
        · rw [Nat.add_sub_cancel]
          exact markShown sorted (List.mem_cons_of_mem a List.mem_cons_self)
        · rw [hiddenMore]
          simp
          omega
      · rw [if_neg far,Nat.add_zero]
        refine runsQuiet order fun i after before => ?_
        rw [hiddenMore,decide_eq_false far,Bool.false_and,Bool.false_or]
        refine lastShown rest fun m mem => ?_
        have := markGreatest rest mem
        omega

/-! The fold. -/

section fold
variable {τ : Type} (o : Outside τ)

def holdsMarker (parts : List Str) (base : Str) (opts : Opts) (i : Nat) : Bool :=
  hasMarkerIn o ((parts.take (i + 1)).foldl pushPath base) opts

def marksOf (parts : List Str) (base : Str) (opts : Opts) : List Nat :=
  (List.range parts.length).reverse.filter (holdsMarker o parts base opts)

/-- The components with a marker and the last one are shown, and in the place of each run of hidden ones one
delimiter that can be seen. -/
structure RunsFolded (parts : List Str) (base delim : Str) (opts : Opts) : Prop where
  markers : ∀ i < parts.length, holdsMarker o parts base opts i = true → hiddenAt (marksOf o parts base opts) i = false
  last : hiddenAt (marksOf o parts base opts) (parts.length - 1) = false
  replaced : texts (foldFolderMarker o parts base delim opts) =
    replaceRuns (hiddenAt (marksOf o parts base opts)) delim false 0 parts
  nonEmpty : runs (hiddenAt (marksOf o parts base opts)) false 0 parts ≠ 0 → delim ≠ []

variable {o}

theorem marksSorted (parts : List Str) (base : Str) (opts : Opts) :
    (marksOf o parts base opts).Pairwise (· > ·) := by
  refine List.Pairwise.filter _ ?_
  rw [List.pairwise_reverse]
  exact List.pairwise_lt_range

theorem marksMem {parts : List Str} {base : Str} {opts : Opts} {i : Nat} :
    i ∈ marksOf o parts base opts ↔ i < parts.length ∧ holdsMarker o parts base opts i = true := by
  simp [marksOf]

/-- Every run of hidden components is replaced exactly where there is none, or one and a delimiter for it. -/
theorem markerRuns (parts : List Str) (base delim : Str) (opts : Opts) :
    RunsFolded o parts base delim opts ↔
      wideGaps (marksOf o parts base opts) = 0 ∨ (wideGaps (marksOf o parts base opts) = 1 ∧ delim ≠ []) := by
  have sorted := marksSorted (o := o) parts base opts
  have loop : foldFolderMarker o parts base delim opts =
      markerLoop parts.length delim (hiddenAt (marksOf o parts base opts)) 0 false parts := rfl
  have count : runs (hiddenAt (marksOf o parts base opts)) false 0 parts = wideGaps (marksOf o parts base opts) :=
    (runsBegin parts).trans (runsGaps sorted fun m mem => (marksMem.mp mem).1)
  constructor
  · intro folded
    by_cases none' : wideGaps (marksOf o parts base opts) = 0
    · exact .inl none'
    · have some' := folded.nonEmpty (by rwa [count])
      have same := congrArg List.length folded.replaced
      rw [loop,loopLength some',replaceLength,count] at same
      exact .inr ⟨by omega,some'⟩
  · intro few
    refine ⟨fun i small mark => markShown sorted (marksMem.mpr ⟨small,mark⟩),?_,?_,fun some' => ?_⟩
    · refine lastShown sorted fun m mem => ?_
      have := (marksMem.mp mem).1
      omega
    · rw [loop]
      rcases few with none' | ⟨one,some'⟩
      · by_cases empty : delim = []
        · rw [loopVisible (.inr empty),replaceNone (count.trans none')]
        · exact loopOnce empty (by omega)
      · exact loopOnce some' (by omega)
    · rcases few with none' | ⟨-,seen⟩
      · exact absurd (count.trans none') some'
      · exact seen

end fold

/-- Markers in `/a/b/c` and in `/a/b/c/d/e/f`. -/
def twoMarkers : Outside Unit :=
  { silent with there := fun p => p = "/a/b/c/.git".toList ∨ p = "/a/b/c/d/e/f/.git".toList }

/-- The second run, `d` and `e`, goes without a delimiter. -/
theorem secondRunLost : ¬ ∀ (o : Outside Unit) (parts : List Str) (base delim : Str) (opts : Opts),
    RunsFolded o parts base delim opts := by
  intro claim
  have folded := claim twoMarkers ["a".toList,"b".toList,"c".toList,"d".toList,"e".toList,"f".toList] "/".toList ['…']
    ⟨.truncateWithFolderMarker,1,['…'],[],none⟩
  exact absurd folded.replaced (by decide +kernel)

end P11k.Render
