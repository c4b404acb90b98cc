import Mathlib.Data.List.Nodup
import P11k.Render.Shorten

/-! The shortest prefix of a name that says which of the names of its directory is meant. -/
namespace P11k.Render
open P11k P11k.Settings

/-- The names in a directory, each of them once. -/
structure Listing where
  names : List Str
  distinct : names.Nodup

/-- How many of the names begin like this. -/
def beginning (names : List Str) (p : Str) : Nat := (names.filter fun s => p.isPrefixOf s).length

/-- No name but this one begins like this. -/
def Alone (names : List Str) (name p : Str) : Prop := ∀ s ∈ names, s ≠ name → ¬ p <+: s

/-- The shortest such prefix of the name, or the name where there is none. -/
def Shortest (names : List Str) (name r : Str) : Prop :=
  (∃ j < name.length, r = name.take (j + 1) ∧ Alone names name r ∧ ∀ i < j, ¬ Alone names name (name.take (i + 1))) ∨
    (r = name ∧ ∀ i < name.length, ¬ Alone names name (name.take (i + 1)))

theorem shortestPrefix {names : List Str} {name r : Str} (shortest : Shortest names name r) : r <+: name := by
  rcases shortest with ⟨j,-,rfl,-⟩ | ⟨rfl,-⟩
  · exact List.take_prefix _ _
  · exact List.prefix_refl _

theorem shortestDistinct {names : List Str} {a b r : Str} (mem : a ∈ names) (mem' : b ∈ names) (differ : a ≠ b)
    (first : Shortest names a r) (second : Shortest names b r) : False := by
  rcases first with ⟨j,-,-,alone,-⟩ | ⟨rfl,-⟩
  · exact alone b mem' (Ne.symm differ) (shortestPrefix second)
  · rcases second with ⟨k,-,-,alone,-⟩ | ⟨same,-⟩
    · exact alone r mem differ (List.prefix_refl r)
    · exact differ same

/-! The search. -/

theorem beginningMono {names : List Str} {p q : Str} (longer : p <+: q) : beginning names q ≤ beginning names p := by
  unfold beginning
  refine (List.monotone_filter_right names fun s starts => ?_).length_le
  exact List.isPrefixOf_iff_prefix.mpr (longer.trans (List.isPrefixOf_iff_prefix.mp starts))

theorem aloneListed {l : Listing} {name p : Str} (mem : name ∈ l.names) (starts : p <+: name) :
    beginning l.names p ≤ 1 ↔ Alone l.names name p := by
  unfold beginning Alone
  have count : (l.names.filter fun s => p.isPrefixOf s).length =
      ((l.names.filter fun s => p.isPrefixOf s).erase name).length + 1 := by
    have inside : name ∈ l.names.filter fun s => p.isPrefixOf s :=
      List.mem_filter.mpr ⟨mem,List.isPrefixOf_iff_prefix.mpr starts⟩
    rw [List.length_erase_of_mem inside]
    have some' := List.length_pos_of_mem inside
    omega
  have others : ∀ s, s ∈ (l.names.filter fun s => p.isPrefixOf s).erase name ↔ s ≠ name ∧ s ∈ l.names ∧ p <+: s := by
    intro s
    rw [(l.distinct.filter _).mem_erase_iff,List.mem_filter,List.isPrefixOf_iff_prefix]
  have few : ((l.names.filter fun s => p.isPrefixOf s).erase name).length = 0 ↔
      ∀ s, ¬ (s ≠ name ∧ s ∈ l.names ∧ p <+: s) := by
    rw [List.length_eq_zero_iff,List.eq_nil_iff_forall_not_mem]
    exact forall_congr' fun s => not_congr (others s)
  constructor
  · intro one s there differ begins
    exact few.mp (by omega) s ⟨differ,there,begins⟩
  · intro alone
    have none' := few.mpr fun s both => alone s both.2.1 both.1 both.2.2
    omega

theorem aloneUnlisted {names : List Str} {name p : Str} (missing : name ∉ names) :
    beginning names p = 0 ↔ Alone names name p := by
  unfold beginning Alone
  rw [List.length_eq_zero_iff,List.filter_eq_nil_iff]
  constructor
  · intro none' s mem _ starts
    exact none' s mem (List.isPrefixOf_iff_prefix.mpr starts)
  · intro alone s mem starts
    exact alone s mem (fun same => missing (same ▸ mem)) (List.isPrefixOf_iff_prefix.mp starts)

theorem prefixFound (names : List Str) (name : Str) :
    (∃ j < name.length, uniquePrefix names name = name.take (j + 1) ∧ beginning names (name.take (j + 1)) ≤ 1 ∧
      ∀ i < j, 1 < beginning names (name.take (i + 1))) ∨
    (uniquePrefix names name = name ∧ ∀ i < name.length, 1 < beginning names (name.take (i + 1))) := by
  unfold uniquePrefix
  cases found : (List.range name.length).find? fun j =>
      decide ((names.filter fun s => (name.take (j + 1)).isPrefixOf s).length ≤ 1) with
  | none =>
    refine .inr ⟨rfl,fun i small => ?_⟩
    have none' := List.find?_eq_none.mp found i (List.mem_range.mpr small)
    exact Nat.lt_of_not_le fun few => none' (decide_eq_true few)
  | some j =>
    obtain ⟨few,small,before⟩ := List.find?_range_eq_some.mp found
    refine .inl ⟨j,List.mem_range.mp small,rfl,of_decide_eq_true few,fun i less => ?_⟩
    simpa [beginning] using before i less

theorem prefixListed {l : Listing} {name : Str} (mem : name ∈ l.names) :
    Shortest l.names name (uniquePrefix l.names name) := by
  have alone : ∀ i, beginning l.names (name.take (i + 1)) ≤ 1 ↔ Alone l.names name (name.take (i + 1)) :=
    fun i => aloneListed mem (List.take_prefix _ _)
  rcases prefixFound l.names name with ⟨j,small,found,few,least⟩ | ⟨found,none'⟩
  · rw [found]
    exact .inl ⟨j,small,rfl,(alone j).mp few,fun i less one => Nat.not_le.mpr (least i less) ((alone i).mpr one)⟩
  · rw [found]
    exact .inr ⟨rfl,fun i small one => Nat.not_le.mpr (none' i small) ((alone i).mpr one)⟩

/-- A name that is not listed gets a prefix that a listed name has too, where such a prefix is shorter than the
name and only one listed name has it. -/
theorem prefixUnlisted {names : List Str} {name : Str} (missing : name ∉ names) :
    Shortest names name (uniquePrefix names name) ↔
      ∀ j, j + 1 < name.length → beginning names (name.take (j + 1)) ≠ 1 := by
  have alone : ∀ i, beginning names (name.take (i + 1)) = 0 ↔ Alone names name (name.take (i + 1)) :=
    fun i => aloneUnlisted missing
  have fewer : ∀ {i j}, i ≤ j → beginning names (name.take (j + 1)) ≤ beginning names (name.take (i + 1)) :=
    fun less => beginningMono (List.take_prefix_take_left (by omega))
  rcases prefixFound names name with ⟨j,small,found,few,least⟩ | ⟨found,none'⟩
  · rw [found]
    constructor
    · intro shortest k inside one
      -- The prefix found has as many names as that of `k`, which is one, and so is not alone.
      have before : j ≤ k := by
        by_contra less
        have := least k (by omega)
        omega
      have here : beginning names (name.take (j + 1)) = 1 := by
        have := fewer before
        omega
      rcases shortest with ⟨i,small',same,alone',-⟩ | ⟨same,-⟩
      · have := (alone j).mpr alone'
        omega
      · have := congrArg List.length same
        rw [List.length_take] at this
        omega
    · intro never
      by_cases none' : beginning names (name.take (j + 1)) = 0
      · refine .inl ⟨j,small,rfl,(alone j).mp none',fun i less one => ?_⟩
        have := (alone i).mpr one
        have := least i less
        omega
      · have last : name.length ≤ j + 1 := by
          by_contra more
          exact never j (by omega) (by omega)
        refine .inr ⟨List.take_of_length_le last,fun i inside one => ?_⟩
        have zero := (alone i).mpr one
        have := @fewer i j (by omega)
        omega
  · rw [found]
    refine iff_of_true (.inr ⟨rfl,fun i small one => ?_⟩) fun j inside one => ?_
    · have := (alone i).mpr one
      have := none' i small
      omega
    · have := none' j (by omega)
      omega

theorem prefixShortest (l : Listing) (name : Str) : Shortest l.names name (uniquePrefix l.names name) ↔
    name ∈ l.names ∨ ∀ j, j + 1 < name.length → beginning l.names (name.take (j + 1)) ≠ 1 := by
  by_cases mem : name ∈ l.names
  · exact iff_of_true (prefixListed mem) (.inl mem)
  · rw [prefixUnlisted mem,or_iff_right mem]

theorem prefixDistinct {l : Listing} {a b : Str} (mem : a ∈ l.names) (mem' : b ∈ l.names) (differ : a ≠ b) :
    uniquePrefix l.names a ≠ uniquePrefix l.names b := by
  intro same
  have second := prefixListed mem'
  rw [← same] at second
  exact shortestDistinct mem mem' differ (prefixListed mem) second

end P11k.Render
