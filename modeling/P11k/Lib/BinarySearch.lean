import Mathlib.Data.List.Sort

/-! Branchless binary search over a slice: the loop always runs down to one element, and
the last comparison decides between a hit and an insertion point. On unsorted input the
result is defined but may miss; a search that finds every element certifies the order. -/
namespace P11k.BinarySearch

section search
variable {α : Type}

/-- `fuel` bounds the halvings; the length of the slice is always enough. -/
def searchLoop (xs : List α) (cmp : α → Ordering) : Nat → Nat → Nat → Nat
  | 0, base, _ => base
  | fuel+1, base, size =>
      if 1 < size then
        let half := size / 2
        let mid := base + half
        let next := if (xs[mid]?).map cmp = some .gt then base else mid
        searchLoop xs cmp fuel next (size - half)
      else base

def binarySearchBy (xs : List α) (cmp : α → Ordering) : Except Nat Nat :=
  if xs.length = 0 then .error 0 else
    let base := searchLoop xs cmp xs.length 0 xs.length
    match (xs[base]?).map cmp with
    | some .eq => .ok base
    | some .lt => .error (base+1)
    | _ => .error base

theorem loopBounds (xs : List α) (cmp : α → Ordering) (fuel base size : Nat) (some' : 0 < size) :
    base ≤ searchLoop xs cmp fuel base size ∧ searchLoop xs cmp fuel base size < base+size := by
  induction fuel generalizing base size with
  | zero => simp only [searchLoop]; omega
  | succ fuel ih =>
    simp only [searchLoop]
    split
    · rename_i many
      split
      · have h := ih base (size - size/2) (by omega); omega
      · have h := ih (base + size/2) (size - size/2) (by omega); omega
    · omega

def Monotone (xs : List α) (cmp : α → Ordering) : Prop :=
  xs.Pairwise (fun a b => (cmp a = .gt → cmp b = .gt) ∧ (cmp b = .lt → cmp a = .lt))

theorem monotoneAt {xs : List α} {cmp : α → Ordering} (mono : Monotone xs cmp) {i j : Nat} {a b : α}
    (lt : i < j) (ha : xs[i]? = some a) (hb : xs[j]? = some b) :
    (cmp a = .gt → cmp b = .gt) ∧ (cmp b = .lt → cmp a = .lt) := by
  obtain ⟨hi,rfl⟩ := List.getElem?_eq_some_iff.mp ha
  obtain ⟨hj,rfl⟩ := List.getElem?_eq_some_iff.mp hb
  exact List.pairwise_iff_getElem.mp mono i j hi hj lt

theorem loopSplits {xs : List α} {cmp : α → Ordering} (mono : Monotone xs cmp)
    (fuel base size : Nat) (enough : size ≤ fuel) (some' : 0 < size) (inside : base+size ≤ xs.length)
    (low : 0 < base → ∀ x, xs[base]? = some x → cmp x ≠ .gt)
    (high : ∀ j x, base+size ≤ j → xs[j]? = some x → cmp x = .gt) :
    let r := searchLoop xs cmp fuel base size
    (0 < r → ∀ x, xs[r]? = some x → cmp x ≠ .gt) ∧ ∀ j x, r < j → xs[j]? = some x → cmp x = .gt := by
  induction fuel generalizing base size with
  | zero => omega
  | succ fuel ih =>
    simp only [searchLoop]
    by_cases many : 1 < size
    · rw [if_pos many]
      have bound : base + size/2 < xs.length := by omega
      obtain ⟨m,hm⟩ : ∃ m, xs[base+size/2]? = some m := ⟨_,List.getElem?_eq_getElem bound⟩
      by_cases gt : cmp m = .gt
      · rw [if_pos (by simp [hm,gt])]
        apply ih base (size - size/2) (by omega) (by omega) (by omega) low
        intro j x hj hx
        rcases Nat.lt_or_eq_of_le (show base + size/2 ≤ j by omega) with after | rfl
        · exact (monotoneAt mono after hm hx).1 gt
        · rw [hm] at hx; cases hx; exact gt
      · rw [if_neg (by simp [hm,gt])]
        apply ih (base+size/2) (size - size/2) (by omega) (by omega) (by omega)
        · intro _ x hx
          rw [hm] at hx; cases hx; exact gt
        · intro j x hj hx
          exact high j x (by omega) hx
    · rw [if_neg many]
      exact ⟨low,fun j x hj hx => high j x (by omega) hx⟩

theorem searchSpec {xs : List α} {cmp : α → Ordering} (mono : Monotone xs cmp) :
    match binarySearchBy xs cmp with
    | .ok i => ∃ x, xs[i]? = some x ∧ cmp x = .eq
    | .error p => p ≤ xs.length ∧ (∀ j x, j < p → xs[j]? = some x → cmp x = .lt) ∧
        ∀ j x, p ≤ j → xs[j]? = some x → cmp x = .gt := by
  unfold binarySearchBy
  by_cases empty : xs.length = 0
  · rw [if_pos empty]
    refine ⟨Nat.zero_le _,by omega,fun j x _ hx => ?_⟩
    rw [List.length_eq_zero_iff.mp empty] at hx
    simp at hx
  · rw [if_neg empty]
    have split := loopSplits mono xs.length 0 xs.length (Nat.le_refl _) (by omega) (by omega)
      (fun h => absurd h (Nat.lt_irrefl 0))
      (fun j x hj hx => by rw [List.getElem?_eq_none (by omega)] at hx; contradiction)
    have bounds := loopBounds xs cmp xs.length 0 xs.length (by omega)
    dsimp only at split ⊢
    generalize searchLoop xs cmp xs.length 0 xs.length = r at split bounds ⊢
    obtain ⟨x,hx⟩ : ∃ x, xs[r]? = some x := ⟨_,List.getElem?_eq_getElem (by omega)⟩
    simp only [hx,Option.map_some]
    cases same : cmp x with
    | eq => exact ⟨x,hx,same⟩
    | lt =>
      refine ⟨by omega,fun j y hj hy => ?_,fun j y hj hy => split.2 j y (by omega) hy⟩
      rcases Nat.lt_or_eq_of_le (Nat.lt_succ_iff.mp hj) with before | rfl
      · exact (monotoneAt mono before hy hx).2 same
      · rw [hx] at hy; cases hy; exact same
    | gt =>
      have first : r = 0 := by
        by_contra pos
        exact split.1 (by omega) x hx same
      subst first
      refine ⟨Nat.zero_le _,by omega,fun j y _ hy => ?_⟩
      rcases Nat.eq_zero_or_pos j with rfl | pos
      · rw [hx] at hy; cases hy; exact same
      · exact split.2 j y pos hy

theorem okIff {xs : List α} {cmp : α → Ordering} (mono : Monotone xs cmp) :
    (∃ i, binarySearchBy xs cmp = .ok i) ↔ ∃ x ∈ xs, cmp x = .eq := by
  have spec := searchSpec mono
  constructor
  · rintro ⟨i,hi⟩
    rw [hi] at spec
    obtain ⟨x,hx,same⟩ := spec
    exact ⟨x,List.mem_of_getElem? hx,same⟩
  · rintro ⟨x,mem,same⟩
    obtain ⟨j,hj⟩ := List.mem_iff_getElem?.mp mem
    cases result : binarySearchBy xs cmp with
    | ok i => exact ⟨i,rfl⟩
    | error p =>
      rw [result] at spec
      rcases Nat.lt_or_ge j p with before | after
      · have := spec.2.1 j x before hj; rw [same] at this; contradiction
      · have := spec.2.2 j x after hj; rw [same] at this; contradiction

theorem okHit {xs : List α} {cmp : α → Ordering} {i : Nat} (hit : binarySearchBy xs cmp = .ok i) :
    i = searchLoop xs cmp xs.length 0 xs.length ∧ ∃ x, xs[i]? = some x ∧ cmp x = .eq := by
  unfold binarySearchBy at hit
  split at hit
  · contradiction
  · dsimp only at hit
    split at hit <;> try contradiction
    rename_i equal
    cases hit
    obtain ⟨x,hx,same⟩ := Option.map_eq_some_iff.mp equal
    exact ⟨rfl,x,hx,same⟩

/-- The positions that the loop looks at on its way to position `i`. -/
def probes (i : Nat) : Nat → Nat → Nat → List Nat
  | 0, _, _ => []
  | fuel+1, base, size =>
      if 1 < size then
        let half := size / 2
        let mid := base + half
        mid :: probes i fuel (if i < mid then base else mid) (size - half)
      else []

theorem probesInside (i fuel base size : Nat) : ∀ m ∈ probes i fuel base size, m < base+size := by
  induction fuel generalizing base size with
  | zero => simp [probes]
  | succ fuel ih =>
    intro m mem
    simp only [probes] at mem
    split at mem
    · rcases List.mem_cons.mp mem with rfl | later
      · omega
      · have := ih _ _ m later
        split at this <;> omega
    · simp at mem

theorem loopMoved (xs : List α) (cmp : α → Ordering) (fuel base size : Nat)
    (moved : base < searchLoop xs cmp fuel base size) :
    (xs[searchLoop xs cmp fuel base size]?).map cmp ≠ some .gt := by
  induction fuel generalizing base size with
  | zero => exact absurd moved (Nat.lt_irrefl base)
  | succ fuel ih =>
    simp only [searchLoop] at moved ⊢
    by_cases many : 1 < size
    · rw [if_pos many] at moved ⊢
      by_cases gt : (xs[base+size/2]?).map cmp = some .gt
      · rw [if_pos gt] at moved ⊢
        exact ih _ _ moved
      · rw [if_neg gt]
        have bound := (loopBounds xs cmp fuel (base+size/2) (size-size/2) (by omega)).1
        rcases Nat.lt_or_eq_of_le bound with further | here
        · exact ih _ _ further
        · rwa [← here]
    · rw [if_neg many] at moved
      exact absurd moved (Nat.lt_irrefl base)

theorem loopEndsIff (xs : List α) (cmp : α → Ordering) {i : Nat} (fuel base size : Nat)
    (enough : size ≤ fuel) (from' : base ≤ i) (upto : i < base+size) (inside : base+size ≤ xs.length) :
    searchLoop xs cmp fuel base size = i ↔
      ∀ m ∈ probes i fuel base size, (xs[m]?).map cmp = some .gt ↔ i < m := by
  induction fuel generalizing base size with
  | zero => omega
  | succ fuel ih =>
    simp only [searchLoop,probes]
    by_cases many : 1 < size
    · rw [if_pos many,if_pos many]
      by_cases gt : (xs[base+size/2]?).map cmp = some .gt
      · by_cases left : i < base+size/2
        · simp only [gt,left,if_true,List.forall_mem_cons,true_and]
          exact ih base (size-size/2) (by omega) (by omega) (by omega) (by omega)
        · have bound := (loopBounds xs cmp fuel base (size-size/2) (by omega)).2
          rw [if_pos gt]
          refine iff_of_false (fun ends => ?_) fun all => left ((all _ List.mem_cons_self).mp gt)
          have same : i = base+size/2 := by omega
          have moved := loopMoved xs cmp fuel base (size-size/2) (by omega)
          rw [ends,same] at moved
          exact moved gt
      · by_cases left : i < base+size/2
        · have bound := (loopBounds xs cmp fuel (base+size/2) (size-size/2) (by omega)).1
          rw [if_neg gt]
          exact iff_of_false (by omega) fun all => gt ((all _ List.mem_cons_self).mpr left)
        · simp only [gt,left,if_false,List.forall_mem_cons,true_and]
          exact ih (base+size/2) (size-size/2) (by omega) (by omega) (by omega) (by omega)
    · rw [if_neg many,if_neg many]
      simp only [List.not_mem_nil,false_imp_iff,implies_true,iff_true]
      omega

/-- Whatever the order of the slice, there is a hit exactly when some position compares equal
and each probe on the way points to it. -/
theorem hitIff (xs : List α) (cmp : α → Ordering) :
    (∃ i, binarySearchBy xs cmp = .ok i) ↔ ∃ i x, xs[i]? = some x ∧ cmp x = .eq ∧
      ∀ m ∈ probes i xs.length 0 xs.length, (xs[m]?).map cmp = some .gt ↔ i < m := by
  have ends := fun {i} (bound : i < xs.length) => loopEndsIff xs cmp (i := i) xs.length 0 xs.length
    (Nat.le_refl _) (Nat.zero_le i) (by omega) (by omega)
  constructor
  · rintro ⟨i,hit⟩
    obtain ⟨pos,x,hx,same⟩ := okHit hit
    exact ⟨i,x,hx,same,(ends (List.getElem?_eq_some_iff.mp hx).1).mp pos.symm⟩
  · rintro ⟨i,x,hx,same,points⟩
    have bound := (List.getElem?_eq_some_iff.mp hx).1
    have pos := (ends bound).mpr points
    refine ⟨i,?_⟩
    unfold binarySearchBy
    rw [if_neg (by omega)]
    simp only [pos,hx,Option.map_some,same]

end search

section keyed
variable {α κ : Type} [LE κ] [LT κ] [DecidableEq κ] [DecidableLT κ] [Std.IsLinearOrder κ]
  [Std.LawfulOrderLT κ] (key : α → κ)

def byKey (k : κ) (x : α) : Ordering := compareOfLessAndEq (key x) k

omit [LE κ] [Std.IsLinearOrder κ] [Std.LawfulOrderLT κ] in
theorem byKeyLt (k : κ) (x : α) : byKey key k x = .lt ↔ key x < k := by
  unfold byKey compareOfLessAndEq
  split <;> [simp_all; (split <;> simp_all)]

omit [Std.IsLinearOrder κ] in
theorem byKeyEq (k : κ) (x : α) : byKey key k x = .eq ↔ key x = k := by
  unfold byKey compareOfLessAndEq
  split
  · rename_i lt
    simp only [reduceCtorEq,false_iff]
    intro same
    exact Std.lt_irrefl (same ▸ lt)
  · split <;> simp_all

theorem byKeyGt (k : κ) (x : α) : byKey key k x = .gt ↔ k < key x := by
  have lt := byKeyLt key k x
  have eq := byKeyEq key k x
  cases h : byKey key k x with
  | lt =>
    have small := lt.mp h
    simp only [reduceCtorEq,false_iff]
    exact fun big => Std.lt_irrefl (Std.lt_trans small big)
  | eq =>
    have same := eq.mp h
    simp only [reduceCtorEq,false_iff,same]
    exact Std.lt_irrefl
  | gt =>
    simp only [true_iff]
    rcases Std.lt_trichotomy k (key x) with big | same | small
    · exact big
    · rw [eq.mpr same.symm] at h; contradiction
    · rw [lt.mpr small] at h; contradiction

theorem sortedMonotone {xs : List α} (sorted : xs.Pairwise (fun a b => key a ≤ key b)) (k : κ) :
    Monotone xs (byKey key k) := by
  apply sorted.imp
  intro a b le
  simp only [byKeyGt,byKeyLt]
  exact ⟨fun h => Std.lt_of_lt_of_le h le,fun h => Std.lt_of_le_of_lt le h⟩

theorem foundIff {xs : List α} (sorted : xs.Pairwise (fun a b => key a ≤ key b)) (k : κ) :
    (∃ i, binarySearchBy xs (byKey key k) = .ok i) ↔ ∃ x ∈ xs, key x = k := by
  simpa only [byKeyEq] using okIff (sortedMonotone key sorted k)

/-- The search finds `k` at some position that every probe on the way there agrees with. -/
def Reachable (xs : List α) (k : κ) : Prop :=
  ∃ i x, xs[i]? = some x ∧ key x = k ∧
    ∀ m ∈ probes i xs.length 0 xs.length, ∀ y, xs[m]? = some y → (k < key y ↔ i < m)

theorem reachableIff (xs : List α) (k : κ) :
    (∃ i, binarySearchBy xs (byKey key k) = .ok i) ↔ Reachable key xs k := by
  rw [hitIff,Reachable]
  simp only [byKeyEq]
  refine exists_congr fun i => exists_congr fun x => and_congr_right fun hx => and_congr_right fun _ =>
    forall_congr' fun m => ?_
  refine imp_congr_right fun mem => ?_
  have bound := probesInside i xs.length 0 xs.length m mem
  obtain ⟨y,hy⟩ : ∃ y, xs[m]? = some y := ⟨_,List.getElem?_eq_getElem (by omega)⟩
  simp only [hy,Option.map_some,Option.some.injEq,byKeyGt,forall_eq']

/- The search for the key at position k has to end at k. Going left of a probe can only
reach positions up to the probe and going right only those from it on, so each probe has
the smaller keys on its left and the larger ones on its right. -/
theorem loopFindsSorted {xs : List α} {keys : List κ} (names : keys = xs.map key)
    (fuel base size hi : Nat) (enough : size ≤ fuel) (some' : 0 < size)
    (inside : base+size ≤ xs.length) (reach : hi ≤ base+size)
    (finds : ∀ k x, base ≤ k → k < hi → keys[k]? = some x →
      searchLoop xs (byKey key x) fuel base size = k)
    {i j : Nat} {a b : κ} (from' : base ≤ i) (lt : i < j) (upto : j < hi)
    (ha : keys[i]? = some a) (hb : keys[j]? = some b) : a < b := by
  induction fuel generalizing base size hi i j a b with
  | zero => omega
  | succ fuel ih =>
    have many : 1 < size := by omega
    have midIn : base + size/2 < xs.length := by omega
    obtain ⟨m,hm⟩ : ∃ m, xs[base+size/2]? = some m := ⟨_,List.getElem?_eq_getElem midIn⟩
    have keyAt : keys[base+size/2]? = some (key m) := by rw [names,List.getElem?_map,hm]; rfl
    have go : ∀ x, searchLoop xs (byKey key x) (fuel+1) base size =
        if x < key m then searchLoop xs (byKey key x) fuel base (size - size/2)
        else searchLoop xs (byKey key x) fuel (base+size/2) (size - size/2) := by
      intro x
      simp only [searchLoop,if_pos many,hm,Option.map_some,Option.some.injEq,byKeyGt]
      split <;> rfl
    have left : ∀ k x, base ≤ k → k < hi → k < base+size/2 → keys[k]? = some x →
        x < key m ∧ searchLoop xs (byKey key x) fuel base (size - size/2) = k := by
      intro k x hk kh below hx
      have found := finds k x hk kh hx
      rw [go] at found
      split at found
      · exact ⟨by assumption,found⟩
      · have := (loopBounds xs (byKey key x) fuel (base+size/2) (size-size/2) (by omega)).1
        omega
    have right : ∀ k x, k < hi → base+size/2 ≤ k → keys[k]? = some x →
        key m ≤ x ∧ searchLoop xs (byKey key x) fuel (base+size/2) (size - size/2) = k := by
      intro k x kh above hx
      have found := finds k x (by omega) kh hx
      rw [go] at found
      split at found
      · rename_i small
        have := (loopBounds xs (byKey key x) fuel base (size-size/2) (by omega)).2
        have same : k = base+size/2 := by omega
        subst same
        rw [keyAt] at hx; cases hx
        exact absurd small Std.lt_irrefl
      · exact ⟨Std.not_lt.mp (by assumption),found⟩
    rcases Nat.lt_or_ge j (base+size/2) with low | high
    · exact ih base (size - size/2) (min hi (base+size/2)) (by omega) (by omega) (by omega) (by omega)
        (fun k x hk kh hx => (left k x hk (by omega) (by omega) hx).2) from' lt (by omega) ha hb
    · rcases Nat.lt_or_ge i (base+size/2) with before | after
      · exact Std.lt_of_lt_of_le (left i a from' (by omega) before ha).1 (right j b upto high hb).1
      · exact ih (base+size/2) (size - size/2) hi (by omega) (by omega) (by omega) (by omega)
          (fun k x hk kh hx => (right k x kh hk hx).2) after lt upto ha hb

theorem findsAllSorted {xs : List α} (unique : (xs.map key).Nodup)
    (finds : ∀ x ∈ xs, ∃ i, binarySearchBy xs (byKey key (key x)) = .ok i) :
    xs.Pairwise (fun a b => key a < key b) := by
  apply List.pairwise_iff_getElem.mpr
  intro i j hi hj lt
  have at' : ∀ k x, 0 ≤ k → k < xs.length → (xs.map key)[k]? = some x →
      searchLoop xs (byKey key x) xs.length 0 xs.length = k := by
    intro k x _ hk hx
    obtain ⟨y,hy,rfl⟩ := Option.map_eq_some_iff.mp (List.getElem?_map ▸ hx)
    obtain ⟨p,hp⟩ := finds y (List.mem_of_getElem? hy)
    obtain ⟨rfl,z,hz,same⟩ := okHit hp
    have keyZ := (byKeyEq key (key y) z).mp same
    have sameKey : (xs.map key)[searchLoop xs (byKey key (key y)) xs.length 0 xs.length]? =
        (xs.map key)[k]? := by simp only [List.getElem?_map,hz,hy,Option.map_some,keyZ]
    exact ((List.getElem?_inj (by simpa using hk) unique).mp sameKey.symm).symm
  exact loopFindsSorted key rfl xs.length 0 xs.length xs.length (Nat.le_refl _) (by omega) (by omega)
    (by omega) at' (Nat.zero_le i) lt hj (by simp [hi]) (by simp [hj])

end keyed
end P11k.BinarySearch
