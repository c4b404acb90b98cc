import P11k.Gitstatus.Candidates
import P11k.Gitstatus.Dirty

/-! The two lookups in an index that is sorted by path: an exact path, and a directory above
an entry. -/
namespace P11k.Gitstatus
open BinarySearch (binarySearchBy byKey)
open scoped List

variable (index : SortedEntries true)

theorem entriesSorted : index.entries.Pairwise (fun a b => a.path ≤ b.path) := by
  simpa only [foldKeyTrue] using index.sorted

theorem inIndexSorted (rel : Bytes) :
    inIndexExact index.entries rel = true ↔ ∃ e ∈ index.entries, e.path = rel := by
  have found := BinarySearch.foundIff IndexEntry.path (entriesSorted index) rel
  rw [← found,inIndexExact]
  cases binarySearchBy index.entries (byKey (·.path) rel) <;> simp [Except.isOk,Except.toBool]

theorem relInIndexDir (rel : Bytes) :
    relInIndex index.entries rel true = true ↔ ∃ e ∈ index.entries, rel ++ [slash] <+: e.path := by
  have spec := BinarySearch.searchSpec (BinarySearch.sortedMonotone IndexEntry.path (entriesSorted index)
    (rel ++ [slash]))
  simp only [relInIndex,if_true]
  cases hit : binarySearchBy index.entries (byKey (·.path) (rel ++ [slash])) with
  | ok i =>
    rw [hit] at spec
    obtain ⟨e,at',same⟩ := spec
    have path := (BinarySearch.byKeyEq IndexEntry.path _ e).mp same
    exact iff_of_true rfl ⟨e,List.mem_of_getElem? at',path ▸ List.prefix_refl _⟩
  | error pos =>
    rw [hit] at spec
    obtain ⟨_,before,behind⟩ := spec
    simp only [Option.any_eq_true,List.isPrefixOf_iff_prefix]
    constructor
    · rintro ⟨e,at',pre⟩
      exact ⟨e,List.mem_of_getElem? at',pre⟩
    · rintro ⟨e,mem,pre⟩
      obtain ⟨j,at'⟩ := List.mem_iff_getElem?.mp mem
      have late : pos ≤ j := by
        by_contra early
        have lt := (BinarySearch.byKeyLt IndexEntry.path _ e).mp (before j e (by omega) at')
        exact Std.lt_irrefl (Std.lt_of_lt_of_le lt (PrefixOrder.prefixLe pre))
      obtain ⟨first,there⟩ : ∃ first, index.entries[pos]? = some first :=
        ⟨_,List.getElem?_eq_getElem (by have := (List.getElem?_eq_some_iff.mp at').1; omega)⟩
      have above := (BinarySearch.byKeyGt IndexEntry.path _ first).mp (behind pos first (Nat.le_refl _) there)
      have le := PrefixOrder.sortedMono (sortedPaths index) late (a := first.path) (b := e.path)
        (by rw [List.getElem?_map,there]; rfl) (by rw [List.getElem?_map,at']; rfl)
      exact ⟨first,there,PrefixOrder.prefixBetween (List.prefix_refl _) pre (Std.le_of_lt above) le⟩

theorem treeDirBelow {rel : Bytes} :
    TreeDir index.entries (rel ++ [slash]) ↔ ∃ e ∈ index.entries, rel ++ [slash] <+: e.path := by
  simp [TreeDir,memDirPrefixes]

/-- The lookups of a sorted index find what a look at every entry finds. -/
theorem lookupsLinear (entries : List IndexEntry) (sorted : (entries.map (·.path)).Pairwise (· ≤ ·))
    (rel : Bytes) :
    (relInIndex entries rel true = true ↔ ∃ e ∈ entries, rel ++ [slash] <+: e.path) ∧
    (relInIndex entries rel false = true ↔ ∃ e ∈ entries, e.path = rel) ∧
    (inIndexExact entries rel = true ↔ ∃ e ∈ entries, e.path = rel) := by
  have folded : entries.Pairwise (fun a b => foldKey true a.path ≤ foldKey true b.path) := by
    simpa only [foldKeyTrue] using List.pairwise_map.mp sorted
  have exact' := inIndexSorted ⟨entries,folded⟩ rel
  exact ⟨relInIndexDir ⟨entries,folded⟩ rel,exact',exact'⟩

/-- `a`, `d.x`, `d/b` and `d0`: what sorts around the directory `d` has its name in front. -/
def aroundEntries : List IndexEntry :=
  [⟨[97],1,0,0,0,0o100644,0,0,false⟩,⟨[100,46,120],1,0,0,0,0o100644,0,0,false⟩,
    ⟨[100,47,98],1,0,0,0,0o100644,0,0,false⟩,⟨[100,48],1,0,0,0,0o100644,0,0,false⟩]

theorem aroundLinear : relInIndex aroundEntries [100] true = true ∧ relInIndex aroundEntries [100] false = false ∧
    inIndexExact aroundEntries [100,46,120] = true := by
  have sorted : (aroundEntries.map (·.path)).Pairwise (· ≤ ·) := by decide
  refine ⟨(lookupsLinear aroundEntries sorted [100]).1.mpr ?_,?_,
    (lookupsLinear aroundEntries sorted [100,46,120]).2.2.mpr ?_⟩
  · decide
  · rw [← Bool.not_eq_true,(lookupsLinear aroundEntries sorted [100]).2.1]
    decide
  · decide

end P11k.Gitstatus
