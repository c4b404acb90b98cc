import P11k.Gitstatus.Dirty

/-! Which candidates the dirty loop counts as tracked. In a case-insensitive repository the
entries come in folded order, while the lookup and the tree builder need byte order. -/
namespace P11k.Gitstatus
open BinarySearch (binarySearchBy byKey)
open scoped List

def tracked (entries : List IndexEntry) (c : Bytes) : Bool :=
  c.getLast? ≠ some slash && inIndexExact entries c

def missing (w : Worktree) (c : Bytes) : Bool := (w.fstatat c).isNone

section counts
variable (w : Worktree) (statusShouldIgnore : Bytes → Bool) (entries : List IndexEntry)
  (limits : Options)

theorem countTracked {c : Bytes} (here : tracked entries c = true) (stats : IndexStats) :
    countCandidate w statusShouldIgnore entries limits c stats = some { stats with
      numUnstaged := stats.numUnstaged + 1,
      numUnstagedDeleted := stats.numUnstagedDeleted + if missing w c then 1 else 0 } := by
  simp only [tracked,Bool.and_eq_true,decide_eq_true_eq] at here
  rw [countCandidate,if_neg here.1,if_pos here.2]
  cases found : w.fstatat c <;> simp [missing,found]

theorem countUntracked {c : Bytes} (other : tracked entries c = false) (n : Nat) : ∃ m,
    ∀ stats : IndexStats, stats.numUntracked = n →
      countCandidate w statusShouldIgnore entries limits c stats =
        some { stats with numUntracked := m } := by
  obtain ⟨m,walked⟩ := Option.isSome_iff_exists.mp (countUntrackedBelowEnds w statusShouldIgnore entries
    limits.recurseUntrackedDirs limits.maxNumUntracked (w.pathMax+1) c.dropLast n (by omega))
  by_cases dir : c.getLast? = some slash
  · by_cases any : limits.maxNumUntracked = 0
    · refine ⟨n,fun stats same => ?_⟩
      rw [countCandidate,if_pos dir,if_neg (by simpa using any),← same]
    · refine ⟨m,fun stats same => ?_⟩
      rw [countCandidate,if_pos dir,if_pos any,same,walked]
      rfl
  · have absent : inIndexExact entries c = false := by simpa [tracked,dir] using other
    refine ⟨if statusShouldIgnore c then n else n+1,fun stats same => ?_⟩
    subst same
    rw [countCandidate,if_neg dir,absent,if_neg (by simp)]
    split <;> rfl

theorem reachedUnlimited {count : Nat} {max : Int} (unlimited : max < 0) : reached count max = false := by
  simp only [reached,Bool.and_eq_false_imp,decide_eq_true_eq]
  omega

theorem capReached {count more : Nat} {max : Int} (full : reached count max = true) :
    cap count max = cap (count + more) max := by
  simp only [reached,Bool.and_eq_true,decide_eq_true_eq] at full
  unfold cap
  split <;> omega

theorem dirtyLoopUnstaged {candidates : List Bytes} {stats result : IndexStats}
    (run : dirtyLoop w statusShouldIgnore entries limits candidates stats = some result) :
    cap result.numUnstaged limits.maxNumUnstaged =
      cap (stats.numUnstaged + candidates.countP (tracked entries)) limits.maxNumUnstaged := by
  induction candidates generalizing stats with
  | nil => simp_all [dirtyLoop]
  | cons c candidates ih =>
    obtain ⟨next,here,rest⟩ := Option.bind_eq_some_iff.mp run
    have one : next.numUnstaged = stats.numUnstaged + [c].countP (tracked entries) := by
      cases kind : tracked entries c with
      | true =>
        rw [countTracked w statusShouldIgnore entries limits kind] at here
        cases here
        simp [kind]
      | false =>
        obtain ⟨m,step⟩ := countUntracked w statusShouldIgnore entries limits kind stats.numUntracked
        rw [step stats rfl] at here
        cases here
        simp [kind]
    have whole : stats.numUnstaged + (c :: candidates).countP (tracked entries) =
        next.numUnstaged + candidates.countP (tracked entries) := by
      rw [one,Nat.add_assoc,← List.countP_append]
      rfl
    rw [whole]
    split at rest
    · rename_i stop
      cases rest
      exact capReached (Bool.and_eq_true_iff.mp stop).1
    · exact ih rest

theorem dirtyLoopUnlimited (unlimited : limits.maxNumUnstaged < 0) (candidates : List Bytes)
    (stats : IndexStats) : ∃ result,
    dirtyLoop w statusShouldIgnore entries limits candidates stats = some result ∧
      result.numUnstaged = stats.numUnstaged + candidates.countP (tracked entries) ∧
      result.numUnstagedDeleted = stats.numUnstagedDeleted +
        candidates.countP (fun c => tracked entries c && missing w c) ∧
      ∀ other : IndexStats, other.numUntracked = stats.numUntracked → ∃ rest,
        dirtyLoop w statusShouldIgnore entries limits
          (candidates.filter (fun c => !tracked entries c)) other = some rest ∧
        rest.numUntracked = result.numUntracked := by
  induction candidates generalizing stats with
  | nil => exact ⟨stats,rfl,rfl,rfl,fun other same => ⟨other,rfl,same⟩⟩
  | cons c candidates ih =>
    have on : ∀ s : IndexStats, (reached s.numUnstaged limits.maxNumUnstaged &&
        reached s.numUntracked limits.maxNumUntracked) = false := by
      intro s
      rw [reachedUnlimited unlimited,Bool.false_and]
    cases kind : tracked entries c with
    | true =>
      have here := countTracked w statusShouldIgnore entries limits kind stats
      obtain ⟨result,run,unstaged,deleted,rest⟩ := ih { stats with
        numUnstaged := stats.numUnstaged + 1,
        numUnstagedDeleted := stats.numUnstagedDeleted + if missing w c then 1 else 0 }
      dsimp only at unstaged deleted
      refine ⟨result,?_,?_,?_,?_⟩
      · simp only [dirtyLoop,here,Option.bind_eq_bind,Option.bind_some,on,Bool.false_eq_true,if_false,run]
      · rw [unstaged,List.countP_cons_of_pos kind]; omega
      · rw [deleted,List.countP_cons,kind,Bool.true_and]; omega
      · intro other same
        rw [List.filter_cons_of_neg (by simp [kind])]
        exact rest other same
    | false =>
      obtain ⟨m,step⟩ := countUntracked w statusShouldIgnore entries limits kind stats.numUntracked
      obtain ⟨result,run,unstaged,deleted,rest⟩ := ih { stats with numUntracked := m }
      refine ⟨result,?_,?_,?_,?_⟩
      · simp only [dirtyLoop,step stats rfl,Option.bind_eq_bind,Option.bind_some,on,Bool.false_eq_true,
          if_false,run]
      · rw [unstaged,List.countP_cons_of_neg (by simp [kind])]
      · rw [deleted,List.countP_cons_of_neg (by simp [kind])]
      · intro other same
        obtain ⟨last,runLast,count⟩ := rest { other with numUntracked := m } rfl
        refine ⟨last,?_,count⟩
        rw [List.filter_cons_of_pos (by simp [kind])]
        simp only [dirtyLoop,step other same,Option.bind_eq_bind,Option.bind_some,on,Bool.false_eq_true,
          if_false,runLast]

theorem capUnlimited {count : Nat} {max : Int} (unlimited : max < 0) : cap count max = count := if_pos unlimited

theorem capNat (count max : Nat) : cap count max = min count max := by
  simp [cap]

theorem computeDirtyUnstaged {candidates : List Bytes} {result : IndexStats}
    (run : computeDirty w statusShouldIgnore entries limits candidates noStats = some result) :
    result.numUnstaged = cap (candidates.countP (tracked entries)) limits.maxNumUnstaged := by
  unfold computeDirty at run
  split at run
  · rename_i none
    cases run
    subst none
    simp [noStats,cap]
  · obtain ⟨s,loop,same⟩ := Option.bind_eq_some_iff.mp run
    cases same
    have counted := dirtyLoopUnstaged w statusShouldIgnore entries limits loop
    simpa [noStats] using counted

theorem computeDirtyUnlimited (unlimited : limits.maxNumUnstaged < 0) {candidates : List Bytes}
    {result : IndexStats}
    (run : computeDirty w statusShouldIgnore entries limits candidates noStats = some result) :
    result.numUnstagedDeleted = candidates.countP (fun c => tracked entries c && missing w c) ∧
      ∃ rest, computeDirty w statusShouldIgnore entries limits
          (candidates.filter (fun c => !tracked entries c)) noStats = some rest ∧
        rest.numUntracked = result.numUntracked := by
  obtain ⟨s,loop,unstaged,deleted,others⟩ := dirtyLoopUnlimited w statusShouldIgnore entries limits unlimited
    candidates noStats
  obtain ⟨t,loop',same⟩ := others noStats rfl
  have fewer : candidates.countP (fun c => tracked entries c && missing w c) ≤
      candidates.countP (tracked entries) :=
    List.countP_mono_left fun c _ both => (Bool.and_eq_true_iff.mp both).1
  unfold computeDirty at run ⊢
  split at run
  · rename_i none
    cases run
    subst none
    exact ⟨rfl,noStats,rfl,rfl⟩
  · rw [loop] at run
    cases run
    constructor
    · simp only [noStats,Nat.zero_add] at unstaged deleted
      change cap s.numUnstagedDeleted (cap s.numUnstaged limits.maxNumUnstaged : Nat) = _
      rw [capUnlimited unlimited,capNat,unstaged,deleted]
      exact Nat.min_eq_left fewer
    · split
      · rename_i none
        rw [none] at loop'
        cases loop'
        refine ⟨_,rfl,?_⟩
        simp only [← same,noStats,cap]
        split <;> simp
      · rw [loop']
        exact ⟨_,rfl,by simp only [same]⟩

end counts
end P11k.Gitstatus
