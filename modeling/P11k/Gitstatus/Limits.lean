import P11k.Gitstatus.Resident
import P11k.Gitstatus.Tracked

/-! What a limit does to the counts: a walk that stops early and one that does not differ only where the limit
has been reached in both. -/
namespace P11k.Gitstatus

/-- Two counts that a limit makes the same. -/
def Same (limit : Int) (a b : Nat) : Prop := a = b ∨ reached a limit = true ∧ reached b limit = true

theorem reachedMore {limit : Int} {a b : Nat} (full : reached a limit = true) (more : a ≤ b) : reached b limit = true := by
  simp only [reached,Bool.and_eq_true,decide_eq_true_eq] at full ⊢
  omega

theorem Same.add {limit : Int} {a b : Nat} (same : Same limit a b) (k : Nat) : Same limit (a + k) (b + k) := by
  rcases same with rfl | ⟨left,right⟩
  · exact .inl rfl
  · exact .inr ⟨reachedMore left (Nat.le_add_right a k),reachedMore right (Nat.le_add_right b k)⟩

/-- The one that stops has reached the limit, and the other goes on. -/
theorem Same.stop {limit : Int} {a b c : Nat} (same : Same limit a b) (full : reached a limit = true) (more : b ≤ c) :
    Same limit a c := by
  rcases same with rfl | ⟨_,right⟩
  · exact .inr ⟨full,reachedMore full more⟩
  · exact .inr ⟨full,reachedMore right more⟩

theorem Same.cap {limit : Int} {a b : Nat} (same : Same limit a b) :
    Gitstatus.cap a limit = Gitstatus.cap b limit := by
  rcases same with rfl | ⟨left,right⟩
  · rfl
  · simp only [reached,Bool.and_eq_true,decide_eq_true_eq] at left right
    unfold Gitstatus.cap
    split <;> omega

/-- What the walk does at one entry, whatever the count and the limit. -/
inductive Visit where
  | pass
  | last
  | one
  | below

section walk
variable (w : Worktree) (statusShouldIgnore : Bytes → Bool) (entries : List IndexEntry) (recurse : Bool)

def visit (dirRel : Bytes) (e : DirEntry) : Visit :=
  let rel := dirRel ++ slash :: e.name
  let isDir := isDirType w rel e
  let descend :=
    if recurse && isDir then
      if hasGitDir w rel then if inIndexExact entries rel then .pass else .one else .below
    else .pass
  if relInIndex entries rel isDir then descend
  else if statusShouldIgnore rel then .pass
  else if !recurse then .last
  else if !isDir then .one
  else descend

theorem countLoopCons (below : Bytes → Nat → Option Nat) (limit : Int) (dirRel : Bytes) (e : DirEntry)
    (es : List DirEntry) (n : Nat) : countLoop w statusShouldIgnore entries below recurse limit dirRel (e :: es) n =
      match visit w statusShouldIgnore entries recurse dirRel e with
      | .pass => countLoop w statusShouldIgnore entries below recurse limit dirRel es n
      | .last => some (n+1)
      | .one => if reached (n+1) limit then some (n+1)
          else countLoop w statusShouldIgnore entries below recurse limit dirRel es (n+1)
      | .below => (below (dirRel ++ slash :: e.name) n).bind fun m => if reached m limit then some m
          else countLoop w statusShouldIgnore entries below recurse limit dirRel es m := by
  rw [countLoop,visit]
  cases relInIndex entries (dirRel ++ slash :: e.name) (isDirType w (dirRel ++ slash :: e.name) e) <;>
    cases statusShouldIgnore (dirRel ++ slash :: e.name) <;> cases recurse <;>
    cases isDirType w (dirRel ++ slash :: e.name) e <;> cases hasGitDir w (dirRel ++ slash :: e.name) <;>
    cases inIndexExact entries (dirRel ++ slash :: e.name) <;> rfl

theorem countLoopGrows {below : Bytes → Nat → Option Nat} {limit : Int} {dirRel : Bytes}
    (grows : ∀ rel n m, below rel n = some m → n ≤ m) {es : List DirEntry} {n m : Nat}
    (run : countLoop w statusShouldIgnore entries below recurse limit dirRel es n = some m) : n ≤ m := by
  induction es generalizing n with
  | nil => exact Nat.le_of_eq (Option.some.inj run)
  | cons e es ih =>
    have next : ∀ {k}, n ≤ k → (if reached k limit then some k
        else countLoop w statusShouldIgnore entries below recurse limit dirRel es k) = some m → n ≤ m := by
      intro k more later
      split at later
      · exact Option.some.inj later ▸ more
      · exact more.trans (ih later)
    rw [countLoopCons] at run
    split at run
    · exact ih run
    · exact Option.some.inj run ▸ Nat.le_succ n
    · exact next (Nat.le_succ n) run
    · obtain ⟨k,inner,later⟩ := Option.bind_eq_some_iff.mp run
      exact next (grows _ n k inner) later

theorem countBelowGrows {limit : Int} {depth : Nat} {dirRel : Bytes} {n m : Nat}
    (run : countUntrackedBelow w statusShouldIgnore entries recurse limit depth dirRel n = some m) : n ≤ m := by
  induction depth generalizing dirRel n m with
  | zero => cases run
  | succ depth ih =>
    rw [countUntrackedBelow] at run
    split at run
    · have := Option.some.inj run
      split at this <;> omega
    · split at run
      · exact Nat.le_of_eq (Option.some.inj run)
      · exact countLoopGrows w statusShouldIgnore entries recurse (fun _ _ _ inner => ih inner) run

theorem unlimitedGoes (a : Nat) : reached a (-1) = false := reachedUnlimited (by decide)

theorem countLoopSame {below free : Bytes → Nat → Option Nat} {limit : Int} {dirRel : Bytes}
    (grows : ∀ rel n m, free rel n = some m → n ≤ m)
    (alike : ∀ rel {n k a b}, Same limit n k → below rel n = some a → free rel k = some b → Same limit a b)
    {es : List DirEntry} {n k a b : Nat} (same : Same limit n k)
    (run : countLoop w statusShouldIgnore entries below recurse limit dirRel es n = some a)
    (full : countLoop w statusShouldIgnore entries free recurse (-1) dirRel es k = some b) : Same limit a b := by
  induction es generalizing n k with
  | nil =>
    cases run
    cases full
    exact same
  | cons e es ih =>
    have next : ∀ {x y}, Same limit x y → (if reached x limit then some x
        else countLoop w statusShouldIgnore entries below recurse limit dirRel es x) = some a →
        (if reached y (-1) then some y
          else countLoop w statusShouldIgnore entries free recurse (-1) dirRel es y) = some b → Same limit a b := by
      intro x y here left right
      rw [unlimitedGoes,if_neg Bool.false_ne_true] at right
      split at left
      · rename_i stop
        cases left
        exact here.stop stop (countLoopGrows w statusShouldIgnore entries recurse grows right)
      · exact ih here left right
    rw [countLoopCons] at run full
    cases kind : visit w statusShouldIgnore entries recurse dirRel e with
    | pass =>
      rw [kind] at run full
      exact ih same run full
    | last =>
      rw [kind] at run full
      cases run
      cases full
      exact same.add 1
    | one =>
      rw [kind] at run full
      exact next (same.add 1) run full
    | below =>
      rw [kind] at run full
      obtain ⟨x,left,run⟩ := Option.bind_eq_some_iff.mp run
      obtain ⟨y,right,full⟩ := Option.bind_eq_some_iff.mp full
      exact next (alike _ same left right) run full

theorem countBelowSame {limit : Int} {depth : Nat} {dirRel : Bytes} {n k a b : Nat} (same : Same limit n k)
    (run : countUntrackedBelow w statusShouldIgnore entries recurse limit depth dirRel n = some a)
    (full : countUntrackedBelow w statusShouldIgnore entries recurse (-1) depth dirRel k = some b) :
    Same limit a b := by
  induction depth generalizing dirRel n k a b with
  | zero => cases run
  | succ depth ih =>
    rw [countUntrackedBelow] at run full
    split at run
    · rename_i nested
      rw [if_pos nested] at full
      cases run
      cases full
      split
      · exact same
      · exact same.add 1
    · rename_i plain
      rw [if_neg plain] at full
      cases read : w.readdir (dirRel ++ [slash]) with
      | none =>
        rw [read] at run full
        cases run
        cases full
        exact same
      | some raw =>
        have grows : ∀ rel n m, countUntrackedBelow w statusShouldIgnore entries recurse (-1) depth rel n = some m →
            n ≤ m := fun _ _ _ inner => countBelowGrows w statusShouldIgnore entries recurse inner
        rw [read] at run full
        exact countLoopSame w statusShouldIgnore entries recurse grows
          (fun _ {_ _ _ _} here left right => ih here left right) same run full

/-! Without a limit the count only adds up. -/

theorem countLoopAdds {below : Bytes → Nat → Option Nat} {dirRel : Bytes}
    (adds : ∀ rel k n, below rel (k + n) = (below rel n).map (k + ·)) (es : List DirEntry) (k n : Nat) :
    countLoop w statusShouldIgnore entries below recurse (-1) dirRel es (k + n) =
      (countLoop w statusShouldIgnore entries below recurse (-1) dirRel es n).map (k + ·) := by
  induction es generalizing n with
  | nil => rfl
  | cons e es ih =>
    rw [countLoopCons,countLoopCons]
    cases visit w statusShouldIgnore entries recurse dirRel e with
    | pass => exact ih n
    | last => rfl
    | one =>
      simp only [unlimitedGoes,if_neg Bool.false_ne_true]
      exact ih (n+1)
    | below =>
      simp only [unlimitedGoes,if_neg Bool.false_ne_true,adds]
      cases below (dirRel ++ slash :: e.name) n with
      | none => rfl
      | some m => exact ih m

theorem countBelowAdds (depth : Nat) (dirRel : Bytes) (k n : Nat) :
    countUntrackedBelow w statusShouldIgnore entries recurse (-1) depth dirRel (k + n) =
      (countUntrackedBelow w statusShouldIgnore entries recurse (-1) depth dirRel n).map (k + ·) := by
  induction depth generalizing dirRel k n with
  | zero => rfl
  | succ depth ih =>
    rw [countUntrackedBelow,countUntrackedBelow]
    split
    · split <;> rfl
    · cases w.readdir (dirRel ++ [slash]) with
      | none => rfl
      | some raw => exact countLoopAdds w statusShouldIgnore entries recurse ih _ k n

end walk

section candidates
variable (w : Worktree) (statusShouldIgnore : Bytes → Bool) (entries : List IndexEntry)

/-- The untracked entries of one candidate, counted on their own and without a limit. -/
def untrackedAlone (recurse : Bool) (c : Bytes) : Nat :=
  if c.getLast? = some slash then
    (countUntrackedBelow w statusShouldIgnore entries recurse (-1) (w.pathMax+2) c.dropLast 0).getD 0
  else if inIndexExact entries c || statusShouldIgnore c then 0 else 1

theorem belowAlone {recurse : Bool} {c : Bytes} (dir : c.getLast? = some slash) (k : Nat) :
    countUntrackedBelow w statusShouldIgnore entries recurse (-1) (w.pathMax+2) c.dropLast k =
      some (k + untrackedAlone w statusShouldIgnore entries recurse c) := by
  obtain ⟨m,walked⟩ := Option.isSome_iff_exists.mp
    (countUntrackedBelowEnds w statusShouldIgnore entries recurse (-1) (w.pathMax+1) c.dropLast 0 (by omega))
  have adds := countBelowAdds w statusShouldIgnore entries recurse (w.pathMax+2) c.dropLast k 0
  rw [walked] at adds
  rw [untrackedAlone,if_pos dir,walked]
  exact adds

theorem reachedZero (a : Nat) : reached a 0 = true := by simp [reached]

theorem countCandidateSame (limits : Options) {c : Bytes} {stats next : IndexStats} {k : Nat}
    (same : Same limits.maxNumUntracked stats.numUntracked k)
    (step : countCandidate w statusShouldIgnore entries limits c stats = some next) :
    Same limits.maxNumUntracked next.numUntracked
      (k + untrackedAlone w statusShouldIgnore entries limits.recurseUntrackedDirs c) := by
  rw [countCandidate] at step
  by_cases dir : c.getLast? = some slash
  · rw [if_pos dir] at step
    split at step
    · obtain ⟨n,walked,rest⟩ := Option.bind_eq_some_iff.mp step
      cases rest
      exact countBelowSame w statusShouldIgnore entries _ same walked (belowAlone w statusShouldIgnore entries dir k)
    · rename_i zero
      rw [not_not.mp zero]
      exact .inr ⟨reachedZero _,reachedZero _⟩
  · rw [if_neg dir] at step
    rw [untrackedAlone,if_neg dir]
    split at step
    · rename_i tracked'
      cases step
      rw [tracked',Bool.true_or,if_pos rfl]
      exact same
    · rename_i absent
      rw [Bool.eq_false_iff.mpr absent,Bool.false_or]
      split at step
      · rename_i ignored
        cases step
        rw [if_pos ignored]
        exact same
      · rename_i seen
        cases step
        rw [if_neg seen]
        exact same.add 1

theorem dirtyLoopSame (limits : Options) {candidates : List Bytes} {stats result : IndexStats} {k : Nat}
    (same : Same limits.maxNumUntracked stats.numUntracked k)
    (run : dirtyLoop w statusShouldIgnore entries limits candidates stats = some result) :
    Same limits.maxNumUntracked result.numUntracked
      (k + (candidates.map (untrackedAlone w statusShouldIgnore entries limits.recurseUntrackedDirs)).sum) := by
  induction candidates generalizing stats k with
  | nil =>
    cases run
    exact same
  | cons c candidates ih =>
    obtain ⟨next,step,rest⟩ := Option.bind_eq_some_iff.mp run
    have here := countCandidateSame w statusShouldIgnore entries limits same step
    rw [List.map_cons,List.sum_cons,← Nat.add_assoc]
    split at rest
    · rename_i stop
      cases rest
      exact here.stop (Bool.and_eq_true_iff.mp stop).2 (Nat.le_add_right _ _)
    · exact ih here rest

/-- The fields that the dirty pass leaves alone. -/
def Staged (a b : IndexStats) : Prop := a = { b with
  numUnstaged := a.numUnstaged
  numUntracked := a.numUntracked
  numUnstagedDeleted := a.numUnstagedDeleted }

theorem countCandidateStaged (limits : Options) {c : Bytes} {stats next : IndexStats}
    (step : countCandidate w statusShouldIgnore entries limits c stats = some next) : Staged next stats := by
  rw [countCandidate] at step
  split at step
  · split at step
    · obtain ⟨n,_,rest⟩ := Option.bind_eq_some_iff.mp step
      cases rest
      rfl
    · cases step
      rfl
  · split at step
    · cases step
      rfl
    · split at step <;> cases step <;> rfl

theorem dirtyLoopStaged (limits : Options) {candidates : List Bytes} {stats result : IndexStats}
    (run : dirtyLoop w statusShouldIgnore entries limits candidates stats = some result) : Staged result stats := by
  induction candidates generalizing stats with
  | nil =>
    cases run
    rfl
  | cons c candidates ih =>
    obtain ⟨next,step,rest⟩ := Option.bind_eq_some_iff.mp run
    have here := countCandidateStaged w statusShouldIgnore entries limits step
    split at rest
    · cases rest
      exact here
    · have later := ih rest
      unfold Staged at here later ⊢
      rw [later,here]

/-- Counts that have not begun. -/
structure Fresh (stats : IndexStats) : Prop where
  unstaged : stats.numUnstaged = 0
  untracked : stats.numUntracked = 0
  deleted : stats.numUnstagedDeleted = 0

structure DirtyCounts (limits : Options) (candidates : List Bytes) (stats result : IndexStats) : Prop where
  unstaged : result.numUnstaged = cap (candidates.countP (tracked entries)) limits.maxNumUnstaged
  untracked : result.numUntracked = cap (candidates.map
    (untrackedAlone w statusShouldIgnore entries limits.recurseUntrackedDirs)).sum limits.maxNumUntracked
  deleted : result.numUnstagedDeleted ≤ result.numUnstaged
  staged : Staged result stats

theorem capZero (max : Int) : cap 0 max = 0 := by simp [cap]

theorem capLe (count max : Nat) : cap count max ≤ max := by
  rw [capNat]
  exact Nat.min_le_right count max

theorem computeDirtyCounts (limits : Options) (candidates : List Bytes) {stats : IndexStats} (fresh : Fresh stats) :
    ∃ result, computeDirty w statusShouldIgnore entries limits candidates stats = some result ∧
      DirtyCounts w statusShouldIgnore entries limits candidates stats result := by
  rw [computeDirty]
  by_cases none' : candidates = []
  · subst none'
    refine ⟨stats,rfl,?_,?_,?_,rfl⟩
    · rw [fresh.unstaged,List.countP_nil,capZero]
    · rw [fresh.untracked,List.map_nil,List.sum_nil,capZero]
    · rw [fresh.unstaged,fresh.deleted]
  · obtain ⟨s,loop⟩ := Option.isSome_iff_exists.mp (dirtyLoopEnds w statusShouldIgnore entries limits candidates stats)
    rw [if_neg none',loop]
    refine ⟨_,rfl,?_,?_,capLe _ _,?_⟩
    · have counted := dirtyLoopUnstaged w statusShouldIgnore entries limits loop
      rwa [fresh.unstaged,Nat.zero_add] at counted
    · have counted := (dirtyLoopSame w statusShouldIgnore entries limits (.inl rfl) loop).cap
      rwa [fresh.untracked,Nat.zero_add] at counted
    · have kept := dirtyLoopStaged w statusShouldIgnore entries limits loop
      unfold Staged at kept ⊢
      rw [kept]

end candidates

/-! The deltas of the staged diff. -/

def conflicting (d : Delta) : Bool := d == .conflicted

theorem shouldContinueStop {c1 c2 : Nat} {m1 m2 : Int} (stop : shouldContinue c1 m1 c2 m2 = false) :
    reached c1 m1 = true ∧ reached c2 m2 = true := by
  rw [shouldContinue,Bool.not_eq_false',Bool.and_eq_true] at stop
  exact stop

/-- One delta counts on its side, and the walk goes on unless both limits have been reached. -/
theorem countDeltasCons (limits : Options) (d : Delta) (deltas : List Delta) (s : StagedStats) : ∃ next : StagedStats,
    next.staged = s.staged + [d].countP (!conflicting ·) ∧ next.conflicted = s.conflicted + [d].countP conflicting ∧
    (countDeltas limits (d :: deltas) s = countDeltas limits deltas next ∨
      countDeltas limits (d :: deltas) s = next ∧ reached next.staged limits.maxNumStaged = true ∧
        reached next.conflicted limits.maxNumConflicted = true) := by
  have go : ∀ (next : StagedStats) (on : Bool), (on = false → reached next.staged limits.maxNumStaged = true ∧
      reached next.conflicted limits.maxNumConflicted = true) →
      (if on = true then countDeltas limits deltas next else next) = countDeltas limits deltas next ∨
      (if on = true then countDeltas limits deltas next else next) = next ∧
        reached next.staged limits.maxNumStaged = true ∧ reached next.conflicted limits.maxNumConflicted = true := by
    intro next on stop
    cases on with
    | true => exact .inl rfl
    | false => exact .inr ⟨rfl,stop rfl⟩
  cases d with
  | conflicted =>
    exact ⟨{ s with conflicted := s.conflicted + 1 },rfl,rfl,go _ _ fun stop => (shouldContinueStop stop).symm⟩
  | added =>
    exact ⟨{ s with staged := s.staged + 1, stagedNew := s.stagedNew + 1, stagedDeleted := s.stagedDeleted + 0 },
      rfl,rfl,go _ _ shouldContinueStop⟩
  | deleted =>
    exact ⟨{ s with staged := s.staged + 1, stagedNew := s.stagedNew + 0, stagedDeleted := s.stagedDeleted + 1 },
      rfl,rfl,go _ _ shouldContinueStop⟩
  | other =>
    exact ⟨{ s with staged := s.staged + 1, stagedNew := s.stagedNew + 0, stagedDeleted := s.stagedDeleted + 0 },
      rfl,rfl,go _ _ shouldContinueStop⟩

theorem countDeltasSame (limits : Options) (deltas : List Delta) (s : StagedStats) :
    Same limits.maxNumStaged (countDeltas limits deltas s).staged (s.staged + deltas.countP (!conflicting ·)) ∧
    Same limits.maxNumConflicted (countDeltas limits deltas s).conflicted
      (s.conflicted + deltas.countP conflicting) := by
  induction deltas generalizing s with
  | nil => exact ⟨.inl rfl,.inl rfl⟩
  | cons d deltas ih =>
    obtain ⟨next,staged,conflicted,step⟩ := countDeltasCons limits d deltas s
    have split : ∀ p : Delta → Bool, (d :: deltas).countP p = [d].countP p + deltas.countP p :=
      fun p => @List.countP_append _ p [d] deltas
    rw [split,split,← Nat.add_assoc,← Nat.add_assoc,← staged,← conflicted]
    rcases step with step | ⟨step,fullStaged,fullConflicted⟩
    · rw [step]
      exact ih next
    · rw [step]
      exact ⟨Same.stop (.inl rfl) fullStaged (Nat.le_add_right _ _),
        Same.stop (.inl rfl) fullConflicted (Nat.le_add_right _ _)⟩

/-- The switches of the configuration leave a limit or set it to zero. -/
theorem effectiveLimit (limits : Options) (config : GitConfig) :
    ((effectiveLimits limits config).maxNumStaged = limits.maxNumStaged ∨
      (effectiveLimits limits config).maxNumStaged = 0) ∧
    ((effectiveLimits limits config).maxNumConflicted = limits.maxNumConflicted ∨
      (effectiveLimits limits config).maxNumConflicted = 0) := by
  unfold effectiveLimits
  dsimp only
  repeat' split
  all_goals simp

theorem Same.effective {limit other : Int} {a b : Nat} (same : Same limit a b) (kept : other = limit ∨ other = 0) :
    Same other a b := by
  rcases kept with rfl | rfl
  · exact same
  · exact .inr ⟨reachedZero a,reachedZero b⟩

section stats
variable {ο : Type} (diffTreeToIndex : ο → List IndexEntry → Option (List Delta))

theorem computeStagedSame (limits : Options) (entries : List IndexEntry) (head : ο) :
    Same limits.maxNumStaged (computeStaged diffTreeToIndex limits entries head).staged
      (((diffTreeToIndex head entries).getD []).countP (!conflicting ·)) ∧
    Same limits.maxNumConflicted (computeStaged diffTreeToIndex limits entries head).conflicted
      (((diffTreeToIndex head entries).getD []).countP conflicting) := by
  rw [computeStaged]
  cases diffTreeToIndex head entries with
  | none => exact ⟨.inl rfl,.inl rfl⟩
  | some deltas =>
    have counted := countDeltasSame limits deltas
      { noStaged with skipWorktree := skipCount entries, assumeUnchanged := assumeCount entries }
    simpa [noStaged] using counted

/-- Every reported count is its limit's share of the full count, which no limit enters. -/
theorem limitsCap (limits : Options) (config : GitConfig) (head : ο) (entries tree : List IndexEntry) (w : Worktree)
    (statusShouldIgnore : Bytes → Bool) (candidates : List Bytes) :
    let effective := effectiveLimits limits config
    let deltas := (diffTreeToIndex head entries).getD []
    ∃ result, computeDirty w statusShouldIgnore tree effective candidates
        (stagedFields effective entries.length (computeStaged diffTreeToIndex limits entries head)) = some result ∧
      result.numUnstaged = cap (candidates.countP (tracked tree)) effective.maxNumUnstaged ∧
      result.numUntracked = cap (candidates.map
        (untrackedAlone w statusShouldIgnore tree effective.recurseUntrackedDirs)).sum effective.maxNumUntracked ∧
      result.numStaged = cap (deltas.countP (!conflicting ·)) effective.maxNumStaged ∧
      result.numConflicted = cap (deltas.countP conflicting) effective.maxNumConflicted ∧
      result.numUnstagedDeleted ≤ result.numUnstaged ∧ result.numStagedNew ≤ result.numStaged ∧
      result.numStagedDeleted ≤ result.numStaged := by
  intro effective deltas
  obtain ⟨result,run,counts⟩ := computeDirtyCounts w statusShouldIgnore tree effective candidates
    (show Fresh (stagedFields effective entries.length (computeStaged diffTreeToIndex limits entries head)) from
      ⟨rfl,rfl,rfl⟩)
  obtain ⟨staged,conflicted⟩ := computeStagedSame diffTreeToIndex limits entries head
  obtain ⟨keptStaged,keptConflicted⟩ := effectiveLimit limits config
  have same := counts.staged
  unfold Staged at same
  refine ⟨result,run,counts.unstaged,counts.untracked,?_,?_,counts.deleted,?_,?_⟩
  · rw [same]
    exact (staged.effective keptStaged).cap
  · rw [same]
    exact (conflicted.effective keptConflicted).cap
  · rw [same]
    exact capLe _ _
  · rw [same]
    exact capLe _ _

end stats
end P11k.Gitstatus
