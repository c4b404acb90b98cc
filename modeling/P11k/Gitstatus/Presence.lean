import P11k.Gitstatus.Below
import P11k.Gitstatus.Limits

/-! When the fast count of a candidate directory and the recursive one agree on there being something
untracked: the fast one looks at the direct entries alone, empty directories included. -/
namespace P11k.Gitstatus

section presence
variable (w : Worktree) (statusShouldIgnore : Bytes → Bool) (entries : List IndexEntry)

/-- A direct entry that is neither in the index nor ignored. -/
def Loose (x : Bytes) (e : DirEntry) : Prop :=
  Holds w (x ++ [slash]) e ∧ relInIndex entries (x ++ slash :: e.name) (isDirType w (x ++ slash :: e.name) e) = false ∧
    statusShouldIgnore (x ++ slash :: e.name) = false

/-- A direct subdirectory that is in the index or not ignored. -/
def Entered (x : Bytes) (e : DirEntry) : Prop :=
  Holds w (x ++ [slash]) e ∧ isDirType w (x ++ slash :: e.name) e = true ∧
    (relInIndex entries (x ++ slash :: e.name) true = true ∨ statusShouldIgnore (x ++ slash :: e.name) = false)

/-- A directory with no untracked file and no unregistered repository at any depth. -/
inductive Barren : Bytes → Prop where
  | intro {x} (plain : hasGitDir w x = false)
      (files : ∀ e, Loose w statusShouldIgnore entries x e → isDirType w (x ++ slash :: e.name) e = true)
      (repos : ∀ e, Entered w statusShouldIgnore entries x e → hasGitDir w (x ++ slash :: e.name) = true →
        inIndexExact entries (x ++ slash :: e.name) = true)
      (dirs : ∀ e, Entered w statusShouldIgnore entries x e → hasGitDir w (x ++ slash :: e.name) = false →
        Barren (x ++ slash :: e.name)) : Barren x

/-- Direct entries that are loose, in a directory that holds nothing untracked. -/
def Hollow (x : Bytes) : Prop :=
  Barren w statusShouldIgnore entries x ∧ ∃ e, Loose w statusShouldIgnore entries x e

/-- Nothing untracked but below subdirectories that the index knows. -/
def Masked (x : Bytes) : Prop :=
  hasGitDir w x = false ∧ (¬ ∃ e, Loose w statusShouldIgnore entries x e) ∧
    ∃ e, Entered w statusShouldIgnore entries x e ∧
      (hasGitDir w (x ++ slash :: e.name) = true ∧ inIndexExact entries (x ++ slash :: e.name) = false ∨
        hasGitDir w (x ++ slash :: e.name) = false ∧ ¬ Barren w statusShouldIgnore entries (x ++ slash :: e.name))

theorem entryPathsNil {below : Bytes → List Bytes} {x : Bytes} {e : DirEntry} (holds : Holds w (x ++ [slash]) e) :
    entryPaths w statusShouldIgnore entries below x e = [] ↔
      (Loose w statusShouldIgnore entries x e → isDirType w (x ++ slash :: e.name) e = true) ∧
      (Entered w statusShouldIgnore entries x e → (hasGitDir w (x ++ slash :: e.name) = true →
          inIndexExact entries (x ++ slash :: e.name) = true) ∧
        (hasGitDir w (x ++ slash :: e.name) = false → below (x ++ slash :: e.name) = [])) := by
  have file : relInIndex entries (x ++ slash :: e.name) false = inIndexExact entries (x ++ slash :: e.name) := rfl
  simp only [entryPaths,Loose,Entered,holds,true_and]
  cases isDirType w (x ++ slash :: e.name) e with
  | false =>
    rw [file]
    cases inIndexExact entries (x ++ slash :: e.name) <;>
      cases statusShouldIgnore (x ++ slash :: e.name) <;> simp
  | true =>
    cases relInIndex entries (x ++ slash :: e.name) true <;> cases statusShouldIgnore (x ++ slash :: e.name) <;>
      cases hasGitDir w (x ++ slash :: e.name) <;> cases inIndexExact entries (x ++ slash :: e.name) <;> simp

theorem walkNil {depth : Nat} {x : Bytes} (plain : hasGitDir w x = false) :
    walkPaths w statusShouldIgnore entries (depth+1) x = [] ↔ ∀ e, Holds w (x ++ [slash]) e →
      entryPaths w statusShouldIgnore entries (walkPaths w statusShouldIgnore entries depth) x e = [] := by
  rw [walkPaths,plain,if_neg Bool.false_ne_true]
  cases read : w.readdir (x ++ [slash]) with
  | none =>
    refine iff_of_true rfl ?_
    rintro e ⟨raw,read',_⟩
    rw [read] at read'
    cases read'
  | some raw =>
    dsimp only
    rw [List.flatMap_eq_nil_iff]
    constructor
    · rintro none' e ⟨raw',read',mem,names⟩
      rw [read] at read'
      cases read'
      exact none' e (List.mem_filter.mpr ⟨mem,by simpa using names⟩)
    · intro none' e mem
      obtain ⟨inside,names⟩ := List.mem_filter.mp mem
      exact none' e ⟨raw,read,inside,by simpa using names⟩

theorem barrenWalk {x : Bytes} (barren : Barren w statusShouldIgnore entries x) (depth : Nat) :
    walkPaths w statusShouldIgnore entries depth x = [] := by
  induction barren generalizing depth with
  | intro plain files repos _ ih =>
    cases depth with
    | zero => rfl
    | succ depth =>
      refine (walkNil w statusShouldIgnore entries plain).mpr fun e holds => ?_
      exact (entryPathsNil w statusShouldIgnore entries holds).mpr ⟨files e,fun entered =>
        ⟨repos e entered,fun bare => ih e entered bare depth⟩⟩

theorem walkBarren {depth : Nat} {x : Bytes} (enough : w.pathMax < x.length + depth) (plain : hasGitDir w x = false)
    (none' : walkPaths w statusShouldIgnore entries (depth+1) x = []) : Barren w statusShouldIgnore entries x := by
  induction depth generalizing x with
  | zero =>
    have nothing : ∀ e, ¬ Holds w (x ++ [slash]) e := by
      rintro e ⟨raw,read,_⟩
      cases read.symm.trans (readdirDeep enough)
    exact .intro plain (fun e loose => absurd loose.1 (nothing e)) (fun e entered => absurd entered.1 (nothing e))
      fun e entered => absurd entered.1 (nothing e)
  | succ depth ih =>
    have each := (walkNil w statusShouldIgnore entries plain).mp none'
    have parts := fun e holds => (entryPathsNil w statusShouldIgnore entries holds).mp (each e holds)
    refine .intro plain (fun e loose => (parts e loose.1).1 loose)
      (fun e entered => ((parts e entered.1).2 entered).1) fun e entered bare => ?_
    refine ih ?_ bare (((parts e entered.1).2 entered).2 bare)
    simp only [List.length_append,List.length_cons]
    omega

/-- The fast walk of a directory that is no repository stops at the first loose entry. -/
theorem fastLoop {below : Bytes → Nat → Option Nat} {limit : Int} {x : Bytes} (es : List DirEntry) (n : Nat) :
    countLoop w statusShouldIgnore entries below false limit x es n =
      some (if ∃ e ∈ es, relInIndex entries (x ++ slash :: e.name) (isDirType w (x ++ slash :: e.name) e) = false ∧
        statusShouldIgnore (x ++ slash :: e.name) = false then n+1 else n) := by
  induction es with
  | nil => simp [countLoop]
  | cons e es ih =>
    rw [countLoopCons,ih]
    simp only [visit,List.exists_mem_cons_iff,Bool.false_and,Bool.not_false]
    cases relInIndex entries (x ++ slash :: e.name) (isDirType w (x ++ slash :: e.name) e) <;>
      cases statusShouldIgnore (x ++ slash :: e.name) <;> simp

theorem fastCount (limit : Int) (depth : Nat) {x : Bytes} (plain : hasGitDir w x = false) :
    ∃ a, countUntrackedBelow w statusShouldIgnore entries false limit (depth+1) x 0 = some a ∧
      (a = 1 ↔ ∃ e, Loose w statusShouldIgnore entries x e) := by
  rw [countUntrackedBelow,plain,if_neg Bool.false_ne_true]
  cases read : w.readdir (x ++ [slash]) with
  | none =>
    refine ⟨0,rfl,iff_of_false (by decide) ?_⟩
    rintro ⟨e,⟨raw,read',_⟩,_⟩
    rw [read] at read'
    cases read'
  | some raw =>
    refine ⟨_,fastLoop w statusShouldIgnore entries _ 0,?_⟩
    have loose : (∃ e, Loose w statusShouldIgnore entries x e) ↔
        ∃ e ∈ raw.filter (fun e => e.name ≠ dot ∧ e.name ≠ dotdot),
          relInIndex entries (x ++ slash :: e.name) (isDirType w (x ++ slash :: e.name) e) = false ∧
            statusShouldIgnore (x ++ slash :: e.name) = false := by
      constructor
      · rintro ⟨e,⟨raw',read',mem,names⟩,outside⟩
        rw [read] at read'
        cases read'
        exact ⟨e,List.mem_filter.mpr ⟨mem,by simpa using names⟩,outside⟩
      · rintro ⟨e,mem,outside⟩
        obtain ⟨inside,names⟩ := List.mem_filter.mp mem
        exact ⟨e,⟨raw,read,inside,by simpa using names⟩,outside⟩
    rw [loose]
    split <;> simp_all

theorem barrenOpen {x : Bytes} (plain : hasGitDir w x = false) :
    ¬ Barren w statusShouldIgnore entries x ∧ (¬ ∃ e, Loose w statusShouldIgnore entries x e) ↔
      Masked w statusShouldIgnore entries x := by
  constructor
  · rintro ⟨full,none'⟩
    refine ⟨plain,none',?_⟩
    by_contra nothing
    refine full (.intro plain (fun e loose => absurd ⟨e,loose⟩ none') (fun e entered repo => ?_) fun e entered bare => ?_)
    · by_contra unregistered
      exact nothing ⟨e,entered,.inl ⟨repo,Bool.eq_false_iff.mpr unregistered⟩⟩
    · by_contra inner
      exact nothing ⟨e,entered,.inr ⟨bare,inner⟩⟩
  · rintro ⟨_,none',e,entered,inside⟩
    refine ⟨fun barren => ?_,none'⟩
    cases barren with
    | intro _ _ repos dirs =>
      rcases inside with ⟨repo,unregistered⟩ | ⟨bare,inner⟩
      · rw [repos e entered repo] at unregistered
        cases unregistered
      · exact inner (dirs e entered bare)

/-- The fast count looks at the direct entries; it agrees with the recursive one on presence exactly where the
directory is neither hollow nor masked. -/
theorem presenceAgrees (limit : Int) (x : Bytes) : ∃ a b,
    countUntrackedBelow w statusShouldIgnore entries false limit (w.pathMax+2) x 0 = some a ∧
    countUntrackedBelow w statusShouldIgnore entries true (-1) (w.pathMax+2) x 0 = some b ∧
    (a = 1 ↔ hasGitDir w x = true ∧ statusShouldIgnore x = false ∨
      hasGitDir w x = false ∧ ∃ e, Loose w statusShouldIgnore entries x e) ∧
    ((a = 1 ↔ 1 ≤ b) ↔ ¬ Hollow w statusShouldIgnore entries x ∧ ¬ Masked w statusShouldIgnore entries x) := by
  cases git : hasGitDir w x with
  | true =>
    have notHollow : ¬ Hollow w statusShouldIgnore entries x := by
      rintro ⟨⟨plain,_,_,_⟩,_⟩
      rw [git] at plain
      cases plain
    have notMasked : ¬ Masked w statusShouldIgnore entries x := by
      rintro ⟨plain,_⟩
      rw [git] at plain
      cases plain
    refine ⟨_,_,by rw [countUntrackedBelow,if_pos git],by rw [countUntrackedBelow,if_pos git],?_,?_⟩
    · cases statusShouldIgnore x <;> simp
    · refine iff_of_true ?_ ⟨notHollow,notMasked⟩
      cases statusShouldIgnore x <;> simp
  | false =>
    obtain ⟨a,fast,loose⟩ := fastCount w statusShouldIgnore entries limit (w.pathMax+1) git
    have full := countBelowPaths w statusShouldIgnore entries (show (-1 : Int) < 0 by decide) (w.pathMax+1) x 0
      (by omega)
    refine ⟨a,_,fast,full,by rw [loose]; simp,?_⟩
    have barren : 1 ≤ 0 + (walkPaths w statusShouldIgnore entries (w.pathMax+2) x).length ↔
        ¬ Barren w statusShouldIgnore entries x := by
      rw [Nat.zero_add,Nat.one_le_iff_ne_zero,ne_eq,List.length_eq_zero_iff]
      exact not_congr ⟨walkBarren w statusShouldIgnore entries (by omega) git,
        fun barren => barrenWalk w statusShouldIgnore entries barren _⟩
    rw [loose,barren,← barrenOpen w statusShouldIgnore entries git,Hollow]
    tauto

end presence

/-- The candidate `d/` holds one empty directory `s`, with an empty index and nothing ignored. -/
def hollowWorktree : Worktree := tableWorktree []
  [([100,47],(0,0),[⟨[115],.directory⟩]),([100,47,115,47],(0,0),[])] (by decide)

theorem hollowPresence : ∃ a b,
    countUntrackedBelow hollowWorktree (fun _ => false) [] false (-1) (hollowWorktree.pathMax+2) [100] 0 = some a ∧
    countUntrackedBelow hollowWorktree (fun _ => false) [] true (-1) (hollowWorktree.pathMax+2) [100] 0 = some b ∧
    ¬ (a = 1 ↔ 1 ≤ b) := ⟨1,0,by decide,by decide,by decide⟩

end P11k.Gitstatus
