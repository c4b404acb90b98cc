import P11k.Gitstatus.Below

/-! Untracked paths of a worktree, and the two walks that are to find them between them: the
scan of the index directories hands over names, and the walk below a candidate goes on. -/
namespace P11k.Gitstatus
open scoped List

section worktree
variable (w : Worktree) (statusShouldIgnore : Bytes → Bool) (entries : List IndexEntry)

def NestedRepo (x : Bytes) : Prop := hasGitDir w x = true ∧ x ≠ dotGit

/-- A directory of the worktree that is neither ignored nor a nested repository and lies below
none that is. -/
inductive Clear : Bytes → Prop where
  | root : Clear []
  | child {d e} : Clear d → Holds w d e → isDirType w (d ++ e.name) e = true →
      statusShouldIgnore (d ++ e.name) = false → ¬ NestedRepo w (d ++ e.name) → Clear (childDir d e.name)

/-- A path that belongs to the untracked count: a file, or a nested repository without index
entries. -/
def Untracked (p : Bytes) : Prop :=
  ∃ d e, Clear w statusShouldIgnore d ∧ Holds w d e ∧ p = d ++ e.name ∧
    (∀ f ∈ entries, f.path ≠ p) ∧ statusShouldIgnore p = false ∧
    (isDirType w p e = true → NestedRepo w p ∧ ∀ f ∈ entries, ¬ p ++ [slash] <+: f.path)

/-- The scan of index directory `d` makes a candidate of `e`. -/
structure Handed (d : Bytes) (e : DirEntry) : Prop where
  dir : TreeDir entries d
  holds : Holds w d e
  free : ∀ f ∈ entries, f.path ≠ d ++ e.name
  unmet : TreeDir entries (childDir d e.name) → Overtaken entries d e.name

/-- The candidate that is made of `e` leads the count to `p`. -/
def Leads (d : Bytes) (e : DirEntry) (p : Bytes) : Prop :=
  if e.dType = .directory then Found w statusShouldIgnore entries (d ++ e.name) p
  else p = d ++ e.name ∧ statusShouldIgnore p = false

/-- The way to `p` leaves the index directories at the entry `e` of `d`. -/
structure LeavesAt (d : Bytes) (e : DirEntry) (p : Bytes) : Prop where
  dir : TreeDir entries d
  holds : Holds w d e
  within : Within (d ++ e.name) p
  last : TreeDir entries (childDir d e.name) → p = d ++ e.name

/-- An untracked path that the scan passes over where the index directories end. -/
def Hidden (p : Bytes) : Prop :=
  Untracked w statusShouldIgnore entries p ∧ ∃ d e, LeavesAt w entries d e p ∧ ¬ Handed w entries d e

/-- An index directory that is handed over all the same, and leads to `p` once more. -/
structure Revisited (d : Bytes) (e : DirEntry) (p : Bytes) : Prop where
  handed : Handed w entries d e
  dType : e.dType = .directory
  child : TreeDir entries (childDir d e.name)
  found : Found w statusShouldIgnore entries (d ++ e.name) p

end worktree

section ways
variable {w : Worktree} {statusShouldIgnore : Bytes → Bool} {entries : List IndexEntry}

theorem treeDirAbove {d q : Bytes} (dir : TreeDir entries d) (pre : q <+: d) (path : DirPath q) :
    TreeDir entries q := by
  rcases path with none | ⟨a,rfl⟩
  · exact .inl none
  · rcases dir with rfl | ⟨e,mem,above⟩
    · simp at pre
    · exact .inr ⟨e,mem,memDirPrefixes.mpr ⟨pre.trans (memDirPrefixes.mp above).1,a,rfl⟩⟩

theorem prefixChild (d name : Bytes) : d <+: childDir d name := ⟨name ++ [slash],by simp [childDir]⟩

theorem withinBelow {d name p : Bytes} (within : Within (d ++ name) p) (other : p ≠ d ++ name) :
    childDir d name <+: dirname p := by
  rcases within with same | below
  · exact absurd same other
  · exact dirnamePrefix (.inr ⟨d ++ name,rfl⟩) below

theorem withinAbove {d name p : Bytes} (dir : DirPath d) (clean : slash ∉ name)
    (within : Within (d ++ name) p) : d <+: dirname p := by
  by_cases same : p = d ++ name
  · simp only [same,(dirnameOf dir clean).1,List.prefix_rfl]
  · exact (prefixChild d name).trans (withinBelow within same)

theorem leavesDeepest {d d' p : Bytes} {e : DirEntry} (leaves : LeavesAt w entries d e p)
    (dir : TreeDir entries d') (pre : d' <+: dirname p) : d' <+: d := by
  have path := treeDirPath leaves.dir
  have clean := (holdsClean w leaves.holds).2
  by_cases same : p = d ++ e.name
  · rwa [same,(dirnameOf path clean).1] at pre
  · have below := withinBelow leaves.within same
    have notDir : ¬ childDir d e.name <+: d' := fun above =>
      same (leaves.last (treeDirAbove dir above (.inr ⟨d ++ e.name,rfl⟩)))
    rcases List.prefix_or_prefix_of_prefix pre below with inside | above
    · rcases List.prefix_concat_iff.mp inside with whole | shorter
      · exact absurd (whole ▸ List.prefix_refl _) notDir
      · have := dirnamePrefix (treeDirPath dir) shorter
        rwa [(dirnameOf path clean).1] at this
    · exact absurd above notDir

theorem leavesOnce {d d' p : Bytes} {e e' : DirEntry} (leaves : LeavesAt w entries d e p)
    (leaves' : LeavesAt w entries d' e' p) : d = d' ∧ e = e' := by
  have above := withinAbove (treeDirPath leaves.dir) (holdsClean w leaves.holds).2 leaves.within
  have above' := withinAbove (treeDirPath leaves'.dir) (holdsClean w leaves'.holds).2 leaves'.within
  have one := leavesDeepest leaves leaves'.dir above'
  have two := leavesDeepest leaves' leaves.dir above
  have same : d = d' := two.eq_of_length (Nat.le_antisymm two.length_le one.length_le)
  subst same
  exact ⟨rfl,holdsUnique w leaves.holds leaves'.holds (withinName (holdsClean w leaves.holds).2
    (holdsClean w leaves'.holds).2 leaves.within leaves'.within)⟩

theorem leadsWithin {d p : Bytes} {e : DirEntry} (leads : Leads w statusShouldIgnore entries d e p) :
    Within (d ++ e.name) p := by
  unfold Leads at leads
  split at leads
  · exact foundWithin w statusShouldIgnore leads
  · exact .inl leads.1

theorem leadsCases {d p : Bytes} {e : DirEntry} (handed : Handed w entries d e)
    (leads : Leads w statusShouldIgnore entries d e p) :
    LeavesAt w entries d e p ∨ Revisited w statusShouldIgnore entries d e p := by
  by_cases dir : e.dType = .directory
  · by_cases child : TreeDir entries (childDir d e.name)
    · exact .inr ⟨handed,dir,child,by simpa only [Leads,if_pos dir] using leads⟩
    · exact .inl ⟨handed.dir,handed.holds,leadsWithin leads,fun there => absurd there child⟩
  · simp only [Leads,if_neg dir] at leads
    exact .inl ⟨handed.dir,handed.holds,.inl leads.1,fun _ => leads.1⟩

/-! Clear directories. -/

theorem clearDirPath {d : Bytes} (clear : Clear w statusShouldIgnore d) : DirPath d := by
  cases clear with
  | root => exact .inl rfl
  | @child d e => exact .inr ⟨d ++ e.name,rfl⟩

theorem clearAbove {d q : Bytes} (clear : Clear w statusShouldIgnore d) (pre : q <+: d)
    (path : DirPath q) : Clear w statusShouldIgnore q := by
  induction clear with
  | root =>
    rw [List.prefix_nil.mp pre]
    exact .root
  | @child d e above holds dir kept plain ih =>
    rcases List.prefix_concat_iff.mp pre with whole | shorter
    · rw [whole]
      exact .child above holds dir kept plain
    · have := dirnamePrefix path shorter
      rw [(dirnameOf (clearDirPath above) (holdsClean w holds).2).1] at this
      exact ih this

theorem clearChild {d name : Bytes} (dir : DirPath d) (clean : slash ∉ name)
    (clear : Clear w statusShouldIgnore (childDir d name)) : statusShouldIgnore (d ++ name) = false := by
  generalize same : childDir d name = q at clear
  cases clear with
  | root => simp [childDir] at same
  | child above holds _ kept _ =>
    obtain ⟨rfl,rfl⟩ := childDirUnique dir (clearDirPath above) clean (holdsClean w holds).2 same
    exact kept

theorem untrackedClear {p : Bytes} (untracked : Untracked w statusShouldIgnore entries p) :
    Clear w statusShouldIgnore (dirname p) := by
  obtain ⟨d,e,clear,holds,rfl,_⟩ := untracked
  rwa [(dirnameOf (clearDirPath clear) (holdsClean w holds).2).1]

theorem notDotGit (x name : Bytes) : x ++ slash :: name ≠ dotGit := by
  intro same
  have : slash ∈ dotGit := same ▸ by simp
  revert this
  decide

theorem plainIff {x : Bytes} (other : x ≠ dotGit) : ¬ NestedRepo w x ↔ hasGitDir w x = false := by
  simp [NestedRepo,other]

theorem clearWay {d : Bytes} (clear : Clear w statusShouldIgnore d) : TreeDir entries d ∨
    ∃ d₀ e₀, TreeDir entries d₀ ∧ Clear w statusShouldIgnore (childDir d₀ e₀.name) ∧ Holds w d₀ e₀ ∧
      ¬ TreeDir entries (childDir d₀ e₀.name) ∧ isDirType w (d₀ ++ e₀.name) e₀ = true ∧
      ¬ NestedRepo w (d₀ ++ e₀.name) ∧ childDir d₀ e₀.name <+: d ∧
      (hasGitDir w (d₀ ++ e₀.name) = false → ∃ x, d = x ++ [slash] ∧ hasGitDir w x = false ∧
        ∀ p, Found w statusShouldIgnore entries x p →
          Found w statusShouldIgnore entries (d₀ ++ e₀.name) p) := by
  induction clear with
  | root => exact .inl (.inl rfl)
  | @child d e above holds dir kept plain ih =>
    rcases ih with tree | ⟨d₀,e₀,tree,clear₀,holds₀,leaf,dir₀,plain₀,pre,way⟩
    · by_cases child : TreeDir entries (childDir d e.name)
      · exact .inl child
      · exact .inr ⟨d,e,tree,.child above holds dir kept plain,holds,child,dir,plain,List.prefix_refl _,
          fun git => ⟨_,rfl,git,fun _ found => found⟩⟩
    · refine .inr ⟨d₀,e₀,tree,clear₀,holds₀,leaf,dir₀,plain₀,?_,fun git => ?_⟩
      · exact pre.trans (prefixChild d e.name)
      · obtain ⟨x,rfl,gitX,found⟩ := way git
        rw [List.append_assoc,List.singleton_append] at dir kept plain
        have gitE := (plainIff (notDotGit x e.name)).mp plain
        refine ⟨x ++ slash :: e.name,by simp [childDir],gitE,fun p there => ?_⟩
        exact found p (.inner gitX holds dir (.inr kept) gitE there)

theorem foundUntracked {x p : Bytes} (clear : Clear w statusShouldIgnore (x ++ [slash]))
    (leaf : ¬ TreeDir entries (x ++ [slash])) (git : hasGitDir w x = false)
    (found : Found w statusShouldIgnore entries x p) : Untracked w statusShouldIgnore entries p := by
  have notChild : ∀ {x name : Bytes}, ¬ TreeDir entries (x ++ [slash]) →
      ¬ TreeDir entries (childDir (x ++ [slash]) name) :=
    fun leaf child => leaf (treeDirAbove child (prefixChild _ _) (.inr ⟨_,rfl⟩))
  induction found with
  | repo git' => rw [git] at git'; contradiction
  | @file x e _ holds file free kept =>
    refine ⟨_,e,clear,holds,joinSlash x e.name,free,kept,fun dir => ?_⟩
    rw [file] at dir
    contradiction
  | @nested x e _ holds dir passes nested free =>
    have kept := passes.resolve_left (notChild leaf)
    refine ⟨_,e,clear,holds,joinSlash x e.name,free,kept,fun _ => ⟨⟨nested,notDotGit x e.name⟩,?_⟩⟩
    intro f mem below
    apply leaf
    exact .inr ⟨f,mem,memDirPrefixes.mpr ⟨List.IsPrefix.trans ⟨e.name ++ [slash],by simp⟩ below,x,rfl⟩⟩
  | @inner x e p _ holds dir passes plain _ ih =>
    have kept := passes.resolve_left (notChild leaf)
    have next : childDir (x ++ [slash]) e.name = (x ++ slash :: e.name) ++ [slash] := by simp [childDir]
    rw [joinSlash] at dir kept
    have clear' := Clear.child clear holds dir kept
      (by rw [← joinSlash]; exact (plainIff (notDotGit x e.name)).mpr plain)
    rw [next] at clear'
    exact ih clear' (next ▸ notChild leaf) plain

end ways
end P11k.Gitstatus
