import P11k.Gitstatus.IndexTree

/-! What the directory tree of an index holds: each entry is filed under its directory, each
directory is named by its parent, and a directory occurs once exactly when the entries below
it are not interrupted by others. -/
namespace P11k.Gitstatus
open scoped List

def filedIn (ps : List Bytes) (d : Bytes) : List Nat :=
  (List.range ps.length).filter (fun i => (ps[i]?).map dirname = some d)

def childNames (paths : List Bytes) (d : Bytes) : List Bytes := paths.filterMap (childName d)

theorem memFiledIn {ps : List Bytes} {d : Bytes} {i : Nat} :
    i ∈ filedIn ps d ↔ ∃ p, ps[i]? = some p ∧ dirname p = d := by
  simp only [filedIn,List.mem_filter,List.mem_range,decide_eq_true_eq,Option.map_eq_some_iff,
    and_iff_right_iff_imp]
  intro ⟨p,at',_⟩
  exact (List.getElem?_eq_some_iff.mp at').1

theorem filedInAppend (ps : List Bytes) (p d : Bytes) :
    filedIn (ps ++ [p]) d = filedIn ps d ++ if dirname p = d then [ps.length] else [] := by
  unfold filedIn
  rw [List.length_append,List.length_singleton,List.range_succ,List.filter_append]
  congr 1
  · apply List.filter_congr
    intro i mem
    rw [List.getElem?_append_left (List.mem_range.mp mem)]
  · by_cases here : dirname p = d <;> simp [here]

theorem filedInNodup (ps : List Bytes) (d : Bytes) : (filedIn ps d).Nodup :=
  List.nodup_range.filter _

theorem memChildNames {paths : List Bytes} {d name : Bytes} :
    name ∈ childNames paths d ↔ childDir d name ∈ paths ∧ slash ∉ name := by
  simp only [childNames,List.mem_filterMap,childNameSome]
  constructor
  · rintro ⟨q,mem,rfl,clean⟩
    exact ⟨mem,clean⟩
  · rintro ⟨mem,clean⟩
    exact ⟨_,mem,rfl,clean⟩

theorem childNamesNodup {paths : List Bytes} (nodup : paths.Nodup) (d : Bytes) :
    (childNames paths d).Nodup := by
  apply nodup.filterMap
  intro q q' name here there
  rw [(childNameSome.mp here).1,(childNameSome.mp there).1]

theorem childDirNotRoot (d name : Bytes) : childDir d name ≠ [] := by simp [childDir]

theorem setKeeps {dirs : List IndexDir} {i : Nat} {d e x : IndexDir} (at' : dirs[i]? = some d)
    (mem : x ∈ dirs) : x ∈ dirs.set i e ∨ x = d ∧ e ∈ dirs.set i e := by
  obtain ⟨j,hj⟩ := List.mem_iff_getElem?.mp mem
  by_cases same : i = j
  · subst same
    obtain ⟨bound,_⟩ := List.getElem?_eq_some_iff.mp at'
    right
    exact ⟨Option.some.inj (hj.symm.trans at'),List.mem_iff_getElem?.mpr ⟨i,by simp [bound]⟩⟩
  · left
    exact List.mem_iff_getElem?.mpr ⟨j,by rw [List.getElem?_set_ne same,hj]⟩

/-- A property of single directories that every step keeps holds throughout the tree. -/
theorem grownEach {P : List Bytes → IndexDir → Prop} (root : P [] (freshDir [] [] 0))
    (named : ∀ ps d name, slash ∉ name → P ps d → P ps { d with subdirs := d.subdirs ++ [name] })
    (child : ∀ ps d name, slash ∉ name → P ps d →
      P ps (freshDir (childDir d.path name) name (d.path.count slash + 1)))
    (filed : ∀ ps d p, d.path = dirname p → P ps d →
      P (ps ++ [p]) { d with files := d.files ++ [ps.length] })
    (kept : ∀ ps d p, P ps d → P (ps ++ [p]) d)
    {ps : List Bytes} {dirs : List IndexDir} (grown : Grown ps dirs) : ∀ d ∈ dirs, P ps d := by
  induction grown with
  | root => simpa using root
  | @child ps dirs i d name before at' clean ih =>
    have parent := ih d (List.mem_of_getElem? at')
    intro x mem
    rcases List.mem_append.mp mem with old | new
    · rcases List.mem_or_eq_of_mem_set old with keep | rfl
      · exact ih x keep
      · exact named ps d name clean parent
    · cases List.mem_singleton.mp new
      exact child ps d name clean parent
  | @file ps dirs i d p before at' here ih =>
    intro x mem
    rcases List.mem_or_eq_of_mem_set mem with keep | rfl
    · exact kept ps x p (ih x keep)
    · exact filed ps d p here (ih d (List.mem_of_getElem? at'))

theorem grownDirPath {ps : List Bytes} {dirs : List IndexDir} (grown : Grown ps dirs) :
    ∀ d ∈ dirs, DirPath d.path :=
  grownEach (P := fun _ d => DirPath d.path) (.inl rfl) (fun _ _ _ _ h => h)
    (fun _ _ _ _ _ => .inr ⟨_,rfl⟩) (fun _ _ _ _ h => h) (fun _ _ _ h => h) grown

theorem grownDepth {ps : List Bytes} {dirs : List IndexDir} (grown : Grown ps dirs) :
    ∀ d ∈ dirs, d.depth = d.path.count slash :=
  grownEach (P := fun _ d => d.depth = d.path.count slash) rfl (fun _ _ _ _ h => h)
    (fun _ _ _ clean _ => (childDirCount clean).symm) (fun _ _ _ _ h => h) (fun _ _ _ h => h) grown

theorem grownFresh {ps : List Bytes} {dirs : List IndexDir} (grown : Grown ps dirs) :
    ∀ d ∈ dirs, d.st = none ∧ d.unmatched = [] :=
  grownEach (P := fun _ d => d.st = none ∧ d.unmatched = []) ⟨rfl,rfl⟩ (fun _ _ _ _ h => h)
    (fun _ _ _ _ _ => ⟨rfl,rfl⟩) (fun _ _ _ _ h => h) (fun _ _ _ h => h) grown

theorem grownFiles {ps : List Bytes} {dirs : List IndexDir} (grown : Grown ps dirs) :
    ∀ d ∈ dirs, d.files <+ filedIn ps d.path := by
  refine grownEach (P := fun ps d => d.files <+ filedIn ps d.path) (List.nil_sublist _)
    (fun _ _ _ _ h => h) (fun _ _ _ _ _ => List.nil_sublist _) ?_ ?_ grown
  · intro ps d p here sub
    rw [filedInAppend,if_pos here.symm]
    exact sub.append_right _
  · intro ps d p sub
    rw [filedInAppend]
    exact sub.trans (List.sublist_append_left _ _)

theorem grownFiled {ps : List Bytes} {dirs : List IndexDir} (grown : Grown ps dirs) :
    ∀ i, i < ps.length → ∃ d ∈ dirs, i ∈ d.files := by
  induction grown with
  | root => simp
  | child before at' clean ih =>
    intro k bound
    obtain ⟨x,mem,inside⟩ := ih k bound
    rcases setKeeps at' mem with keep | ⟨rfl,new⟩
    · exact ⟨x,List.mem_append_left _ keep,inside⟩
    · exact ⟨_,List.mem_append_left _ new,inside⟩
  | @file ps dirs i d p before at' filed ih =>
    intro k bound
    rw [List.length_append,List.length_singleton] at bound
    rcases Nat.lt_or_eq_of_le (Nat.lt_succ_iff.mp bound) with earlier | rfl
    · obtain ⟨x,mem,inside⟩ := ih k earlier
      rcases setKeeps at' mem with keep | ⟨rfl,new⟩
      · exact ⟨x,keep,inside⟩
      · exact ⟨_,new,List.mem_append_left _ inside⟩
    · exact ⟨{ d with files := d.files ++ [ps.length] },
        List.mem_set (List.getElem?_eq_some_iff.mp at').1 _,by simp⟩

theorem grownSubdirs {ps : List Bytes} {dirs : List IndexDir} (grown : Grown ps dirs) :
    ∀ d ∈ dirs, d.subdirs <+ childNames (dirs.map (·.path)) d.path := by
  induction grown with
  | root => simp [freshDir]
  | @child ps dirs i d name before at' clean ih =>
    intro x mem
    rw [List.map_append,setPaths (e := { d with subdirs := d.subdirs ++ [name] }) at' rfl,childNames,
      List.filterMap_append]
    rcases List.mem_append.mp mem with old | new
    · rcases List.mem_or_eq_of_mem_set old with keep | rfl
      · exact (ih x keep).trans (List.sublist_append_left _ _)
      · have named : childName d.path (childDir d.path name) = some name :=
          childNameSome.mpr ⟨rfl,clean⟩
        have last : [childDir d.path name].filterMap (childName d.path) = [name] := by
          simp [named]
        refine (ih _ (List.mem_of_getElem? at')).append ?_
        simp only [freshDir,List.map_cons,List.map_nil,last]
        exact List.Sublist.refl _
    · cases List.mem_singleton.mp new
      exact List.nil_sublist _
  | @file ps dirs i d p before at' filed ih =>
    intro x mem
    rw [setPaths (e := { d with files := d.files ++ [ps.length] }) at' rfl]
    rcases List.mem_or_eq_of_mem_set mem with keep | rfl
    · exact ih x keep
    · exact ih d (List.mem_of_getElem? at')

theorem grownNamed {ps : List Bytes} {dirs : List IndexDir} (grown : Grown ps dirs) :
    ∀ x ∈ dirs, x.path ≠ [] → ∃ d ∈ dirs, ∃ name ∈ d.subdirs, x.path = childDir d.path name := by
  induction grown with
  | root => simp [freshDir]
  | @child ps dirs i d name before at' clean ih =>
    have new : { d with subdirs := d.subdirs ++ [name] } ∈
        dirs.set i { d with subdirs := d.subdirs ++ [name] } :=
      List.mem_set (List.getElem?_eq_some_iff.mp at').1 _
    have lift : ∀ x ∈ dirs, x.path ≠ [] → ∃ e ∈ dirs.set i { d with subdirs := d.subdirs ++ [name] } ++
        [freshDir (childDir d.path name) name (d.path.count slash + 1)],
        ∃ n ∈ e.subdirs, x.path = childDir e.path n := by
      intro x mem notRoot
      obtain ⟨e,he,n,hn,same⟩ := ih x mem notRoot
      rcases setKeeps at' he with keep | ⟨rfl,there⟩
      · exact ⟨e,List.mem_append_left _ keep,n,hn,same⟩
      · exact ⟨_,List.mem_append_left _ there,n,List.mem_append_left _ hn,same⟩
    intro x mem notRoot
    rcases List.mem_append.mp mem with old | last
    · rcases List.mem_or_eq_of_mem_set old with keep | rfl
      · exact lift x keep notRoot
      · exact lift d (List.mem_of_getElem? at') notRoot
    · cases List.mem_singleton.mp last
      exact ⟨_,List.mem_append_left _ new,name,by simp,rfl⟩
  | @file ps dirs i d p before at' filed ih =>
    have lift : ∀ x ∈ dirs, x.path ≠ [] →
        ∃ e ∈ dirs.set i { d with files := d.files ++ [ps.length] },
        ∃ n ∈ e.subdirs, x.path = childDir e.path n := by
      intro x mem notRoot
      obtain ⟨e,he,n,hn,same⟩ := ih x mem notRoot
      rcases setKeeps at' he with keep | ⟨rfl,there⟩
      · exact ⟨e,keep,n,hn,same⟩
      · exact ⟨_,there,n,hn,same⟩
    intro x mem notRoot
    rcases List.mem_or_eq_of_mem_set mem with keep | rfl
    · exact lift x keep notRoot
    · exact lift d (List.mem_of_getElem? at') notRoot

/-! Exact contents when no directory occurs twice. -/

theorem sublistFull {α : Type} {l m : List α} (sub : l <+ m) (nodup : m.Nodup)
    (full : ∀ x ∈ m, x ∈ l) : l = m :=
  sub.eq_of_length_le (List.subperm_of_subset nodup full).length_le

theorem samePathSame {dirs : List IndexDir} (unique : (dirs.map (·.path)).Nodup) {d e : IndexDir}
    (hd : d ∈ dirs) (he : e ∈ dirs) (same : d.path = e.path) : d = e :=
  List.inj_on_of_nodup_map unique hd he same

theorem filesExact {ps : List Bytes} {dirs : List IndexDir} (grown : Grown ps dirs)
    (unique : (dirs.map (·.path)).Nodup) {d : IndexDir} (mem : d ∈ dirs) :
    d.files = filedIn ps d.path := by
  apply sublistFull (grownFiles grown d mem) (filedInNodup _ _)
  intro i filed
  obtain ⟨p,at',dir⟩ := memFiledIn.mp filed
  obtain ⟨e,he,inside⟩ := grownFiled grown i (List.getElem?_eq_some_iff.mp at').1
  obtain ⟨q,at'',dir'⟩ := memFiledIn.mp ((grownFiles grown e he).subset inside)
  cases at'.symm.trans at''
  rwa [samePathSame unique mem he (dir.symm.trans dir')]

theorem subdirsExact {ps : List Bytes} {dirs : List IndexDir} (grown : Grown ps dirs)
    (unique : (dirs.map (·.path)).Nodup) {d : IndexDir} (mem : d ∈ dirs) :
    d.subdirs = childNames (dirs.map (·.path)) d.path := by
  apply sublistFull (grownSubdirs grown d mem) (childNamesNodup unique _)
  intro name inside
  obtain ⟨child,clean⟩ := memChildNames.mp inside
  obtain ⟨x,hx,path⟩ := List.mem_map.mp child
  obtain ⟨e,he,n,hn,same⟩ := grownNamed grown x hx (path ▸ childDirNotRoot _ _)
  have cleanN := (memChildNames.mp ((grownSubdirs grown e he).subset hn)).2
  have both := childDirUnique (grownDirPath grown d mem) (grownDirPath grown e he) clean cleanN
    (path.symm.trans same)
  rw [samePathSame unique mem he both.1,both.2]
  exact hn

theorem memCreatedDirs {entries : List IndexEntry} {d : Bytes} :
    d ∈ createdDirs entries ↔ d = [] ∨ ∃ e ∈ entries, d ∈ dirPrefixes e.path := by
  have sees : d ∈ Appearances.appear dirPrefixes [] (entries.map (·.path)) ↔ _ :=
    Appearances.memAppear dirPrefixes
  simp only [createdDirs,List.mem_cons]
  constructor
  · rintro (root | appears)
    · exact .inl root
    · obtain ⟨x,y,sub,before,inside⟩ := sees.mp appears
      have later : y ∈ [] :: entries.map (·.path) := sub.subset (by simp)
      rcases List.mem_cons.mp later with rfl | mem
      · simp [dirPrefixes] at inside
      · obtain ⟨e,he,rfl⟩ := List.mem_map.mp mem
        exact .inr ⟨e,he,inside⟩
  · rintro (root | ⟨e,he,inside⟩)
    · exact .inl root
    · exact .inr (Appearances.memParts dirPrefixes (List.mem_map_of_mem he) inside
        (by simp [dirPrefixes]))

theorem createdOnceIff (entries : List IndexEntry) :
    (createdDirs entries).Nodup ↔ Appearances.Contiguous dirPrefixes (entries.map (·.path)) := by
  have notRoot : [] ∉ Appearances.appear dirPrefixes [] (entries.map (·.path)) := by
    intro mem
    obtain ⟨x,y,_,_,inside⟩ := (Appearances.memAppear dirPrefixes).mp mem
    obtain ⟨_,a,none⟩ := memDirPrefixes.mp inside
    simp at none
  rw [createdDirs,List.nodup_cons,and_iff_right notRoot]
  exact Appearances.nodupAppear dirPrefixes dirPrefixesNodup rfl _

theorem dirPrefixesAscend (path : Bytes) : (dirPrefixes path).Pairwise (· < ·) := by
  induction path with
  | nil => simp [dirPrefixes]
  | cons b bs ih =>
    have rest : ((dirPrefixes bs).map (b :: ·)).Pairwise (· < ·) := by
      apply List.pairwise_map.mpr
      exact ih.imp (fun h => List.cons_lt_cons_iff.mpr (.inr ⟨rfl,h⟩))
    simp only [dirPrefixes]
    refine List.pairwise_append.mpr ⟨by split <;> simp,rest,?_⟩
    intro d first e later
    split at first <;> simp at first
    obtain ⟨f,hf,rfl⟩ := List.mem_map.mp later
    obtain ⟨_,a,rfl⟩ := memDirPrefixes.mp hf
    subst first
    apply List.cons_lt_cons_iff.mpr
    right
    exact ⟨rfl,by cases a <;> simp⟩

theorem appearAscend {prev : Bytes} {ps : List Bytes} (sorted : (prev :: ps).Pairwise (· ≤ ·)) :
    (Appearances.appear dirPrefixes prev ps).Pairwise (· < ·) := by
  induction ps generalizing prev with
  | nil => simp [Appearances.appear]
  | cons p ps ih =>
    have tail := (List.pairwise_cons.mp sorted).2
    refine List.pairwise_append.mpr ⟨(dirPrefixesAscend p).sublist List.filter_sublist,ih tail,?_⟩
    intro d first e later
    have inP : d <+: p := (memDirPrefixes.mp (List.mem_filter.mp first).1).1
    obtain ⟨x,y,sub,before,inside⟩ := (Appearances.memAppear dirPrefixes).mp later
    have order := tail.sublist sub
    have px : p ≤ x := by
      rcases List.mem_cons.mp (sub.subset (List.mem_cons_self)) with rfl | mem
      · exact Std.le_refl _
      · exact (List.pairwise_cons.mp tail).1 x mem
    have xy : x ≤ y := by simpa using order
    have inY : e <+: y := (memDirPrefixes.mp inside).1
    rw [← Std.not_le]
    intro le
    apply before
    have inX : e <+: x := PrefixOrder.prefixBetween (List.prefix_refl e) inY
      (Std.le_trans le (Std.le_trans (PrefixOrder.prefixLe inP) px)) xy
    exact memDirPrefixes.mpr ⟨inX,(memDirPrefixes.mp inside).2⟩

theorem createdAscend {entries : List IndexEntry}
    (sorted : (entries.map (·.path)).Pairwise (· ≤ ·)) : (createdDirs entries).Pairwise (· < ·) := by
  refine List.pairwise_cons.mpr ⟨?_,appearAscend (List.pairwise_cons.mpr ⟨by simp,sorted⟩)⟩
  intro d mem
  obtain ⟨x,y,_,_,inside⟩ := (Appearances.memAppear dirPrefixes).mp mem
  obtain ⟨_,a,rfl⟩ := memDirPrefixes.mp inside
  cases a <;> simp

theorem createdUnique {entries : List IndexEntry}
    (sorted : (entries.map (·.path)).Pairwise (· ≤ ·)) : (createdDirs entries).Nodup :=
  List.nodup_iff_pairwise_ne.mpr ((createdAscend sorted).imp Std.ne_of_lt)

end P11k.Gitstatus
