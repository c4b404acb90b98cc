import Mathlib.Data.List.TakeWhile
import P11k.Gitstatus.DirScan

/-! The candidates of a scan that lists every directory, against what they should be: the
dirty entries and the names of each listed directory that the index does not know. -/
namespace P11k.Gitstatus
open scoped List

def TreeDir (entries : List IndexEntry) (d : Bytes) : Prop :=
  d = [] ∨ ∃ e ∈ entries, d ∈ dirPrefixes e.path

def Listed (w : Worktree) (d : Bytes) (de : Dirent) : Prop :=
  ∃ names, listing w d = some names ∧ de ∈ names

/-- A candidate as the scan is meant to report it. -/
def Expected (w : Worktree) (caps : RepoCaps) (entries : List IndexEntry) (p : Bytes) : Prop :=
  (∃ e ∈ entries, dirty w caps e = true ∧ e.path = p) ∨
  ∃ d de, TreeDir entries d ∧ Listed w d de ∧ (∀ e ∈ entries, e.path ≠ d ++ de.name) ∧
    ¬ TreeDir entries (childDir d de.name) ∧ untrackedPath d de = p

/-- A sibling directory that extends the name by a byte below the slash comes first in the
tree, although its bare name is the larger one. -/
def Overtaken (entries : List IndexEntry) (d name : Bytes) : Prop :=
  ∃ c t, c < slash ∧ slash ∉ t ∧ TreeDir entries (childDir d (name ++ c :: t))

theorem sortedPaths (index : SortedEntries true) : (index.entries.map (·.path)).Pairwise (· ≤ ·) := by
  apply List.pairwise_map.mpr
  simpa only [foldKeyTrue] using index.sorted

theorem treeDirCreated {entries : List IndexEntry} {d : Bytes} :
    d ∈ createdDirs entries ↔ TreeDir entries d := memCreatedDirs

theorem treeDirPath {entries : List IndexEntry} {d : Bytes} (dir : TreeDir entries d) : DirPath d := by
  rcases dir with rfl | ⟨e,_,inside⟩
  · exact .inl rfl
  · exact .inr (memDirPrefixes.mp inside).2

theorem dirnameTreeDir {entries : List IndexEntry} {e : IndexEntry} (mem : e ∈ entries) :
    TreeDir entries (dirname e.path) := by
  rcases List.mem_cons.mp (dirnameMem e.path) with root | inside
  · exact .inl root
  · exact .inr ⟨e,mem,inside⟩

section caseSensitive
variable (index : SortedEntries true)

theorem treeUnique : ((indexTree index.entries).dirs.map (·.path)).Nodup := by
  rw [indexTreePaths]
  exact createdUnique (sortedPaths index)

theorem dirEntriesExact {d : IndexDir} (mem : d ∈ (indexTree index.entries).dirs) :
    dirEntries index.entries d = index.entries.filter (fun e => dirname e.path = d.path) := by
  rw [dirEntries,filesExact (indexTreeGrown index.entries) (treeUnique index) mem,filedEntries]

theorem treeSubdirs {d : IndexDir} (mem : d ∈ (indexTree index.entries).dirs) :
    d.subdirs = childNames (createdDirs index.entries) d.path := by
  rw [subdirsExact (indexTreeGrown index.entries) (treeUnique index) mem,indexTreePaths]

theorem childNamesAscend (d : Bytes) :
    (childNames (createdDirs index.entries) d).Pairwise (fun a b => childDir d a < childDir d b) := by
  apply List.pairwise_filterMap.mpr
  apply (createdAscend (sortedPaths index)).imp
  intro q r lt a ha b hb
  rwa [(childNameSome.mp ha).1,(childNameSome.mp hb).1] at lt

theorem subdirRunIff {d name : Bytes} (clean : slash ∉ name) :
    0 < subdirRun true name (childNames (createdDirs index.entries) d) ↔
      TreeDir index.entries (childDir d name) ∧ ¬ Overtaken index.entries d name := by
  have ascend := childNamesAscend index d
  have isChild : ∀ {m}, m ∈ childNames (createdDirs index.entries) d ↔
      TreeDir index.entries (childDir d m) ∧ slash ∉ m := by
    intro m
    rw [memChildNames,treeDirCreated]
  simp only [subdirRun,foldKeyTrue,List.countP_pos_iff,decide_eq_true_eq,exists_eq_right]
  constructor
  · intro met
    have whole := List.takeWhile_append_dropWhile (p := fun m => decide (m ≤ name))
      (l := childNames (createdDirs index.entries) d)
    have mem : name ∈ childNames (createdDirs index.entries) d := by
      rw [← whole]
      exact List.mem_append_left _ met
    refine ⟨(isChild.mp mem).1,?_⟩
    rintro ⟨c,t,small,cleanT,sibling⟩
    have notSep : c ≠ slash := Std.ne_of_lt small
    have there : name ++ c :: t ∈ childNames (createdDirs index.entries) d :=
      isChild.mpr ⟨sibling,by simp [clean,cleanT,Ne.symm notSep]⟩
    have orders := PrefixOrder.inversionOrders small name t [] []
    rw [← whole] at there ascend
    rcases List.mem_append.mp there with before | after
    · have le : name ++ c :: t ≤ name := by simpa using List.mem_takeWhile_imp before
      exact Std.lt_irrefl (Std.lt_of_lt_of_le orders.1 le)
    · have lt := (List.pairwise_append.mp ascend).2.2 name met _ after
      have gt : childDir d (name ++ c :: t) < childDir d name := by
        simp only [childDir,List.append_assoc d]
        exact (PrefixOrder.appendLt d _ _).mpr orders.2
      exact Std.lt_irrefl (Std.lt_trans lt gt)
  · rintro ⟨dir,free⟩
    obtain ⟨pre,post,whole⟩ := List.append_of_mem (isChild.mpr ⟨dir,clean⟩)
    have below : ∀ m ∈ pre, decide (m ≤ name) = true := by
      intro m hm
      have child := isChild.mp (show m ∈ _ by rw [whole]; simp [hm])
      have lt := (List.pairwise_append.mp (whole ▸ ascend)).2.2 m hm name (by simp)
      rcases Std.lt_trichotomy m name with less | same | more
      · simpa using Std.le_of_lt less
      · simp [same,Std.le_refl]
      · exfalso
        simp only [childDir,List.append_assoc d] at lt
        obtain ⟨c,t,rfl,small⟩ := PrefixOrder.separatedInversion child.2 more
          ((PrefixOrder.appendLt d (m ++ [slash]) (name ++ [slash])).mp lt)
        have parts : slash ∉ name ∧ ¬ slash = c ∧ slash ∉ t := by simpa using child.2
        exact free ⟨c,t,small,parts.2.2,child.1⟩
    rw [whole,List.takeWhile_append_of_pos below]
    simp [Std.le_refl]

def Reported (w : Worktree) (caps : RepoCaps) (entries : List IndexEntry) (d p : Bytes) : Prop :=
  (∃ e ∈ entries, dirname e.path = d ∧ e.path = p ∧ (dirty w caps e = true ∨
    listing w d ≠ none ∧
      ((∀ de, Listed w d de → d ++ de.name ≠ p) ∨ 1 < (entries.map (·.path)).count p))) ∨
  ∃ de, Listed w d de ∧ (∀ e ∈ entries, e.path ≠ d ++ de.name) ∧
    (TreeDir entries (childDir d de.name) → Overtaken entries d de.name) ∧ untrackedPath d de = p

variable (w : Worktree) (trustFilemode hasSymlinks : Bool)

theorem listedNames {path k : Bytes} {names : List Dirent} (read : listing w path = some names) :
    (classNames true k names).length ≤ 1 := by
  have count := List.nodup_iff_count_le_one.mp (listingDistinct read) k
  rw [List.count,List.countP_map,List.countP_eq_length_filter] at count
  simpa only [classNames,nameKey,foldKeyTrue,Function.comp_def,beq_iff_eq,← beq_eq_decide] using count

theorem listedClean {d : Bytes} {de : Dirent} (listed : Listed w d de) :
    de.name ≠ [] ∧ slash ∉ de.name := by
  obtain ⟨names,read,mem⟩ := listed
  exact listingClean read de mem

theorem classEntry {d k : Bytes} (dir : DirPath d) (clean : slash ∉ k) (e : IndexEntry) :
    (baseKey true d e = k ∧ dirname e.path = d) ↔ e.path = d ++ k := by
  have split := dirnameAppendBasename e.path
  simp only [baseKey,foldKeyTrue]
  constructor
  · rintro ⟨base,here⟩
    rw [← here,dropDirname] at base
    rw [← split,here,base]
  · intro path
    rw [path]
    exact ⟨by simp,(dirnameOf dir clean).1⟩

theorem memClassEntries {d k : Bytes} (dir : DirPath d) (clean : slash ∉ k) {e : IndexEntry} :
    e ∈ classEntries true d k (index.entries.filter (fun e => dirname e.path = d)) ↔
      e ∈ index.entries ∧ e.path = d ++ k := by
  have class' := classEntry dir clean e
  simp only [classEntries,List.mem_filter,decide_eq_true_eq,and_assoc]
  exact and_congr_right fun _ => and_comm.trans class'

theorem classEntriesCount {d k : Bytes} (dir : DirPath d) (clean : slash ∉ k) :
    (classEntries true d k (index.entries.filter (fun e => dirname e.path = d))).length =
      (index.entries.map (·.path)).count (d ++ k) := by
  rw [classEntries,List.filter_filter,List.count,List.countP_map,List.countP_eq_length_filter]
  congr 1
  apply List.filter_congr
  intro e _
  have class' := classEntry dir clean e
  simp only [Function.comp_apply,beq_eq_decide,← Bool.decide_and]
  exact decide_eq_decide.mpr class'

theorem memPushedEntries {d k : Bytes} {names : List Dirent} (dir : DirPath d) {caps : RepoCaps}
    {p : Bytes}
    (mem : p ∈ pushedEntries true d k w caps names (index.entries.filter (fun e => dirname e.path = d))) :
    ∃ e ∈ index.entries, e.path = d ++ k ∧ slash ∉ k ∧ e.path = p ∧ (dirty w caps e = true ∨
      classNames true k names = [] ∨ 1 < (index.entries.map (·.path)).count p) := by
  obtain ⟨e,he,rfl⟩ := List.mem_map.mp mem
  have clean : slash ∉ k := by
    have inClass : e ∈ classEntries true d k (index.entries.filter (fun e => dirname e.path = d)) := by
      rcases List.mem_append.mp he with paired | rest
      · exact List.mem_of_mem_take (List.mem_filter.mp paired).1
      · exact List.mem_of_mem_drop rest
    obtain ⟨filed,base⟩ := List.mem_filter.mp inClass
    have here : dirname e.path = d := by simpa using (List.mem_filter.mp filed).2
    have same : e.path.drop d.length = k := by simpa [baseKey,foldKeyTrue] using base
    exact same ▸ (filedClean here).2
  have isFile : e ∈ index.entries ∧ e.path = d ++ k := by
    rcases List.mem_append.mp he with paired | rest
    · exact (memClassEntries index dir clean).mp (List.mem_of_mem_take (List.mem_filter.mp paired).1)
    · exact (memClassEntries index dir clean).mp (List.mem_of_mem_drop rest)
  refine ⟨e,isFile.1,isFile.2,clean,rfl,?_⟩
  rcases List.mem_append.mp he with paired | rest
  · exact .inl (List.mem_filter.mp paired).2
  · cases listed : classNames true k names with
    | nil => exact .inr (.inl rfl)
    | cons de more =>
      have some' := List.length_pos_of_mem rest
      rw [List.length_drop,classEntriesCount index dir clean,listed,List.length_cons] at some'
      rw [isFile.2]
      exact .inr (.inr (by omega))

theorem unpairedPushed {d k : Bytes} {names : List Dirent} (dir : DirPath d) (clean : slash ∉ k)
    (single : (classNames true k names).length ≤ 1) (caps : RepoCaps) {e : IndexEntry}
    (he : e ∈ index.entries) (path : e.path = d ++ k)
    (unpaired : classNames true k names = [] ∨ 1 < (index.entries.map (·.path)).count e.path) :
    e.path ∈ pushedEntries true d k w caps names
      (index.entries.filter (fun e => dirname e.path = d)) := by
  have there := (memClassEntries index dir clean).mpr ⟨he,path⟩
  rw [pushedEntries,List.map_append]
  apply List.mem_append_right
  rcases unpaired with none | twice
  · rw [none]
    exact List.mem_map_of_mem there
  · rw [path,← classEntriesCount index dir clean] at twice
    obtain ⟨f,hf⟩ := List.exists_mem_of_length_pos (l := (classEntries true d k
      (index.entries.filter (fun e => dirname e.path = d))).drop (classNames true k names).length)
      (by rw [List.length_drop]; omega)
    have same := ((memClassEntries index dir clean).mp (List.mem_of_mem_drop hf)).2
    exact List.mem_map.mpr ⟨f,hf,same.trans path.symm⟩

theorem inNames {path : Bytes} {names : List Dirent} (read : listing w path = some names) (k : Bytes)
    (de : Dirent) : de ∈ classNames true k names ↔ Listed w path de ∧ de.name = k := by
  simp only [classNames,List.mem_filter,nameKey,foldKeyTrue,decide_eq_true_eq,Listed,read,
    Option.some.injEq,exists_eq_left']

/-! The three parts of what a directory of the tree reports. -/

theorem memStatFiles {d : IndexDir} (mem : d ∈ (indexTree index.entries).dirs) (caps : RepoCaps)
    {p : Bytes} : p ∈ statFiles w caps (dirEntries index.entries d) ↔
      ∃ e ∈ index.entries, dirname e.path = d.path ∧ e.path = p ∧ dirty w caps e = true := by
  rw [dirEntriesExact index mem]
  simp only [statFiles,List.mem_map,List.mem_filter,decide_eq_true_eq]
  exact ⟨fun ⟨e,⟨⟨he,here⟩,isDirty⟩,path⟩ => ⟨e,he,here,path,isDirty⟩,
    fun ⟨e,he,here,path,isDirty⟩ => ⟨e,⟨⟨he,here⟩,isDirty⟩,path⟩⟩

theorem memPushed {d : IndexDir} (mem : d ∈ (indexTree index.entries).dirs) (caps : RepoCaps)
    {names : List Dirent} (read : listing w d.path = some names) {p : Bytes} :
    (p ∈ statFiles w caps (dirEntries index.entries d) ∨
      p ∈ pushedEntries true d.path (stripSlash (p.drop d.path.length)) w caps names
        (dirEntries index.entries d)) ↔
      ∃ e ∈ index.entries, dirname e.path = d.path ∧ e.path = p ∧ (dirty w caps e = true ∨
        (∀ de, Listed w d.path de → d.path ++ de.name ≠ p) ∨ 1 < (index.entries.map (·.path)).count p) := by
  have dir : DirPath d.path := grownDirPath (indexTreeGrown index.entries) d mem
  rw [memStatFiles index w mem]
  constructor
  · rintro (⟨e,he,here,path,isDirty⟩ | pushed)
    · exact ⟨e,he,here,path,.inl isDirty⟩
    · rw [dirEntriesExact index mem] at pushed
      obtain ⟨e,he,split,clean,rfl,reason⟩ := memPushedEntries index w dir pushed
      have here : dirname e.path = d.path := by rw [split]; exact (dirnameOf dir clean).1
      refine ⟨e,he,here,rfl,?_⟩
      rcases reason with isDirty | none | twice
      · exact .inl isDirty
      · refine .inr (.inl fun de listed path => ?_)
        have named : de.name = stripSlash (e.path.drop d.path.length) :=
          List.append_cancel_left (path.trans split)
        exact List.not_mem_nil (none ▸ (inNames w read _ de).mpr ⟨listed,named⟩)
      · exact .inr (.inr twice)
  · rintro ⟨e,he,here,rfl,reason⟩
    have base := filedClean here
    have split : e.path = d.path ++ stripSlash (e.path.drop d.path.length) := by
      rw [stripSlashClean base.2,base.1,← here,dirnameAppendBasename]
    rcases reason with isDirty | unpaired
    · exact .inl ⟨e,he,here,rfl,isDirty⟩
    · right
      rw [dirEntriesExact index mem]
      apply unpairedPushed index w dir (by rw [stripSlashClean base.2]; exact base.2)
        (listedNames w read) _ he split
      rcases unpaired with unlisted | twice
      · left
        apply List.eq_nil_iff_forall_not_mem.mpr
        intro de hde
        obtain ⟨listed,named⟩ := (inNames w read _ de).mp hde
        exact unlisted de listed (by rw [named,← split])
      · exact .inr twice

theorem memSurplus {d : IndexDir} (mem : d ∈ (indexTree index.entries).dirs) {names : List Dirent}
    (read : listing w d.path = some names) {p : Bytes} :
    p ∈ surplusNames true d.path (stripSlash (p.drop d.path.length)) names
        (dirEntries index.entries d) d.subdirs ↔
      ∃ de, Listed w d.path de ∧ (∀ e ∈ index.entries, e.path ≠ d.path ++ de.name) ∧
        (TreeDir index.entries (childDir d.path de.name) → Overtaken index.entries d.path de.name) ∧
        untrackedPath d.path de = p := by
  have dir : DirPath d.path := grownDirPath (indexTreeGrown index.entries) d mem
  have met : ∀ de, Listed w d.path de → (0 < subdirRun true de.name d.subdirs ↔
      TreeDir index.entries (childDir d.path de.name) ∧ ¬ Overtaken index.entries d.path de.name) := by
    intro de listed
    rw [treeSubdirs index mem]
    exact subdirRunIff index (listedClean w listed).2
  constructor
  · intro new
    obtain ⟨de,hde,rfl⟩ := List.mem_map.mp new
    have listed := (inNames w read _ de).mp (List.mem_of_mem_drop (List.mem_of_mem_drop hde))
    -- At most one name is in the class, so no entry and no child directory has taken one.
    have some' := List.length_pos_of_mem hde
    rw [List.length_drop,List.length_drop] at some'
    have one := listedNames w read (k := stripSlash ((untrackedPath d.path de).drop d.path.length))
    rw [← listed.2,dirEntriesExact index mem] at some'
    rw [← listed.2] at one
    have free := classEntriesCount index dir (listedClean w listed.1).2
    refine ⟨de,listed.1,fun e he path => ?_,fun child => ?_,rfl⟩
    · have pos := List.count_pos_iff.mpr (List.mem_map_of_mem (f := (·.path)) he)
      rw [path] at pos
      omega
    · by_contra clear
      have pos := (met de listed.1).mpr ⟨child,clear⟩
      omega
  · rintro ⟨de,listed,free,child,rfl⟩
    have clean := (listedClean w listed).2
    have named : stripSlash ((untrackedPath d.path de).drop d.path.length) = de.name := by
      have h := nameClassUntracked true d.path clean
      rwa [nameClass,nameKey,foldKeyTrue,foldKeyTrue] at h
    have none : (classEntries true d.path de.name
        (index.entries.filter (fun e => dirname e.path = d.path))).length = 0 := by
      rw [classEntriesCount index dir clean,List.count_eq_zero]
      intro isFile
      obtain ⟨e,he,path⟩ := List.mem_map.mp isFile
      exact free e he path
    have unmet : subdirRun true de.name d.subdirs = 0 :=
      Nat.eq_zero_of_not_pos fun pos => ((met de listed).mp pos).2 (child ((met de listed).mp pos).1)
    rw [named,dirEntriesExact index mem,surplusNames,none,unmet]
    exact List.mem_map_of_mem ((inNames w read de.name de).mpr ⟨listed,rfl⟩)

theorem scanDirReported {d : IndexDir} (mem : d ∈ (indexTree index.entries).dirs) {p : Bytes} :
    p ∈ (scanDir w index.entries ⟨trustFilemode,hasSymlinks,true⟩ ⟨true,false⟩ d).2 ↔
      Reported w ⟨trustFilemode,hasSymlinks,true⟩ index.entries d.path p := by
  have report := scanDirClass index w trustFilemode hasSymlinks ⟨true,false⟩ p rfl mem
  have inReport : p ∈ (scanDir w index.entries ⟨trustFilemode,hasSymlinks,true⟩ ⟨true,false⟩ d).2 ↔
      p ∈ classReport w index.entries ⟨trustFilemode,hasSymlinks,true⟩ ⟨true,false⟩ p d := by
    rw [← report,List.mem_filter]
    simp [foldKeyTrue]
  rw [inReport]
  simp only [classReport,phase,List.mem_filter,List.mem_append,foldKeyTrue,decide_true,and_true,
    Bool.not_true,Bool.false_eq_true,if_false]
  cases read : listing w d.path with
  | none =>
    have nothing : ∀ de, ¬ Listed w d.path de := by
      rintro de ⟨names,there,_⟩
      rw [read] at there
      contradiction
    simp only [Option.elim_none,List.not_mem_nil,or_false,memStatFiles index w mem,Reported,read,nothing,
      ne_eq,not_true_eq_false,false_and,exists_false]
  | some names =>
    simp only [Option.elim_some,List.mem_append,← or_assoc,memPushed index w mem _ read,
      memSurplus index w mem read,Reported,read,ne_eq,reduceCtorEq,not_false_eq_true,true_and]

theorem freshCandidatesMem {numThreads : UInt64} (shards : 16 * max numThreads 1 ≠ 0) :
    ∃ out, freshCandidates numThreads w ⟨trustFilemode,hasSymlinks,true⟩ ⟨true,false⟩ index.entries = some out ∧
      ∀ p, p ∈ out ↔ ∃ d, TreeDir index.entries d ∧
        Reported w ⟨trustFilemode,hasSymlinks,true⟩ index.entries d p := by
  refine ⟨_,freshCandidatesRun shards _ _ _ _,fun p => ?_⟩
  rw [StableSort.memSortDedup,memScanDirs]
  constructor
  · rintro ⟨d,mem,reported⟩
    have created : d.path ∈ createdDirs index.entries := by
      rw [← indexTreePaths]
      exact List.mem_map_of_mem mem
    exact ⟨d.path,treeDirCreated.mp created,
      (scanDirReported index w trustFilemode hasSymlinks mem).mp reported⟩
  · rintro ⟨path,dir,reported⟩
    have created := treeDirCreated.mpr dir
    rw [← indexTreePaths] at created
    obtain ⟨d,mem,rfl⟩ := List.mem_map.mp created
    exact ⟨d,mem,(scanDirReported index w trustFilemode hasSymlinks mem).mpr reported⟩

theorem untrackedSplit {d e : Bytes} {a b : Dirent} (listedA : Listed w d a) (listedB : Listed w e b)
    (dirD : DirPath d) (dirE : DirPath e) (same : untrackedPath d a = untrackedPath e b) :
    d = e ∧ a.name = b.name := by
  have cleanA := listedClean w listedA
  have cleanB := listedClean w listedB
  have apart : ∀ {x y n m : Bytes}, m ≠ [] → slash ∉ m → x ++ n ++ [slash] ≠ y ++ m := by
    intro x y n m some' clean eq
    have last := congrArg List.getLast? eq
    rw [List.getLast?_append_of_ne_nil _ (by simp),List.getLast?_append_of_ne_nil _ some'] at last
    exact clean (List.mem_of_getLast? last.symm)
  unfold untrackedPath at same
  split at same
  · split at same
    · exact childDirUnique dirD dirE cleanA.2 cleanB.2 same
    · exact absurd (by simpa using same) (apart cleanB.1 cleanB.2)
  · split at same
    · exact absurd (by simpa using same.symm) (apart cleanA.1 cleanA.2)
    · exact splitUnique dirD dirE cleanA.2 cleanB.2 (by simpa using same)

theorem untrackedNotEntry {entries : List IndexEntry} {d : Bytes} {de : Dirent} {e : IndexEntry}
    (he : e ∈ entries) (free : ∀ e ∈ entries, e.path ≠ d ++ de.name)
    (notDir : ¬ TreeDir entries (childDir d de.name)) : untrackedPath d de ≠ e.path := by
  intro path
  unfold untrackedPath at path
  split at path
  · apply notDir
    right
    exact ⟨e,he,memDirPrefixes.mpr ⟨path ▸ List.prefix_refl _,_,rfl⟩⟩
  · exact free e he (by simpa using path.symm)

variable {trustFilemode hasSymlinks : Bool}

theorem expectedReported {entries : List IndexEntry} {caps : RepoCaps} {p : Bytes}
    (expected : Expected w caps entries p) : ∃ d, TreeDir entries d ∧ Reported w caps entries d p := by
  rcases expected with ⟨e,he,isDirty,rfl⟩ | ⟨d,de,dir,listed,free,notDir,rfl⟩
  · exact ⟨dirname e.path,dirnameTreeDir he,.inl ⟨e,he,rfl,rfl,.inl isDirty⟩⟩
  · exact ⟨d,dir,.inr ⟨de,listed,free,fun child => absurd child notDir,rfl⟩⟩

/-- A listed child directory is overtaken only under the path of an entry. -/
def ChildrenMet (w : Worktree) (caps : RepoCaps) (entries : List IndexEntry) : Prop :=
  ∀ d de, TreeDir entries d → Listed w d de → TreeDir entries (childDir d de.name) →
    Overtaken entries d de.name → (∃ e ∈ entries, e.path = d ++ de.name) ∨
      ∃ e ∈ entries, dirty w caps e = true ∧ e.path = untrackedPath d de

/-- The clean entries of a listed directory find their names and have their paths to themselves. -/
def FilesPaired (w : Worktree) (caps : RepoCaps) (entries : List IndexEntry) : Prop :=
  ∀ e ∈ entries, listing w (dirname e.path) ≠ none →
    (∀ e' ∈ entries, e'.path = e.path → dirty w caps e' = false) →
    (∃ de, Listed w (dirname e.path) de ∧ dirname e.path ++ de.name = e.path) ∧
      (entries.map (·.path)).count e.path = 1

section expected
variable {entries : List IndexEntry} {caps : RepoCaps}
  (sound : ∀ p, (∃ d, TreeDir entries d ∧ Reported w caps entries d p) → Expected w caps entries p)
include sound

theorem childrenMet : ChildrenMet w caps entries := by
  intro d de dir listed child overtaken
  by_contra neither
  obtain ⟨noFile,notDirty⟩ := not_or.mp neither
  have free : ∀ e ∈ entries, e.path ≠ d ++ de.name := fun e he path => noFile ⟨e,he,path⟩
  rcases sound _ ⟨d,dir,.inr ⟨de,listed,free,fun _ => overtaken,rfl⟩⟩ with
    ⟨e,he,isDirty,path⟩ | ⟨d',de',dir',listed',_,notDir,path⟩
  · exact notDirty ⟨e,he,isDirty,path⟩
  · obtain ⟨rfl,name⟩ := untrackedSplit w listed' listed (treeDirPath dir') (treeDirPath dir) path
    exact notDir (name ▸ child)

theorem filesPaired : FilesPaired w caps entries := by
  intro e he readable clean
  have notExpected : ¬ Expected w caps entries e.path := by
    rintro (⟨e',he',isDirty,path⟩ | ⟨d,de,dir,listed,free,notDir,path⟩)
    · rw [clean e' he' path] at isDirty
      contradiction
    · exact untrackedNotEntry he free notDir path
  have quiet := fun report => notExpected (sound e.path ⟨dirname e.path,dirnameTreeDir he,.inl
    ⟨e,he,rfl,rfl,.inr ⟨readable,report⟩⟩⟩)
  constructor
  · by_contra unlisted
    exact quiet (.inl fun de listed path => unlisted ⟨de,listed,path⟩)
  · have once := Nat.not_lt.mp (fun twice => quiet (.inr twice))
    have there := List.count_pos_iff.mpr (List.mem_map_of_mem (f := (·.path)) he)
    omega

end expected

theorem reportedExpected {entries : List IndexEntry} {caps : RepoCaps}
    (children : ChildrenMet w caps entries) (files : FilesPaired w caps entries) {d p : Bytes}
    (dir : TreeDir entries d) (reported : Reported w caps entries d p) : Expected w caps entries p := by
  rcases reported with ⟨e,he,rfl,rfl,reason⟩ | ⟨de,listed,free,child,rfl⟩
  · by_cases anyDirty : ∃ e' ∈ entries, dirty w caps e' = true ∧ e'.path = e.path
    · exact .inl anyDirty
    · exfalso
      have clean : ∀ e' ∈ entries, e'.path = e.path → dirty w caps e' = false := by
        intro e' he' path
        by_contra isDirty
        exact anyDirty ⟨e',he',by simpa using isDirty,path⟩
      rcases reason with isDirty | ⟨readable,missing | twice⟩
      · exact anyDirty ⟨e,he,isDirty,rfl⟩
      · obtain ⟨⟨de,listed,path⟩,_⟩ := files e he readable clean
        exact missing de listed path
      · have once := (files e he readable clean).2
        omega
  · by_cases isDir : TreeDir entries (childDir d de.name)
    · rcases children d de dir listed isDir (child isDir) with ⟨e,he,path⟩ | isDirty
      · exact absurd path (free e he)
      · exact .inl isDirty
    · exact .inr ⟨d,de,dir,listed,free,isDir,rfl⟩

/-- The candidates are the expected ones exactly when the number of shards does not wrap to
zero, no listed child directory is overtaken by a sibling, and each clean index file of a
listed directory has its name in the listing and its path once in the index. -/
theorem candidatesExpectedIff (numThreads : UInt64) :
    (∃ out, freshCandidates numThreads w ⟨trustFilemode,hasSymlinks,true⟩ ⟨true,false⟩ index.entries =
        some out ∧
      ∀ p, p ∈ out ↔ Expected w ⟨trustFilemode,hasSymlinks,true⟩ index.entries p) ↔
    16 * max numThreads 1 ≠ 0 ∧
    (∀ d de, TreeDir index.entries d → Listed w d de → TreeDir index.entries (childDir d de.name) →
      Overtaken index.entries d de.name → (∃ e ∈ index.entries, e.path = d ++ de.name) ∨
        ∃ e ∈ index.entries, dirty w ⟨trustFilemode,hasSymlinks,true⟩ e = true ∧
          e.path = untrackedPath d de) ∧
    ∀ e ∈ index.entries, listing w (dirname e.path) ≠ none →
      (∀ e' ∈ index.entries, e'.path = e.path →
        dirty w ⟨trustFilemode,hasSymlinks,true⟩ e' = false) →
      (∃ de, Listed w (dirname e.path) de ∧ dirname e.path ++ de.name = e.path) ∧
        (index.entries.map (·.path)).count e.path = 1 := by
  by_cases shards : 16 * max numThreads 1 = 0
  · rw [freshCandidatesNone shards]
    simp [shards]
  obtain ⟨out,run,member⟩ := freshCandidatesMem index w trustFilemode hasSymlinks shards
  rw [run]
  simp only [Option.some.injEq,exists_eq_left',member]
  constructor
  · intro exact'
    have sound := fun p => (exact' p).mp
    exact ⟨shards,childrenMet w sound,filesPaired w sound⟩
  · rintro ⟨_,children,files⟩ p
    exact ⟨fun ⟨_,dir,reported⟩ => reportedExpected w children files dir reported,expectedReported w⟩

end caseSensitive

def regularStat : Stat := ⟨1,0,0,0,0o100644⟩

def regularEntry (path : Bytes) : IndexEntry := ⟨path,1,0,0,0,0o100644,0,0,false⟩

/-- `foo-bar/x` and `foo/x`, tracked and untouched. -/
def siblingEntries : SortedEntries true where
  entries := [regularEntry [102,111,111,45,98,97,114,47,120],regularEntry [102,111,111,47,120]]
  sorted := by decide

def siblingWorktree : Worktree := tableWorktree
  [([102,111,111,45,98,97,114,47,120],regularStat),([102,111,111,47,120],regularStat)]
  [([],(0,0),[⟨[102,111,111],.directory⟩,⟨[102,111,111,45,98,97,114],.directory⟩]),
    ([102,111,111,45,98,97,114,47],(0,0),[⟨[120],.other⟩]),([102,111,111,47],(0,0),[⟨[120],.other⟩])]
  (by decide)

theorem siblingRun : freshCandidates 1 siblingWorktree ⟨true,true,true⟩ ⟨true,false⟩
    siblingEntries.entries = some [[102,111,111,47]] := by decide

theorem siblingReported : ¬ ∃ out,
    freshCandidates 1 siblingWorktree ⟨true,true,true⟩ ⟨true,false⟩ siblingEntries.entries = some out ∧
      ∀ p, p ∈ out ↔ Expected siblingWorktree ⟨true,true,true⟩ siblingEntries.entries p := by
  rw [siblingRun]
  rintro ⟨out,same,exact'⟩
  cases same
  have listed : Listed siblingWorktree [] ⟨[102,111,111],true⟩ := ⟨_,rfl,by decide⟩
  rcases (exact' [102,111,111,47]).mp (by simp) with ⟨e,he,_,path⟩ | ⟨d,de,dir,there,_,notDir,path⟩
  · simp only [siblingEntries,List.mem_cons,List.not_mem_nil,or_false] at he
    rcases he with rfl | rfl <;> simp [regularEntry] at path
  · obtain ⟨rfl,name⟩ := untrackedSplit siblingWorktree there listed (treeDirPath dir) (.inl rfl) path
    rw [name] at notDir
    exact notDir (.inr ⟨regularEntry [102,111,111,47,120],by simp [siblingEntries],by decide⟩)

end P11k.Gitstatus
