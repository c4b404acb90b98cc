import P11k.Gitstatus.TreeShape

/-! The directory tree of a sorted index as a whole: its order, its files and its directories. -/
namespace P11k.Gitstatus
open scoped List

/-- A directory stands before those below it, with none but those below it in between. -/
structure PreOrder (paths : List Bytes) : Prop where
  root : paths.head? = some []
  outerFirst : paths.Pairwise (fun d e => ¬ e <+: d)
  together : ∀ d x e, [d,x,e] <+ paths → d <+: e → d <+: x

structure WellFormedTree (entries : List IndexEntry) (index : Index) : Prop where
  kept : index.entries = entries
  order : PreOrder (index.dirs.map (·.path))
  once : (index.dirs.map (·.path)).Nodup
  directories : ∀ d, d ∈ index.dirs.map (·.path) ↔ d = [] ∨ ∃ e ∈ entries, d ∈ dirPrefixes e.path
  filed : ∀ i, i < entries.length → ∃! d, d ∈ index.dirs ∧ i ∈ d.files
  filedOnce : ∀ d ∈ index.dirs, d.files.Nodup
  names : ∀ d ∈ index.dirs, ∀ i ∈ d.files, ∃ e, entries[i]? = some e ∧ dirname e.path = d.path ∧
    d.path ++ basename e.path = e.path ∧ slash ∉ basename e.path
  depth : ∀ d ∈ index.dirs, d.depth = d.path.count slash
  subdirs : ∀ d ∈ index.dirs, d.subdirs.Nodup ∧
    ∀ name, name ∈ d.subdirs ↔ slash ∉ name ∧ childDir d.path name ∈ index.dirs.map (·.path)

/-- An ascending list holds each prefix before what it is a prefix of, and those together. -/
theorem ascendPreOrder {paths : List Bytes} (root : paths.head? = some []) (ascend : paths.Pairwise (· < ·)) :
    PreOrder paths := by
  refine ⟨root,ascend.imp fun less pre => ?_,fun d x e sub pre => ?_⟩
  · exact Std.not_lt.mpr (PrefixOrder.prefixLe pre) less
  · have three := ascend.sublist sub
    simp only [List.pairwise_cons,List.mem_cons,List.not_mem_nil,or_false,forall_eq_or_imp,forall_eq] at three
    exact PrefixOrder.prefixBetween (List.prefix_refl d) pre (Std.le_of_lt three.1.1) (Std.le_of_lt three.2.1)

section tree
variable {entries : List IndexEntry} {dirs : List IndexDir}

theorem filedEntry (grown : Grown (entries.map (·.path)) dirs) (unique : (dirs.map (·.path)).Nodup)
    {d : IndexDir} (mem : d ∈ dirs) {i : Nat} :
    i ∈ d.files ↔ ∃ e, entries[i]? = some e ∧ dirname e.path = d.path := by
  rw [filesExact grown unique mem,memFiledIn]
  simp only [List.getElem?_map,Option.map_eq_some_iff]
  constructor
  · rintro ⟨p,⟨e,at',rfl⟩,dir⟩
    exact ⟨e,at',dir⟩
  · rintro ⟨e,at',dir⟩
    exact ⟨e.path,⟨e,at',rfl⟩,dir⟩

theorem filedUnique (grown : Grown (entries.map (·.path)) dirs) (unique : (dirs.map (·.path)).Nodup)
    {i : Nat} (bound : i < entries.length) : ∃! d, d ∈ dirs ∧ i ∈ d.files := by
  obtain ⟨d,mem,inside⟩ := grownFiled grown i (by simpa using bound)
  refine ⟨d,⟨mem,inside⟩,fun other there => ?_⟩
  obtain ⟨e,at',dir⟩ := (filedEntry grown unique mem).mp inside
  obtain ⟨f,at'',dir'⟩ := (filedEntry grown unique there.1).mp there.2
  cases at'.symm.trans at''
  exact samePathSame unique there.1 mem (dir'.symm.trans dir)

end tree

theorem fromEntriesWellFormed (entries : List IndexEntry)
    (sorted : (entries.map (·.path)).Pairwise (· ≤ ·)) :
    ∃ index, fromEntries entries = some index ∧ WellFormedTree entries index := by
  obtain ⟨dirs,built,grown,paths⟩ := fromEntriesTotal entries
  have unique : (dirs.map (·.path)).Nodup := by
    rw [paths]
    exact createdUnique sorted
  refine ⟨_,built,rfl,?_,unique,fun d => ?_,fun i bound => filedUnique grown unique bound,fun d mem => ?_,
    fun d mem i inside => ?_,grownDepth grown,fun d mem => ?_⟩
  · show PreOrder (dirs.map (·.path))
    rw [paths]
    exact ascendPreOrder rfl (createdAscend sorted)
  · show d ∈ dirs.map (·.path) ↔ _
    rw [paths]
    exact memCreatedDirs
  · rw [filesExact grown unique mem]
    exact filedInNodup _ _
  · obtain ⟨e,at',dir⟩ := (filedEntry grown unique mem).mp inside
    exact ⟨e,at',dir,by rw [← dir,dirnameAppendBasename],basenameClean e.path⟩
  · rw [subdirsExact grown unique mem]
    exact ⟨childNamesNodup unique d.path,fun name => memChildNames.trans And.comm⟩

/-- `a`, two stages of `d.x`, `d/b` and `d/e/c`: the name `d` is a prefix of its neighbour `d.x`. -/
def nestedEntries : List IndexEntry :=
  [⟨[97],1,0,0,0,0o100644,0,0,false⟩,⟨[100,46,120],1,0,0,0,0o100644,1,0,false⟩,
    ⟨[100,46,120],1,0,0,0,0o100644,2,0,false⟩,⟨[100,47,98],1,0,0,0,0o100644,0,0,false⟩,
    ⟨[100,47,101,47,99],1,0,0,0,0o100644,0,0,false⟩]

theorem nestedWellFormed : ∃ index, fromEntries nestedEntries = some index ∧
    index.dirs.map (fun d => (d.path,d.depth,d.files,d.subdirs)) =
      [([],0,[0,1,2],[[100]]),([100,47],1,[3],[[101]]),([100,47,101,47],2,[4],[])] ∧
    WellFormedTree nestedEntries index := by
  obtain ⟨index,built,formed⟩ := fromEntriesWellFormed nestedEntries (by decide)
  refine ⟨index,built,?_,formed⟩
  obtain rfl : index = (fromEntries nestedEntries).get (by decide) := by simp [built]
  decide

end P11k.Gitstatus
