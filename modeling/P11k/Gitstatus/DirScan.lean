import P11k.Gitstatus.MergeJoin
import P11k.Gitstatus.Shards

/-! What the scan of one directory reports for one key: the dirty files of the stat loop and
then, by the state of its cache, the stored names or the class of a fresh listing. -/
namespace P11k.Gitstatus
open scoped List

/-- Index entries in the order of their paths. Git also orders the stages of a path; nothing
here asks for it. -/
structure SortedEntries (caseSensitive : Bool) where
  entries : List IndexEntry
  sorted : entries.Pairwise (fun a b => foldKey caseSensitive a.path ≤ foldKey caseSensitive b.path)

inductive Phase where
  | skipped
  | cached
  | listed (names : List Dirent)

def phase (w : Worktree) (opts : ScanOpts) (d : IndexDir) : Phase :=
  let read := (listing w d.path).elim .skipped .listed
  if !opts.includeUntracked then .skipped
  else if opts.untrackedCacheEnabled then
    match w.dirTimes d.path with
    | none => .skipped
    | some cur => if d.st = some cur then .cached else read
  else read

/-- The candidates with key `key` that directory `d` reports, in their order. -/
def classReport (w : Worktree) (entries : List IndexEntry) (caps : RepoCaps) (opts : ScanOpts)
    (key : Bytes) (d : IndexDir) : List Bytes :=
  let files := dirEntries entries d
  let k := stripSlash (key.drop d.path.length)
  let behind := match phase w opts d with
    | .skipped => []
    | .cached => d.unmatched
    | .listed names => pushedEntries caps.caseSensitive d.path k w caps names files ++
        surplusNames caps.caseSensitive d.path k names files d.subdirs
  (statFiles w caps files ++ behind).filter (fun p => foldKey caps.caseSensitive p = key)

theorem filedEntries (entries : List IndexEntry) (d : Bytes) :
    (filedIn (entries.map (·.path)) d).filterMap (entries[·]?) =
      entries.filter (fun e => dirname e.path = d) := by
  induction entries using List.reverseRecOn with
  | nil => rfl
  | append_singleton entries e ih =>
    rw [List.map_append,List.map_singleton,filedInAppend,List.filterMap_append,List.filter_append,← ih]
    congr 1
    · apply List.filterMap_congr
      intro i mem
      obtain ⟨p,at',_⟩ := memFiledIn.mp mem
      have bound := (List.getElem?_eq_some_iff.mp at').1
      rw [List.length_map] at bound
      exact List.getElem?_append_left bound
    · by_cases here : dirname e.path = d <;> simp [here]

theorem cacheStateMem {entries : List IndexEntry} {dirs : List IndexDir} (state : CacheState entries dirs)
    {d : IndexDir} (mem : d ∈ dirs) : ∃ t ∈ (indexTree entries).dirs, shape t = shape d := by
  have there : shape d ∈ dirs.map shape := List.mem_map_of_mem mem
  rw [state] at there
  obtain ⟨t,ht,same⟩ := List.mem_map.mp there
  exact ⟨t,ht,same⟩

theorem shapeFields {t d : IndexDir} (same : shape t = shape d) :
    t.path = d.path ∧ t.files = d.files ∧ t.subdirs = d.subdirs ∧ t.depth = d.depth := by
  simp only [shape,IndexDir.mk.injEq] at same
  exact ⟨same.1,same.2.2.2.1,same.2.2.2.2.1,same.2.2.1⟩

theorem dirEntriesBelow {entries : List IndexEntry} {dirs : List IndexDir}
    (state : CacheState entries dirs) {d : IndexDir} (mem : d ∈ dirs) :
    dirEntries entries d <+ entries.filter (fun e => dirname e.path = d.path) := by
  obtain ⟨t,ht,same⟩ := cacheStateMem state mem
  obtain ⟨path,files,_⟩ := shapeFields same
  rw [← filedEntries,dirEntries,← files,← path]
  exact (grownFiles (indexTreeGrown entries) t ht).filterMap _

theorem dirEntryFiled {entries : List IndexEntry} {dirs : List IndexDir}
    (state : CacheState entries dirs) {d : IndexDir} (mem : d ∈ dirs) :
    ∀ f ∈ dirEntries entries d, f ∈ entries ∧ dirname f.path = d.path := by
  intro f hf
  simpa using List.mem_filter.mp ((dirEntriesBelow state mem).subset hf)

theorem filedClean {d : Bytes} {f : IndexEntry} (filed : dirname f.path = d) :
    f.path.drop d.length = basename f.path ∧ slash ∉ f.path.drop d.length := by
  rw [← filed,dropDirname]
  exact ⟨rfl,basenameClean f.path⟩

theorem dirEntriesAscend {cs : Bool} (index : SortedEntries cs) {dirs : List IndexDir}
    (state : CacheState index.entries dirs) {d : IndexDir} (mem : d ∈ dirs) :
    (dirEntries index.entries d).Pairwise (fun a b => baseKey cs d.path a ≤ baseKey cs d.path b) := by
  have sub := (dirEntriesBelow state mem).trans List.filter_sublist
  apply List.Pairwise.imp_of_mem _ (index.sorted.sublist sub)
  intro a b ha hb le
  have inA := (dirEntryFiled state mem a ha).2
  have inB := (dirEntryFiled state mem b hb).2
  rw [← dirnameAppendBasename a.path,← dirnameAppendBasename b.path,inA,inB,foldKeyAppend,foldKeyAppend,
    PrefixOrder.appendLe] at le
  rwa [baseKey,baseKey,(filedClean inA).1,(filedClean inB).1]

theorem classNamesSorted (cs : Bool) (k : Bytes) (names : List Dirent) :
    classNames cs k (StableSort.sortBy (fun e => foldKey cs e.name) names) = classNames cs k names :=
  StableSort.sortByClass (fun e : Dirent => foldKey cs e.name) names k

theorem filterClass {cs : Bool} (dirPath : Bytes) {key : Bytes} (l : List Bytes) :
    l.filter (fun p => foldKey cs p = key) =
      (l.filter (fun p => nameClass cs dirPath p = stripSlash (key.drop dirPath.length))).filter
        (fun p => foldKey cs p = key) := by
  rw [List.filter_filter]
  apply List.filter_congr
  intro p _
  by_cases same : foldKey cs p = key <;> simp [same,nameClass]

theorem phaseListed {w : Worktree} {opts : ScanOpts} {d : IndexDir} {names : List Dirent}
    (phases : phase w opts d = .listed names) : listing w d.path = some names := by
  have read : (listing w d.path).elim Phase.skipped .listed = .listed names → listing w d.path = some names := by
    cases listing w d.path with
    | none => exact fun same => Phase.noConfusion same
    | some _ => exact fun same => congrArg some (Phase.listed.inj same)
  revert phases
  rw [phase]
  cases opts.includeUntracked with
  | false => simp
  | true =>
    cases opts.untrackedCacheEnabled with
    | false => exact read
    | true =>
      cases w.dirTimes d.path with
      | none => simp
      | some cur =>
        by_cases hit : d.st = some cur
        · simp [hit]
        · simpa [hit] using read

/-- What a turn of the scan adds is the index's own paths and, by its phase, what is kept or read there. -/
theorem scanDirRead (w : Worktree) (entries : List IndexEntry) (caps : RepoCaps) (opts : ScanOpts)
    (d : IndexDir) :
    (scanDir w entries caps opts d).2 = statFiles w caps (dirEntries entries d) ++
      match phase w opts d with
        | .skipped => []
        | .cached => d.unmatched
        | .listed names => (joinDirents w caps d.path
            (StableSort.sortBy (fun e => foldKey caps.caseSensitive e.name) names) (dirEntries entries d)
            d.subdirs).pushed := by
  -- The directory is read as it was or with its new stat: its listing, files and subdirectories stay.
  have read : ∀ e : IndexDir, e.path = d.path → e.files = d.files → e.subdirs = d.subdirs → ∀ pushed,
      (readInto w entries caps e pushed).2 = pushed ++
        match (listing w d.path).elim Phase.skipped .listed with
          | .skipped => []
          | .cached => d.unmatched
          | .listed names => (joinDirents w caps d.path
              (StableSort.sortBy (fun e => foldKey caps.caseSensitive e.name) names) (dirEntries entries d)
              d.subdirs).pushed := by
    intro e path files subdirs pushed
    have same : dirEntries entries e = dirEntries entries d := by rw [dirEntries,files]; rfl
    unfold readInto
    rw [path,same,subdirs,listDir]
    cases names : listing w d.path with
    | none => simp
    | some names => rfl
  simp only [scanDir,phase]
  cases opts.includeUntracked with
  | false => simp
  | true =>
    cases opts.untrackedCacheEnabled with
    | false => exact read d rfl rfl rfl _
    | true =>
      cases times : w.dirTimes d.path with
      | none => simp
      | some cur =>
        by_cases hit : d.st = some cur
        · simp [hit]
        · simp only [hit,if_false,Bool.not_true,Bool.false_eq_true,if_true]
          exact read { d with st := some cur } rfl rfl rfl _

section report
variable {cs : Bool} (index : SortedEntries cs) (w : Worktree) (trustFilemode hasSymlinks : Bool)
  (opts : ScanOpts) (key : Bytes)

theorem joinReport {dirs : List IndexDir} (state : CacheState index.entries dirs) {d : IndexDir}
    (mem : d ∈ dirs) {names : List Dirent} (read : listing w d.path = some names) :
    let joined := joinDirents w ⟨trustFilemode,hasSymlinks,cs⟩ d.path
      (StableSort.sortBy (fun e => foldKey cs e.name) names) (dirEntries index.entries d) d.subdirs
    let surplus := surplusNames cs d.path (stripSlash (key.drop d.path.length)) names
      (dirEntries index.entries d) d.subdirs
    joined.pushed.filter (fun p => foldKey cs p = key) =
      (pushedEntries cs d.path (stripSlash (key.drop d.path.length)) w ⟨trustFilemode,hasSymlinks,cs⟩
        names (dirEntries index.entries d) ++ surplus).filter (fun p => foldKey cs p = key) ∧
    joined.unmatched.filter (fun p => foldKey cs p = key) = surplus.filter (fun p => foldKey cs p = key) := by
  have sorted := StableSort.sortByPairwise (fun e : Dirent => foldKey cs e.name) names
  have cleanNames : ∀ de ∈ StableSort.sortBy (fun e : Dirent => foldKey cs e.name) names,
      slash ∉ de.name := by
    intro de mem
    exact (listingClean read de ((StableSort.sortByPerm _ _).mem_iff.mp mem)).2
  have joined := joinClass w ⟨trustFilemode,hasSymlinks,cs⟩ d.path
    (stripSlash (key.drop d.path.length)) sorted (dirEntriesAscend index state mem) cleanNames
    (fun f hf => (filedClean (dirEntryFiled state mem f hf).2).2) d.subdirs
  constructor
  · rw [filterClass d.path,joined.1]
    simp only [pushedEntries,surplusNames,classNamesSorted]
  · rw [filterClass d.path,joined.2]
    simp only [surplusNames,classNamesSorted]

theorem scanDirClass {dirs : List IndexDir} (state : CacheState index.entries dirs) {d : IndexDir}
    (mem : d ∈ dirs) :
    (scanDir w index.entries ⟨trustFilemode,hasSymlinks,cs⟩ opts d).2.filter
        (fun p => foldKey cs p = key) =
      classReport w index.entries ⟨trustFilemode,hasSymlinks,cs⟩ opts key d := by
  rw [scanDirRead,classReport]
  cases phases : phase w opts d with
  | skipped => rfl
  | cached => rfl
  | listed names =>
    have joined := (joinReport index w trustFilemode hasSymlinks key state mem (phaseListed phases)).1
    simp only [List.filter_append] at joined ⊢
    rw [joined]

end report
end P11k.Gitstatus
