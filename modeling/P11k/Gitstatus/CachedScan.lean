import P11k.Gitstatus.Resident

/-! A directory taken from the cache against the same directory read again. The two report the
same paths up to repetition when every clean file finds its name in the listing and no two
dirty files differ only in case. -/
namespace P11k.Gitstatus
open StableSort (Stutters stuttersRefl stuttersAppend stuttersReplicate sortBy)

theorem joinFilesSame (w w' : Worktree) {caps caps' : RepoCaps} (n : Nat) (name : Bytes)
    (case' : caps.caseSensitive = caps'.caseSensitive) {files files' : List IndexEntry}
    (paths : files.map (·.path) = files'.map (·.path)) :
    (joinFiles w caps n name files).matched = (joinFiles w' caps' n name files').matched ∧
    (joinFiles w caps n name files).rest.map (·.path) =
      (joinFiles w' caps' n name files').rest.map (·.path) := by
  induction files generalizing files' with
  | nil =>
    cases files' with
    | nil => exact ⟨rfl,rfl⟩
    | cons f files' => contradiction
  | cons f files ih =>
    cases files' with
    | nil => contradiction
    | cons f' files' =>
      obtain ⟨head,tail⟩ := List.cons.inj paths
      dsimp only at head
      simp only [joinFiles,head,case']
      cases cmpName (f'.path.drop n) name caps'.caseSensitive with
      | lt => exact ih tail
      | eq => exact ⟨rfl,tail⟩
      | gt => exact ⟨rfl,paths⟩

theorem unmatchedSame {w w' : Worktree} {caps caps' : RepoCaps} (dirPath : Bytes)
    (case' : caps.caseSensitive = caps'.caseSensitive) (dirents : List Dirent)
    {files files' : List IndexEntry} (paths : files.map (·.path) = files'.map (·.path))
    (subdirs : List Bytes) :
    (joinDirents w caps dirPath dirents files subdirs).unmatched =
      (joinDirents w' caps' dirPath dirents files' subdirs).unmatched := by
  induction dirents generalizing files files' subdirs with
  | nil => rfl
  | cons de dirents ih =>
    obtain ⟨matched,rest⟩ := joinFilesSame w w' dirPath.length de.name case' paths
    rw [joinStep,joinStep]
    simp only [matched,case',ih rest]

/-- The directory can be read again, each clean file finds a name there, and the dirty files of
one class have one path. -/
def Settled (w : Worktree) (caps : RepoCaps) (entries : List IndexEntry) (d : IndexDir) : Prop :=
  ∃ names, listing w d.path = some names ∧ (names.map (nameKey caps.caseSensitive)).Nodup ∧
    (∀ k, ∀ e ∈ (classEntries caps.caseSensitive d.path k (dirEntries entries d)).drop
      (classNames caps.caseSensitive k names).length, dirty w caps e = true) ∧
    ∀ e ∈ dirEntries entries d, ∀ f ∈ dirEntries entries d, dirty w caps e = true →
      dirty w caps f = true → baseKey caps.caseSensitive d.path e = baseKey caps.caseSensitive d.path f →
      e.path = f.path

/-- The stored names are what a join with `names` leaves over. -/
def StoredNames (entries : List IndexEntry) (d : IndexDir) (casing : Bool) (names : List Dirent) : Prop :=
  ∀ w caps, caps.caseSensitive = casing → d.unmatched = (joinDirents w caps d.path
    (sortBy (fun e => foldKey casing e.name) names) (dirEntries entries d) d.subdirs).unmatched

def readPhase (w : Worktree) (includeUntracked : Bool) (path : Bytes) : Phase :=
  if includeUntracked then (listing w path).elim .skipped .listed else .skipped

theorem unlistable {w : Worktree} (statable : ∀ d, (w.readdir d).isSome → (w.dirTimes d).isSome)
    {path : Bytes} (times : w.dirTimes path = none) : listing w path = none := by
  have unlisted : w.readdir path = none := by
    by_contra there
    have := statable path (Option.isSome_iff_ne_none.mpr there)
    rw [times] at this
    contradiction
  simp [listing,unlisted]

theorem phaseRead {w : Worktree} (statable : ∀ d, (w.readdir d).isSome → (w.dirTimes d).isSome)
    (opts : ScanOpts) (d : IndexDir) :
    phase w opts d = .cached ∧ opts.includeUntracked = true ∧ opts.untrackedCacheEnabled = true ∧
        d.st ≠ none ∧ d.st = w.dirTimes d.path ∨
      phase w opts d = readPhase w opts.includeUntracked d.path := by
  unfold phase readPhase
  cases opts.includeUntracked with
  | false => exact .inr rfl
  | true =>
    cases opts.untrackedCacheEnabled with
    | false => exact .inr rfl
    | true =>
      cases times : w.dirTimes d.path with
      | none => exact .inr (by simp [unlistable statable times])
      | some cur =>
        by_cases hit : d.st = some cur
        · exact .inl (by simp [hit])
        · exact .inr (by simp [hit])

theorem freshPhase {w : Worktree} (statable : ∀ d, (w.readdir d).isSome → (w.dirTimes d).isSome)
    (opts : ScanOpts) {t : IndexDir} (unread : t.st = none) :
    phase w opts t = readPhase w opts.includeUntracked t.path := by
  rcases phaseRead statable opts t with ⟨_,_,_,read,_⟩ | same
  · exact absurd unread read
  · exact same

section cached
variable {cs : Bool} (index : SortedEntries cs) (w : Worktree) (trustFilemode hasSymlinks : Bool)

theorem settledFiles {dirs : List IndexDir} (state : CacheState index.entries dirs) {d : IndexDir}
    (mem : d ∈ dirs) (key : Bytes) {names : List Dirent}
    (paired : ∀ k, ∀ e ∈ (classEntries cs d.path k (dirEntries index.entries d)).drop
      (classNames cs k names).length, dirty w ⟨trustFilemode,hasSymlinks,cs⟩ e = true)
    (one : ∀ e ∈ dirEntries index.entries d, ∀ f ∈ dirEntries index.entries d,
      dirty w ⟨trustFilemode,hasSymlinks,cs⟩ e = true → dirty w ⟨trustFilemode,hasSymlinks,cs⟩ f = true →
      baseKey cs d.path e = baseKey cs d.path f → e.path = f.path) :
    (pushedEntries cs d.path (stripSlash (key.drop d.path.length)) w ⟨trustFilemode,hasSymlinks,cs⟩ names
        (dirEntries index.entries d)).filter (fun p => foldKey cs p = key) =
      (statFiles w ⟨trustFilemode,hasSymlinks,cs⟩ (dirEntries index.entries d)).filter
        (fun p => foldKey cs p = key) ∧
    ∃ n p, (statFiles w ⟨trustFilemode,hasSymlinks,cs⟩ (dirEntries index.entries d)).filter
      (fun p => foldKey cs p = key) = List.replicate n p := by
  have clean : ∀ f ∈ (dirEntries index.entries d).filter (dirty w ⟨trustFilemode,hasSymlinks,cs⟩),
      slash ∉ f.path.drop d.path.length :=
    fun f mem' => (filedClean (dirEntryFiled state mem f (List.mem_filter.mp mem').1).2).2
  constructor
  · have rest : ∀ k, ((classEntries cs d.path k (dirEntries index.entries d)).drop
        (classNames cs k names).length).filter (dirty w ⟨trustFilemode,hasSymlinks,cs⟩) =
        (classEntries cs d.path k (dirEntries index.entries d)).drop (classNames cs k names).length :=
      fun k => List.filter_eq_self.mpr (paired k)
    have pushed : ∀ k, pushedEntries cs d.path k w ⟨trustFilemode,hasSymlinks,cs⟩ names
        (dirEntries index.entries d) = (classEntries cs d.path k ((dirEntries index.entries d).filter
          (dirty w ⟨trustFilemode,hasSymlinks,cs⟩))).map (·.path) := by
      intro k
      rw [pushedEntries,← rest,← List.filter_append,List.take_append_drop,classEntries,classEntries,
        List.filter_comm]
    have classes := @classOfFiles ⟨trustFilemode,hasSymlinks,cs⟩ d.path
      (stripSlash (key.drop d.path.length)) _ clean
    rw [pushed,statFiles,filterClass d.path (List.map _ (List.filter _ (dirEntries index.entries d))),classes]
  · have from' : ∀ p ∈ (statFiles w ⟨trustFilemode,hasSymlinks,cs⟩ (dirEntries index.entries d)).filter
        (fun p => foldKey cs p = key), ∃ e ∈ dirEntries index.entries d,
        dirty w ⟨trustFilemode,hasSymlinks,cs⟩ e = true ∧ e.path = p ∧
          baseKey cs d.path e = key.drop d.path.length := by
      intro p mem'
      obtain ⟨reported,same⟩ := List.mem_filter.mp mem'
      obtain ⟨e,he,rfl⟩ := List.mem_map.mp reported
      obtain ⟨file,isDirty⟩ := List.mem_filter.mp he
      exact ⟨e,file,isDirty,rfl,by rw [baseKey,← foldKeyDrop,of_decide_eq_true same]⟩
    cases all : (statFiles w ⟨trustFilemode,hasSymlinks,cs⟩ (dirEntries index.entries d)).filter
        (fun p => foldKey cs p = key) with
    | nil => exact ⟨0,[],rfl⟩
    | cons p rest =>
      rw [all] at from'
      obtain ⟨e,he,dirtyE,rfl,baseE⟩ := from' p List.mem_cons_self
      refine ⟨_,e.path,List.eq_replicate_of_mem fun q mem' => ?_⟩
      obtain ⟨f,hf,dirtyF,rfl,baseF⟩ := from' q mem'
      exact one f hf e he dirtyF dirtyE (baseF.trans baseE.symm)

theorem cachedAlike {dirs : List IndexDir} (state : CacheState index.entries dirs) {d : IndexDir}
    (mem : d ∈ dirs) (key : Bytes) (settled : Settled w ⟨trustFilemode,hasSymlinks,cs⟩ index.entries d)
    (stored : ∃ old, StoredNames index.entries d cs old ∧
      ∀ names, listing w d.path = some names → names.Perm old) : ∃ names, listing w d.path = some names ∧
    Stutters ((statFiles w ⟨trustFilemode,hasSymlinks,cs⟩ (dirEntries index.entries d) ++
        (pushedEntries cs d.path (stripSlash (key.drop d.path.length)) w ⟨trustFilemode,hasSymlinks,cs⟩
            names (dirEntries index.entries d) ++
          surplusNames cs d.path (stripSlash (key.drop d.path.length)) names
            (dirEntries index.entries d) d.subdirs)).filter (fun p => foldKey cs p = key))
      ((statFiles w ⟨trustFilemode,hasSymlinks,cs⟩ (dirEntries index.entries d) ++ d.unmatched).filter
        (fun p => foldKey cs p = key)) := by
  obtain ⟨names,read,distinct,paired,one⟩ := settled
  obtain ⟨old,left,perm⟩ := stored
  have names' : sortBy (fun e => foldKey cs e.name) names = sortBy (fun e => foldKey cs e.name) old :=
    StableSort.sortByPermSame (fun e : Dirent => foldKey cs e.name) (perm names read) distinct
  have unmatched := left w ⟨trustFilemode,hasSymlinks,cs⟩ rfl
  rw [← names'] at unmatched
  have surplus := (joinReport index w trustFilemode hasSymlinks key state mem read).2
  rw [← unmatched] at surplus
  obtain ⟨files,n,p,copies⟩ := settledFiles index w trustFilemode hasSymlinks state mem key paired one
  refine ⟨names,read,?_⟩
  rw [List.filter_append,List.filter_append,List.filter_append,surplus,files,copies]
  cases n with
  | zero => exact stuttersRefl _
  | succ n => exact stuttersReplicate p (n+1) n _

theorem dirAlike {dirs fresh : List IndexDir} (state : CacheState index.entries dirs)
    (freshState : CacheState index.entries fresh) {d t : IndexDir} (mem : d ∈ dirs) (memT : t ∈ fresh)
    (same : shape t = shape d) (unread : t.st = none)
    (statable : ∀ d, (w.readdir d).isSome → (w.dirTimes d).isSome) {opts opts' : ScanOpts}
    (untracked : opts.includeUntracked = opts'.includeUntracked)
    (settled : phase w opts d = .cached → Settled w ⟨trustFilemode,hasSymlinks,cs⟩ index.entries d ∧
      ∃ old, StoredNames index.entries d cs old ∧
        ∀ names, listing w d.path = some names → names.Perm old) (key : Bytes) :
    Stutters
      ((scanDir w index.entries ⟨trustFilemode,hasSymlinks,cs⟩ opts' t).2.filter
        (fun p => foldKey cs p = key))
      ((scanDir w index.entries ⟨trustFilemode,hasSymlinks,cs⟩ opts d).2.filter
        (fun p => foldKey cs p = key)) := by
  rw [scanDirClass index w trustFilemode hasSymlinks opts key state mem,
    scanDirClass index w trustFilemode hasSymlinks opts' key freshState memT]
  obtain ⟨path,files,subdirs,_⟩ := shapeFields same
  have entries : dirEntries index.entries t = dirEntries index.entries d := by rw [dirEntries,files]; rfl
  simp only [classReport,freshPhase statable opts' unread,← untracked,entries,path,subdirs]
  rcases phaseRead statable opts d with ⟨hit,include',_⟩ | read
  · obtain ⟨done,stored⟩ := settled hit
    obtain ⟨names,listed,alike⟩ := cachedAlike index w trustFilemode hasSymlinks state mem key done stored
    simp only [hit,readPhase,include',if_true,listed,Option.elim_some]
    exact alike
  · rw [read]
    cases seen : readPhase w opts.includeUntracked d.path with
    | cached =>
      unfold readPhase at seen
      split at seen
      · cases names : listing w d.path <;> simp [names] at seen
      · contradiction
    | skipped => exact stuttersRefl _
    | listed names => exact stuttersRefl _

theorem scanAlike {dirs fresh all allFresh : List IndexDir} (state : CacheState index.entries all)
    (freshState : CacheState index.entries allFresh) (inside : ∀ d ∈ dirs, d ∈ all)
    (insideFresh : ∀ t ∈ fresh, t ∈ allFresh) (same : fresh.map shape = dirs.map shape)
    (unread : ∀ t ∈ fresh, t.st = none)
    (statable : ∀ d, (w.readdir d).isSome → (w.dirTimes d).isSome) {opts opts' : ScanOpts}
    (untracked : opts.includeUntracked = opts'.includeUntracked)
    (settled : ∀ d ∈ dirs, phase w opts d = .cached →
      Settled w ⟨trustFilemode,hasSymlinks,cs⟩ index.entries d ∧
      ∃ old, StoredNames index.entries d cs old ∧
        ∀ names, listing w d.path = some names → names.Perm old) (key : Bytes) :
    Stutters
      ((scanDirs w index.entries ⟨trustFilemode,hasSymlinks,cs⟩ opts' fresh).2.filter
        (fun p => foldKey cs p = key))
      ((scanDirs w index.entries ⟨trustFilemode,hasSymlinks,cs⟩ opts dirs).2.filter
        (fun p => foldKey cs p = key)) := by
  induction dirs generalizing fresh with
  | nil =>
    have none : fresh = [] := by simpa using same
    subst none
    exact .nil
  | cons d dirs ih =>
    cases fresh with
    | nil => contradiction
    | cons t fresh =>
      obtain ⟨shapes,rest⟩ := List.cons.inj same
      rw [scanDirs,scanDirs,List.filter_append,List.filter_append]
      have first := dirAlike index w trustFilemode hasSymlinks state freshState (inside d List.mem_cons_self)
        (insideFresh t List.mem_cons_self) shapes (unread t List.mem_cons_self) statable untracked
        (settled d List.mem_cons_self) key
      exact stuttersAppend first (ih (fun e he => inside e (List.mem_cons_of_mem d he))
        (fun e he => insideFresh e (List.mem_cons_of_mem t he)) rest
        (fun e he => unread e (List.mem_cons_of_mem t he))
        (fun e he => settled e (List.mem_cons_of_mem d he)))

end cached

theorem scanUncached {w : Worktree} (entries : List IndexEntry) (caps : RepoCaps)
    (statable : ∀ d, (w.readdir d).isSome → (w.dirTimes d).isSome) {opts opts' : ScanOpts}
    (untracked : opts.includeUntracked = opts'.includeUntracked) {dirs fresh : List IndexDir}
    (same : fresh.map shape = dirs.map shape) (unread : ∀ t ∈ fresh, t.st = none)
    (uncached : ∀ d ∈ dirs, phase w opts d ≠ .cached) :
    (scanDirs w entries caps opts' fresh).2 = (scanDirs w entries caps opts dirs).2 := by
  induction dirs generalizing fresh with
  | nil =>
    have none : fresh = [] := by simpa using same
    rw [none]; rfl
  | cons d dirs ih =>
    cases fresh with
    | nil => contradiction
    | cons t fresh =>
      obtain ⟨shapes,rest⟩ := List.cons.inj same
      obtain ⟨path,files,subdirs,_⟩ := shapeFields shapes
      have entries' : dirEntries entries t = dirEntries entries d := by rw [dirEntries,files]; rfl
      have here := uncached d List.mem_cons_self
      have phases : phase w opts' t = phase w opts d := by
        rw [freshPhase statable opts' (unread t List.mem_cons_self),path,← untracked]
        rcases phaseRead statable opts d with ⟨hit,_⟩ | read
        · exact absurd hit here
        · exact read.symm
      have first : (scanDir w entries caps opts' t).2 = (scanDir w entries caps opts d).2 := by
        rw [scanDirRead,scanDirRead,phases,path,subdirs,entries']
        cases step : phase w opts d with
        | cached => exact absurd step here
        | skipped => rfl
        | listed names => rfl
      rw [scanDirs,scanDirs,first,ih rest (fun e he => unread e (List.mem_cons_of_mem t he))
        (fun e he => uncached e (List.mem_cons_of_mem d he))]

theorem candidatesAlike {w : Worktree} (caps : RepoCaps) {entries : List IndexEntry}
    {dirs : List IndexDir} (state : CacheState entries dirs)
    (statable : ∀ d, (w.readdir d).isSome → (w.dirTimes d).isSome) (opts opts' : ScanOpts)
    (untracked : opts.includeUntracked = opts'.includeUntracked)
    (settled : ∀ d ∈ dirs, phase w opts d = .cached →
      (∃ index : SortedEntries caps.caseSensitive, index.entries = entries) ∧
      Settled w caps entries d ∧ ∃ old, StoredNames entries d caps.caseSensitive old ∧
        ∀ names, listing w d.path = some names → names.Perm old) :
    StableSort.sortDedup (foldKey caps.caseSensitive) (scanDirs w entries caps opts dirs).2 =
      StableSort.sortDedup (foldKey caps.caseSensitive)
        (scanDirs w entries caps opts' (indexTree entries).dirs).2 := by
  have fresh : ∀ t ∈ (indexTree entries).dirs, t.st = none :=
    fun t mem => (grownFresh (indexTreeGrown entries) t mem).1
  by_cases cached : ∃ d ∈ dirs, phase w opts d = .cached
  · obtain ⟨d,mem,hit⟩ := cached
    obtain ⟨⟨index,rfl⟩,_⟩ := settled d mem hit
    exact (StableSort.sortDedupAlike (foldKey caps.caseSensitive) (scanAlike index w caps.trustFilemode
      caps.hasSymlinks state rfl (fun _ mem => mem) (fun _ mem => mem) state.symm fresh statable untracked
      fun d mem hit => (settled d mem hit).2)).symm
  · rw [scanUncached entries caps statable untracked state.symm fresh
      fun d mem hit => cached ⟨d,mem,hit⟩]

end P11k.Gitstatus
