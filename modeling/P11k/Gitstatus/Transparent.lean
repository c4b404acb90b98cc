import P11k.Gitstatus.CachedScan

/-! When the answers of a resident repository are those of a freshly opened one. Each cache is
tied to a request of the past: the tree and the staged counts to one with the same index stat,
the names of a directory to one with the same mtime. -/
namespace P11k.Gitstatus
open List (Forall₂)

variable {ο : Type}

/-- What the caches take for granted about the requests of one run: an equal stat of the index
means an equal index, an equal mtime means an equal set of names, and a directory that can be
listed can be stat'ed. -/
structure Steady (moments : List (Surroundings ο)) : Prop where
  index : ∀ m ∈ moments, ∀ m' ∈ moments, m.indexStat = m'.indexStat →
    ∀ e ∈ m.gitIndex, ∀ e' ∈ m'.gitIndex, e = e'
  listing : ∀ m ∈ moments, ∀ m' ∈ moments, ∀ d, m.worktree.dirTimes d = m'.worktree.dirTimes d →
    ∀ raw ∈ m.worktree.readdir d, ∀ raw' ∈ m'.worktree.readdir d, raw.Perm raw'
  statable : ∀ m ∈ moments, ∀ d, (m.worktree.readdir d).isSome → (m.worktree.dirTimes d).isSome

theorem steadyStill {moments : List (Surroundings ο)} {w : Worktree} {entries : Option (List IndexEntry)}
    (statable : ∀ d, (w.readdir d).isSome → (w.dirTimes d).isSome)
    (worktree : ∀ m ∈ moments, m.worktree = w) (index : ∀ m ∈ moments, m.gitIndex = entries) :
    Steady moments where
  index m hm m' hm' _ e he e' he' := by
    rw [index m hm] at he
    rw [index m' hm'] at he'
    exact Option.some.inj (he.symm.trans he')
  listing m hm m' hm' d _ raw hraw raw' hraw' := by
    rw [worktree m hm] at hraw
    rw [worktree m' hm'] at hraw'
    exact Option.some.inj (hraw.symm.trans hraw') ▸ List.Perm.refl raw
  statable m hm := by
    rw [worktree m hm]
    exact statable

def scanOpts (repo : Repo ο) (m : Surroundings ο) : ScanOpts :=
  ⟨(effectiveLimits repo.limits m.config).maxNumUntracked ≠ 0,repo.supported && m.probe⟩

/-- Each directory that this request takes from the cache was read under the present case
setting and is settled, and the index is in the order of that setting. -/
def Settles (repo : Repo ο) (m : Surroundings ο) : Prop :=
  ∀ entries tree, m.gitIndex = some entries → repo.indexTree = some tree →
    tree.includeUntracked = (scanOpts repo m).includeUntracked →
    tree.entries.map (·.path) = entries.map (·.path) →
    scans (effectiveLimits repo.limits m.config) m entries.length = true →
    ∀ d casing, (d,casing) ∈ tree.dirs.zip repo.casings →
      phase m.worktree (scanOpts repo m) d = .cached →
        casing = (repoCaps m.config).caseSensitive ∧
        (∃ index : SortedEntries (repoCaps m.config).caseSensitive, index.entries = entries) ∧
        Settled m.worktree (repoCaps m.config) entries d

/-- The names stored in `d` were read in a request that saw its present stat. -/
def ReadBefore (moments : List (Surroundings ο)) (entries : List IndexEntry) (d : IndexDir)
    (casing : Bool) : Prop :=
  ∀ t, d.st = some t → ∃ m ∈ moments, m.worktree.dirTimes d.path = some t ∧
    ∃ names, listing m.worktree d.path = some names ∧ StoredNames entries d casing names

structure TreeKept (moments : List (Surroundings ο)) (repo : Repo ο) (index : Index) : Prop where
  seen : ∃ m ∈ moments, m.indexStat = repo.indexStat ∧ m.gitIndex = some index.entries
  state : CacheState index.entries index.dirs
  cuts : Cuts 0 index.dirs.length index.splits
  threads : 16 * max repo.limits.numThreads 1 ≠ 0
  read : repo.supported = true → Forall₂ (ReadBefore moments index.entries) index.dirs repo.casings

/-! The tree depends on the paths of the entries only. -/

theorem addEntriesPaths {entries entries' : List IndexEntry}
    (paths : entries.map (·.path) = entries'.map (·.path)) (i : Nat) (dirs : List IndexDir)
    (stack : List Nat) : addEntries i entries dirs stack = addEntries i entries' dirs stack := by
  induction entries generalizing entries' i dirs stack with
  | nil =>
    cases entries' with
    | nil => rfl
    | cons e entries' => contradiction
  | cons e entries ih =>
    cases entries' with
    | nil => contradiction
    | cons e' entries' =>
      obtain ⟨head,tail⟩ := List.cons.inj paths
      dsimp only at head
      simp only [addEntries,head]
      cases addEntry i e'.path dirs stack with
      | none => rfl
      | some next => exact ih tail _ _ _

theorem indexTreeRun (entries : List IndexEntry) :
    fromEntries entries = some ⟨entries,(indexTree entries).dirs,[],false⟩ := by
  obtain ⟨dirs,run,_⟩ := fromEntriesTotal entries
  simp only [indexTree,run,Option.get_some]

theorem indexTreePathsOnly {entries entries' : List IndexEntry}
    (paths : entries.map (·.path) = entries'.map (·.path)) :
    (indexTree entries).dirs = (indexTree entries').dirs := by
  have one := indexTreeRun entries
  have two := indexTreeRun entries'
  rw [fromEntries,addEntriesPaths paths] at one
  rw [fromEntries] at two
  cases run : addEntries 0 entries' [freshDir [] [] 0] [0] with
  | none => simp [run] at one
  | some r =>
    simp only [run,Option.bind_eq_bind,Option.bind_some,Option.some.injEq,Index.mk.injEq] at one two
    exact one.2.1.symm.trans two.2.1

theorem updatedEntries {old new : List IndexEntry} (paths : old.map (·.path) = new.map (·.path)) :
    List.zipWith (fun a b : IndexEntry => { b with path := a.path }) old new = new := by
  induction old generalizing new with
  | nil => simpa using paths.symm
  | cons a old ih =>
    cases new with
    | nil => contradiction
    | cons b new =>
      obtain ⟨head,tail⟩ := List.cons.inj paths
      dsimp only at head
      rw [List.zipWith_cons_cons,ih tail,head]

theorem dirEntriesPaths {entries entries' : List IndexEntry}
    (paths : entries.map (·.path) = entries'.map (·.path)) (d : IndexDir) :
    (dirEntries entries d).map (·.path) = (dirEntries entries' d).map (·.path) := by
  have at' : ∀ i : Nat, (entries[i]?).map IndexEntry.path = (entries'[i]?).map IndexEntry.path := by
    intro i
    rw [← List.getElem?_map,← List.getElem?_map,paths]
  simp only [dirEntries,List.map_filterMap,at']

theorem cacheStatePaths {entries entries' : List IndexEntry}
    (paths : entries.map (·.path) = entries'.map (·.path)) {dirs : List IndexDir}
    (state : CacheState entries dirs) : CacheState entries' dirs := by
  rw [CacheState,state,indexTreePathsOnly paths]

theorem readPaths {moments : List (Surroundings ο)} {entries entries' : List IndexEntry}
    (paths : entries.map (·.path) = entries'.map (·.path)) {d : IndexDir} {casing : Bool}
    (read : ReadBefore moments entries d casing) : ReadBefore moments entries' d casing := by
  intro t at'
  obtain ⟨m,mem,times,names,listed,stored⟩ := read t at'
  refine ⟨m,mem,times,names,listed,?_⟩
  intro w caps same
  rw [stored w caps same]
  exact unmatchedSame d.path rfl _ (dirEntriesPaths paths d) d.subdirs

theorem unreadBefore (moments : List (Surroundings ο)) (entries : List IndexEntry)
    {dirs : List IndexDir} {casings : List Bool} (same : dirs.length = casings.length)
    (unread : ∀ d ∈ dirs, d.st = none) : Forall₂ (ReadBefore moments entries) dirs casings := by
  apply List.forall₂_of_length_eq_of_get same
  intro i h h' t at'
  rw [unread _ (List.get_mem dirs ⟨i,h⟩)] at at'
  contradiction

/-! A scan leaves directories that were read before. -/

theorem scanRead {moments : List (Surroundings ο)} {m : Surroundings ο} (mem : m ∈ moments)
    (entries : List IndexEntry) (caps : RepoCaps) (includeUntracked : Bool) {d : IndexDir} {casing : Bool}
    (read : ReadBefore moments entries d casing) :
    ReadBefore moments entries (scanDir m.worktree entries caps ⟨includeUntracked,true⟩ d).1
      (match phase m.worktree ⟨includeUntracked,true⟩ d with
        | .listed _ => caps.caseSensitive
        | _ => casing) := by
  cases includeUntracked with
  | false => exact read
  | true =>
    simp only [scanDir,phase,Bool.not_true,Bool.false_eq_true,if_false,if_true]
    cases times : m.worktree.dirTimes d.path with
    | none =>
      intro t at'
      contradiction
    | some cur =>
      by_cases hit : d.st = some cur
      · simp only [hit,if_true]
        exact read
      · simp only [hit,if_false,readInto,listDir]
        cases names : listing m.worktree d.path with
        | none =>
          intro t at'
          contradiction
        | some names' =>
          intro t at'
          cases at'
          refine ⟨m,mem,times,names',names,?_⟩
          intro w caps' same
          exact unmatchedSame d.path same.symm _ rfl d.subdirs

theorem scansRead {moments : List (Surroundings ο)} {m : Surroundings ο} (mem : m ∈ moments)
    (entries : List IndexEntry) (caps : RepoCaps) (includeUntracked : Bool) {dirs : List IndexDir}
    {casings : List Bool} (read : Forall₂ (ReadBefore moments entries) dirs casings) :
    Forall₂ (ReadBefore moments entries)
      (scanDirs m.worktree entries caps ⟨includeUntracked,true⟩ dirs).1
      (scanCasings m.worktree ⟨includeUntracked,true⟩ caps.caseSensitive dirs casings) := by
  induction read with
  | nil => exact .nil
  | cons first rest ih => exact .cons (scanRead mem entries caps includeUntracked first) ih

/-! The answer of one request, from the surroundings alone. -/

section answer
variable (diffTreeToIndex : ο → List IndexEntry → Option (List Delta))

def stagedNow (base limits : Options) (head : Option ο) (entries : List IndexEntry) : StagedStats :=
  if limits.maxNumStaged = 0 ∧ limits.maxNumConflicted = 0 then noStaged
  else match head with
    | some head => computeStaged diffTreeToIndex base entries head
    | none => initialStaged entries

def answer (limits : Options) (m : Surroundings ο) : Option IndexStats :=
  match m.gitIndex with
  | none => some noStats
  | some entries =>
      let now := effectiveLimits limits m.config
      let caps := repoCaps m.config
      let stats := stagedFields now entries.length (stagedNow diffTreeToIndex limits now m.head entries)
      if 16 * max limits.numThreads 1 = 0 then none
      else if scans now m entries.length then
        computeDirty m.worktree m.statusShouldIgnore entries now
          (StableSort.sortDedup (foldKey caps.caseSensitive) (scanDirs m.worktree entries caps
            ⟨now.maxNumUntracked ≠ 0,false⟩ (indexTree entries).dirs).2) stats
      else some stats

/-- What holds of the resident repository between two requests. -/
structure Kept (moments : List (Surroundings ο)) (base : Options) (repo : Repo ο) : Prop where
  limits : repo.limits = base
  staged : ∀ head, repo.stagedHead = some head → ∃ m ∈ moments, ∃ entries,
    m.indexStat = repo.stagedIndexStat ∧ m.gitIndex = some entries ∧
      repo.stagedStats = computeStaged diffTreeToIndex base entries head
  tree : ∀ index, repo.indexTree = some index → TreeKept moments repo index

theorem openKept (moments : List (Surroundings ο)) (limits : Options) :
    Kept diffTreeToIndex moments limits (openRepo limits) :=
  ⟨rfl,fun _ none' => by contradiction,fun _ none' => by contradiction⟩

theorem keptProbe {moments : List (Surroundings ο)} {limits : Options} {repo : Repo ο}
    (kept : Kept diffTreeToIndex moments limits repo) (probe : Bool) :
    Kept diffTreeToIndex moments limits { repo with supported := repo.supported && probe } := by
  refine ⟨kept.limits,kept.staged,fun index there => ?_⟩
  obtain ⟨seen,state,cuts,threads,read⟩ := kept.tree index there
  exact ⟨seen,state,cuts,threads,fun on => read (Bool.and_eq_true_iff.mp on).1⟩

variable [DecidableEq ο]

theorem refreshNow {moments : List (Surroundings ο)} (steady : Steady moments) {m : Surroundings ο}
    (mem : m ∈ moments) {entries : List IndexEntry} (gitIndex : m.gitIndex = some entries)
    {base : Options} {repo : Repo ο} (kept : Kept diffTreeToIndex moments base repo)
    (stat : repo.indexStat = m.indexStat) (limits : Options) :
    (refreshStaged diffTreeToIndex repo limits m.head entries).stagedStats =
      stagedNow diffTreeToIndex base limits m.head entries ∧
    ∀ head, (refreshStaged diffTreeToIndex repo limits m.head entries).stagedHead = some head →
      ∃ m' ∈ moments, ∃ entries', m'.indexStat =
          (refreshStaged diffTreeToIndex repo limits m.head entries).stagedIndexStat ∧
        m'.gitIndex = some entries' ∧
        (refreshStaged diffTreeToIndex repo limits m.head entries).stagedStats =
          computeStaged diffTreeToIndex base entries' head := by
  unfold refreshStaged stagedNow
  split
  · exact ⟨rfl,fun _ none' => by contradiction⟩
  · cases m.head with
    | none => exact ⟨rfl,fun _ none' => by contradiction⟩
    | some commit =>
      dsimp only
      split
      · rename_i hit
        obtain ⟨m',mem',entries',stat',gitIndex',stats⟩ := kept.staged commit hit.1
        have same := steady.index m' mem' m mem (stat'.trans (hit.2.symm.trans stat)) entries' gitIndex'
          entries gitIndex
        exact ⟨same ▸ stats,kept.staged⟩
      · refine ⟨by rw [kept.limits],fun head' same => ?_⟩
        cases same
        exact ⟨m,mem,entries,stat.symm,gitIndex,by rw [kept.limits]⟩

theorem refreshFields (repo : Repo ο) (limits : Options) (head : Option ο) (entries : List IndexEntry) :
    ∃ head' stats stat, refreshStaged diffTreeToIndex repo limits head entries =
      { repo with stagedHead := head', stagedStats := stats, stagedIndexStat := stat } := by
  unfold refreshStaged
  split
  · exact ⟨_,_,_,rfl⟩
  · split
    · split
      · exact ⟨_,_,_,rfl⟩
      · exact ⟨_,_,_,rfl⟩
    · exact ⟨_,_,_,rfl⟩

omit [DecidableEq ο]

/-- The tree that a request goes on with has the entries of its index. Either it was taken over
with its untracked state or every directory is still to be read. -/
theorem treeStep {moments : List (Surroundings ο)} (steady : Steady moments) {m : Surroundings ο}
    (mem : m ∈ moments) {entries : List IndexEntry} (gitIndex : m.gitIndex = some entries)
    {repo : Repo ο} (kept : ∀ index, repo.indexTree = some index → TreeKept moments repo index)
    (shards : 16 * max repo.limits.numThreads 1 ≠ 0) (includeUntracked : Bool) :
    ∃ casings tree, indexTreeOrRebuild repo m.indexStat entries includeUntracked =
        some ({ repo with indexTree := none, indexStat := m.indexStat, casings := casings },tree) ∧
      tree.entries = entries ∧
      TreeKept moments { repo with indexTree := none, indexStat := m.indexStat, casings := casings } tree ∧
      ((∃ old, repo.indexTree = some old ∧ old.includeUntracked = includeUntracked ∧
          old.entries.map (·.path) = entries.map (·.path) ∧ tree.dirs = old.dirs ∧
          casings = repo.casings) ∨
        ∀ d ∈ tree.dirs, d.st = none) := by
  have rebuilt : ∃ tree, (do
      let index ← fromEntries entries
      let index ← initSplits repo.limits.numThreads { index with includeUntracked := includeUntracked }
      some ({ repo with indexTree := none, indexStat := m.indexStat,
                        casings := List.replicate index.dirs.length true },index)) =
        some ({ repo with indexTree := none, indexStat := m.indexStat,
                          casings := List.replicate tree.dirs.length true },tree) ∧
      tree.entries = entries ∧ TreeKept moments { repo with
        indexTree := none, indexStat := m.indexStat,
        casings := List.replicate tree.dirs.length true } tree ∧ ∀ d ∈ tree.dirs, d.st = none := by
    obtain ⟨splits,init,cuts⟩ := initSplitsCuts shards
      ⟨entries,(indexTree entries).dirs,[],includeUntracked⟩
    have unread : ∀ d ∈ (indexTree entries).dirs, d.st = none :=
      fun d mem => (grownFresh (indexTreeGrown entries) d mem).1
    refine ⟨⟨entries,(indexTree entries).dirs,splits,includeUntracked⟩,?_,rfl,
      ⟨⟨m,mem,rfl,gitIndex⟩,rfl,cuts,shards,fun _ => unreadBefore moments entries (by simp) unread⟩,unread⟩
    simp only [indexTreeRun,Option.bind_eq_bind,Option.bind_some,init]
  unfold indexTreeOrRebuild
  cases there : repo.indexTree with
  | none =>
    obtain ⟨tree,run,same,next,unread⟩ := rebuilt
    exact ⟨_,tree,run,same,next,.inr unread⟩
  | some old =>
    obtain ⟨⟨m',mem',stat',gitIndex'⟩,state,cuts,threads,read⟩ := kept old there
    dsimp only
    split
    · rename_i hit
      have same : old.entries = entries := steady.index m' mem' m mem (stat'.trans hit.1) _ gitIndex' _ gitIndex
      refine ⟨repo.casings,old,by rw [← hit.1],same,
        ⟨⟨m,mem,rfl,same ▸ gitIndex⟩,state,cuts,threads,read⟩,
        .inl ⟨old,rfl,hit.2,by rw [same],rfl,rfl⟩⟩
    · split
      · rename_i paths
        have updated : updateStats old entries = ⟨entries,old.dirs,old.splits,old.includeUntracked⟩ := by
          rw [updateStats,updatedEntries paths]
        rw [updated]
        dsimp only
        split
        · rename_i include'
          exact ⟨repo.casings,_,rfl,rfl,⟨⟨m,mem,rfl,gitIndex⟩,cacheStatePaths paths state,cuts,threads,
            fun on => (read on).imp fun _ _ => readPaths paths⟩,.inl ⟨old,rfl,include',paths,rfl,rfl⟩⟩
        · have unread : ∀ d ∈ old.dirs.map (fun d => { d with st := none, unmatched := [] }), d.st = none := by
            intro d mem
            obtain ⟨e,_,rfl⟩ := List.mem_map.mp mem
            rfl
          refine ⟨repo.casings,_,rfl,rfl,⟨⟨m,mem,rfl,gitIndex⟩,?_,by simpa using cuts,threads,fun on =>
            unreadBefore moments entries (by simpa using (read on).length_eq) unread⟩,.inr unread⟩
          rw [CacheState,List.map_map]
          exact cacheStatePaths paths state
      · obtain ⟨tree,run,same,next,unread⟩ := rebuilt
        exact ⟨_,tree,run,same,next,.inr unread⟩

theorem scannedKept {moments : List (Surroundings ο)} {m : Surroundings ο} (mem : m ∈ moments)
    {repo : Repo ο} {tree : Index} (kept : TreeKept moments repo tree) (caps : RepoCaps)
    (includeUntracked : Bool) :
    TreeKept moments
      { repo with
        casings := scanCasings m.worktree ⟨includeUntracked,repo.supported⟩ caps.caseSensitive tree.dirs
          repo.casings }
      { tree with
        dirs := (scanDirs m.worktree tree.entries caps ⟨includeUntracked,repo.supported⟩ tree.dirs).1 } := by
  have shapes := scanDirsShape m.worktree tree.entries caps ⟨includeUntracked,repo.supported⟩ tree.dirs
  have len := congrArg List.length shapes
  simp only [List.length_map] at len
  refine ⟨kept.seen,shapes.trans kept.state,by rw [len]; exact kept.cuts,kept.threads,fun on => ?_⟩
  have read := kept.read on
  simp only at on
  rw [on]
  exact scansRead mem tree.entries caps includeUntracked read

theorem settledCandidates {moments : List (Surroundings ο)} (steady : Steady moments)
    {m : Surroundings ο} (mem : m ∈ moments) {entries : List IndexEntry}
    (gitIndex : m.gitIndex = some entries) {repo next : Repo ο} (settles : Settles repo m)
    (scanned : scans (effectiveLimits repo.limits m.config) m entries.length = true)
    (supported : next.supported = (repo.supported && m.probe)) {tree : Index}
    (same : tree.entries = entries) (kept : TreeKept moments next tree)
    (source : (∃ old, repo.indexTree = some old ∧
        old.includeUntracked = (scanOpts repo m).includeUntracked ∧
        old.entries.map (·.path) = entries.map (·.path) ∧ tree.dirs = old.dirs ∧
        next.casings = repo.casings) ∨ ∀ d ∈ tree.dirs, d.st = none) :
    StableSort.sortDedup (foldKey (repoCaps m.config).caseSensitive) (scanDirs m.worktree entries
        (repoCaps m.config) (scanOpts repo m) tree.dirs).2 =
      StableSort.sortDedup (foldKey (repoCaps m.config).caseSensitive) (scanDirs m.worktree entries
        (repoCaps m.config) ⟨(scanOpts repo m).includeUntracked,false⟩ (indexTree entries).dirs).2 := by
  subst same
  apply candidatesAlike (repoCaps m.config) kept.state (steady.statable m mem) (scanOpts repo m)
    ⟨(scanOpts repo m).includeUntracked,false⟩ rfl
  intro d hd hit
  rcases phaseRead (steady.statable m mem) (scanOpts repo m) d with ⟨_,_,enabled,read,times⟩ | other
  · rcases source with ⟨old,there,include',paths,dirs,casings⟩ | unread
    · have on : next.supported = true := supported.trans enabled
      obtain ⟨i,bound,rfl⟩ := List.mem_iff_getElem.mp hd
      have all := kept.read on
      have bound' : i < next.casings.length := by rw [← all.length_eq]; exact bound
      have before : ReadBefore moments tree.entries tree.dirs[i] next.casings[i] := all.get bound bound'
      have paired : (tree.dirs[i],next.casings[i]) ∈ old.dirs.zip repo.casings := by
        rw [← dirs,← casings]
        exact List.mem_iff_getElem.mpr ⟨i,by simpa using ⟨bound,bound'⟩,List.getElem_zip⟩
      obtain ⟨casing,ordered,settled⟩ := settles tree.entries old gitIndex there include' paths scanned
        _ _ paired hit
      obtain ⟨t,at'⟩ := Option.ne_none_iff_exists'.mp read
      obtain ⟨m',mem',times',old',listed,stored⟩ := before t at'
      refine ⟨ordered,settled,old',casing ▸ stored,fun names now => ?_⟩
      obtain ⟨raw,hraw,rfl⟩ := Option.map_eq_some_iff.mp now
      obtain ⟨raw',hraw',rfl⟩ := Option.map_eq_some_iff.mp listed
      have perm := steady.listing m mem m' mem' _ (by rw [← times,times',at']) raw hraw raw' hraw'
      exact (perm.filter _).map _
    · exact absurd (unread d hd) read
  · unfold readPhase at other
    rw [hit] at other
    split at other
    · cases names : listing m.worktree d.path <;> simp [names] at other
    · contradiction

variable [DecidableEq ο]

theorem statsAnswer {moments : List (Surroundings ο)} (steady : Steady moments) {m : Surroundings ο}
    (mem : m ∈ moments) {entries : List IndexEntry} (gitIndex : m.gitIndex = some entries)
    {repo : Repo ο} (kept : Kept diffTreeToIndex moments repo.limits repo) (settles : Settles repo m)
    (shards : 16 * max repo.limits.numThreads 1 ≠ 0) :
    ∃ next stats, getIndexStats diffTreeToIndex repo m = some (next,stats) ∧
      Kept diffTreeToIndex moments repo.limits next ∧ answer diffTreeToIndex repo.limits m = some stats := by
  have probed := keptProbe diffTreeToIndex kept m.probe
  obtain ⟨casings,tree,run,same,next,source⟩ := treeStep steady mem gitIndex probed.tree shards
    ((effectiveLimits repo.limits m.config).maxNumUntracked ≠ 0)
  have idle : Kept diffTreeToIndex moments repo.limits { repo with
      supported := repo.supported && m.probe, indexTree := none, indexStat := m.indexStat,
      casings := casings } := ⟨rfl,probed.staged,fun _ none' => by contradiction⟩
  have refreshed := refreshNow diffTreeToIndex steady mem gitIndex idle rfl
    (effectiveLimits repo.limits m.config)
  obtain ⟨head,stats,stat,fields⟩ := refreshFields diffTreeToIndex { repo with
      supported := repo.supported && m.probe, indexTree := none, indexStat := m.indexStat,
      casings := casings } (effectiveLimits repo.limits m.config) m.head entries
  rw [fields] at refreshed
  obtain ⟨now,staged⟩ := refreshed
  dsimp only at now staged
  subst now
  unfold getIndexStats answer
  rw [gitIndex]
  dsimp only
  rw [run,if_neg shards]
  simp only [Option.bind_eq_bind,Option.bind_some,fields]
  by_cases scanned : scans (effectiveLimits repo.limits m.config) m entries.length = true
  · have candidates := settledCandidates steady mem gitIndex settles scanned rfl same next source
    rw [if_pos scanned,if_pos scanned]
    simp only [getDirtyCandidatesCuts m.worktree _ _ tree next.cuts,Option.bind_some,same]
    simp only [scanOpts] at candidates
    rw [candidates]
    have counts := Option.isSome_iff_exists.mp (computeDirtyEnds m.worktree m.statusShouldIgnore
      entries (effectiveLimits repo.limits m.config) (StableSort.sortDedup
        (foldKey (repoCaps m.config).caseSensitive) (scanDirs m.worktree entries (repoCaps m.config)
          ⟨(effectiveLimits repo.limits m.config).maxNumUntracked ≠ 0,false⟩ (indexTree entries).dirs).2)
      (stagedFields (effectiveLimits repo.limits m.config) entries.length (stagedNow diffTreeToIndex
        repo.limits (effectiveLimits repo.limits m.config) m.head entries)))
    obtain ⟨stats,counted⟩ := counts
    rw [counted]
    refine ⟨_,_,rfl,⟨rfl,staged,fun index there => ?_⟩,rfl⟩
    cases there
    have scans := scannedKept mem next (repoCaps m.config)
      ((effectiveLimits repo.limits m.config).maxNumUntracked ≠ 0)
    rw [same] at scans
    exact ⟨scans.seen,scans.state,scans.cuts,scans.threads,scans.read⟩
  · rw [if_neg scanned,if_neg scanned]
    exact ⟨_,_,rfl,⟨rfl,staged,fun index there => by
      cases there
      exact ⟨next.seen,next.state,next.cuts,next.threads,next.read⟩⟩,rfl⟩

theorem requestAnswer {moments : List (Surroundings ο)} (steady : Steady moments) {m : Surroundings ο}
    (mem : m ∈ moments) {base : Options} {repo : Repo ο} (kept : Kept diffTreeToIndex moments base repo)
    (settles : Settles repo m) :
    Kept diffTreeToIndex moments base (request diffTreeToIndex repo m).1 ∧
      (request diffTreeToIndex repo m).2 = [(m,answer diffTreeToIndex base m)] := by
  have limits := kept.limits
  subst limits
  cases gitIndex : m.gitIndex with
  | none =>
    have probed := keptProbe diffTreeToIndex kept m.probe
    simpa only [request,getIndexStats,answer,gitIndex,and_true] using probed
  | some entries =>
    by_cases shards : 16 * max repo.limits.numThreads 1 = 0
    · -- The shard count wraps to zero, so no tree can be built, and none ever was.
      have unbuilt : repo.indexTree = none := by
        cases there : repo.indexTree with
        | none => rfl
        | some tree => exact absurd shards (kept.tree tree there).threads
      have panics : getIndexStats diffTreeToIndex repo m = none := by
        simp only [getIndexStats,gitIndex,indexTreeOrRebuild,unbuilt,indexTreeRun,initSplitsNone shards,
          Option.bind_eq_bind,Option.bind_some,Option.bind_none]
      simpa only [request,panics,answer,gitIndex,if_pos shards,and_true] using kept
    · obtain ⟨next,stats,run,keeps,answered⟩ :=
        statsAnswer diffTreeToIndex steady mem gitIndex kept settles shards
      simpa only [request,run,answered,and_true] using keeps

theorem freshAnswer {moments : List (Surroundings ο)} (steady : Steady moments) {m : Surroundings ο}
    (mem : m ∈ moments) (limits : Options) (probe : Bool) :
    freshStats diffTreeToIndex limits m probe = answer diffTreeToIndex limits m := by
  have alone : Steady [{ m with probe := probe }] :=
    @steadyStill _ _ _ m.gitIndex (steady.statable m mem) (by simp) (by simp)
  have nothingCached : Settles (openRepo limits) { m with probe := probe } :=
    fun _ _ _ none' => by contradiction
  have answered := (requestAnswer diffTreeToIndex alone List.mem_cons_self
    (openKept diffTreeToIndex _ limits) nothingCached).2
  unfold request at answered
  unfold freshStats
  cases run : getIndexStats diffTreeToIndex (openRepo limits) { m with probe := probe } with
  | none =>
    simp only [run,List.cons.injEq,Prod.mk.injEq,and_true] at answered
    exact answered.2
  | some result =>
    simp only [run,List.cons.injEq,Prod.mk.injEq,and_true] at answered
    exact answered.2

/-- In every run whose requests take only settled directories from the cache, each request is
answered as by a repository that has just been opened. -/
theorem cachesTransparent (limits : Options) {moments : List (Surroundings ο)} (steady : Steady moments)
    (settles : Machine.Guarded (request diffTreeToIndex) Settles (openRepo limits) moments)
    (probe : Bool) :
    (Machine.run (request diffTreeToIndex) (openRepo limits) moments).2 =
      moments.map (fun m => (m,freshStats diffTreeToIndex limits m probe)) := by
  refine Machine.runOutputs (P := Settles) (I := Kept diffTreeToIndex moments limits) ?_
    (openKept diffTreeToIndex moments limits) settles
  intro repo m mem kept settled
  rw [freshAnswer diffTreeToIndex steady mem]
  exact requestAnswer diffTreeToIndex steady mem kept settled

end answer

def noDeltas (_ : Unit) (_ : List IndexEntry) : Option (List Delta) := some []

def onlyA (ignorecase : Bool) (entries : List IndexEntry) : Surroundings Unit where
  head := some ()
  indexStat := some (1,0,72)
  gitIndex := some entries
  config := ⟨none,none,none,none,none,some ignorecase⟩
  worktree := tableWorktree [([65],⟨1,0,0,0,0o100644⟩)] [([],(0,0),[⟨[65],.other⟩])] (by decide)
  workdirOpens := true
  statusShouldIgnore _ := false
  probe := true

theorem onlyASteady (entries : List IndexEntry) (cases : List Bool) :
    Steady (cases.map (onlyA · entries)) := by
  refine @steadyStill _ _ (onlyA true entries).worktree (some entries) ?_ ?_ ?_
  · intro d read
    simpa [onlyA,tableWorktree] using read
  · intro m mem
    obtain ⟨_,_,rfl⟩ := List.mem_map.mp mem
    rfl
  · intro m mem
    obtain ⟨_,_,rfl⟩ := List.mem_map.mp mem
    rfl

theorem onlyASettles : Settles (request noDeltas (openRepo unlimited) (onlyA false [])).1 (onlyA false []) := by
  intro entries tree gitIndex there _ _ _ d casing mem hit
  have kept : (request noDeltas (openRepo unlimited) (onlyA false [])).1.indexTree =
      some ⟨[],[⟨[],[],0,[],[],some (0,0),[[65]]⟩],[0,1],true⟩ := by decide
  have casings : (request noDeltas (openRepo unlimited) (onlyA false [])).1.casings = [true] := by decide
  cases gitIndex
  rw [kept] at there
  cases there
  rw [casings] at mem
  cases List.mem_singleton.mp mem
  refine ⟨rfl,⟨⟨[],.nil⟩,rfl⟩,[⟨[65],false⟩],by decide,by decide,?_,?_⟩ <;> simp [dirEntries,classEntries]

theorem cachesTransparentTwice :
    (Machine.run (request noDeltas) (openRepo unlimited) [onlyA false [],onlyA false []]).2 =
      [onlyA false [],onlyA false []].map (fun m => (m,freshStats noDeltas unlimited m true)) := by
  refine cachesTransparent noDeltas unlimited (onlyASteady [] [false,false]) ⟨?_,onlyASettles,trivial⟩ true
  intro _ _ _ none'
  contradiction

theorem flippedCaseMissesFile : ¬ ∀ moments : List (Surroundings Unit), Steady moments →
    ∀ probe, (Machine.run (request noDeltas) (openRepo unlimited) moments).2 =
      moments.map (fun m => (m,freshStats noDeltas unlimited m probe)) := by
  intro transparent
  have same := congrArg (List.map Prod.snd)
    (transparent _ (onlyASteady [⟨[97],1,0,0,0,0o100644,0,0,false⟩] [true,false]) true)
  revert same
  decide

end P11k.Gitstatus
