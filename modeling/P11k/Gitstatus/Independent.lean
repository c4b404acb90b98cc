import P11k.Gitstatus.Daemon

/-! When the messages of the daemon's input are independent: each one is then answered as by a
daemon that has just been started, or not at all, whatever came before it. -/
namespace P11k.Gitstatus
open P11k

section independent
variable {ο : Type} [DecidableEq ο] (diffTreeToIndex : ο → List IndexEntry → Option (List Delta))
  (hex : ο → Bytes) (options : DaemonOptions)

omit [DecidableEq ο] in
/-- What each message finds in one repository. -/
def moments (ms : List (Bytes × World ο)) (gitdir : Bytes) : List (Surroundings ο) :=
  ms.map fun m => (m.2.repository gitdir).surroundings

/-- The response of a daemon without repositories. -/
def alone (m : Bytes × World ο) : Option Response :=
  (processMessage diffTreeToIndex hex options (fun _ => none) m.2 m.1).2

omit [DecidableEq ο] in
/-- A repository that is still resident stands for one opened now: its work tree is the one
found now, its cached directories are settled, and opening it would not fail. -/
def Undisturbed (cache : RepoCache ο) : Task ο → Prop
  | .evict _ => True
  | .message bytes w => ∀ req, parseRequest bytes = some req → ∀ gitdir workdir,
      w.openOrDiscover req.dir req.dirIsGitdir = some ⟨gitdir,some workdir⟩ →
      ∀ resident, cache gitdir = some resident →
        resident.workdir = workdirBytes workdir ∧ w.spawnFails ≠ some .opening ∧
        (req.skipIndex = false → Settles resident.repo (w.repository gitdir).surroundings)

def CacheKept (ms : List (Bytes × World ο)) (cache : RepoCache ο) : Prop :=
  ∀ gitdir resident, cache gitdir = some resident →
    Kept diffTreeToIndex (moments ms gitdir) options.limits resident.repo

omit [DecidableEq ο] in
theorem openSettles (limits : Options) (m : Surroundings ο) : Settles (openRepo limits) m :=
  fun _ _ _ none' => by contradiction

variable {diffTreeToIndex}

theorem unscannedKept {ms : List (Surroundings ο)} (steady : Steady ms) {m : Surroundings ο}
    (mem : m ∈ ms) {entries : List IndexEntry} (gitIndex : m.gitIndex = some entries) {base : Options}
    {repo : Repo ο} (kept : Kept diffTreeToIndex ms base repo) :
    Kept diffTreeToIndex ms base (unscanned diffTreeToIndex repo m entries) := by
  have limits := kept.limits
  subst limits
  have probed := keptProbe diffTreeToIndex kept m.probe
  by_cases shards : 16 * max repo.limits.numThreads 1 = 0
  · have unbuilt : repo.indexTree = none := by
      cases there : repo.indexTree with
      | none => rfl
      | some tree => exact absurd shards (kept.tree tree there).threads
    simpa only [unscanned,indexTreeOrRebuild,unbuilt,indexTreeRun,initSplitsNone shards,
      Option.bind_eq_bind,Option.bind_some,Option.bind_none] using probed
  · obtain ⟨casings,tree,run,_,_,_⟩ := treeStep steady mem gitIndex probed.tree shards
      ((effectiveLimits repo.limits m.config).maxNumUntracked ≠ 0)
    have idle : Kept diffTreeToIndex ms repo.limits { repo with
        supported := repo.supported && m.probe, indexTree := none, indexStat := m.indexStat,
        casings := casings } := ⟨rfl,probed.staged,fun _ none' => by contradiction⟩
    have refreshed := (refreshNow diffTreeToIndex steady mem gitIndex idle rfl
      (effectiveLimits repo.limits m.config)).2
    obtain ⟨head,stats,stat,fields⟩ := refreshFields diffTreeToIndex { repo with
        supported := repo.supported && m.probe, indexTree := none, indexStat := m.indexStat,
        casings := casings } (effectiveLimits repo.limits m.config) m.head entries
    simp only [unscanned,run]
    rw [fields] at refreshed ⊢
    exact ⟨rfl,refreshed,fun _ none' => by contradiction⟩

theorem countedRequest (repo : Repo ο) (m : Surroundings ο) :
    request diffTreeToIndex repo m =
      ((countedStats diffTreeToIndex repo m).1,[(m,(countedStats diffTreeToIndex repo m).2)]) := by
  unfold request countedStats
  cases getIndexStats diffTreeToIndex repo m <;> rfl

theorem countedAnswer {ms : List (Surroundings ο)} (steady : Steady ms) {m : Surroundings ο}
    (mem : m ∈ ms) {limits : Options} {repo : Repo ο} (kept : Kept diffTreeToIndex ms limits repo)
    (settles : Settles repo m) :
    Kept diffTreeToIndex ms limits (countedStats diffTreeToIndex repo m).1 ∧
      (countedStats diffTreeToIndex repo m).2 = answer diffTreeToIndex limits m := by
  have answered := requestAnswer diffTreeToIndex steady mem kept settles
  rw [countedRequest] at answered
  simpa using answered

theorem indexStatsAlone {ms : List (Surroundings ο)} (steady : Steady ms) {m : Surroundings ο}
    (mem : m ∈ ms) {limits : Options} {repo : Repo ο} (kept : Kept diffTreeToIndex ms limits repo)
    (settles : Settles repo m) (spawnFails : Bool) :
    Kept diffTreeToIndex ms limits (indexStats diffTreeToIndex repo m spawnFails).1 ∧
      (indexStats diffTreeToIndex repo m spawnFails).2 =
        (indexStats diffTreeToIndex (openRepo limits) m spawnFails).2 := by
  have counted := countedAnswer steady mem kept settles
  have fresh := countedAnswer steady mem (openKept diffTreeToIndex ms limits)
    (openSettles limits m)
  have plain := And.intro counted.1 (counted.2.trans fresh.2.symm)
  unfold indexStats
  cases gitIndex : m.gitIndex with
  | none => exact plain
  | some entries =>
    dsimp only
    rw [kept.limits]
    split
    · rename_i stopped
      rw [if_pos (by exact stopped)]
      exact ⟨unscannedKept steady mem gitIndex kept,rfl⟩
    · rename_i runs
      rw [if_neg (by exact runs)]
      exact plain

variable {options}

theorem fieldsAlone {ms : List (Surroundings ο)} (steady : Steady ms) {v : GitView ο}
    (mem : v.surroundings ∈ ms) (resident : Resident ο)
    (kept : Kept diffTreeToIndex ms options.limits resident.repo) (skipIndex spawnFails : Bool)
    (settles : skipIndex = false → Settles resident.repo v.surroundings) (now : Nat) :
    Kept diffTreeToIndex ms options.limits
        (buildFields diffTreeToIndex hex options resident v skipIndex spawnFails).1 ∧
      (buildFields diffTreeToIndex hex options resident v skipIndex spawnFails).2 =
        (buildFields diffTreeToIndex hex options ⟨openRepo options.limits,resident.workdir,now⟩ v skipIndex
          spawnFails).2 := by
  cases skipIndex with
  | true => exact ⟨kept,rfl⟩
  | false =>
    obtain ⟨keeps,same⟩ := indexStatsAlone steady mem kept (settles rfl) spawnFails
    refine ⟨keeps,?_⟩
    simp only [buildFields,Bool.false_eq_true,if_false,same]

theorem messageAlone {ms : List (Bytes × World ο)} (steady : ∀ gitdir, Steady (moments ms gitdir))
    {cache : RepoCache ο} (kept : CacheKept diffTreeToIndex options ms cache) {bytes : Bytes} {w : World ο}
    (mem : (bytes,w) ∈ ms) (undisturbed : Undisturbed cache (.message bytes w)) :
    CacheKept diffTreeToIndex options ms (processMessage diffTreeToIndex hex options cache w bytes).1 ∧
      (processMessage diffTreeToIndex hex options cache w bytes).2 =
        alone diffTreeToIndex hex options (bytes,w) := by
  unfold alone processMessage
  cases parsed : parseRequest bytes with
  | none => exact ⟨kept,rfl⟩
  | some req =>
    have seen : ∀ gitdir, (w.repository gitdir).surroundings ∈ moments ms gitdir :=
      fun gitdir => List.mem_map_of_mem mem
    have entered : ∀ gitdir resident, Kept diffTreeToIndex (moments ms gitdir) options.limits resident.repo →
        CacheKept diffTreeToIndex options ms (Function.update cache gitdir (some resident)) := by
      intro gitdir resident keeps gitdir' resident' there
      by_cases same : gitdir' = gitdir
      · subst same
        rw [Function.update_self] at there
        exact Option.some.inj there ▸ keeps
      · rw [Function.update_of_ne same] at there
        exact kept gitdir' resident' there
    dsimp only
    unfold getOrOpen
    cases located : w.openOrDiscover req.dir req.dirIsGitdir with
    | none => exact ⟨kept,rfl⟩
    | some found =>
      obtain ⟨gitdir,workdir⟩ := found
      cases workdir with
      | none => exact ⟨kept,rfl⟩
      | some workdir =>
        dsimp only
        cases there : cache gitdir with
        | none =>
          dsimp only
          by_cases fails : w.spawnFails = some .opening
          · rw [if_pos fails]
            exact ⟨kept,rfl⟩
          · rw [if_neg fails]
            have fresh := fieldsAlone hex (steady gitdir) (seen gitdir)
              ⟨openRepo options.limits,workdirBytes workdir,w.now⟩ (openKept diffTreeToIndex _ _)
              req.skipIndex (w.spawnFails = some .scanning) (fun _ => openSettles _ _) w.now
            exact ⟨entered gitdir _ fresh.1,rfl⟩
        | some resident =>
          obtain ⟨same,opens,settles⟩ := undisturbed req parsed gitdir workdir located resident there
          have built := fieldsAlone hex (steady gitdir) (seen gitdir)
            { resident with lastUsed := w.now } (kept gitdir resident there)
            req.skipIndex (w.spawnFails = some .scanning) settles w.now
          dsimp only
          rw [if_neg opens]
          refine ⟨entered gitdir _ built.1,?_⟩
          rw [built.2]
          dsimp only
          rw [same]

omit [DecidableEq ο] in
theorem evictKept {ms : List (Bytes × World ο)} {cache : RepoCache ο}
    (kept : CacheKept diffTreeToIndex options ms cache) (now : Nat) :
    CacheKept diffTreeToIndex options ms (evictExpired options cache now) := by
  unfold evictExpired
  split
  · exact kept
  · exact fun gitdir resident there => kept gitdir resident (Option.filter_eq_some_iff.mp there).1

variable (diffTreeToIndex options)

/-- The files behind the caches keep their stats' word, and no message finds a resident
repository that differs from one opened now. -/
structure Calm (worlds : Nat → World ο) (polls : List Poll) : Prop where
  steady : ∀ gitdir, Steady (moments (messages worlds polls) gitdir)
  undisturbed : Machine.Guarded (taskStep diffTreeToIndex hex options) Undisturbed (fun _ => none)
    (tasks worlds [] 0 polls)

def answered (m : Bytes × World ο) : Bool := (alone diffTreeToIndex hex options m).isSome

variable {diffTreeToIndex options}

theorem taskAlone {ms : List (Bytes × World ο)} (steady : ∀ gitdir, Steady (moments ms gitdir))
    {cache : RepoCache ο} (kept : CacheKept diffTreeToIndex options ms cache) (task : Task ο)
    (mem : ∀ m, taskMessage task = some m → m ∈ ms) (undisturbed : Undisturbed cache task) :
    CacheKept diffTreeToIndex options ms (taskStep diffTreeToIndex hex options cache task).1 ∧
      (taskStep diffTreeToIndex hex options cache task).2 =
        (((taskMessage task).bind (alone diffTreeToIndex hex options)).map serializeResponse).getD [] := by
  cases task with
  | evict now => exact ⟨evictKept kept now,rfl⟩
  | message bytes w =>
    obtain ⟨keeps,same⟩ := messageAlone hex steady kept (mem _ rfl) undisturbed
    exact ⟨keeps,by rw [taskStep,same]; rfl⟩

theorem runAlone {worlds : Nat → World ο} {polls : List Poll}
    (calm : Calm diffTreeToIndex hex options worlds polls) :
    daemonRun diffTreeToIndex hex options worlds polls =
      ((messages worlds polls).filterMap (alone diffTreeToIndex hex options)).flatMap serializeResponse := by
  have read := tasksMessages worlds [] List.not_mem_nil 0 polls
  rw [List.nil_append] at read
  have ran := Machine.runFlat (I := CacheKept diffTreeToIndex options (messages worlds polls))
    (fun cache task mem kept undisturbed => taskAlone hex calm.steady kept task
      (fun m is => by
        rw [messages,← read]
        exact List.mem_filterMap.mpr ⟨task,mem,is⟩) undisturbed)
    (fun _ _ none' => by contradiction) calm.undisturbed
  rw [daemonRun,runTasks]
  refine ran.trans ?_
  rw [messages,← read,List.filterMap_filterMap]
  induction tasks worlds [] 0 polls with
  | nil => rfl
  | cons task rest ih =>
    rw [List.flatMap_cons,ih,List.filterMap_cons]
    cases (taskMessage task).bind (alone diffTreeToIndex hex options) <;> rfl

theorem aloneParsed {m : Bytes × World ο} {r : Response} (response : alone diffTreeToIndex hex options m = some r) :
    ∃ req, parseRequest m.1 = some req ∧ r.id = req.id := by
  unfold alone processMessage at response
  cases parsed : parseRequest m.1 with
  | none => simp [parsed] at response
  | some req =>
    refine ⟨req,rfl,?_⟩
    simp only [parsed] at response
    split at response
    · contradiction
    · exact (Option.some.inj response) ▸ rfl
    · obtain ⟨_,_,same⟩ := Option.map_eq_some_iff.mp response
      exact same ▸ rfl

theorem aloneAnswers {ms : List (Bytes × World ο)} (steady : ∀ gitdir, Steady (moments ms gitdir))
    (shards : 16 * max options.limits.numThreads 1 ≠ 0) {m : Bytes × World ο} (mem : m ∈ ms)
    (spawns : m.2.spawnFails = none) (formed : WellFormed m.1) :
    answered diffTreeToIndex hex options m = true := by
  obtain ⟨req,parsed⟩ := Option.isSome_iff_exists.mp ((parseRequestIff m.1).mpr formed)
  unfold answered alone processMessage getOrOpen
  simp only [parsed,spawns]
  cases located : m.2.openOrDiscover req.dir req.dirIsGitdir with
  | none => rfl
  | some found =>
    obtain ⟨gitdir,workdir⟩ := found
    cases workdir with
    | none => rfl
    | some workdir =>
      simp only [reduceCtorEq,if_false,decide_false,Option.isSome_map,buildFields]
      cases req.skipIndex with
      | true => rfl
      | false =>
        have seen : (m.2.repository gitdir).surroundings ∈ moments ms gitdir := List.mem_map_of_mem mem
        have counted : (indexStats diffTreeToIndex (openRepo options.limits)
            (m.2.repository gitdir).surroundings false) =
            countedStats diffTreeToIndex (openRepo options.limits) (m.2.repository gitdir).surroundings := by
          unfold indexStats
          cases (m.2.repository gitdir).surroundings.gitIndex <;> rfl
        simp only [Bool.false_eq_true,if_false,counted,countedStats]
        cases gitIndex : (m.2.repository gitdir).surroundings.gitIndex with
        | none => simp [getIndexStats,gitIndex]
        | some entries =>
          have fresh : Kept diffTreeToIndex (moments ms gitdir) (openRepo options.limits : Repo ο).limits
            (openRepo options.limits) := openKept diffTreeToIndex _ _
          obtain ⟨next,stats,run,_⟩ := statsAnswer diffTreeToIndex (steady gitdir) seen gitIndex fresh
            (openSettles _ _) shards
          rw [run]
          rfl

/-- In a calm run the output is one response for each message that is answered at all, and a
message that is not answered changes nothing in it. -/
theorem messagesIndependent {worlds : Nat → World ο} {polls : List Poll}
    (calm : Calm diffTreeToIndex hex options worlds polls) :
    daemonRun diffTreeToIndex hex options worlds polls =
      ((messages worlds polls).filterMap (alone diffTreeToIndex hex options)).flatMap serializeResponse ∧
    Framing.split msgSep (daemonRun diffTreeToIndex hex options worlds polls) =
      (((messages worlds polls).filterMap (alone diffTreeToIndex hex options)).map responseBody,[]) ∧
    (∀ m ∈ messages worlds polls, ∀ r, alone diffTreeToIndex hex options m = some r →
      WellFormed m.1 ∧ ∃ req, parseRequest m.1 = some req ∧ r.id = req.id) ∧
    (16 * max options.limits.numThreads 1 ≠ 0 → ∀ m ∈ messages worlds polls, m.2.spawnFails = none →
      WellFormed m.1 → (alone diffTreeToIndex hex options m).isSome = true) ∧
    ∀ worlds' polls', Calm diffTreeToIndex hex options worlds' polls' →
      (messages worlds' polls').filter (answered diffTreeToIndex hex options) =
        (messages worlds polls).filter (answered diffTreeToIndex hex options) →
      daemonRun diffTreeToIndex hex options worlds' polls' =
        daemonRun diffTreeToIndex hex options worlds polls := by
  have ran := runAlone hex calm
  refine ⟨ran,?_,?_,fun shards m mem spawns formed => aloneAnswers hex calm.steady shards mem spawns formed,?_⟩
  · have clean : ∀ body ∈ ((messages worlds polls).filterMap
        (alone diffTreeToIndex hex options)).map responseBody, msgSep ∉ body := by
      intro body mem
      obtain ⟨r,_,rfl⟩ := List.mem_map.mp mem
      exact responseClean r
    have cut := Framing.splitJoin clean []
    simp only [Framing.join,List.flatMap_map,List.append_nil,Framing.split] at cut
    rw [ran]
    exact cut
  · intro m _ r response
    obtain ⟨req,parsed,id⟩ := aloneParsed hex response
    exact ⟨(parseRequestIff m.1).mp (by rw [parsed]; rfl),req,parsed,id⟩
  · intro worlds' polls' calm' same
    have kept : ∀ ms : List (Bytes × World ο), ms.filterMap (alone diffTreeToIndex hex options) =
        (ms.filter (answered diffTreeToIndex hex options)).filterMap (alone diffTreeToIndex hex options) := by
      intro ms
      rw [List.filterMap_filter]
      congr 1
      funext m
      unfold answered
      cases alone diffTreeToIndex hex options m <;> rfl
    rw [ran,runAlone hex calm',kept (messages worlds' polls'),same,← kept]

end independent

def bareView (m : Surroundings Unit) : GitView Unit where
  surroundings := m
  head := none
  config := none
  findRemote _ := none
  findReference _ := false
  state := .clean
  gitdirHas _ := false
  gitdirRead _ := none
  tags := []
  stashes := none
  revwalk _ := none
  findCommit _ := none

def foundWorld (m : Surroundings Unit) (spawnFails : Option SpawnFailure) : World Unit :=
  ⟨fun _ _ => some ⟨[103],some [119]⟩,fun _ => bareView m,0,spawnFails⟩

def plainDaemon : DaemonOptions := ⟨unlimited,-1,256⟩

/-- A request for `/` with the id `1`. -/
def askOnce : Bytes := [49,fieldSep,47,msgSep]

def lowerA : List IndexEntry := [⟨[97],1,0,0,0,0o100644,0,0,false⟩]

/-- Between a request with `core.ignorecase` on and one with it off there is one whose scan
panics, or there is not. -/
def flippedWorlds (between : List (World Unit)) (i : Nat) : World Unit :=
  (foundWorld (onlyA true lowerA) none :: between)[i]?.getD (foundWorld (onlyA false lowerA) none)

theorem panicChangesResponse : ¬ ∀ (worlds worlds' : Nat → World Unit) (polls polls' : List Poll),
    (∀ gitdir, Steady (moments (messages worlds polls) gitdir)) →
    (∀ gitdir, Steady (moments (messages worlds' polls') gitdir)) →
    (messages worlds' polls').filter (answered noDeltas (fun _ => []) plainDaemon) =
      (messages worlds polls).filter (answered noDeltas (fun _ => []) plainDaemon) →
    daemonRun noDeltas (fun _ => []) plainDaemon worlds' polls' =
      daemonRun noDeltas (fun _ => []) plainDaemon worlds polls := by
  intro isolated
  have first : answered noDeltas (fun _ => []) plainDaemon
      ([49,fieldSep,47],foundWorld (onlyA true lowerA) none) = true := by decide +kernel
  have last : answered noDeltas (fun _ => []) plainDaemon
      ([49,fieldSep,47],foundWorld (onlyA false lowerA) none) = true := by decide +kernel
  have panics : answered noDeltas (fun _ => []) plainDaemon
      ([49,fieldSep,47],foundWorld (onlyA false lowerA) (some .scanning)) = false := by decide +kernel
  have long : messages (flippedWorlds [foundWorld (onlyA false lowerA) (some .scanning)])
      [.read (askOnce ++ askOnce ++ askOnce)] =
      [([49,fieldSep,47],foundWorld (onlyA true lowerA) none),
        ([49,fieldSep,47],foundWorld (onlyA false lowerA) (some .scanning)),
        ([49,fieldSep,47],foundWorld (onlyA false lowerA) none)] := by rfl
  have short : messages (flippedWorlds []) [.read (askOnce ++ askOnce)] =
      [([49,fieldSep,47],foundWorld (onlyA true lowerA) none),
        ([49,fieldSep,47],foundWorld (onlyA false lowerA) none)] := by rfl
  have same := isolated _ _ _ _
    (fun gitdir => by rw [long]; exact onlyASteady lowerA [true,false,false])
    (fun gitdir => by rw [short]; exact onlyASteady lowerA [true,false])
    (by simp only [long,short,List.filter_cons,first,last,panics,Bool.false_eq_true,if_true,if_false])
  revert same
  decide +kernel

/-- Two requests in three reads and a malformed one behind them. -/
theorem messagesIndependentTwice :
    daemonRun noDeltas (fun _ => []) plainDaemon (fun _ => foundWorld (onlyA false []) none)
        [.read [49],.idle 7,.read [fieldSep,47,msgSep,49,fieldSep],.read [47,msgSep,msgSep,50]] =
      ((messages (fun _ => foundWorld (onlyA false []) none)
        [.read [49],.idle 7,.read [fieldSep,47,msgSep,49,fieldSep],.read [47,msgSep,msgSep,50]]).filterMap
          (alone noDeltas (fun _ => []) plainDaemon)).flatMap serializeResponse := by
  refine (messagesIndependent (fun _ => []) ⟨?_,?_⟩).1
  · intro gitdir
    exact onlyASteady [] [false,false,false]
  · have ordered : tasks (fun _ => foundWorld (onlyA false []) none) [] 0
        [.read [49],.idle 7,.read [fieldSep,47,msgSep,49,fieldSep],.read [47,msgSep,msgSep,50]] =
        [.evict 7,.message [49,fieldSep,47] (foundWorld (onlyA false []) none),
          .message [49,fieldSep,47] (foundWorld (onlyA false []) none),
          .message [] (foundWorld (onlyA false []) none)] := by rfl
    rw [ordered]
    refine ⟨trivial,?_,?_,?_,trivial⟩
    · intro req parsed gitdir workdir located resident none'
      contradiction
    · intro req parsed gitdir workdir located resident there
      cases located
      cases there
      exact ⟨rfl,by decide,fun _ => onlyASettles⟩
    · intro req parsed
      contradiction

end P11k.Gitstatus
