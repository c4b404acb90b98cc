import P11k.Gitstatus.Untracked
import P11k.Gitstatus.Tracked

/-! When the scan and the walk count each untracked path once between them. What both visit is
doubled, what neither visits is hidden. -/
namespace P11k.Gitstatus
open scoped List

/-- A sorted index as git writes it: its entries are files, so no path ends in a slash. -/
structure FileIndex extends SortedEntries true where
  files : ∀ e ∈ entries, e.path.getLast? ≠ some slash

section counted
variable (w : Worktree) (statusShouldIgnore : Bytes → Bool) (entries : List IndexEntry)

/-- The paths for which a candidate raises the untracked count. -/
def candidatePaths (c : Bytes) : List Bytes :=
  if c.getLast? = some slash then walkPaths w statusShouldIgnore entries (w.pathMax+2) c.dropLast
  else if inIndexExact entries c || statusShouldIgnore c then [] else [c]

def countedPaths (candidates : List Bytes) : List Bytes :=
  candidates.flatMap (candidatePaths w statusShouldIgnore entries)

theorem candidateCounts {limits : Options} (recurse : limits.recurseUntrackedDirs = true)
    (unlimited : limits.maxNumUntracked < 0) (c : Bytes) (stats : IndexStats) : ∃ next,
    countCandidate w statusShouldIgnore entries limits c stats = some next ∧
      next.numUntracked = stats.numUntracked + (candidatePaths w statusShouldIgnore entries c).length := by
  have walked := countBelowPaths w statusShouldIgnore entries unlimited (w.pathMax+1) c.dropLast
    stats.numUntracked (by omega)
  unfold countCandidate candidatePaths
  split
  · rw [if_pos (by omega),recurse,walked]
    exact ⟨_,rfl,rfl⟩
  · cases inIndexExact entries c with
    | true => exact ⟨_,rfl,rfl⟩
    | false => cases statusShouldIgnore c <;> exact ⟨_,rfl,rfl⟩

theorem loopCounts {limits : Options} (recurse : limits.recurseUntrackedDirs = true)
    (unlimited : limits.maxNumUntracked < 0) (candidates : List Bytes) (stats : IndexStats) : ∃ next,
    dirtyLoop w statusShouldIgnore entries limits candidates stats = some next ∧
      next.numUntracked = stats.numUntracked +
        (countedPaths w statusShouldIgnore entries candidates).length := by
  induction candidates generalizing stats with
  | nil => exact ⟨stats,rfl,rfl⟩
  | cons c candidates ih =>
    obtain ⟨mid,first,here⟩ := candidateCounts w statusShouldIgnore entries recurse unlimited c stats
    obtain ⟨next,rest,later⟩ := ih mid
    refine ⟨next,?_,?_⟩
    · simp only [dirtyLoop,first,Option.bind_eq_bind,Option.bind_some,reachedUnlimited unlimited,
        Bool.and_false,Bool.false_eq_true,if_false,rest]
    · have whole : countedPaths w statusShouldIgnore entries (c :: candidates) =
          candidatePaths w statusShouldIgnore entries c ++
            countedPaths w statusShouldIgnore entries candidates := List.flatMap_cons
      rw [later,here,whole,List.length_append,Nat.add_assoc]

theorem dirtyCounts {limits : Options} (recurse : limits.recurseUntrackedDirs = true)
    (unlimited : limits.maxNumUntracked < 0) (candidates : List Bytes) : ∃ stats,
    computeDirty w statusShouldIgnore entries limits candidates noStats = some stats ∧
      stats.numUntracked = (countedPaths w statusShouldIgnore entries candidates).length := by
  unfold computeDirty
  split
  · rename_i none
    rw [none]
    exact ⟨_,rfl,rfl⟩
  · obtain ⟨next,run,counted⟩ := loopCounts w statusShouldIgnore entries recurse unlimited candidates noStats
    rw [run]
    refine ⟨_,rfl,?_⟩
    simpa only [capUnlimited unlimited,noStats,Nat.zero_add] using counted

end counted

/-- The untracked count of a fresh scan is made of the untracked paths, each one counted once. -/
def CountsUntracked (w : Worktree) (trustFilemode hasSymlinks : Bool) (statusShouldIgnore : Bytes → Bool)
    (limits : Options) (entries : List IndexEntry) : Prop :=
  ∃ out stats, freshCandidates limits.numThreads w ⟨trustFilemode,hasSymlinks,true⟩ ⟨true,false⟩ entries =
      some out ∧
    computeDirty w statusShouldIgnore entries limits out noStats = some stats ∧
    stats.numUntracked = (countedPaths w statusShouldIgnore entries out).length ∧
    (countedPaths w statusShouldIgnore entries out).Nodup ∧
    ∀ p, p ∈ countedPaths w statusShouldIgnore entries out ↔ Untracked w statusShouldIgnore entries p

/-- The scan and the walk share the worktree out between them. A handed name leads somewhere only
out of a clear directory and when it is not ignored itself, and no untyped name or `.git`
stands for the paths below it. No path is hidden and no index directory is revisited, save
that one revisit may make up for each hidden path. -/
structure Shared (w : Worktree) (statusShouldIgnore : Bytes → Bool) (entries : List IndexEntry) : Prop where
  clear : ∀ d e p, Handed w entries d e → Leads w statusShouldIgnore entries d e p →
    Clear w statusShouldIgnore d ∧ statusShouldIgnore (d ++ e.name) = false
  typed : ∀ d e, Handed w entries d e → e.dType ≠ .directory → isDirType w (d ++ e.name) e = true →
    statusShouldIgnore (d ++ e.name) = false →
    NestedRepo w (d ++ e.name) ∧ ¬ TreeDir entries (childDir d e.name)
  git : ∀ e, Handed w entries [] e → e.name = dotGit → e.dType = .directory → hasGitDir w dotGit = true →
    statusShouldIgnore dotGit = true
  revisited : ∀ d e p, Revisited w statusShouldIgnore entries d e p → Hidden w statusShouldIgnore entries p
  hidden : ∀ p, Hidden w statusShouldIgnore entries p → ∃ d e, Revisited w statusShouldIgnore entries d e p
  once : ∀ d e d' e' p, Revisited w statusShouldIgnore entries d e p →
    Revisited w statusShouldIgnore entries d' e' p → d = d' ∧ e = e'

section shared
variable {w : Worktree} {statusShouldIgnore : Bytes → Bool} {entries : List IndexEntry}

theorem untrackedWay {p : Bytes}
    (typed : ∀ d e, Handed w entries d e → e.dType ≠ .directory → isDirType w (d ++ e.name) e = true →
      statusShouldIgnore (d ++ e.name) = false →
      NestedRepo w (d ++ e.name) ∧ ¬ TreeDir entries (childDir d e.name))
    (git : ∀ e, Handed w entries [] e → e.name = dotGit → e.dType = .directory →
      hasGitDir w dotGit = true → statusShouldIgnore dotGit = true)
    (untracked : Untracked w statusShouldIgnore entries p) : ∃ d e, LeavesAt w entries d e p ∧
      (Handed w entries d e → Leads w statusShouldIgnore entries d e p) := by
  obtain ⟨d,e,clear,holds,rfl,free,kept,nested⟩ := untracked
  rcases @clearWay w statusShouldIgnore entries d clear with tree | ⟨d₀,e₀,tree,clear₀,holds₀,leaf,dir₀,plain₀,pre,way⟩
  · refine ⟨d,e,⟨tree,holds,.inl rfl,fun _ => rfl⟩,fun _ => ?_⟩
    by_cases dir : e.dType = .directory
    · have isDir : isDirType w (d ++ e.name) e = true := by simp [isDirType,dir]
      simpa only [Leads,if_pos dir] using Found.repo (nested isDir).1.1 kept
    · simpa only [Leads,if_neg dir,true_and] using kept
  · refine ⟨d₀,e₀,⟨tree,holds₀,.inr (pre.trans (List.prefix_append d e.name)),fun child => absurd child leaf⟩,
      fun handed => ?_⟩
    have kept₀ := clearChild (treeDirPath tree) (holdsClean w holds₀).2 clear₀
    have dType : e₀.dType = .directory := by
      by_contra other
      exact plain₀ (typed d₀ e₀ handed other dir₀ kept₀).1
    have gitOff : hasGitDir w (d₀ ++ e₀.name) = false := by
      by_cases same : d₀ ++ e₀.name = dotGit
      · by_contra there
        have root : d₀ = [] ∧ e₀.name = dotGit := splitUnique (treeDirPath tree) (.inl rfl)
          (holdsClean w holds₀).2 (by decide) same
        rw [same] at kept₀ there
        have ignored := git e₀ (root.1 ▸ handed) root.2 dType (by simpa using there)
        rw [kept₀] at ignored
        contradiction
      · exact (plainIff same).mp plain₀
    obtain ⟨x,rfl,gitX,found⟩ := way gitOff
    simp only [Leads,if_pos dType]
    apply found
    rw [← joinSlash] at free kept nested ⊢
    cases isDir : isDirType w (x ++ slash :: e.name) e with
    | false => exact .file gitX holds isDir free kept
    | true => exact .nested gitX holds isDir (.inr kept) (nested isDir).1.1 free

theorem rootDotGit {d : Bytes} {e : DirEntry} (dir : DirPath d) (holds : Holds w d e)
    (same : d ++ e.name = dotGit) : d = [] ∧ e.name = dotGit :=
  splitUnique dir (.inl rfl) (holdsClean w holds).2 (by decide) same

theorem foundRepo {x p : Bytes} (git : hasGitDir w x = true)
    (found : Found w statusShouldIgnore entries x p) : p = x := by
  cases found with
  | repo => rfl
  | file plain => rw [git] at plain; contradiction
  | nested plain => rw [git] at plain; contradiction
  | inner plain => rw [git] at plain; contradiction

theorem leadsUntracked (shared : Shared w statusShouldIgnore entries) {d p : Bytes} {e : DirEntry}
    (handed : Handed w entries d e) (leads : Leads w statusShouldIgnore entries d e p) :
    Untracked w statusShouldIgnore entries p := by
  obtain ⟨clear,kept⟩ := shared.clear d e p handed leads
  by_cases dir : e.dType = .directory
  · simp only [Leads,if_pos dir] at leads
    have isDir : isDirType w (d ++ e.name) e = true := by simp [isDirType,dir]
    by_cases child : TreeDir entries (childDir d e.name)
    · exact (shared.revisited d e p ⟨handed,dir,child,leads⟩).1
    · cases git : hasGitDir w (d ++ e.name) with
      | true =>
        have same := foundRepo git leads
        subst same
        refine ⟨d,e,clear,handed.holds,rfl,handed.free,kept,fun _ => ⟨⟨git,fun same => ?_⟩,?_⟩⟩
        · obtain ⟨rfl,name⟩ := rootDotGit (clearDirPath clear) handed.holds same
          rw [same] at git kept
          rw [shared.git e handed name dir git] at kept
          contradiction
        · exact fun f mem below => child (.inr ⟨f,mem,memDirPrefixes.mpr ⟨below,d ++ e.name,rfl⟩⟩)
      | false =>
        have plain : ¬ NestedRepo w (d ++ e.name) :=
          fun nested => absurd (git.symm.trans nested.1) (by decide)
        exact foundUntracked (.child clear handed.holds isDir kept plain) child git leads
  · simp only [Leads,if_neg dir] at leads
    obtain ⟨rfl,_⟩ := leads
    refine ⟨d,e,clear,handed.holds,rfl,handed.free,kept,fun isDir => ?_⟩
    obtain ⟨nested,leaf⟩ := shared.typed d e handed dir isDir kept
    exact ⟨nested,fun f mem below => leaf (.inr ⟨f,mem,memDirPrefixes.mpr ⟨below,d ++ e.name,rfl⟩⟩)⟩

theorem untrackedLed (shared : Shared w statusShouldIgnore entries) {p : Bytes}
    (untracked : Untracked w statusShouldIgnore entries p) :
    ∃ d e, Handed w entries d e ∧ Leads w statusShouldIgnore entries d e p := by
  obtain ⟨d,e,leaves,leads⟩ := untrackedWay shared.typed shared.git untracked
  by_cases handed : Handed w entries d e
  · exact ⟨d,e,handed,leads handed⟩
  · obtain ⟨d',e',again⟩ := shared.hidden p ⟨untracked,d,e,leaves,handed⟩
    exact ⟨d',e',again.handed,by simpa only [Leads,if_pos again.dType] using again.found⟩

theorem ledOnce (shared : Shared w statusShouldIgnore entries) {d d' p : Bytes} {e e' : DirEntry}
    (handed : Handed w entries d e) (handed' : Handed w entries d' e')
    (leads : Leads w statusShouldIgnore entries d e p) (leads' : Leads w statusShouldIgnore entries d' e' p) :
    d = d' ∧ e = e' := by
  have apart : ∀ {d d' : Bytes} {e e' : DirEntry}, Handed w entries d e → LeavesAt w entries d e p →
      ¬ Revisited w statusShouldIgnore entries d' e' p := by
    intro d d' e e' handed leaves again
    obtain ⟨_,d₀,e₀,leaves₀,notHanded⟩ := shared.revisited d' e' p again
    obtain ⟨rfl,rfl⟩ := leavesOnce leaves leaves₀
    exact notHanded handed
  rcases leadsCases handed leads with leaves | again <;> rcases leadsCases handed' leads' with leaves' | again'
  · exact leavesOnce leaves leaves'
  · exact absurd again' (apart handed leaves)
  · exact absurd again (apart handed' leaves')
  · exact shared.once d e d' e' p again again'

theorem untrackedDir {d : Bytes} {e : DirEntry} (dir : DirPath d) (holds : Holds w d e)
    (isDir : isDirType w (d ++ e.name) e = true)
    (untracked : Untracked w statusShouldIgnore entries (d ++ e.name)) :
    NestedRepo w (d ++ e.name) ∧ ¬ TreeDir entries (childDir d e.name) := by
  obtain ⟨d',e',clear,holds',same,_,_,nested⟩ := untracked
  obtain ⟨rfl,name⟩ := splitUnique dir (clearDirPath clear) (holdsClean w holds).2 (holdsClean w holds').2 same
  cases holdsUnique w holds holds' name
  obtain ⟨repo,free⟩ := nested isDir
  refine ⟨repo,fun child => ?_⟩
  rcases child with root | ⟨f,mem,above⟩
  · simp [childDir] at root
  · exact free f mem (memDirPrefixes.mp above).1

theorem sharedOf (sound : ∀ d e p, Handed w entries d e → Leads w statusShouldIgnore entries d e p →
      Untracked w statusShouldIgnore entries p)
    (complete : ∀ p, Untracked w statusShouldIgnore entries p →
      ∃ d e, Handed w entries d e ∧ Leads w statusShouldIgnore entries d e p)
    (once : ∀ d e d' e' p, Handed w entries d e → Handed w entries d' e' →
      Leads w statusShouldIgnore entries d e p → Leads w statusShouldIgnore entries d' e' p →
      d = d' ∧ e = e') : Shared w statusShouldIgnore entries := by
  have typed : ∀ d e, Handed w entries d e → e.dType ≠ .directory → isDirType w (d ++ e.name) e = true →
      statusShouldIgnore (d ++ e.name) = false →
      NestedRepo w (d ++ e.name) ∧ ¬ TreeDir entries (childDir d e.name) := by
    intro d e handed other isDir kept
    have leads : Leads w statusShouldIgnore entries d e (d ++ e.name) := by
      simpa only [Leads,if_neg other,true_and] using kept
    exact untrackedDir (treeDirPath handed.dir) handed.holds isDir (sound d e _ handed leads)
  have git : ∀ e, Handed w entries [] e → e.name = dotGit → e.dType = .directory →
      hasGitDir w dotGit = true → statusShouldIgnore dotGit = true := by
    intro e handed name dir there
    by_contra kept
    have leads : Leads w statusShouldIgnore entries [] e ([] ++ e.name) := by
      rw [List.nil_append,name]
      simpa only [Leads,if_pos dir,List.nil_append,name] using Found.repo there (by simpa using kept)
    have nested := untrackedDir (.inl rfl) handed.holds (by simp [isDirType,dir])
      (sound [] e _ handed leads)
    exact nested.1.2 (by rw [List.nil_append,name])
  refine ⟨?_,typed,git,?_,?_,?_⟩
  · intro d e p handed leads
    have untracked := sound d e p handed leads
    have clear := untrackedClear untracked
    have path := treeDirPath handed.dir
    have clean := (holdsClean w handed.holds).2
    refine ⟨clearAbove clear (withinAbove path clean (leadsWithin leads)) path,?_⟩
    by_cases same : p = d ++ e.name
    · obtain ⟨_,_,_,_,_,_,kept,_⟩ := untracked
      exact same ▸ kept
    · exact clearChild path clean (clearAbove clear (withinBelow (leadsWithin leads) same) (.inr ⟨_,rfl⟩))
  · intro d e p again
    have leads : Leads w statusShouldIgnore entries d e p := by
      simpa only [Leads,if_pos again.dType] using again.found
    have untracked := sound d e p again.handed leads
    obtain ⟨d₀,e₀,leaves,leads₀⟩ := untrackedWay typed git untracked
    refine ⟨untracked,d₀,e₀,leaves,fun handed => ?_⟩
    obtain ⟨rfl,rfl⟩ := once d e d₀ e₀ p again.handed handed leads (leads₀ handed)
    have same := leaves.last again.child
    subst same
    exact (untrackedDir (treeDirPath handed.dir) handed.holds (by simp [isDirType,again.dType])
      untracked).2 again.child
  · rintro p ⟨untracked,d,e,leaves,notHanded⟩
    obtain ⟨d',e',handed,leads⟩ := complete p untracked
    rcases leadsCases handed leads with leaves' | again
    · obtain ⟨rfl,rfl⟩ := leavesOnce leaves leaves'
      exact absurd handed notHanded
    · exact ⟨d',e',again⟩
  · intro d e d' e' p again again'
    apply once d e d' e' p again.handed again'.handed
    · simpa only [Leads,if_pos again.dType] using again.found
    · simpa only [Leads,if_pos again'.dType] using again'.found

end shared

section scan
variable (index : FileIndex) (w : Worktree) (trustFilemode hasSymlinks : Bool)
  (statusShouldIgnore : Bytes → Bool)

theorem listedHolds {d : Bytes} {de : Dirent} :
    Listed w d de ↔ ∃ e, Holds w d e ∧ de = ⟨e.name,e.dType == .directory⟩ := by
  constructor
  · rintro ⟨names,read,mem⟩
    obtain ⟨raw,there,rfl⟩ := Option.map_eq_some_iff.mp read
    obtain ⟨e,he,rfl⟩ := List.mem_map.mp mem
    obtain ⟨inside,names⟩ := List.mem_filter.mp he
    exact ⟨e,⟨raw,there,inside,by simpa using names⟩,rfl⟩
  · rintro ⟨e,⟨raw,there,inside,names⟩,rfl⟩
    exact ⟨readNames raw,by simp [listing,there],List.mem_map.mpr ⟨e,List.mem_filter.mpr
      ⟨inside,by simpa using names⟩,rfl⟩⟩

def nameCandidate (d : Bytes) (e : DirEntry) : Bytes := untrackedPath d ⟨e.name,e.dType == .directory⟩

theorem nameCandidatePaths {d p : Bytes} {e : DirEntry} (handed : Handed w index.entries d e) :
    p ∈ candidatePaths w statusShouldIgnore index.entries (nameCandidate d e) ↔
      Leads w statusShouldIgnore index.entries d e p := by
  obtain ⟨some',clean⟩ := holdsClean w handed.holds
  by_cases dir : e.dType = .directory
  · have name : nameCandidate d e = (d ++ e.name) ++ [slash] := by simp [nameCandidate,untrackedPath,dir]
    rw [name,candidatePaths,if_pos (by simp),List.dropLast_concat,Leads,if_pos dir]
    exact ⟨walkFound index.toSortedEntries w statusShouldIgnore,
      fun found => foundWalk index.toSortedEntries w statusShouldIgnore found (by omega)⟩
  · have name : nameCandidate d e = d ++ e.name := by simp [nameCandidate,untrackedPath,dir]
    have last : (d ++ e.name).getLast? ≠ some slash := by
      rw [List.getLast?_append_of_ne_nil _ some']
      exact fun same => clean (List.mem_of_getLast? same)
    rw [name,candidatePaths,if_neg last,(notEntryIff index.toSortedEntries _).mpr handed.free,Leads,
      if_neg dir]
    cases ignored : statusShouldIgnore (d ++ e.name) with
    | true =>
      simp only [Bool.false_or,if_true,List.not_mem_nil,false_iff,not_and,Bool.not_eq_false]
      exact fun same => same ▸ ignored
    | false =>
      simp only [Bool.false_or,Bool.false_eq_true,if_false,List.mem_singleton]
      exact ⟨fun same => ⟨same,same ▸ ignored⟩,And.left⟩

theorem entryCandidatePaths {e : IndexEntry} (mem : e ∈ index.entries) :
    candidatePaths w statusShouldIgnore index.entries e.path = [] := by
  have here := (inIndexSorted index.toSortedEntries e.path).mpr ⟨e,mem,rfl⟩
  rw [candidatePaths,if_neg (index.files e mem),here,Bool.true_or,if_pos rfl]

theorem nameCandidateOnce {d d' : Bytes} {e e' : DirEntry} (handed : Handed w index.entries d e)
    (handed' : Handed w index.entries d' e') (same : nameCandidate d e = nameCandidate d' e') :
    d = d' ∧ e = e' := by
  obtain ⟨rfl,name⟩ := untrackedSplit w ((listedHolds w).mpr ⟨e,handed.holds,rfl⟩)
    ((listedHolds w).mpr ⟨e',handed'.holds,rfl⟩) (treeDirPath handed.dir) (treeDirPath handed'.dir) same
  exact ⟨rfl,holdsUnique w handed.holds handed'.holds name⟩

theorem freshHanded {numThreads : UInt64} (shards : 16 * max numThreads 1 ≠ 0) : ∃ out,
    freshCandidates numThreads w ⟨trustFilemode,hasSymlinks,true⟩ ⟨true,false⟩ index.entries = some out ∧
      out.Nodup ∧ (∀ d e, Handed w index.entries d e → nameCandidate d e ∈ out) ∧
      ∀ c ∈ out, (∃ d e, Handed w index.entries d e ∧ c = nameCandidate d e) ∨
        candidatePaths w statusShouldIgnore index.entries c = [] := by
  obtain ⟨out,run,member⟩ := freshCandidatesMem index.toSortedEntries w trustFilemode hasSymlinks shards
  refine ⟨out,run,?_,?_,?_⟩
  · have whole := freshCandidatesRun shards w ⟨trustFilemode,hasSymlinks,true⟩ ⟨true,false⟩ index.entries
    cases run.symm.trans whole
    exact StableSort.sortDedupNodup _ (fun a b same => by simpa only [foldKeyTrue] using same) _
  · intro d e handed
    exact (member _).mpr ⟨d,handed.dir,.inr ⟨_,(listedHolds w).mpr ⟨e,handed.holds,rfl⟩,handed.free,
      handed.unmet,rfl⟩⟩
  · intro c mem
    obtain ⟨d,dir,⟨e,he,_,rfl,_⟩ | ⟨de,listed,free,unmet,rfl⟩⟩ := (member c).mp mem
    · exact .inr (entryCandidatePaths index w statusShouldIgnore he)
    · obtain ⟨e,holds,rfl⟩ := (listedHolds w).mp listed
      exact .inl ⟨d,e,⟨dir,holds,free,unmet⟩,rfl⟩

/-- The count is made of the untracked paths exactly when the scan and the walk share them. -/
theorem countsUntrackedIff (limits : Options) (recurse : limits.recurseUntrackedDirs = true)
    (unlimited : limits.maxNumUntracked < 0) :
    CountsUntracked w trustFilemode hasSymlinks statusShouldIgnore limits index.entries ↔
      16 * max limits.numThreads 1 ≠ 0 ∧ Shared w statusShouldIgnore index.entries := by
  by_cases shards : 16 * max limits.numThreads 1 = 0
  · simp [CountsUntracked,freshCandidatesNone shards,shards]
  obtain ⟨out,run,nodup,names,handedOr⟩ :=
    freshHanded index w trustFilemode hasSymlinks statusShouldIgnore shards
  obtain ⟨stats,dirty,counted⟩ := dirtyCounts w statusShouldIgnore index.entries recurse unlimited out
  have counts : CountsUntracked w trustFilemode hasSymlinks statusShouldIgnore limits index.entries ↔
      (countedPaths w statusShouldIgnore index.entries out).Nodup ∧
        ∀ p, p ∈ countedPaths w statusShouldIgnore index.entries out ↔
          Untracked w statusShouldIgnore index.entries p := by
    simp only [CountsUntracked,run,Option.some.injEq,exists_and_left,exists_eq_left',dirty,counted,true_and]
  have led : ∀ p, p ∈ countedPaths w statusShouldIgnore index.entries out ↔
      ∃ d e, Handed w index.entries d e ∧ Leads w statusShouldIgnore index.entries d e p := by
    intro p
    rw [countedPaths,List.mem_flatMap]
    constructor
    · rintro ⟨c,mem,inside⟩
      rcases handedOr c mem with ⟨d,e,handed,rfl⟩ | none
      · exact ⟨d,e,handed,(nameCandidatePaths index w statusShouldIgnore handed).mp inside⟩
      · rw [none] at inside
        contradiction
    · rintro ⟨d,e,handed,leads⟩
      exact ⟨_,names d e handed,(nameCandidatePaths index w statusShouldIgnore handed).mpr leads⟩
  have each : ∀ c ∈ out, (candidatePaths w statusShouldIgnore index.entries c).Nodup := by
    intro c _
    unfold candidatePaths
    split
    · exact walkNodup index.toSortedEntries w statusShouldIgnore _ _
    · split <;> simp
  rw [counts,countedPaths,Appearances.flatMapOnceIff _ nodup each,← countedPaths]
  simp only [led,ne_eq,shards,not_false_eq_true,true_and]
  constructor
  · rintro ⟨apart,exact'⟩
    apply sharedOf
    · exact fun d e p handed leads => (exact' p).mp ⟨d,e,handed,leads⟩
    · exact fun p untracked => (exact' p).mpr untracked
    · intro d e d' e' p handed handed' leads leads'
      apply nameCandidateOnce index w handed handed'
      exact apart _ (names d e handed) _ (names d' e' handed') p
        ((nameCandidatePaths index w statusShouldIgnore handed).mpr leads)
        ((nameCandidatePaths index w statusShouldIgnore handed').mpr leads')
  · intro shared
    refine ⟨?_,fun p => ⟨fun ⟨d,e,handed,leads⟩ => leadsUntracked shared handed leads,
      untrackedLed shared⟩⟩
    intro c mem c' mem' p inside inside'
    rcases handedOr c mem with ⟨d,e,handed,rfl⟩ | none
    · rcases handedOr c' mem' with ⟨d',e',handed',rfl⟩ | none
      · obtain ⟨rfl,rfl⟩ := ledOnce shared handed handed'
          ((nameCandidatePaths index w statusShouldIgnore handed).mp inside)
          ((nameCandidatePaths index w statusShouldIgnore handed').mp inside')
        rfl
      · rw [none] at inside'
        contradiction
    · rw [none] at inside
      contradiction

end scan

theorem tableHolds {files : List (Bytes × Stat)} {listings : List (Bytes × (Int64 × Int64) × List DirEntry)}
    {ok : ∀ row ∈ listings, (row.2.2.map DirEntry.name).Nodup ∧
      ∀ e ∈ row.2.2, e.name ≠ [] ∧ slash ∉ e.name} {d : Bytes} {e : DirEntry}
    (holds : Holds (tableWorktree files listings ok) d e) :
    ∃ row ∈ listings, row.1 = d ∧ e ∈ row.2.2 := by
  obtain ⟨raw,read,mem,_⟩ := holds
  obtain ⟨row,found,rfl⟩ := Option.map_eq_some_iff.mp read
  obtain ⟨front,back,rfl,_⟩ := List.lookup_eq_some_iff.mp found
  exact ⟨(d,row),by simp,rfl,mem⟩

def recursing : Options := ⟨1,-1,-1,-1,-1,-1,true,false,false,false⟩

def noFiles : FileIndex := ⟨⟨[],.nil⟩,by simp⟩

/-- One untracked file `u` beside an empty index. -/
def oneUntracked : Worktree := tableWorktree [([117],regularStat)] [([],(0,0),[⟨[117],.other⟩])] (by decide)

theorem countsUntrackedOne :
    CountsUntracked oneUntracked true true (fun _ => false) recursing noFiles.entries := by
  have only : ∀ d e, Holds oneUntracked d e → e = ⟨[117],.other⟩ := by
    intro d e holds
    obtain ⟨row,mem,_,inside⟩ := tableHolds holds
    cases List.mem_singleton.mp mem
    exact List.mem_singleton.mp inside
  have root : ∀ d, TreeDir noFiles.entries d → d = [] := by simp [TreeDir,noFiles]
  refine (countsUntrackedIff noFiles oneUntracked true true _ recursing rfl (by decide)).mpr ⟨by decide,?_⟩
  have file : ∀ d e, Holds oneUntracked d e → e.dType ≠ .directory ∧ ∀ p, isDirType oneUntracked p e = false := by
    intro d e holds
    rw [only d e holds]
    exact ⟨by decide,fun _ => rfl⟩
  constructor
  · intro d e p handed _
    rw [root d handed.dir]
    exact ⟨.root,rfl⟩
  · intro d e handed _ isDir
    rw [(file d e handed.holds).2] at isDir
    contradiction
  · exact fun e handed _ dir => absurd dir (file [] e handed.holds).1
  · exact fun d e p again => absurd again.dType (file d e again.handed.holds).1
  · rintro p ⟨_,d,e,leaves,notHanded⟩
    refine absurd ⟨leaves.dir,leaves.holds,by simp [noFiles],fun child => ?_⟩ notHanded
    exact absurd (root _ child) (by simp [childDir])
  · exact fun d e _ _ _ again => absurd again.dType (file d e again.handed.holds).1

/-- `foo-bar/x` and `foo/x` are tracked, `foo/y` is not. -/
def siblingsWithFile : Worktree := tableWorktree
  [([102,111,111,45,98,97,114,47,120],regularStat),([102,111,111,47,120],regularStat),
    ([102,111,111,47,121],regularStat)]
  [([],(0,0),[⟨[102,111,111],.directory⟩,⟨[102,111,111,45,98,97,114],.directory⟩]),
    ([102,111,111,45,98,97,114,47],(0,0),[⟨[120],.other⟩]),
    ([102,111,111,47],(0,0),[⟨[120],.other⟩,⟨[121],.other⟩])]
  (by decide)

theorem siblingsUntracked (p : Bytes) :
    Untracked siblingsWithFile (fun _ => false) siblingEntries.entries p ↔ p = [102,111,111,47,121] := by
  constructor
  · rintro ⟨d,e,_,holds,rfl,free,_,nested⟩
    obtain ⟨row,mem,rfl,inside⟩ := tableHolds holds
    simp only [List.mem_cons,List.not_mem_nil,or_false] at mem
    rcases mem with rfl | rfl | rfl <;>
      simp only [List.mem_cons,List.not_mem_nil,or_false] at inside
    · rcases inside with rfl | rfl
      · exact absurd (nested rfl).1.1 (by decide)
      · exact absurd (nested rfl).1.1 (by decide)
    · subst inside
      exact absurd rfl (free (regularEntry [102,111,111,45,98,97,114,47,120]) (by decide))
    · rcases inside with rfl | rfl
      · exact absurd rfl (free (regularEntry [102,111,111,47,120]) (by decide))
      · rfl
  · rintro rfl
    have foo : Clear siblingsWithFile (fun _ => false) (childDir [] [102,111,111]) :=
      .child (e := ⟨[102,111,111],.directory⟩) .root ⟨_,rfl,by decide⟩ rfl rfl (fun nested =>
        absurd nested.1 (by decide))
    exact ⟨_,⟨[121],.other⟩,foo,⟨_,rfl,by decide⟩,rfl,by decide,rfl,fun dir => absurd dir (by decide)⟩

theorem siblingsCountedTwice :
    ¬ CountsUntracked siblingsWithFile true true (fun _ => false) recursing siblingEntries.entries ∧
    (∃ out stats, freshCandidates 1 siblingsWithFile ⟨true,true,true⟩ ⟨true,false⟩ siblingEntries.entries =
        some out ∧
      computeDirty siblingsWithFile (fun _ => false) siblingEntries.entries recursing out noStats =
        some stats ∧ stats.numUntracked = 2) ∧
    ∀ p, Untracked siblingsWithFile (fun _ => false) siblingEntries.entries p ↔ p = [102,111,111,47,121] := by
  have run : freshCandidates 1 siblingsWithFile ⟨true,true,true⟩ ⟨true,false⟩ siblingEntries.entries =
      some [[102,111,111,47],[102,111,111,47,121]] := by decide
  refine ⟨?_,⟨_,_,run,rfl,by decide⟩,siblingsUntracked⟩
  rintro ⟨out,stats,same,_,_,nodup,_⟩
  cases run.symm.trans same
  revert nodup
  decide

end P11k.Gitstatus
