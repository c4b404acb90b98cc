import P11k.Gitstatus.Lookup

/-! The paths that the walk below a directory counts, once as a list that follows the walk and
once as a relation over the worktree. -/
namespace P11k.Gitstatus
open scoped List

def Holds (w : Worktree) (d : Bytes) (e : DirEntry) : Prop :=
  ∃ raw, w.readdir d = some raw ∧ e ∈ raw ∧ e.name ≠ dot ∧ e.name ≠ dotdot

section walk
variable (w : Worktree) (statusShouldIgnore : Bytes → Bool) (entries : List IndexEntry)

def entryPaths (below : Bytes → List Bytes) (dirRel : Bytes) (e : DirEntry) : List Bytes :=
  let rel := dirRel ++ slash :: e.name
  if isDirType w rel e then
    if relInIndex entries rel true || !statusShouldIgnore rel then
      if hasGitDir w rel then if inIndexExact entries rel then [] else [rel] else below rel
    else []
  else if inIndexExact entries rel || statusShouldIgnore rel then [] else [rel]

def walkPaths : Nat → Bytes → List Bytes
  | 0, _ => []
  | depth+1, dirRel =>
      if hasGitDir w dirRel then if statusShouldIgnore dirRel then [] else [dirRel]
      else match w.readdir (dirRel ++ [slash]) with
        | none => []
        | some raw => (raw.filter (fun e => e.name ≠ dot ∧ e.name ≠ dotdot)).flatMap
            (entryPaths w statusShouldIgnore entries (walkPaths depth) dirRel)

/-- The walk from directory `x` comes to `p` and counts it. -/
inductive Found : Bytes → Bytes → Prop where
  | repo {x} : hasGitDir w x = true → statusShouldIgnore x = false → Found x x
  | file {x e} : hasGitDir w x = false → Holds w (x ++ [slash]) e →
      isDirType w (x ++ slash :: e.name) e = false → (∀ f ∈ entries, f.path ≠ x ++ slash :: e.name) →
      statusShouldIgnore (x ++ slash :: e.name) = false → Found x (x ++ slash :: e.name)
  | nested {x e} : hasGitDir w x = false → Holds w (x ++ [slash]) e →
      isDirType w (x ++ slash :: e.name) e = true →
      TreeDir entries (childDir (x ++ [slash]) e.name) ∨ statusShouldIgnore (x ++ slash :: e.name) = false →
      hasGitDir w (x ++ slash :: e.name) = true → (∀ f ∈ entries, f.path ≠ x ++ slash :: e.name) →
      Found x (x ++ slash :: e.name)
  | inner {x e p} : hasGitDir w x = false → Holds w (x ++ [slash]) e →
      isDirType w (x ++ slash :: e.name) e = true →
      TreeDir entries (childDir (x ++ [slash]) e.name) ∨ statusShouldIgnore (x ++ slash :: e.name) = false →
      hasGitDir w (x ++ slash :: e.name) = false → Found (x ++ slash :: e.name) p → Found x p

end walk

section counts
variable (w : Worktree) (statusShouldIgnore : Bytes → Bool) (entries : List IndexEntry)

theorem countLoopPaths {below : Bytes → Nat → Option Nat} {paths : Bytes → List Bytes} {limit : Int}
    (unlimited : limit < 0) (dirRel : Bytes) {es : List DirEntry}
    (each : ∀ e ∈ es, ∀ n, below (dirRel ++ slash :: e.name) n =
      some (n + (paths (dirRel ++ slash :: e.name)).length)) (n : Nat) :
    countLoop w statusShouldIgnore entries below true limit dirRel es n =
      some (n + (es.flatMap (entryPaths w statusShouldIgnore entries paths dirRel)).length) := by
  induction es generalizing n with
  | nil => rfl
  | cons e es ih =>
    have next := ih (fun f hf => each f (List.mem_cons_of_mem e hf))
    have open' : ∀ m, reached m limit = false := fun m => by simp [reached]; omega
    rw [List.flatMap_cons,List.length_append]
    simp only [countLoop,open',next,each e List.mem_cons_self,Option.bind_eq_bind,Option.bind_some,
      Bool.false_eq_true,if_false,Bool.not_true,entryPaths]
    have file : relInIndex entries (dirRel ++ slash :: e.name) false =
        inIndexExact entries (dirRel ++ slash :: e.name) := rfl
    cases isDirType w (dirRel ++ slash :: e.name) e with
    | false =>
      rw [file]
      cases inIndexExact entries (dirRel ++ slash :: e.name) with
      | true => simp
      | false => cases statusShouldIgnore (dirRel ++ slash :: e.name) <;> simp [Nat.add_assoc]
    | true =>
      simp only [Bool.and_self,if_true]
      cases relInIndex entries (dirRel ++ slash :: e.name) true <;>
        cases statusShouldIgnore (dirRel ++ slash :: e.name) <;>
        cases hasGitDir w (dirRel ++ slash :: e.name) <;>
        cases inIndexExact entries (dirRel ++ slash :: e.name) <;> simp [Nat.add_assoc]

theorem countBelowPaths {limit : Int} (unlimited : limit < 0) (depth : Nat) (dirRel : Bytes) (n : Nat)
    (enough : w.pathMax < dirRel.length + depth) :
    countUntrackedBelow w statusShouldIgnore entries true limit (depth+1) dirRel n =
      some (n + (walkPaths w statusShouldIgnore entries (depth+1) dirRel).length) := by
  induction depth generalizing dirRel n with
  | zero =>
    simp only [countUntrackedBelow,walkPaths]
    split
    · split <;> rfl
    · rw [readdirDeep enough]
      rfl
  | succ depth ih =>
    rw [countUntrackedBelow,walkPaths]
    split
    · split <;> rfl
    · cases read : w.readdir (dirRel ++ [slash]) with
      | none => rfl
      | some raw =>
        apply countLoopPaths w statusShouldIgnore entries unlimited
        intro e _ m
        apply ih
        simp only [List.length_append,List.length_cons]
        omega

end counts

section found
variable (index : SortedEntries true) (w : Worktree) (statusShouldIgnore : Bytes → Bool)

theorem joinSlash (x name : Bytes) : x ++ slash :: name = (x ++ [slash]) ++ name := by simp

theorem passesIff (x name : Bytes) :
    (relInIndex index.entries (x ++ slash :: name) true || !statusShouldIgnore (x ++ slash :: name)) = true ↔
      TreeDir index.entries (childDir (x ++ [slash]) name) ∨
        statusShouldIgnore (x ++ slash :: name) = false := by
  rw [Bool.or_eq_true,relInIndexDir,← treeDirBelow,childDir,← joinSlash,Bool.not_eq_true']

theorem notEntryIff (rel : Bytes) :
    inIndexExact index.entries rel = false ↔ ∀ e ∈ index.entries, e.path ≠ rel := by
  rw [← Bool.not_eq_true,inIndexSorted]
  simp

theorem memEntryPaths {below : Bytes → List Bytes} {dirRel p : Bytes} {e : DirEntry} :
    p ∈ entryPaths w statusShouldIgnore index.entries below dirRel e ↔
      (isDirType w (dirRel ++ slash :: e.name) e = false ∧
        (∀ f ∈ index.entries, f.path ≠ dirRel ++ slash :: e.name) ∧
        statusShouldIgnore (dirRel ++ slash :: e.name) = false ∧ p = dirRel ++ slash :: e.name) ∨
      isDirType w (dirRel ++ slash :: e.name) e = true ∧
        (TreeDir index.entries (childDir (dirRel ++ [slash]) e.name) ∨
          statusShouldIgnore (dirRel ++ slash :: e.name) = false) ∧
        (hasGitDir w (dirRel ++ slash :: e.name) = true ∧
            (∀ f ∈ index.entries, f.path ≠ dirRel ++ slash :: e.name) ∧ p = dirRel ++ slash :: e.name ∨
          hasGitDir w (dirRel ++ slash :: e.name) = false ∧ p ∈ below (dirRel ++ slash :: e.name)) := by
  rw [← passesIff index statusShouldIgnore,← notEntryIff index]
  simp only [entryPaths]
  cases isDirType w (dirRel ++ slash :: e.name) e with
  | false =>
    cases inIndexExact index.entries (dirRel ++ slash :: e.name) <;>
      cases statusShouldIgnore (dirRel ++ slash :: e.name) <;> simp
  | true =>
    cases relInIndex index.entries (dirRel ++ slash :: e.name) true ||
        !statusShouldIgnore (dirRel ++ slash :: e.name) <;>
      cases inIndexExact index.entries (dirRel ++ slash :: e.name) <;>
      cases hasGitDir w (dirRel ++ slash :: e.name) <;> simp

theorem walkFound {depth : Nat} {x p : Bytes}
    (mem : p ∈ walkPaths w statusShouldIgnore index.entries depth x) :
    Found w statusShouldIgnore index.entries x p := by
  induction depth generalizing x with
  | zero => simp [walkPaths] at mem
  | succ depth ih =>
    rw [walkPaths] at mem
    cases git : hasGitDir w x with
    | true =>
      cases ignored : statusShouldIgnore x <;> simp [git,ignored] at mem
      subst mem
      exact .repo git ignored
    | false =>
      cases read : w.readdir (x ++ [slash]) with
      | none => simp [git,read] at mem
      | some raw =>
        simp only [git,read,Bool.false_eq_true,if_false] at mem
        obtain ⟨e,he,mem⟩ := List.mem_flatMap.mp mem
        obtain ⟨inside,names⟩ := List.mem_filter.mp he
        have holds : Holds w (x ++ [slash]) e := ⟨raw,read,inside,by simpa using names⟩
        rcases (memEntryPaths index w statusShouldIgnore).mp mem with
          ⟨file,free,kept,rfl⟩ | ⟨dir,passes,⟨nested,free,rfl⟩ | ⟨plain,below⟩⟩
        · exact .file git holds file free kept
        · exact .nested git holds dir passes nested free
        · exact .inner git holds dir passes plain (ih below)

theorem foundWalk {x p : Bytes} (found : Found w statusShouldIgnore index.entries x p) {depth : Nat}
    (enough : w.pathMax < x.length + depth) :
    p ∈ walkPaths w statusShouldIgnore index.entries (depth+1) x := by
  have step : ∀ {x p e} {depth : Nat}, hasGitDir w x = false → Holds w (x ++ [slash]) e →
      p ∈ entryPaths w statusShouldIgnore index.entries
        (walkPaths w statusShouldIgnore index.entries depth) x e →
      p ∈ walkPaths w statusShouldIgnore index.entries (depth+1) x := by
    intro x p e depth git ⟨raw,read,inside,names⟩ mem
    simp only [walkPaths,git,read,Bool.false_eq_true,if_false]
    exact List.mem_flatMap.mpr ⟨e,List.mem_filter.mpr ⟨inside,by simpa using names⟩,mem⟩
  induction found generalizing depth with
  | repo git kept => simp [walkPaths,git,kept]
  | file git holds file free kept =>
    exact step git holds ((memEntryPaths index w statusShouldIgnore).mpr (.inl ⟨file,free,kept,rfl⟩))
  | nested git holds dir passes nested free =>
    exact step git holds ((memEntryPaths index w statusShouldIgnore).mpr
      (.inr ⟨dir,passes,.inl ⟨nested,free,rfl⟩⟩))
  | inner git holds dir passes plain _ ih =>
    cases depth with
    | zero =>
      obtain ⟨raw,read,_⟩ := holds
      cases read.symm.trans (readdirDeep enough)
    | succ depth =>
      have below := @ih depth (by simp only [List.length_append,List.length_cons]; omega)
      exact step git holds ((memEntryPaths index w statusShouldIgnore).mpr
        (.inr ⟨dir,passes,.inr ⟨plain,below⟩⟩))

def Within (x p : Bytes) : Prop := p = x ∨ x ++ [slash] <+: p

theorem withinTrans {x y p : Bytes} (xy : Within x y) (yp : Within y p) : Within x p := by
  rcases yp with rfl | below
  · exact xy
  · rcases xy with rfl | above
    · exact .inr below
    · exact .inr (above.trans ((List.prefix_append y [slash]).trans below))

theorem withinChild (x name : Bytes) : Within x (x ++ slash :: name) := .inr ⟨name,by simp⟩

theorem foundWithin {entries : List IndexEntry} {x p : Bytes}
    (found : Found w statusShouldIgnore entries x p) : Within x p := by
  induction found with
  | repo => exact .inl rfl
  | file => exact withinChild _ _
  | nested => exact withinChild _ _
  | inner _ _ _ _ _ _ ih => exact withinTrans (withinChild _ _) ih

theorem withinName {d n m p : Bytes} (cn : slash ∉ n) (cm : slash ∉ m) (pn : Within (d ++ n) p)
    (pm : Within (d ++ m) p) : n = m := by
  have first : ∀ {n : Bytes}, slash ∉ n → Within (d ++ n) p →
      (p.drop d.length).takeWhile (· ≠ slash) = n := by
    intro n clean within
    have whole : ∀ b ∈ n, decide (b ≠ slash) = true := by
      intro b mem
      simpa using fun same : b = slash => clean (same ▸ mem)
    rcases within with rfl | ⟨rest,rfl⟩
    · rw [List.drop_left,List.takeWhile_eq_self_iff.mpr whole]
    · rw [List.append_assoc,List.append_assoc,List.drop_left,List.takeWhile_append_of_pos whole]
      simp
  exact (first cn pn).symm.trans (first cm pm)

theorem holdsClean {d : Bytes} {e : DirEntry} (holds : Holds w d e) : e.name ≠ [] ∧ slash ∉ e.name := by
  obtain ⟨raw,read,mem,_⟩ := holds
  exact w.clean d raw read e mem

theorem holdsUnique {d : Bytes} {e f : DirEntry} (he : Holds w d e) (hf : Holds w d f)
    (name : e.name = f.name) : e = f := by
  obtain ⟨raw,read,memE,_⟩ := he
  obtain ⟨raw',read',memF,_⟩ := hf
  cases read.symm.trans read'
  exact List.inj_on_of_nodup_map (w.distinct d raw read) memE memF name

theorem entryWithin {depth : Nat} {x p : Bytes} {e : DirEntry}
    (mem : p ∈ entryPaths w statusShouldIgnore index.entries
      (walkPaths w statusShouldIgnore index.entries depth) x e) : Within (x ++ slash :: e.name) p := by
  rcases (memEntryPaths index w statusShouldIgnore).mp mem with
    ⟨_,_,_,rfl⟩ | ⟨_,_,⟨_,_,rfl⟩ | ⟨_,below⟩⟩
  · exact .inl rfl
  · exact .inl rfl
  · exact foundWithin w statusShouldIgnore (walkFound index w statusShouldIgnore below)

theorem walkNodup (depth : Nat) (x : Bytes) :
    (walkPaths w statusShouldIgnore index.entries depth x).Nodup := by
  induction depth generalizing x with
  | zero => exact List.nodup_nil
  | succ depth ih =>
    rw [walkPaths]
    split
    · split <;> simp
    · cases read : w.readdir (x ++ [slash]) with
      | none => exact List.nodup_nil
      | some raw =>
        have names : raw.Pairwise (fun e f => e.name ≠ f.name) := List.pairwise_map.mp (w.distinct _ raw read)
        refine List.nodup_flatMap.mpr ⟨fun e _ => ?_,?_⟩
        · unfold entryPaths
          dsimp only
          repeat' split
          all_goals first | exact ih _ | simp
        · apply (names.sublist List.filter_sublist).imp_of_mem
          intro e f he hf apart p inE inF
          have clean := fun g (hg : g ∈ raw.filter (fun e => e.name ≠ dot ∧ e.name ≠ dotdot)) =>
            (w.clean _ raw read g (List.mem_filter.mp hg).1).2
          have underE := entryWithin index w statusShouldIgnore inE
          have underF := entryWithin index w statusShouldIgnore inF
          rw [joinSlash] at underE underF
          exact apart (withinName (clean e he) (clean f hf) underE underF)

end found
end P11k.Gitstatus
