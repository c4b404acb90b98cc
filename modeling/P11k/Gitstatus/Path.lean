import P11k.Gitstatus.Entry
import P11k.Lib.PrefixOrder

/-! Directory prefixes of index paths. A directory is written as in the index tree: the
root is empty, every other one ends in its slash. -/
namespace P11k.Gitstatus

def slash : UInt8 := 47

/-- The directories above a path, outermost first, without the root. -/
def dirPrefixes : Bytes → List Bytes
  | [] => []
  | b :: bs => (if b = slash then [[b]] else []) ++ (dirPrefixes bs).map (b :: ·)

def ancestors (path : Bytes) : List Bytes := [] :: dirPrefixes path

def dirname : Bytes → Bytes
  | [] => []
  | b :: bs => if slash ∈ b :: bs then b :: dirname bs else []

def basename : Bytes → Bytes
  | [] => []
  | b :: bs => if slash ∈ b :: bs then basename bs else b :: bs

def DirPath (d : Bytes) : Prop := d = [] ∨ ∃ a, d = a ++ [slash]

theorem dirPrefixesCons (b : UInt8) (bs : Bytes) :
    dirPrefixes (b :: bs) = (if b = slash then [[b]] else []) ++ (dirPrefixes bs).map (b :: ·) := rfl

theorem dirnameCons (b : UInt8) (bs : Bytes) : dirname (b :: bs) = if slash ∈ b :: bs then b :: dirname bs else [] := rfl

theorem basenameCons (b : UInt8) (bs : Bytes) : basename (b :: bs) = if slash ∈ b :: bs then basename bs else b :: bs :=
  rfl

theorem memDirPrefixes {d path : Bytes} : d ∈ dirPrefixes path ↔ d <+: path ∧ ∃ a, d = a ++ [slash] := by
  induction path generalizing d with
  | nil =>
    refine iff_of_false List.not_mem_nil ?_
    rintro ⟨pre,a,rfl⟩
    exact List.append_ne_nil_of_right_ne_nil a (List.cons_ne_nil slash []) (List.prefix_nil.mp pre)
  | cons b bs ih =>
    simp only [dirPrefixesCons,List.mem_append,List.mem_map]
    constructor
    · rintro (first | ⟨e,he,rfl⟩)
      · split at first <;> simp at first
        rename_i sep
        subst first sep
        exact ⟨⟨bs,rfl⟩,[],rfl⟩
      · obtain ⟨pre,a,rfl⟩ := ih.mp he
        exact ⟨List.cons_prefix_cons.mpr ⟨rfl,pre⟩,b :: a,rfl⟩
    · rintro ⟨pre,a,rfl⟩
      cases a with
      | nil =>
        have sep := (List.cons_prefix_cons.mp pre).1
        subst sep
        simp
      | cons c a =>
        obtain ⟨same,rest⟩ := List.cons_prefix_cons.mp pre
        subst same
        exact .inr ⟨a ++ [slash],ih.mpr ⟨rest,a,rfl⟩,rfl⟩

theorem dirPrefixesAppend (a b : Bytes) :
    dirPrefixes (a ++ b) = dirPrefixes a ++ (dirPrefixes b).map (a ++ ·) := by
  induction a with
  | nil =>
    rw [List.nil_append]
    exact (List.map_id _).symm
  | cons x a ih =>
    rw [List.cons_append,dirPrefixesCons,dirPrefixesCons,ih]
    simp [Function.comp_def]

theorem dirPrefixesName {name : Bytes} (clean : slash ∉ name) : dirPrefixes name = [] := by
  apply List.eq_nil_iff_forall_not_mem.mpr
  intro d mem
  rw [memDirPrefixes] at mem
  obtain ⟨pre,a,rfl⟩ := mem
  exact clean (pre.subset (by simp))

theorem dirPrefixesLength (path : Bytes) : (dirPrefixes path).length = path.count slash := by
  induction path with
  | nil => rfl
  | cons b bs ih =>
    simp only [dirPrefixesCons,List.length_append,List.length_map,ih,List.count_cons]
    split <;> simp_all [Nat.add_comm]

theorem dirPrefixesNodup (path : Bytes) : (dirPrefixes path).Nodup := by
  induction path with
  | nil => exact List.nodup_nil
  | cons b bs ih =>
    have rest : ((dirPrefixes bs).map (b :: ·)).Nodup :=
      List.Nodup.map (fun _ _ h => (List.cons.inj h).2) ih
    rw [dirPrefixesCons]
    refine List.nodup_append'.mpr ⟨by split <;> simp,rest,?_⟩
    intro d first later
    obtain ⟨e,he,rfl⟩ := List.mem_map.mp later
    rw [memDirPrefixes] at he
    obtain ⟨_,a,rfl⟩ := he
    split at first <;> simp at first

theorem ancestorsDirPath {d path : Bytes} (mem : d ∈ ancestors path) : DirPath d := by
  rcases List.mem_cons.mp mem with rfl | inside
  · exact .inl rfl
  · rw [memDirPrefixes] at inside
    exact .inr inside.2

theorem memAncestors {d path : Bytes} : d ∈ ancestors path ↔ d <+: path ∧ DirPath d := by
  constructor
  · intro mem
    refine ⟨?_,ancestorsDirPath mem⟩
    rcases List.mem_cons.mp mem with rfl | inside
    · exact List.nil_prefix
    · rw [memDirPrefixes] at inside
      exact inside.1
  · rintro ⟨pre,rfl | dir⟩
    · exact List.mem_cons_self
    · refine List.mem_cons_of_mem _ ?_
      rw [memDirPrefixes]
      exact ⟨pre,dir⟩

theorem dirnameAppendBasename (path : Bytes) : dirname path ++ basename path = path := by
  induction path with
  | nil => rfl
  | cons b bs ih =>
    rw [dirnameCons,basenameCons]
    split
    · rw [List.cons_append,ih]
    · rfl

theorem dropDirname (path : Bytes) : path.drop (dirname path).length = basename path := by
  have whole := congrArg (List.drop (dirname path).length) (dirnameAppendBasename path)
  rw [List.drop_left] at whole
  exact whole.symm

theorem basenameClean (path : Bytes) : slash ∉ basename path := by
  induction path with
  | nil => exact List.not_mem_nil
  | cons b bs ih =>
    rw [basenameCons]
    split
    · exact ih
    · assumption

theorem dirnameName {name : Bytes} (clean : slash ∉ name) : dirname name = [] := by
  cases name with
  | nil => rfl
  | cons b bs => rw [dirnameCons,if_neg clean]

theorem dirnameOf {d name : Bytes} (dir : DirPath d) (clean : slash ∉ name) :
    dirname (d ++ name) = d ∧ basename (d ++ name) = name := by
  have dirs : dirname (d ++ name) = d := by
    rcases dir with rfl | ⟨a,rfl⟩
    · exact dirnameName clean
    · induction a with
      | nil => simp [dirnameCons,dirnameName clean]
      | cons b a ih =>
        rw [List.cons_append,List.cons_append,dirnameCons,if_pos (by simp),ih]
  refine ⟨dirs,?_⟩
  have whole := dirnameAppendBasename (d ++ name)
  rw [dirs] at whole
  exact List.append_cancel_left whole

theorem dirnameDirPath (path : Bytes) : DirPath (dirname path) := by
  induction path with
  | nil => exact .inl rfl
  | cons b bs ih =>
    rw [dirnameCons]
    split
    · rename_i inside
      right
      rcases ih with none | ⟨a,ha⟩
      · have notLater : slash ∉ bs := by
          intro later
          cases bs with
          | nil => simp at later
          | cons c cs => simp [dirnameCons,later] at none
        rcases List.mem_cons.mp inside with same | later
        · exact ⟨[],by rw [none,← same]; rfl⟩
        · exact absurd later notLater
      · exact ⟨b :: a,by rw [ha]; rfl⟩
    · exact .inl rfl

theorem splitUnique {d e n m : Bytes} (dd : DirPath d) (de : DirPath e) (cn : slash ∉ n)
    (cm : slash ∉ m) (same : d ++ n = e ++ m) : d = e ∧ n = m := by
  have left := dirnameOf dd cn
  have right := dirnameOf de cm
  rw [same] at left
  exact ⟨left.1.symm.trans right.1,left.2.symm.trans right.2⟩

theorem dirPrefixesDirname (path : Bytes) : dirPrefixes (dirname path) = dirPrefixes path := by
  have h := dirPrefixesAppend (dirname path) (basename path)
  rw [dirnameAppendBasename,dirPrefixesName (basenameClean path)] at h
  simpa using h.symm

theorem dirnameMem (path : Bytes) : dirname path ∈ ancestors path := by
  rw [memAncestors]
  exact ⟨⟨_,dirnameAppendBasename path⟩,dirnameDirPath path⟩

theorem dirnamePrefix {d path : Bytes} (dir : DirPath d) (pre : d <+: path) : d <+: dirname path := by
  have mem : d ∈ ancestors path := by
    rw [memAncestors]
    exact ⟨pre,dir⟩
  rw [ancestors,← dirPrefixesDirname] at mem
  exact (memAncestors.mp mem).1

def childDir (d name : Bytes) : Bytes := d ++ name ++ [slash]

theorem childDirUnique {d e n m : Bytes} (dd : DirPath d) (de : DirPath e) (cn : slash ∉ n)
    (cm : slash ∉ m) (same : childDir d n = childDir e m) : d = e ∧ n = m :=
  splitUnique dd de cn cm (List.append_cancel_right same)

/-- The name of `q` as a child directory of `d`, when it is one. -/
def childName (d q : Bytes) : Option Bytes :=
  if d.isPrefixOf q then
    let name := (q.drop d.length).dropLast
    if q = childDir d name ∧ slash ∉ name then some name else none
  else none

theorem childNameSome {d q name : Bytes} :
    childName d q = some name ↔ q = childDir d name ∧ slash ∉ name := by
  unfold childName
  constructor
  · intro h
    split at h <;> try contradiction
    dsimp only at h
    split at h <;> try contradiction
    cases h
    assumption
  · rintro ⟨rfl,clean⟩
    have pre : d.isPrefixOf (childDir d name) = true := by
      rw [List.isPrefixOf_iff_prefix]
      exact ⟨name ++ [slash],by simp [childDir]⟩
    have inner : ((childDir d name).drop d.length).dropLast = name := by simp [childDir]
    rw [if_pos pre]
    dsimp only
    rw [inner,if_pos ⟨rfl,clean⟩]

end P11k.Gitstatus
