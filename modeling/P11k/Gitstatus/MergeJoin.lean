import P11k.Gitstatus.Scan

/-! What the merge join pushes for one name. A class is all names with the same key: one name
in a case-sensitive repository, its case variants otherwise. The listing and the files ascend
in the key order; the subdirectories come in the order of the tree, which need not be it. -/
namespace P11k.Gitstatus

def nameKey (cs : Bool) (de : Dirent) : Bytes := foldKey cs de.name

def baseKey (cs : Bool) (dirPath : Bytes) (entry : IndexEntry) : Bytes :=
  foldKey cs (entry.path.drop dirPath.length)

def stripSlash (name : Bytes) : Bytes := if name.getLast? = some slash then name.dropLast else name

/-- The class of a candidate below `dirPath`; it depends on the key of the candidate only. -/
def nameClass (cs : Bool) (dirPath p : Bytes) : Bytes := stripSlash ((foldKey cs p).drop dirPath.length)

/-- The subdirectories of class `k` that no larger one stands before. -/
def subdirRun (cs : Bool) (k : Bytes) (subdirs : List Bytes) : Nat :=
  (subdirs.takeWhile (fun s => foldKey cs s ≤ k)).countP (fun s => foldKey cs s = k)

section classes
variable (cs : Bool) (dirPath k : Bytes)

def classNames (dirents : List Dirent) : List Dirent := dirents.filter (fun de => nameKey cs de = k)

def classEntries (files : List IndexEntry) : List IndexEntry :=
  files.filter (fun f => baseKey cs dirPath f = k)

/-- The names of a class that neither a file nor a subdirectory takes up. -/
def surplusNames (dirents : List Dirent) (files : List IndexEntry) (subdirs : List Bytes) : List Bytes :=
  (((classNames cs k dirents).drop (classEntries cs dirPath k files).length).drop
    (subdirRun cs k subdirs)).map (untrackedPath dirPath)

/-- The files of a class that are pushed: paired ones when they are dirty, the rest always. -/
def pushedEntries (w : Worktree) (caps : RepoCaps) (dirents : List Dirent) (files : List IndexEntry) :
    List Bytes :=
  let paired := (classNames cs k dirents).length
  (((classEntries cs dirPath k files).take paired).filter (dirty w caps) ++
    (classEntries cs dirPath k files).drop paired).map (·.path)

end classes

theorem foldByteSlash (cs : Bool) (b : UInt8) : foldByte cs b = slash ↔ b = slash := by
  unfold foldByte toAsciiLowercase slash
  split
  · rfl
  · split
    · rename_i upper
      have low : 65 ≤ b.toNat := UInt8.le_iff_toNat_le.mp upper.1
      have high : b.toNat ≤ 90 := UInt8.le_iff_toNat_le.mp upper.2
      simp only [← UInt8.toNat_inj,UInt8.toNat_add,UInt8.toNat_ofNat]
      omega
    · rfl

theorem slashFold {cs : Bool} {name : Bytes} : slash ∈ foldKey cs name ↔ slash ∈ name := by
  simp [foldKey,foldByteSlash]

theorem foldKeyDrop (cs : Bool) (name : Bytes) (n : Nat) :
    (foldKey cs name).drop n = foldKey cs (name.drop n) := List.map_drop.symm

theorem stripSlashClean {name : Bytes} (clean : slash ∉ name) : stripSlash name = name := by
  unfold stripSlash
  rw [if_neg (fun last => clean (List.mem_of_getLast? last))]

theorem nameClassFile (cs : Bool) {dirPath : Bytes} {f : IndexEntry}
    (clean : slash ∉ f.path.drop dirPath.length) :
    nameClass cs dirPath f.path = baseKey cs dirPath f := by
  unfold nameClass baseKey
  rw [foldKeyDrop,stripSlashClean (fun mem => clean (slashFold.mp mem))]

theorem nameClassUntracked (cs : Bool) (dirPath : Bytes) {de : Dirent} (clean : slash ∉ de.name) :
    nameClass cs dirPath (untrackedPath dirPath de) = nameKey cs de := by
  have keyClean : slash ∉ foldKey cs de.name := fun mem => clean (slashFold.mp mem)
  unfold nameClass untrackedPath nameKey
  rw [foldKeyDrop,List.append_assoc,List.drop_left]
  split
  · have sep : foldKey cs [slash] = [slash] := by simp [foldKey,(foldByteSlash cs slash).mpr rfl]
    rw [foldKeyAppend,sep,stripSlash,if_pos (by simp),List.dropLast_concat]
  · rw [List.append_nil,stripSlashClean keyClean]

section join
variable (w : Worktree) (caps : RepoCaps) (dirPath : Bytes)

theorem joinFilesSplit (name : Bytes) (files : List IndexEntry) : ∃ low high, files = low ++ high ∧
    (∀ f ∈ low, baseKey caps.caseSensitive dirPath f < foldKey caps.caseSensitive name) ∧
    ((∃ f rest, high = f :: rest ∧
        baseKey caps.caseSensitive dirPath f = foldKey caps.caseSensitive name ∧
        joinFiles w caps dirPath.length name files =
          ⟨low.map (·.path) ++ (if dirty w caps f then [f.path] else []),true,rest⟩) ∨
      (∀ f ∈ high.head?, foldKey caps.caseSensitive name < baseKey caps.caseSensitive dirPath f) ∧
        joinFiles w caps dirPath.length name files = ⟨low.map (·.path),false,high⟩) := by
  induction files with
  | nil => exact ⟨[],[],rfl,by simp,.inr ⟨by simp,rfl⟩⟩
  | cons f files ih =>
    have spec := cmpNameSpec (f.path.drop dirPath.length) name caps.caseSensitive
    have above := cmpNameGt (f.path.drop dirPath.length) name caps.caseSensitive
    simp only [joinFiles]
    cases order : cmpName (f.path.drop dirPath.length) name caps.caseSensitive with
    | lt =>
      obtain ⟨low,high,whole,small,result⟩ := ih
      refine ⟨f :: low,high,by rw [whole,List.cons_append],?_,?_⟩
      · intro g mem
        rcases List.mem_cons.mp mem with rfl | later
        · exact spec.1.mp order
        · exact small g later
      · rcases result with ⟨g,rest,split,same,value⟩ | ⟨big,value⟩
        · exact .inl ⟨g,rest,split,same,by rw [value]; rfl⟩
        · exact .inr ⟨big,by rw [value]; rfl⟩
    | eq => exact ⟨[],f :: files,rfl,by simp,.inl ⟨f,files,rfl,spec.2.mp order,rfl⟩⟩
    | gt => exact ⟨[],f :: files,rfl,by simp,.inr ⟨by simpa [baseKey] using above.mp order,rfl⟩⟩

theorem joinSubdirsSame (cs : Bool) (name : Bytes) (subdirs : List Bytes) :
    ((joinSubdirs cs name subdirs).1 = true ↔ 0 < subdirRun cs (foldKey cs name) subdirs) ∧
    subdirRun cs (foldKey cs name) (joinSubdirs cs name subdirs).2 =
      subdirRun cs (foldKey cs name) subdirs - 1 := by
  induction subdirs with
  | nil => simp [joinSubdirs,subdirRun]
  | cons s subdirs ih =>
    have spec := cmpNameSpec s name cs
    have above := cmpNameGt s name cs
    simp only [joinSubdirs]
    cases order : cmpName s name cs with
    | lt =>
      have lt := spec.1.mp order
      simpa [subdirRun,Std.le_of_lt lt,Std.ne_of_lt lt] using ih
    | eq =>
      have same := spec.2.mp order
      simp [subdirRun,same,Std.le_refl]
    | gt =>
      have gt := above.mp order
      simp [subdirRun,Std.not_le.mpr gt]

theorem joinSubdirsLater {cs : Bool} {name k : Bytes} (lt : foldKey cs name < k) (subdirs : List Bytes) :
    subdirRun cs k (joinSubdirs cs name subdirs).2 = subdirRun cs k subdirs := by
  induction subdirs with
  | nil => rfl
  | cons s subdirs ih =>
    have spec := cmpNameSpec s name cs
    simp only [joinSubdirs]
    cases order : cmpName s name cs with
    | lt =>
      have small := Std.lt_trans (spec.1.mp order) lt
      rw [ih]
      simp [subdirRun,Std.le_of_lt small,Std.ne_of_lt small]
    | eq =>
      have small : foldKey cs s < k := spec.2.mp order ▸ lt
      simp [subdirRun,Std.le_of_lt small,Std.ne_of_lt small]
    | gt => rfl

variable {caps dirPath}

theorem highAbove {name : Bytes} {files low high : List IndexEntry} (whole : files = low ++ high)
    (sorted : files.Pairwise (fun a b =>
      baseKey caps.caseSensitive dirPath a ≤ baseKey caps.caseSensitive dirPath b))
    (big : ∀ f ∈ high.head?, foldKey caps.caseSensitive name < baseKey caps.caseSensitive dirPath f) :
    ∀ f ∈ high, foldKey caps.caseSensitive name < baseKey caps.caseSensitive dirPath f := by
  cases high with
  | nil => simp
  | cons g high =>
    intro f mem
    have first := big g rfl
    rcases List.mem_cons.mp mem with rfl | later
    · exact first
    · rw [whole] at sorted
      have above := (List.pairwise_cons.mp (List.pairwise_append.mp sorted).2.1).1 f later
      exact Std.lt_of_lt_of_le first above

theorem classOfFiles {k : Bytes} {files : List IndexEntry}
    (clean : ∀ f ∈ files, slash ∉ f.path.drop dirPath.length) :
    (files.map (·.path)).filter (fun p => nameClass caps.caseSensitive dirPath p = k) =
      (classEntries caps.caseSensitive dirPath k files).map (·.path) := by
  rw [List.filter_map,classEntries]
  congr 1
  apply List.filter_congr
  intro f mem
  simp only [Function.comp_apply,nameClassFile _ (clean f mem)]

theorem joinStep (de : Dirent) (dirents : List Dirent) (files : List IndexEntry) (subdirs : List Bytes) :
    let f := joinFiles w caps dirPath.length de.name files
    let s := joinSubdirs caps.caseSensitive de.name subdirs
    let next := joinDirents w caps dirPath dirents f.rest (if f.matched then subdirs else s.2)
    let new := if f.matched || s.1 then [] else [untrackedPath dirPath de]
    joinDirents w caps dirPath (de :: dirents) files subdirs =
      ⟨f.pushed ++ (new ++ next.pushed),new ++ next.unmatched⟩ := by
  simp only [joinDirents]
  cases (joinFiles w caps dirPath.length de.name files).matched with
  | true => simp
  | false => cases (joinSubdirs caps.caseSensitive de.name subdirs).1 <;> simp

theorem classNamesOther {cs : Bool} {k : Bytes} {de : Dirent} (other : nameKey cs de ≠ k)
    (dirents : List Dirent) : classNames cs k (de :: dirents) = classNames cs k dirents := by
  simp [classNames,other]

theorem classNamesSame {cs : Bool} {k : Bytes} {de : Dirent} (same : nameKey cs de = k)
    (dirents : List Dirent) : classNames cs k (de :: dirents) = de :: classNames cs k dirents := by
  simp [classNames,same]

theorem classNamesNone {cs : Bool} {k : Bytes} {dirents : List Dirent}
    (above : ∀ de ∈ dirents, k < nameKey cs de) : classNames cs k dirents = [] := by
  apply List.filter_eq_nil_iff.mpr
  intro de mem
  simpa using (Std.ne_of_lt (above de mem)).symm

theorem classEntriesAppend (cs : Bool) (k : Bytes) (low high : List IndexEntry) :
    classEntries cs dirPath k (low ++ high) =
      classEntries cs dirPath k low ++ classEntries cs dirPath k high := List.filter_append ..

theorem classEntriesOther {cs : Bool} {k : Bytes} {f : IndexEntry} (other : baseKey cs dirPath f ≠ k)
    (files : List IndexEntry) :
    classEntries cs dirPath k (f :: files) = classEntries cs dirPath k files := by
  simp [classEntries,other]

theorem classEntriesSame {cs : Bool} {k : Bytes} {f : IndexEntry} (same : baseKey cs dirPath f = k)
    (files : List IndexEntry) :
    classEntries cs dirPath k (f :: files) = f :: classEntries cs dirPath k files := by
  simp [classEntries,same]

theorem classEntriesNone (dirPath : Bytes) {cs : Bool} {k : Bytes} {files : List IndexEntry}
    (other : ∀ f ∈ files, baseKey cs dirPath f ≠ k) : classEntries cs dirPath k files = [] := by
  apply List.filter_eq_nil_iff.mpr
  intro f mem
  simpa using other f mem

theorem joinClass (caps : RepoCaps) (dirPath k : Bytes) {dirents : List Dirent} {files : List IndexEntry}
    (listing : dirents.Pairwise (fun a b => nameKey caps.caseSensitive a ≤ nameKey caps.caseSensitive b))
    (sorted : files.Pairwise (fun a b =>
      baseKey caps.caseSensitive dirPath a ≤ baseKey caps.caseSensitive dirPath b))
    (cleanNames : ∀ de ∈ dirents, slash ∉ de.name)
    (cleanFiles : ∀ f ∈ files, slash ∉ f.path.drop dirPath.length) (subdirs : List Bytes) :
    (joinDirents w caps dirPath dirents files subdirs).pushed.filter
        (fun p => nameClass caps.caseSensitive dirPath p = k) =
      pushedEntries caps.caseSensitive dirPath k w caps dirents files ++
        surplusNames caps.caseSensitive dirPath k dirents files subdirs ∧
    (joinDirents w caps dirPath dirents files subdirs).unmatched.filter
        (fun p => nameClass caps.caseSensitive dirPath p = k) =
      surplusNames caps.caseSensitive dirPath k dirents files subdirs := by
  induction dirents generalizing files subdirs with
  | nil => simp [joinDirents,classOfFiles cleanFiles,pushedEntries,surplusNames,classNames]
  | cons de dirents ih =>
    obtain ⟨above,tail⟩ := List.pairwise_cons.mp listing
    obtain ⟨low,high,rfl,small,result⟩ := joinFilesSplit w caps dirPath de.name files
    have sortedHigh := (List.pairwise_append.mp sorted).2.1
    have cleanLow := fun f hf => cleanFiles f (List.mem_append_left high hf)
    have cleanHigh := fun f hf => cleanFiles f (List.mem_append_right low hf)
    have cleanTail := fun d hd => cleanNames d (List.mem_cons_of_mem de hd)
    have here := nameClassUntracked caps.caseSensitive dirPath (cleanNames de List.mem_cons_self)
    rw [joinStep]
    change ∀ f ∈ low, baseKey caps.caseSensitive dirPath f < nameKey caps.caseSensitive de at small
    rcases result with ⟨f,rest,rfl,same,value⟩ | ⟨big,value⟩
    · change baseKey caps.caseSensitive dirPath f = nameKey caps.caseSensitive de at same
      have next := ih tail (List.pairwise_cons.mp sortedHigh).2 cleanTail
        (fun g hg => cleanHigh g (List.mem_cons_of_mem f hg)) subdirs
      have classF := nameClassFile caps.caseSensitive (cleanHigh f List.mem_cons_self)
      have bigRest := (List.pairwise_cons.mp sortedHigh).1
      simp only [value,Bool.true_or,if_true,List.nil_append,List.filter_append,next.1,next.2,
        classOfFiles cleanLow,pushedEntries,surplusNames,classEntriesAppend]
      have classPushed : (if dirty w caps f then [f.path] else []).filter
          (fun p => nameClass caps.caseSensitive dirPath p = k) =
          ((if baseKey caps.caseSensitive dirPath f = k then [f] else []).filter (dirty w caps)).map
            (·.path) := by
        split <;> split <;> simp_all
      rw [classPushed]
      rcases Std.lt_trichotomy (nameKey caps.caseSensitive de) k with less | equal | more
      · have lowOther := classEntriesNone dirPath
          (fun g hg => Std.ne_of_lt (Std.lt_trans (small g hg) less))
        have fOther : baseKey caps.caseSensitive dirPath f ≠ k := Std.ne_of_lt (same ▸ less)
        rw [classNamesOther (Std.ne_of_lt less),lowOther,classEntriesOther fOther]
        simp [fOther]
      · have lowOther := classEntriesNone dirPath
          (fun g hg => Std.ne_of_lt (equal ▸ small g hg))
        have fSame : baseKey caps.caseSensitive dirPath f = k := same.trans equal
        rw [classNamesSame equal,lowOther,classEntriesSame fSame]
        simp only [fSame,if_true]
        by_cases isDirty : dirty w caps f <;> simp [isDirty]
      · have namesNone := classNamesNone (fun d hd => Std.lt_of_lt_of_le more (above d hd))
        have fOther : baseKey caps.caseSensitive dirPath f ≠ k := (Std.ne_of_lt (same ▸ more)).symm
        have restNone := classEntriesNone dirPath (fun g hg =>
          (Std.ne_of_lt (Std.lt_of_lt_of_le (same ▸ more) (bigRest g hg))).symm)
        rw [classNamesOther (Std.ne_of_lt more).symm,namesNone,classEntriesOther fOther,restNone]
        simp [fOther]
    · have bigAll : ∀ f ∈ high, nameKey caps.caseSensitive de < baseKey caps.caseSensitive dirPath f :=
        highAbove rfl sorted big
      have next := ih tail sortedHigh cleanTail cleanHigh
        (joinSubdirs caps.caseSensitive de.name subdirs).2
      have met := joinSubdirsSame caps.caseSensitive de.name subdirs
      simp only [value,Bool.false_or,Bool.false_eq_true,if_false,List.filter_append,next.1,next.2,
        classOfFiles cleanLow,pushedEntries,surplusNames,classEntriesAppend]
      rcases Std.lt_trichotomy (nameKey caps.caseSensitive de) k with less | equal | more
      · have lowOther := classEntriesNone dirPath
          (fun g hg => Std.ne_of_lt (Std.lt_trans (small g hg) less))
        rw [classNamesOther (Std.ne_of_lt less),lowOther,joinSubdirsLater less]
        split <;> simp [here,Std.ne_of_lt less]
      · have lowOther := classEntriesNone dirPath
          (fun g hg => Std.ne_of_lt (equal ▸ small g hg))
        have highOther := classEntriesNone dirPath
          (fun g hg => (Std.ne_of_lt (equal ▸ bigAll g hg)).symm)
        have metK : foldKey caps.caseSensitive de.name = k := equal
        rw [metK] at met
        rw [classNamesSame equal,lowOther,highOther,met.2]
        by_cases seen : (joinSubdirs caps.caseSensitive de.name subdirs).1 = true
        · obtain ⟨r,run⟩ := Nat.exists_eq_succ_of_ne_zero (Nat.pos_iff_ne_zero.mp (met.1.mp seen))
          simp [seen,run]
        · have run : subdirRun caps.caseSensitive k subdirs = 0 :=
            Nat.eq_zero_of_not_pos (fun pos => seen (met.1.mpr pos))
          simp [seen,run,here,equal]
      · have namesNone := classNamesNone (fun d hd => Std.lt_of_lt_of_le more (above d hd))
        have highNone := classEntriesNone dirPath (fun g hg =>
          (Std.ne_of_lt (Std.lt_trans more (bigAll g hg))).symm)
        rw [classNamesOther (Std.ne_of_lt more).symm,namesNone,highNone]
        split <;> simp [here,(Std.ne_of_lt more).symm]

end join
end P11k.Gitstatus
