import P11k.Gitstatus.TreeShape
import P11k.Lib.StableSort

/-! The scan of the directories of an index against one snapshot of the worktree: the stat
loop over the index files, the untracked cache, and the merge join of a listing with the
files and the subdirectories of its directory. -/
namespace P11k.Gitstatus

structure ScanOpts where
  includeUntracked : Bool
  untrackedCacheEnabled : Bool
  deriving DecidableEq, Repr

structure Dirent where
  name : Bytes
  isDir : Bool
  deriving DecidableEq, Repr

inductive DType where
  | directory
  | unknown
  | other
  deriving DecidableEq, Repr

structure DirEntry where
  name : Bytes
  dType : DType
  deriving DecidableEq, Repr

def dot : Bytes := [46]
def dotdot : Bytes := [46,46]

/-- What the system calls of one request see. Directories are addressed by their path in
the index tree, so the root is empty and every other one ends in its slash. The kernel
refuses paths beyond its limit. -/
structure Worktree where
  pathMax : Nat
  fstatat : Bytes → Option Stat
  dirTimes : Bytes → Option (Int64 × Int64)
  readdir : Bytes → Option (List DirEntry)
  distinct : ∀ d l, readdir d = some l → (l.map DirEntry.name).Nodup
  clean : ∀ d l, readdir d = some l → ∀ e ∈ l, e.name ≠ [] ∧ slash ∉ e.name
  short : ∀ d l, readdir d = some l → d.length ≤ pathMax

theorem readdirDeep {w : Worktree} {dir : Bytes} (deep : w.pathMax < dir.length) : w.readdir (dir ++ [slash]) = none := by
  cases read : w.readdir (dir ++ [slash]) with
  | none => rfl
  | some raw =>
    have short := w.short _ raw read
    rw [List.length_append,List.length_singleton] at short
    omega

/-- A worktree given by its files and its listed directories. -/
def tableWorktree (files : List (Bytes × Stat)) (listings : List (Bytes × (Int64 × Int64) × List DirEntry))
    (ok : ∀ row ∈ listings, (row.2.2.map DirEntry.name).Nodup ∧
      ∀ e ∈ row.2.2, e.name ≠ [] ∧ slash ∉ e.name) : Worktree where
  pathMax := (listings.map (fun row => row.1.length)).sum
  fstatat p := files.lookup p
  dirTimes d := (listings.lookup d).map Prod.fst
  readdir d := (listings.lookup d).map Prod.snd
  distinct d l read := by
    obtain ⟨row,found,rfl⟩ := Option.map_eq_some_iff.mp read
    obtain ⟨front,back,rfl,_⟩ := List.lookup_eq_some_iff.mp found
    exact (ok (d,row) (by simp)).1
  clean d l read := by
    obtain ⟨row,found,rfl⟩ := Option.map_eq_some_iff.mp read
    obtain ⟨front,back,rfl,_⟩ := List.lookup_eq_some_iff.mp found
    exact (ok (d,row) (by simp)).2
  short d l read := by
    obtain ⟨row,found,rfl⟩ := Option.map_eq_some_iff.mp read
    obtain ⟨front,back,rfl,_⟩ := List.lookup_eq_some_iff.mp found
    simp only [List.map_append,List.map_cons,List.sum_append,List.sum_cons]
    omega

def toAsciiLowercase (b : UInt8) : UInt8 := if 65 ≤ b ∧ b ≤ 90 then b + 32 else b

def foldByte (caseSensitive : Bool) (b : UInt8) : UInt8 :=
  if caseSensitive then b else toAsciiLowercase b

def foldKey (caseSensitive : Bool) (name : Bytes) : Bytes := name.map (foldByte caseSensitive)

def cmpName : Bytes → Bytes → Bool → Ordering
  | x :: a, y :: b, caseSensitive => match compare (foldByte caseSensitive x) (foldByte caseSensitive y) with
    | .eq => cmpName a b caseSensitive
    | other => other
  | a, b, _ => compare a.length b.length

/-- The names of a directory without `.` and `..`. An unknown type counts as a file. -/
def readNames (raw : List DirEntry) : List Dirent :=
  (raw.filter (fun e => e.name ≠ dot ∧ e.name ≠ dotdot)).map (fun e => ⟨e.name,e.dType == .directory⟩)

def listing (w : Worktree) (path : Bytes) : Option (List Dirent) := (w.readdir path).map readNames

def listDir (w : Worktree) (path : Bytes) (caseSensitive : Bool) : Option (List Dirent) :=
  (listing w path).map (StableSort.sortBy (fun e => foldKey caseSensitive e.name))

def dirty (w : Worktree) (caps : RepoCaps) (entry : IndexEntry) : Bool :=
  match w.fstatat entry.path with
  | none => true
  | some st => isModified entry st caps

/-- The entries filed in `d`. Positions outside the entries would panic in the source; a
tree has none. -/
def dirEntries (entries : List IndexEntry) (d : IndexDir) : List IndexEntry :=
  d.files.filterMap (entries[·]?)

def statFiles (w : Worktree) (caps : RepoCaps) (files : List IndexEntry) : List Bytes :=
  (files.filter (dirty w caps)).map (·.path)

structure FileMatch where
  pushed : List Bytes
  matched : Bool
  rest : List IndexEntry

def joinFiles (w : Worktree) (caps : RepoCaps) (dirPathLen : Nat) (name : Bytes) :
    List IndexEntry → FileMatch
  | [] => ⟨[],false,[]⟩
  | entry :: files =>
      match cmpName (entry.path.drop dirPathLen) name caps.caseSensitive with
      | .lt =>
        let next := joinFiles w caps dirPathLen name files
        ⟨entry.path :: next.pushed,next.matched,next.rest⟩
      | .eq => ⟨if dirty w caps entry then [entry.path] else [],true,files⟩
      | .gt => ⟨[],false,entry :: files⟩

def joinSubdirs (caseSensitive : Bool) (name : Bytes) : List Bytes → Bool × List Bytes
  | [] => (false,[])
  | s :: subdirs =>
      match cmpName s name caseSensitive with
      | .gt => (false,s :: subdirs)
      | .eq => (true,subdirs)
      | .lt => joinSubdirs caseSensitive name subdirs

def untrackedPath (dirPath : Bytes) (de : Dirent) : Bytes :=
  dirPath ++ de.name ++ if de.isDir then [slash] else []

structure Joined where
  pushed : List Bytes
  unmatched : List Bytes
  deriving DecidableEq

def joinDirents (w : Worktree) (caps : RepoCaps) (dirPath : Bytes) :
    List Dirent → List IndexEntry → List Bytes → Joined
  | [], files, _ => ⟨files.map (·.path),[]⟩
  | de :: dirents, files, subdirs =>
      let f := joinFiles w caps dirPath.length de.name files
      if f.matched then
        let next := joinDirents w caps dirPath dirents f.rest subdirs
        ⟨f.pushed ++ next.pushed,next.unmatched⟩
      else
        let s := joinSubdirs caps.caseSensitive de.name subdirs
        let next := joinDirents w caps dirPath dirents f.rest s.2
        if s.1 then ⟨f.pushed ++ next.pushed,next.unmatched⟩
        else
          let p := untrackedPath dirPath de
          ⟨f.pushed ++ p :: next.pushed,p :: next.unmatched⟩

def readInto (w : Worktree) (entries : List IndexEntry) (caps : RepoCaps) (d : IndexDir)
    (pushed : List Bytes) : IndexDir × List Bytes :=
  match listDir w d.path caps.caseSensitive with
  | none => ({ d with st := none, unmatched := [] },pushed)
  | some dirents =>
      let joined := joinDirents w caps d.path dirents (dirEntries entries d) d.subdirs
      ({ d with unmatched := joined.unmatched },pushed ++ joined.pushed)

/-- One turn of the scan loop: the directory as it is left and the candidates it adds. -/
def scanDir (w : Worktree) (entries : List IndexEntry) (caps : RepoCaps) (opts : ScanOpts)
    (d : IndexDir) : IndexDir × List Bytes :=
  let pushed := statFiles w caps (dirEntries entries d)
  if !opts.includeUntracked then (d,pushed)
  else if opts.untrackedCacheEnabled then
    match w.dirTimes d.path with
    | some cur =>
      if d.st = some cur then (d,pushed ++ d.unmatched)
      else readInto w entries caps { d with st := some cur } pushed
    | none => ({ d with st := none, unmatched := [] },pushed)
  else readInto w entries caps d pushed

def scanDirs (w : Worktree) (entries : List IndexEntry) (caps : RepoCaps) (opts : ScanOpts) :
    List IndexDir → List IndexDir × List Bytes
  | [] => ([],[])
  | d :: dirs =>
      let here := scanDir w entries caps opts d
      let next := scanDirs w entries caps opts dirs
      (here.1 :: next.1,here.2 ++ next.2)

section scanDirs
variable (w : Worktree) (entries : List IndexEntry) (caps : RepoCaps) (opts : ScanOpts)

theorem scanDirsAppend (front back : List IndexDir) :
    scanDirs w entries caps opts (front ++ back) =
      ((scanDirs w entries caps opts front).1 ++ (scanDirs w entries caps opts back).1,
        (scanDirs w entries caps opts front).2 ++ (scanDirs w entries caps opts back).2) := by
  induction front with
  | nil => rfl
  | cons d front ih => simp [scanDirs,ih,List.append_assoc]

theorem memScanDirs {p : Bytes} {dirs : List IndexDir} :
    p ∈ (scanDirs w entries caps opts dirs).2 ↔
      ∃ d ∈ dirs, p ∈ (scanDir w entries caps opts d).2 := by
  induction dirs with
  | nil => simp [scanDirs]
  | cons d dirs ih => simp [scanDirs,ih]

def shape (d : IndexDir) : IndexDir := { d with st := none, unmatched := [] }

theorem scanDirShape (d : IndexDir) : shape (scanDir w entries caps opts d).1 = shape d := by
  unfold scanDir readInto
  dsimp only
  split
  · rfl
  · split
    · split
      · split
        · rfl
        · split <;> rfl
      · rfl
    · split <;> rfl

theorem scanDirsShape (dirs : List IndexDir) :
    (scanDirs w entries caps opts dirs).1.map shape = dirs.map shape := by
  induction dirs with
  | nil => rfl
  | cons d dirs ih => simp only [scanDirs,List.map_cons,scanDirShape,ih]

end scanDirs

/-! The name comparison is the order of the keys. -/

theorem foldKeyTrue (name : Bytes) : foldKey true name = name := by
  have same : foldByte true = id := rfl
  rw [foldKey,same,List.map_id]

theorem foldKeyAppend (cs : Bool) (a b : Bytes) : foldKey cs (a ++ b) = foldKey cs a ++ foldKey cs b :=
  List.map_append

theorem cmpNameSpec (a b : Bytes) (cs : Bool) :
    (cmpName a b cs = .lt ↔ foldKey cs a < foldKey cs b) ∧
    (cmpName a b cs = .eq ↔ foldKey cs a = foldKey cs b) := by
  induction a generalizing b with
  | nil => cases b <;> simp [cmpName,foldKey,Nat.compare_eq_lt]
  | cons x a ih =>
    cases b with
    | nil => simp [cmpName,foldKey,Nat.compare_eq_lt]
    | cons y b =>
      have keys : ∀ z c, foldKey cs (z :: c) = foldByte cs z :: foldKey cs c := fun _ _ => rfl
      simp only [cmpName,keys,List.cons_lt_cons_iff,List.cons.injEq]
      cases order : compare (foldByte cs x) (foldByte cs y) with
      | lt =>
        have lt : foldByte cs x < foldByte cs y := Std.compare_eq_lt.mp order
        simp [lt,Std.ne_of_lt lt]
      | eq =>
        have eq : foldByte cs x = foldByte cs y := Std.LawfulEqOrd.compare_eq_iff_eq.mp order
        simp [eq,ih b]
      | gt =>
        have gt : foldByte cs y < foldByte cs x := Std.compare_eq_gt.mp order
        simp [Std.not_lt.mpr (Std.le_of_lt gt),(Std.ne_of_lt gt).symm]

theorem cmpNameGt (a b : Bytes) (cs : Bool) : cmpName a b cs = .gt ↔ foldKey cs b < foldKey cs a := by
  have spec := cmpNameSpec a b cs
  rcases Std.lt_trichotomy (foldKey cs a) (foldKey cs b) with lt | eq | gt
  · rw [spec.1.mpr lt]
    simpa using Std.le_of_lt lt
  · rw [spec.2.mpr eq,eq]
    simp
  · cases order : cmpName a b cs with
    | lt => exact absurd (Std.lt_trans gt (spec.1.mp order)) Std.lt_irrefl
    | eq => exact absurd (spec.2.mp order) (Std.ne_of_lt gt).symm
    | gt => simp [gt]

theorem listingClean {w : Worktree} {path : Bytes} {names : List Dirent}
    (read : listing w path = some names) : ∀ de ∈ names, de.name ≠ [] ∧ slash ∉ de.name := by
  intro de mem
  obtain ⟨raw,there,rfl⟩ := Option.map_eq_some_iff.mp read
  obtain ⟨e,he,rfl⟩ := List.mem_map.mp mem
  exact w.clean path raw there e (List.mem_filter.mp he).1

theorem listingDistinct {w : Worktree} {path : Bytes} {names : List Dirent}
    (read : listing w path = some names) : (names.map Dirent.name).Nodup := by
  obtain ⟨raw,there,rfl⟩ := Option.map_eq_some_iff.mp read
  have kept := (w.distinct path raw there).sublist ((List.filter_sublist
    (p := fun e => decide (e.name ≠ dot ∧ e.name ≠ dotdot))).map DirEntry.name)
  simpa only [readNames,List.map_map,Function.comp_def] using kept

end P11k.Gitstatus
