import P11k.Gitstatus.Path
import P11k.Lib.Appearances

/-! The directory tree of an index: a stack of open directories, cut back to the common
directory of each entry and then extended by the directories the entry adds. Slices and
indexings that the source would panic on give none. -/
namespace P11k.Gitstatus
open scoped List

structure IndexDir where
  path : Bytes
  basename : Bytes
  depth : Nat
  files : List Nat
  subdirs : List Bytes
  st : Option (Int64 × Int64)
  unmatched : List Bytes
  deriving DecidableEq, Repr

structure Index where
  entries : List IndexEntry
  dirs : List IndexDir
  splits : List Nat
  includeUntracked : Bool
  deriving DecidableEq, Repr

def freshDir (path basename : Bytes) (depth : Nat) : IndexDir :=
  ⟨path,basename,depth,[],[],none,[]⟩

def slice (bytes : Bytes) (start stop : Nat) : Option Bytes :=
  if start ≤ stop ∧ stop ≤ bytes.length then some ((bytes.take stop).drop start) else none

/-- The length and the depth of the common directory of the stack top and a path. -/
def commonDir : Bytes → Bytes → Nat → Nat → Nat → Nat × Nat
  | a :: top, b :: path, j, commonLen, commonDepth =>
      if a = b then
        if b = slash then commonDir top path (j+1) (j+1) (commonDepth+1)
        else commonDir top path (j+1) commonLen commonDepth
      else (commonLen,commonDepth)
  | _, _, _, commonLen, commonDepth => (commonLen,commonDepth)

/-- The stack is kept with its top in front. -/
def popLevels (commonDepth : Nat) : List Nat → List Nat
  | [] => []
  | i :: stack => if commonDepth + 1 < stack.length + 1 then popLevels commonDepth stack else i :: stack

def createDirs (path : Bytes) : Nat → Nat → List IndexDir → List Nat →
    Option (List IndexDir × List Nat)
  | 0, _, _, _ => none
  | fuel+1, p, dirs, stack => match (path.drop p).idxOf? slash with
    | none => some (dirs,stack)
    | some rel => do
      let slashAt := p + rel
      let parent ← stack.head?
      let parentDir ← dirs[parent]?
      let basename ← slice path parentDir.path.length slashAt
      let dirPath ← slice path 0 (slashAt+1)
      let named := { parentDir with subdirs := parentDir.subdirs ++ [basename] }
      createDirs path fuel (slashAt+1)
        (dirs.set parent named ++ [freshDir dirPath basename stack.length]) (dirs.length :: stack)

def addEntry (i : Nat) (path : Bytes) (dirs : List IndexDir) (stack : List Nat) :
    Option (List IndexDir × List Nat) := do
  let top ← stack.head?
  let topDir ← dirs[top]?
  let common := commonDir topDir.path path 0 0 0
  let (dirs,stack) ← createDirs path (path.length+1) common.1 dirs (popLevels common.2 stack)
  let dirIdx ← stack.head?
  let dir ← dirs[dirIdx]?
  some (dirs.set dirIdx { dir with files := dir.files ++ [i] },stack)

def addEntries : Nat → List IndexEntry → List IndexDir → List Nat →
    Option (List IndexDir × List Nat)
  | _, [], dirs, stack => some (dirs,stack)
  | i, entry :: entries, dirs, stack => do
      let (dirs,stack) ← addEntry i entry.path dirs stack
      addEntries (i+1) entries dirs stack

def fromEntries (entries : List IndexEntry) : Option Index := do
  let (dirs,_) ← addEntries 0 entries [freshDir [] [] 0] [0]
  some ⟨entries,dirs,[],false⟩

/-! What one step of the construction can do to the directories. -/

inductive Grown : List Bytes → List IndexDir → Prop where
  | root : Grown [] [freshDir [] [] 0]
  | child {ps dirs i d name} : Grown ps dirs → dirs[i]? = some d → slash ∉ name →
      Grown ps (dirs.set i { d with subdirs := d.subdirs ++ [name] } ++
        [freshDir (childDir d.path name) name (d.path.count slash + 1)])
  | file {ps dirs i d p} : Grown ps dirs → dirs[i]? = some d → d.path = dirname p →
      Grown (ps ++ [p]) (dirs.set i { d with files := d.files ++ [ps.length] })

/-- The open directories: each one is a child of the one below it, down to the root. -/
inductive Levels (paths : List Bytes) : List Nat → Bytes → Prop where
  | root {i} : paths[i]? = some [] → Levels paths [i] []
  | child {i stack d name} : Levels paths stack d → paths[i]? = some (childDir d name) →
      slash ∉ name → Levels paths (i :: stack) (childDir d name)

theorem childDirCount {d name : Bytes} (clean : slash ∉ name) :
    (childDir d name).count slash = d.count slash + 1 := by
  simp [childDir,List.count_append,List.count_eq_zero.mpr clean]

theorem levelsLength {paths : List Bytes} {stack : List Nat} {d : Bytes}
    (levels : Levels paths stack d) : stack.length = d.count slash + 1 := by
  induction levels with
  | root at' => simp
  | child below at' clean ih => rw [childDirCount clean,List.length_cons,ih]

theorem levelsDirPath {paths : List Bytes} {stack : List Nat} {d : Bytes}
    (levels : Levels paths stack d) : DirPath d := by
  cases levels with
  | root at' => exact .inl rfl
  | child below at' clean => exact .inr ⟨_,rfl⟩

theorem levelsHead {paths : List Bytes} {stack : List Nat} {d : Bytes}
    (levels : Levels paths stack d) : ∃ i rest, stack = i :: rest ∧ paths[i]? = some d := by
  cases levels with
  | root at' => exact ⟨_,_,rfl,at'⟩
  | child below at' clean => exact ⟨_,_,rfl,at'⟩

theorem levelsExtend {paths more : List Bytes} {stack : List Nat} {d : Bytes}
    (levels : Levels paths stack d) : Levels (paths ++ more) stack d := by
  have keep : ∀ {i : Nat} {p : Bytes}, paths[i]? = some p → (paths ++ more)[i]? = some p := by
    intro i p at'
    obtain ⟨bound,rfl⟩ := List.getElem?_eq_some_iff.mp at'
    rw [List.getElem?_append_left bound,at']
  induction levels with
  | root at' => exact .root (keep at')
  | child below at' clean ih => exact .child ih (keep at') clean

theorem levelsPop {paths : List Bytes} {stack : List Nat} {d c : Bytes}
    (levels : Levels paths stack d) (pre : c <+: d) (dir : DirPath c) :
    Levels paths (popLevels (c.count slash) stack) c := by
  induction levels with
  | root at' =>
    have none : c = [] := List.prefix_nil.mp pre
    subst none
    simpa [popLevels] using .root at'
  | @child i stack d name below at' clean ih =>
    have len := levelsLength below
    rcases List.prefix_concat_iff.mp (show c <+: (d ++ name) ++ [slash] from pre) with rfl | inner
    · rw [← childDir,childDirCount clean,popLevels,if_neg (by omega)]
      exact .child below at' clean
    · have above : c <+: d := by
        have h := dirnamePrefix dir inner
        rwa [(dirnameOf (levelsDirPath below) clean).1] at h
      have fewer := above.sublist.count_le slash
      rw [popLevels,if_pos (by omega)]
      exact ih above

def commonPrefix : Bytes → Bytes → Bytes
  | a :: top, b :: path => if a = b then b :: commonPrefix top path else []
  | _, _ => []

theorem commonPrefixBoth (top path : Bytes) :
    commonPrefix top path <+: top ∧ commonPrefix top path <+: path := by
  induction top generalizing path with
  | nil => simp [commonPrefix]
  | cons a top ih =>
    cases path with
    | nil => simp [commonPrefix]
    | cons b path =>
      simp only [commonPrefix]
      split
      · rename_i same
        subst same
        simpa using ih path
      · simp

theorem commonPrefixLongest {e top path : Bytes} (inTop : e <+: top) (inPath : e <+: path) :
    e <+: commonPrefix top path := by
  induction e generalizing top path with
  | nil => exact List.nil_prefix
  | cons a e ih =>
    obtain ⟨top,rfl,restTop⟩ := List.cons_prefix_iff.mp inTop
    obtain ⟨path,rfl,restPath⟩ := List.cons_prefix_iff.mp inPath
    simpa [commonPrefix] using ih restTop restPath

theorem commonDirValue (top path : Bytes) (j commonLen commonDepth : Nat) :
    commonDir top path j commonLen commonDepth =
      if slash ∈ commonPrefix top path then
        (j + (dirname (commonPrefix top path)).length,
          commonDepth + (commonPrefix top path).count slash)
      else (commonLen,commonDepth) := by
  induction top generalizing path j commonLen commonDepth with
  | nil => simp [commonDir,commonPrefix]
  | cons a top ih =>
    cases path with
    | nil => simp [commonDir,commonPrefix]
    | cons b path =>
      by_cases same : a = b
      · have step : commonPrefix (a :: top) (b :: path) = b :: commonPrefix top path := if_pos same
        rw [step]
        simp only [commonDir,if_pos same,ih]
        by_cases sep : b = slash
        · by_cases later : slash ∈ commonPrefix top path
          · simp [sep,later,dirnameCons]; omega
          · simp [sep,later,dirnameCons,dirnameName later,List.count_eq_zero.mpr later]
        · by_cases later : slash ∈ commonPrefix top path
          · simp [sep,later,dirnameCons]; omega
          · simp [sep,later,Ne.symm sep]
      · simp [commonDir,commonPrefix,same]

theorem commonDirSpec (top path : Bytes) : ∃ c, c <+: top ∧ c <+: path ∧ DirPath c ∧
    (∀ e, DirPath e → e <+: top → e <+: path → e <+: c) ∧
    commonDir top path 0 0 0 = (c.length,c.count slash) := by
  obtain ⟨inTop,inPath⟩ := commonPrefixBoth top path
  have pre : dirname (commonPrefix top path) <+: commonPrefix top path :=
    ⟨_,dirnameAppendBasename _⟩
  refine ⟨dirname (commonPrefix top path),pre.trans inTop,pre.trans inPath,dirnameDirPath _,
    fun e dir eTop ePath => dirnamePrefix dir (commonPrefixLongest eTop ePath),?_⟩
  have slashes : (dirname (commonPrefix top path)).count slash =
      (commonPrefix top path).count slash := by
    rw [← dirPrefixesLength,dirPrefixesDirname,dirPrefixesLength]
  rw [commonDirValue,slashes]
  split
  · simp
  · rename_i clean
    simp [dirnameName clean,List.count_eq_zero.mpr clean]

theorem sliceMiddle (a n rest : Bytes) : slice (a ++ n ++ rest) a.length (a.length + n.length) = some n := by
  unfold slice
  rw [if_pos (by simp)]
  rw [← List.length_append,List.take_left,List.drop_left]

theorem splitAtSlash {rest : Bytes} {rel : Nat} (found : rest.idxOf? slash = some rel) :
    ∃ n more, rest = n ++ slash :: more ∧ n.length = rel ∧ slash ∉ n := by
  obtain ⟨bound,same,first⟩ := List.idxOf?_eq_some_iff.mp found
  refine ⟨rest.take rel,rest.drop (rel+1),?_,by simp; omega,?_⟩
  · rw [← same,← List.drop_eq_getElem_cons,List.take_append_drop]
  · intro inside
    obtain ⟨j,hj,at'⟩ := List.mem_iff_getElem.mp inside
    rw [List.length_take] at hj
    rw [List.getElem_take] at at'
    exact first j (by omega) at'

theorem setPaths {dirs : List IndexDir} {i : Nat} {d e : IndexDir} (at' : dirs[i]? = some d)
    (same : e.path = d.path) : (dirs.set i e).map (·.path) = dirs.map (·.path) := by
  rw [List.map_set,same]
  apply List.ext_getElem?
  intro j
  rw [List.getElem?_set]
  split
  · rename_i eq
    subst eq
    obtain ⟨bound,rfl⟩ := List.getElem?_eq_some_iff.mp at'
    simp [bound]
  · rfl

theorem createDirsSpec (ps : List Bytes) (path c rest : Bytes) (fuel : Nat)
    {dirs : List IndexDir} {stack : List Nat} (grown : Grown ps dirs)
    (levels : Levels (dirs.map (·.path)) stack c) (whole : path = c ++ rest) (enough : rest.length < fuel) :
    ∃ dirs' stack', createDirs path fuel c.length dirs stack = some (dirs',stack') ∧
      Grown ps dirs' ∧ Levels (dirs'.map (·.path)) stack' (dirname path) ∧
      dirs'.map (·.path) = dirs.map (·.path) ++ (dirPrefixes rest).map (c ++ ·) := by
  induction fuel generalizing c rest dirs stack with
  | zero => omega
  | succ fuel ih =>
    have remaining : path.drop c.length = rest := by rw [whole]; simp
    simp only [createDirs,remaining]
    cases found : rest.idxOf? slash with
    | none =>
      have clean := List.idxOf?_eq_none_iff.mp found
      refine ⟨dirs,stack,rfl,grown,?_,by simp [dirPrefixesName clean]⟩
      rwa [whole,(dirnameOf (levelsDirPath levels) clean).1]
    | some rel =>
      obtain ⟨n,more,rfl,rfl,clean⟩ := splitAtSlash found
      obtain ⟨i,below,rfl,at'⟩ := levelsHead levels
      obtain ⟨d,hd,rfl⟩ := Option.map_eq_some_iff.mp (List.getElem?_map ▸ at')
      have base : slice path d.path.length (d.path.length + n.length) = some n := by
        rw [whole,← List.append_assoc]
        exact sliceMiddle d.path n (slash :: more)
      have dirPath : slice path 0 (d.path.length + n.length + 1) = some (childDir d.path n) := by
        have h := sliceMiddle [] (childDir d.path n) more
        simpa [whole,childDir,Nat.add_assoc] using h
      have depth : (i :: below).length = d.path.count slash + 1 := levelsLength levels
      simp only [List.head?_cons,Option.bind_eq_bind,Option.bind_some,hd,base,dirPath,depth]
      have grown' := Grown.child grown hd clean
      have paths : (dirs.set i { d with subdirs := d.subdirs ++ [n] } ++
          [freshDir (childDir d.path n) n (d.path.count slash + 1)]).map (·.path) =
          dirs.map (·.path) ++ [childDir d.path n] := by
        rw [List.map_append,setPaths (e := { d with subdirs := d.subdirs ++ [n] }) hd rfl]; rfl
      have levels' : Levels (dirs.map (·.path) ++ [childDir d.path n])
          (dirs.length :: i :: below) (childDir d.path n) :=
        .child (levelsExtend levels) (by simp) clean
      obtain ⟨dirs',stack',run,grown',levels',paths'⟩ :=
        ih (childDir d.path n) more grown' (paths ▸ levels') (by simp [whole,childDir])
          (by simp at enough; omega)
      refine ⟨dirs',stack',?_,grown',levels',?_⟩
      · rw [← run]
        simp [childDir,Nat.add_assoc]
      · rw [paths',paths]
        simp [dirPrefixesAppend,dirPrefixesName clean,dirPrefixesCons,childDir,Function.comp_def]

/-- What an entry adds to the tree is what its path has below the common directory. -/
theorem addedBelow {prev path c rest : Bytes} (whole : path = c ++ rest)
    (above : c <+: dirname prev)
    (longest : ∀ e, DirPath e → e <+: dirname prev → e <+: path → e <+: c) :
    Appearances.added dirPrefixes prev path = (dirPrefixes rest).map (c ++ ·) := by
  apply Appearances.addedSplit dirPrefixes (by rw [whole,dirPrefixesAppend])
  · intro d mem
    obtain ⟨pre,isDir⟩ := memDirPrefixes.mp mem
    rw [← dirPrefixesDirname prev]
    exact memDirPrefixes.mpr ⟨pre.trans above,isDir⟩
  · intro d mem inside
    obtain ⟨e,he,rfl⟩ := List.mem_map.mp mem
    obtain ⟨pre,a,rfl⟩ := memDirPrefixes.mp he
    rw [← dirPrefixesDirname prev] at inside
    have short := longest (c ++ (a ++ [slash])) (.inr ⟨c ++ a,by simp⟩)
      (memDirPrefixes.mp inside).1 (by rw [whole]; exact (List.prefix_append_right_inj c).mpr pre)
    have := short.length_le
    simp only [List.length_append,List.length_singleton] at this
    omega

theorem addEntrySpec {ps : List Bytes} {dirs : List IndexDir} {stack : List Nat} {prev : Bytes}
    (path : Bytes) (grown : Grown ps dirs) (levels : Levels (dirs.map (·.path)) stack (dirname prev)) :
    ∃ dirs' stack', addEntry ps.length path dirs stack = some (dirs',stack') ∧
      Grown (ps ++ [path]) dirs' ∧ Levels (dirs'.map (·.path)) stack' (dirname path) ∧
      dirs'.map (·.path) = dirs.map (·.path) ++
        Appearances.added dirPrefixes prev path := by
  obtain ⟨i,below,rfl,at'⟩ := levelsHead levels
  obtain ⟨d,hd,top⟩ := Option.map_eq_some_iff.mp (List.getElem?_map ▸ at')
  obtain ⟨c,inTop,⟨rest,whole⟩,dir,longest,value⟩ := commonDirSpec d.path path
  rw [top] at inTop longest
  obtain ⟨dirs',stack',created,grown',levels',paths⟩ :=
    createDirsSpec ps path c rest (path.length+1) grown (levelsPop levels inTop dir) whole.symm
      (by rw [← whole,List.length_append]; omega)
  obtain ⟨j,below',rfl,at''⟩ := levelsHead levels'
  obtain ⟨e,he,filed⟩ := Option.map_eq_some_iff.mp (List.getElem?_map ▸ at'')
  have same := setPaths (e := { e with files := e.files ++ [ps.length] }) he rfl
  refine ⟨dirs'.set j { e with files := e.files ++ [ps.length] },j :: below',?_,
    .file grown' he filed,same ▸ levels',?_⟩
  · simp only [addEntry,List.head?_cons,Option.bind_eq_bind,Option.bind_some,hd,value,created,he]
  · rw [same,paths,addedBelow whole.symm inTop longest]

theorem addEntriesSpec (entries : List IndexEntry) {ps : List Bytes} {dirs : List IndexDir}
    {stack : List Nat} {prev : Bytes} (grown : Grown ps dirs)
    (levels : Levels (dirs.map (·.path)) stack (dirname prev)) :
    ∃ dirs' stack', addEntries ps.length entries dirs stack = some (dirs',stack') ∧
      Grown (ps ++ entries.map (·.path)) dirs' ∧
      dirs'.map (·.path) = dirs.map (·.path) ++
        Appearances.appear dirPrefixes prev (entries.map (·.path)) := by
  induction entries generalizing ps dirs stack prev with
  | nil => exact ⟨dirs,stack,rfl,by simpa using grown,by simp [Appearances.appear]⟩
  | cons entry entries ih =>
    obtain ⟨dirs₁,stack₁,added,grown₁,levels₁,paths₁⟩ := addEntrySpec entry.path grown levels
    obtain ⟨dirs₂,stack₂,rest,grown₂,paths₂⟩ := ih grown₁ levels₁
    refine ⟨dirs₂,stack₂,?_,by simpa using grown₂,?_⟩
    · rw [List.length_append,List.length_singleton] at rest
      simp only [addEntries,added,Option.bind_eq_bind,Option.bind_some,rest]
    · rw [paths₂,paths₁,List.append_assoc,List.map_cons,Appearances.appear]

/-- The paths of the directories of an index, in the order of the tree. -/
def createdDirs (entries : List IndexEntry) : List Bytes :=
  [] :: Appearances.appear dirPrefixes [] (entries.map (·.path))

theorem fromEntriesTotal (entries : List IndexEntry) : ∃ dirs,
    fromEntries entries = some ⟨entries,dirs,[],false⟩ ∧
      Grown (entries.map (·.path)) dirs ∧ dirs.map (·.path) = createdDirs entries := by
  have root : Levels ([freshDir [] [] 0].map (·.path)) [0] (dirname []) := .root rfl
  obtain ⟨dirs,stack,run,grown,paths⟩ := addEntriesSpec entries Grown.root root
  refine ⟨dirs,?_,by simpa using grown,by simpa [freshDir,createdDirs] using paths⟩
  rw [List.length_nil] at run
  simp only [fromEntries,run,Option.bind_eq_bind,Option.bind_some]

theorem fromEntriesSome (entries : List IndexEntry) : (fromEntries entries).isSome := by
  obtain ⟨dirs,run,_⟩ := fromEntriesTotal entries
  rw [run]; rfl

/-- The tree of an index. -/
def indexTree (entries : List IndexEntry) : Index := (fromEntries entries).get (fromEntriesSome entries)

theorem indexTreeEntries (entries : List IndexEntry) : (indexTree entries).entries = entries := by
  obtain ⟨dirs,run,_⟩ := fromEntriesTotal entries
  simp only [indexTree,run,Option.get_some]

theorem indexTreeGrown (entries : List IndexEntry) :
    Grown (entries.map (·.path)) (indexTree entries).dirs := by
  obtain ⟨dirs,run,grown,_⟩ := fromEntriesTotal entries
  simpa only [indexTree,run,Option.get_some] using grown

theorem indexTreePaths (entries : List IndexEntry) :
    (indexTree entries).dirs.map (·.path) = createdDirs entries := by
  obtain ⟨dirs,run,_,paths⟩ := fromEntriesTotal entries
  simpa only [indexTree,run,Option.get_some] using paths

end P11k.Gitstatus
