import P11k.Lib.Text
import P11k.Render.Outside

/-! The directory, cut into its components and shortened by one of the strategies. -/
namespace P11k.Render
open P11k.Settings

/-! Paths. -/

inductive Component where
  | rootDir
  | curDir
  | parentDir
  | normal (name : Str)
  deriving DecidableEq

/-- Empty pieces and, behind the first, single dots do not count. -/
def components (p : Str) : List Component :=
  let body := ((p.splitOn '/').filter fun piece => piece ≠ [] ∧ piece ≠ ".".toList).map fun piece =>
    if piece = "..".toList then Component.parentDir else .normal piece
  if p.head? = some '/' then .rootDir :: body
  else if (p.splitOn '/').head? = some ".".toList then .curDir :: body
  else body

def startsWith (path base : Str) : Bool := (components base).isPrefixOf (components path)

def stripBase (path base : Str) : Option (List Component) :=
  if startsWith path base then some ((components path).drop (components base).length) else none

def pushPath (p x : Str) : Str :=
  if x.head? = some '/' then x
  else if p = [] ∨ p.getLast? = some '/' then p ++ x
  else p ++ '/' :: x

def parentPath (p : Str) : Str :=
  let trimmed := (p.reverse.dropWhile (· == '/')).dropWhile (· != '/')
  match trimmed.dropWhile (· == '/') with
  | [] => if p.head? = some '/' then "/".toList else []
  | front => front.reverse

/-! Strategies. -/

inductive Class where
  | anchor
  | shortened
  | normal
  deriving DecidableEq, Repr

structure DirPart where
  text : Str
  cls : Class
  deriving DecidableEq, Repr

inductive Strategy where
  | truncateToUnique
  | truncateMiddle
  | truncateFromRight
  | truncateToLast
  | truncateToFirstAndLast
  | truncateAbsolute
  | truncateWithFolderMarker
  | foldToLast
  deriving DecidableEq, Repr

def Strategy.parse (s : Str) : Strategy :=
  if s = "truncate_to_unique".toList then .truncateToUnique
  else if s = "truncate_middle".toList then .truncateMiddle
  else if s = "truncate_from_right".toList then .truncateFromRight
  else if s = "truncate_to_last".toList then .truncateToLast
  else if s = "truncate_to_first_and_last".toList then .truncateToFirstAndLast
  else if s = "truncate_absolute".toList ∨ s = "truncate_absolute_chars".toList then .truncateAbsolute
  else if s = "truncate_with_folder_marker".toList then .truncateWithFolderMarker
  else .foldToLast

structure Opts where
  strategy : Strategy
  length : Nat
  delimiter : Str
  marker : Str
  /-- The columns that the line has to save, when it does not fit. -/
  budget : Option Nat

def markers : List Str :=
  [".git".toList,".hg".toList,".svn".toList,"Cargo.toml".toList,"package.json".toList,"go.mod".toList]

def classFor (i n : Nat) : Class := if i + 1 = n then .anchor else .normal

def plainFrom (n i : Nat) : List Str → List DirPart
  | [] => []
  | part :: rest => ⟨part,classFor i n⟩ :: plainFrom n (i + 1) rest

def plain (parts : List Str) : List DirPart := plainFrom parts.length 0 parts

section folding
variable {τ : Type} (o : Outside τ)

def hasMarkerIn (path : Str) (opts : Opts) : Bool :=
  if opts.marker ≠ [] then o.there (pushPath path opts.marker)
  else markers.any fun m => o.there (pushPath path m) || o.isDir (pushPath path m)

/-- The shortest prefix that at most one of the names has. -/
def uniquePrefix (names : List Str) (name : Str) : Str :=
  match (List.range name.length).find? fun j =>
    (names.filter fun s => (name.take (j + 1)).isPrefixOf s).length ≤ 1 with
  | some j => name.take (j + 1)
  | none => name

/-- What is cached of a directory that did not change is what the directory says. -/
def shortenComponent (path name : Str) : Str :=
  match o.listDir (parentPath path) with
  | none => name
  | some names => uniquePrefix names name

def uniquePart (part text : Str) : DirPart := ⟨text,if text ≠ part then .shortened else .normal⟩

/-- `i` counts the components and `above` is the path of those before; `saved` columns are saved. -/
def foldUniqueLoop (opts : Opts) (firstAnchor i : Nat) (above : Str) (saved : Nat) : List Str → List DirPart
  | [] => []
  | part :: rest =>
      let path := pushPath above part
      if firstAnchor ≤ i ∨ hasMarkerIn o path opts then
        ⟨part,.anchor⟩ :: foldUniqueLoop opts firstAnchor (i + 1) path saved rest
      else
        match opts.budget with
        | none => uniquePart part part :: foldUniqueLoop opts firstAnchor (i + 1) path saved rest
        | some budget =>
            let short := shortenComponent o path part
            let gain := part.length - (short.length + opts.delimiter.length)
            if 0 < gain ∧ saved < budget then
              uniquePart part short :: foldUniqueLoop opts firstAnchor (i + 1) path (saved + gain) rest
            else uniquePart part part :: foldUniqueLoop opts firstAnchor (i + 1) path saved rest

def foldUnique (parts : List Str) (shortenlen : Nat) (base : Str) (opts : Opts) : List DirPart :=
  foldUniqueLoop o opts (parts.length - min shortenlen parts.length) 0 base 0 parts

def truncatePart (len : Nat) (delim : Str) (middle : Bool) (n i : Nat) (part : Str) : DirPart :=
  let suf := if middle then len else 0
  if 0 < i ∧ i + 1 < n ∧ len + suf + delim.length < part.length then
    ⟨part.take len ++ (delim ++ part.drop (part.length - suf)),.shortened⟩
  else ⟨part,classFor i n⟩

def foldTruncate (parts : List Str) (len : Nat) (delim : Str) (middle : Bool) : List DirPart :=
  parts.mapIdx fun i part => truncatePart len delim middle parts.length i part

def keepLast (parts : List Str) (len : Nat) : List DirPart :=
  plainFrom parts.length (parts.length - len) (parts.drop (parts.length - len))

def foldToLast (parts : List Str) (len : Nat) (delim : Str) : List DirPart :=
  if parts.length ≤ len then plain parts
  else (if delim ≠ [] then [⟨delim,.shortened⟩] else []) ++ keepLast parts len

def foldFirstLast (parts : List Str) (len : Nat) (delim : Str) : List DirPart :=
  if parts.length ≤ len * 2 then plain parts
  else (parts.take len).map (⟨·,.anchor⟩) ++ ⟨delim,.shortened⟩ ::
    (parts.drop (parts.length - len)).map (⟨·,.anchor⟩)

/-- From the end: the component that no longer fits, and the characters of those behind it. -/
def absoluteLoop (len : Nat) : List Str → Nat → Nat × Nat
  | [], acc => (0,acc)
  | part :: before, acc =>
      if len < acc + (part.length + 1) then (before.length,acc)
      else absoluteLoop len before (acc + (part.length + 1))

def foldAbsolute (parts : List Str) (len : Nat) (delim : Str) : List DirPart :=
  let (start,acc) := absoluteLoop len parts.reverse 0
  let part := parts.getD start []
  let keep := len - acc
  let cut := if 0 < keep ∧ keep < part.length then delim ++ part.drop (part.length - keep) else part
  (if 0 < start then [⟨cut,.shortened⟩] else []) ++ plainFrom parts.length start (parts.drop start)

/-- A run between two marked components; `none` stands for the front. -/
def hiddenBetween (hi : Nat) (lo : Option Nat) (i : Nat) : Bool :=
  match lo with
  | none => 2 < hi + 1 && i < hi
  | some lo => 2 < hi - lo && lo + 1 ≤ i && i < hi

def markerLoop (n : Nat) (delim : Str) (hidden : Nat → Bool) (i : Nat) (elided : Bool) : List Str → List DirPart
  | [] => []
  | part :: rest =>
      if hidden i then
        if elided = false ∧ delim ≠ [] then
          ⟨delim,.shortened⟩ :: markerLoop n delim hidden (i + 1) true rest
        else markerLoop n delim hidden (i + 1) elided rest
      else ⟨part,classFor i n⟩ :: markerLoop n delim hidden (i + 1) elided rest

def foldFolderMarker (parts : List Str) (base delim : Str) (opts : Opts) : List DirPart :=
  let marks := (List.range parts.length).reverse.filter fun i =>
    hasMarkerIn o ((parts.take (i + 1)).foldl pushPath base) opts
  let runs := marks.zip (marks.tail.map some ++ [none])
  markerLoop parts.length delim (fun i => runs.any fun run => hiddenBetween run.1 run.2 i) 0 false parts

def foldKeepLast (parts : List Str) (len : Nat) (delim : Str) : List DirPart :=
  if parts.length ≤ len then plain parts else ⟨delim,.shortened⟩ :: keepLast parts len

def Component.name : Component → Option Str
  | .normal name => some name
  | _ => none

def splitParts (cwd : Str) (home : Option Str) : List Str × Str :=
  match home.bind fun home => (stripBase cwd home).map fun rest => (rest.filterMap Component.name,home) with
  | some found => found
  | none => ((components cwd).filterMap Component.name,"/".toList)

def shorten (cwd : Str) (home : Option Str) (opts : Opts) : List DirPart :=
  let len := max opts.length 1
  let (parts,base) := splitParts cwd home
  if parts = [] then []
  else
    match opts.strategy with
    | .truncateToUnique => foldUnique o parts len base opts
    | .truncateMiddle => foldTruncate parts len opts.delimiter true
    | .truncateFromRight => foldTruncate parts len opts.delimiter false
    | .truncateToLast => foldToLast parts len opts.delimiter
    | .truncateToFirstAndLast => foldFirstLast parts len opts.delimiter
    | .truncateAbsolute => foldAbsolute parts len opts.delimiter
    | .truncateWithFolderMarker => foldFolderMarker o parts base opts.delimiter opts
    | .foldToLast => foldKeepLast parts len opts.delimiter

end folding
end P11k.Render
