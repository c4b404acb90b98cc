import Mathlib.Data.List.Infix
import P11k.Render.Outside

/-! Patterns of directories. -/
namespace P11k.Render
open P11k.Settings

/-- The rests of a text that a star reaches without crossing a slash. -/
def starTails : Str → List Str
  | [] => [[]]
  | c :: t => (c :: t) :: if c = '/' then [] else starTails t

def classHit (c : Char) : Str → Bool
  | a :: '-' :: b :: rest => (a ≤ c && c ≤ b) || classHit c rest
  | a :: rest => a == c || classHit c rest
  | [] => false

/-- Each step takes at least one character of the pattern, and `fuel` is its length. -/
def globGo : Nat → Str → Str → Bool
  | _, [], t => t.isEmpty
  | 0, _ :: _, _ => false
  | fuel + 1, c :: p, t =>
      if c = '*' then
        if p.head? = some '*' then t.tails.any (globGo fuel p.tail)
        else (starTails t).any (globGo fuel p)
      else
        match t with
        | [] => false
        | d :: t =>
          if c = '?' then d != '/' && globGo fuel p t
          else if c = '[' then
            if ']' ∈ p then
              d != '/' && classHit d (p.takeWhile (· != ']')) && globGo fuel (p.dropWhile (· != ']')).tail t
            else d == '[' && globGo fuel p t
          else d == c && globGo fuel p t

def globMatch (pat t : Str) : Bool := globGo pat.length pat t

def globMatchPath (pattern path home : Str) : Bool :=
  let pat := match pattern with
    | '~' :: rest => home ++ rest
    | _ => pattern
  if pat.getLast? = some '/' then globMatch (pat ++ "**".toList) path else globMatch pat path

section classes
variable {φ τ : Type} (o : Outside τ)

def homeText : Str := (o.env "HOME".toList).getD []

def dirClassMatch (config : Config φ) (cwd : Str) : Option DirClass :=
  config.dirClasses.find? fun c => globMatchPath c.pattern cwd (homeText o)

def defaultDirIconKey (cwd : Str) : Str :=
  let hit (pattern : Str) : Bool := globMatchPath pattern cwd (homeText o)
  if hit "/etc".toList || hit "/etc/**".toList then "etc".toList
  else if homeText o ≠ [] ∧ hit "~".toList then "home".toList
  else if homeText o ≠ [] ∧ hit "~/**".toList then "home-sub".toList
  else "folder".toList

end classes
end P11k.Render
