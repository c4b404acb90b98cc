import P11k.Lib.Text
import P11k.Settings.Lookup

/-! Colours, and texts that are painted with them. -/
namespace P11k.Render
open P11k.Settings
open P11k.Text (decimal)

/-- A character of a rendered text: written to steer the terminal, or shown. -/
inductive Ink where
  | code (c : Char)
  | text (c : Char)
  deriving DecidableEq, Repr

def Ink.char : Ink → Char
  | code c => c
  | text c => c

def code (s : Str) : List Ink := s.map Ink.code

def text (s : Str) : List Ink := s.map Ink.text

def chars (line : List Ink) : Str := line.map Ink.char

@[simp] theorem charsAppend (a b : List Ink) : chars (a ++ b) = chars a ++ chars b := List.map_append

@[simp] theorem charsCode (s : Str) : chars (code s) = s := by simp [chars,code,Function.comp_def,Ink.char]

@[simp] theorem charsText (t : Str) : chars (text t) = t := by simp [chars,text,Function.comp_def,Ink.char]

def esc : Char := '\x1b'

def names256 : List (Str × UInt8) :=
  [("black".toList,0),("red".toList,1),("green".toList,2),("yellow".toList,3),("blue".toList,4),
    ("magenta".toList,5),("cyan".toList,6),("white".toList,7),("brightblack".toList,8),
    ("brightred".toList,9),("brightgreen".toList,10),("brightyellow".toList,11),
    ("brightblue".toList,12),("brightmagenta".toList,13),("brightcyan".toList,14),
    ("brightwhite".toList,15)]

def named256 (name : Str) : UInt8 := (names256.lookup name).getD 7

/-- `38` sets the foreground and `48` the background. -/
def colorSgr (ground : Str) : Color → Str
  | .default => []
  | .xterm n => esc :: '[' :: ground ++ ";5;".toList ++ decimal n.toNat ++ "m".toList
  | .rgb r g b =>
      esc :: '[' :: ground ++ ";2;".toList ++ decimal r.toNat ++ ";".toList ++ decimal g.toNat ++ ";".toList ++
        decimal b.toNat ++ "m".toList
  | .named name => esc :: '[' :: ground ++ ";5;".toList ++ decimal (named256 name).toNat ++ "m".toList

def reset : Str := esc :: "[0m".toList

def ansiStyle (style : Style) : Str :=
  colorSgr "38".toList style.fg ++ colorSgr "48".toList style.bg ++ if style.bold then esc :: "[1m".toList else []

def paint (t : Str) (style : Style) : List Ink :=
  if t = [] then [] else code (ansiStyle style) ++ text t ++ code reset

/-- A separator between two backgrounds. -/
def arrow (ch : Str) (fg bg : Color) : List Ink :=
  code (colorSgr "38".toList fg ++ colorSgr "48".toList bg) ++ text ch ++ code reset

end P11k.Render
