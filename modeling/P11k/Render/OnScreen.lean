import P11k.Engine.ScreenOutput
import P11k.Render.Injection

/-! What a header looks like on the screen: the texts of its lines, cell by cell, each in a row of its own. What is
written to steer the terminal leaves no trace. -/
namespace P11k.Render
open P11k.Settings P11k.Terminal
open Screen (feed fill Shows)
open Engine (Paint emit Legible)
open Utf8 (encode)

/-- What is meant to be seen of a line. -/
def shownText (line : List Ink) : Str := line.filterMap fun
  | .text c => some c
  | .code _ => none

section shows
variable {charWidth : Char → Nat} {cwd : Str}

theorem shownCode (s : Str) (line : List Ink) : shownText (code s ++ line) = shownText line := by
  induction s with
  | nil => rfl
  | cons c s ih => exact ih

theorem sequenceStill {s : Str} (here : Sequence cwd s) {t : Screen} (ground : t.mode = .ground) :
    feed charWidth t s = t := by
  cases here with
  | style style => exact Screen.feedPaints (stylePaints style) ground
  | separator fg bg =>
    exact Screen.feedPaints (paintsAppend (colorPaints groundDigits.1 fg) (colorPaints groundDigits.2 bg)) ground
  | reset => exact Screen.feedPaints resetPaints ground
  | linkOpens =>
    have whole : linkOpens cwd = Screen.osc ("8;;file://".toList ++ urlEscape cwd) := by
      simp [linkOpens,esc,Screen.osc]
    rw [whole]
    exact Screen.feedCommand (plainQuiet (linkBody cwd)) ground
  | linkCloses =>
    have whole : linkCloses = Screen.osc "8;;".toList := by decide
    rw [whole]
    exact Screen.feedCommand (by decide) ground

theorem writtenShows {line : List Ink} (written : Written cwd line) (quiet : ∀ c, Ink.text c ∈ line → control c = false) :
    Shows charWidth (chars line) (shownText line) := by
  induction written with
  | nil => exact Screen.showsNothing fun _ _ => rfl
  | shown c _ ih =>
    exact Screen.showsAppend (t := [c]) (a := [c]) (Screen.showsChar (quiet c List.mem_cons_self))
      (ih fun d mem => quiet d (List.mem_cons_of_mem _ mem))
  | sequence here _ ih =>
    rw [charsAppend,charsCode,shownCode]
    exact Screen.showsAppend (a := []) (Screen.showsNothing fun _ ground => sequenceStill here ground)
      (ih fun d mem => quiet d (List.mem_append_right _ mem))

end shows

section header
variable {φ τ δ : Type} {o : Outside τ} {config : Config φ}

theorem headerLegible (own : OwnPlain config) {info : HeaderInfo τ} {vcs : Option GitStatus} {cols : Nat}
    (plain : ∀ i < layoutRows config, ∀ t ∈ rowForeign o config info vcs cols i, Plain t)
    (fits : ∀ line ∈ renderHeaderLines o config info vcs cols, Screen.span o.charWidth (shownText line) ≤ cols) :
    Legible o.charWidth cols ((renderHeaderLines o config info vcs cols).map fun line => encode (chars line))
      ((renderHeaderLines o config info vcs cols).map shownText) := by
  have harmless := (headerHarmlessIff own info vcs cols).mpr plain
  refine ⟨(renderHeaderLines o config info vcs cols).map chars,?_,?_,?_⟩
  · rw [List.map_map]
    rfl
  · rw [List.forall₂_map_left_iff,List.forall₂_map_right_iff,List.forall₂_same]
    exact fun line mem => writtenShows (harmless line mem).written (harmless line mem).quiet
  · intro t mem
    obtain ⟨line,here,rfl⟩ := List.mem_map.mp mem
    exact fits line here

end header

def blankScreen : Screen := ⟨24,80,fun _ => Screen.blank,2,0,(0,0),.ground⟩

def pathPaint : Paint Unit :=
  ⟨1,(renderHeaderLines silent pathOnly (standing "/srv".toList) none 80).map fun line => encode (chars line),
    ⟨none,[],0,0,0,[]⟩,none⟩

end P11k.Render
