import P11k.Lib.Overrides
import P11k.Render.Prefix
import P11k.Render.Visible

/-! A segment that is marked disabled, beside a layout without it. The renderer never asks whether a segment is
shown, so the two agree only for a segment that draws nothing. -/
namespace P11k.Render
open P11k P11k.Settings

section disabled
variable {φ τ : Type} (o : Outside τ) (config : Config φ) (info : HeaderInfo τ) (vcs : Option GitStatus) (name : Str)

def disable : Config φ :=
  { config with segments := config.segments.insert name { config.segment name with shown := false } }

def names : Element → Bool
  | .seg other => other = name
  | .joined other => other = name
  | .text _ => false

def withoutRow (row : List Element) : List Element := row.filter fun e => !names name e

/-- The layout without the elements of the segment. -/
def without (layout : Layout) : Layout :=
  { layout with left := layout.left.map (withoutRow name), right := layout.right.map (withoutRow name) }

theorem disableSegment (other : Str) : (disable config name).segment other =
    if other = name then { config.segment name with shown := false } else config.segment other := by
  unfold disable Config.segment
  dsimp only
  rw [SortedMap.getInsert]
  split <;> rfl

theorem alikeDisabled : Alike config (disable config name) where
  segment other := by
    rw [disableSegment]
    split
    · rename_i same
      exact ⟨false,by rw [same]⟩
    · exact ⟨(config.segment other).shown,rfl⟩
  defaults := rfl
  remoteIcons := rfl
  mode := rfl
  overrides := rfl
  classes := rfl
  padding := rfl

/-! Nothing asks whether the segment is disabled. -/

theorem disabledLines (cols : Nat) : renderHeaderLines o (disable config name) info vcs cols =
    renderHeaderLines o config info vcs cols := by
  have alike := alikeDisabled config name
  have ruler : rulerRow o (disable config name) cols = rulerRow o config cols := by
    obtain ⟨shown,same⟩ := alike.segment "ruler".toList
    unfold rulerRow rulerChar iconStr
    rw [same,alike.defaults,alike.overrides,alike.mode]
    rfl
  have sides := fun i right b => sideAlike o alike (rowAt config.layout right i) info vcs right b
  have row : ∀ i, headerRow o (disable config name) info vcs cols i = headerRow o config info vcs cols i := by
    intro i
    refine @headerRowAlike φ τ o config (disable config name) info vcs i rfl rfl rfl rfl (fun b => ?_) (fun b => ?_)
      (fun b => ?_) cols
    · exact congrArg (leftText config.separators) (sides i false b)
    · exact congrArg (rightText config.separators) (sides i true b)
    · exact iff_of_eq (congrArg (fun column => visibleSegments column = []) (sides i true b))
  unfold renderHeaderLines
  rw [ruler]
  exact congrArg (_ ++ ·) (List.map_congr_left fun i _ => row i)

theorem disabledState (info : Option (HeaderInfo τ)) :
    promptState o (disable config name) info = promptState o config info := by
  obtain ⟨shown,same⟩ := (alikeDisabled config name).segment "prompt_char".toList
  unfold promptState
  rw [same]

theorem disabledPrefix (state : Option Str) (colour : Str → Style → Str) :
    prefixTextWith (disable config name) state colour = prefixTextWith config state colour := by
  obtain ⟨shown,same⟩ := (alikeDisabled config name).segment "prompt_char".toList
  unfold prefixTextWith
  dsimp only
  rw [same]
  rfl

/-! A layout without elements that draw nothing. -/

theorem hiddenRow (hidden : ¬ Draws o config info vcs name) (row : List Element) (right : Bool) (b : Option Nat) :
    visibleSegments (renderRow o config (withoutRow name row) info vcs right b) =
      visibleSegments (renderRow o config row info vcs right b) := by
  induction row with
  | nil => rfl
  | cons e row ih =>
    have whole : visibleSegments (renderRow o config (e :: row) info vcs right b) =
        visibleSegments [renderElement o config info vcs right b e] ++
          visibleSegments (renderRow o config row info vcs right b) := visibleAppend [_] _
    cases named : names name e with
    | true =>
      have unseen : ¬ DrawsElement o config info vcs e := by
        cases e with
        | seg other => exact of_decide_eq_true named ▸ hidden
        | joined other => exact of_decide_eq_true named ▸ hidden
        | text t => cases named
      have nothing : visibleSegments [renderElement o config info vcs right b e] = [] :=
        List.filter_cons_of_neg fun drawn =>
          unseen ((elementDrawn o config info vcs right b e).mp (of_decide_eq_true drawn))
      rw [whole,nothing,List.nil_append,← ih,withoutRow,List.filter_cons_of_neg (by rw [named]; decide),← withoutRow]
    | false =>
      have kept : visibleSegments (renderRow o config (e :: withoutRow name row) info vcs right b) =
          visibleSegments [renderElement o config info vcs right b e] ++
            visibleSegments (renderRow o config (withoutRow name row) info vcs right b) := visibleAppend [_] _
      rw [withoutRow,List.filter_cons_of_pos (by rw [named]; rfl),← withoutRow,kept,whole,ih]

theorem rowWithout (layout : Layout) (right : Bool) (i : Nat) :
    rowAt (without name layout) right i = (rowAt layout right i).map (withoutRow name) := by
  unfold rowAt without
  cases right with
  | true => exact List.getElem?_map
  | false => exact List.getElem?_map

theorem hiddenLines (hidden : ¬ Draws o config info vcs name) (layout : Layout) (cols : Nat) :
    renderHeaderLines o { config with layout := without name layout } info vcs cols =
      renderHeaderLines o { config with layout := layout } info vcs cols := by
  have count : layoutRows { config with layout := without name layout } = layoutRows { config with layout := layout } := by
    unfold layoutRows without
    dsimp only
    rw [List.length_map,List.length_map]
  have row : ∀ i, headerRow o { config with layout := without name layout } info vcs cols i =
      headerRow o { config with layout := layout } info vcs cols i := by
    intro i
    refine @layoutRowAlike φ τ o config info vcs layout (without name layout) i rfl (fun right b => ?_) cols
    have visible : visibleSegments (renderSide o config (rowAt (without name layout) right i) info vcs right b) =
        visibleSegments (renderSide o config (rowAt layout right i) info vcs right b) := by
      rw [rowWithout]
      cases rowAt layout right i with
      | none => rfl
      | some row => exact hiddenRow o config info vcs name hidden row right b
    constructor
    · unfold sideText leftText rightText
      rw [visible]
    · rw [visible]
  unfold renderHeaderLines
  rw [count]
  exact congrArg (_ ++ ·) (List.map_congr_left fun i _ => row i)

theorem aloneShown (draws : Draws o config info vcs name) (b : Option Nat) (seps : Separators) :
    leftText seps (renderRow o config [.seg name] info vcs false b) ≠ [] := by
  have drawn := (drawsAnywhere o config info vcs name false b false).mpr draws
  have visible : visibleSegments (renderRow o config [.seg name] info vcs false b) =
      [renderSegment o config name info vcs false b false] := List.filter_cons_of_pos (decide_eq_true drawn)
  unfold leftText
  rw [visible]
  dsimp only
  intro nothing
  have inside := (List.append_eq_nil_iff.mp (List.append_eq_nil_iff.mp nothing).2).2
  exact drawn (List.append_eq_nil_iff.mp inside).1

/-- With the segment disabled the header and the prefix of the input line are what they are without its elements. -/
def SameAsRemoved (layout : Layout) (cols : Nat) : Prop :=
  (renderHeaderLines o (disable { config with layout := layout } name) info vcs cols).map chars =
      (renderHeaderLines o { config with layout := without name layout } info vcs cols).map chars ∧
    ∀ colour, prefixTextWith (disable { config with layout := layout } name)
        (promptState o (disable { config with layout := layout } name) (some info)) colour =
      prefixTextWith { config with layout := without name layout }
        (promptState o { config with layout := without name layout } (some info)) colour

theorem samePrefix (layout : Layout) (colour : Str → Style → Str) :
    prefixTextWith (disable { config with layout := layout } name)
        (promptState o (disable { config with layout := layout } name) (some info)) colour =
      prefixTextWith { config with layout := without name layout }
        (promptState o { config with layout := without name layout } (some info)) colour := by
  rw [disabledState,disabledPrefix]
  rfl

/-- Disabling a segment is the same as removing it in a layout that does not have it, and in every layout exactly
when it draws nothing. The prefix is always the same. -/
theorem disabledRemoved :
    (∀ layout cols, without name layout = layout → SameAsRemoved o config info vcs name layout cols) ∧
    ((∀ layout cols, SameAsRemoved o config info vcs name layout cols) ↔ ¬ Draws o config info vcs name) := by
  refine ⟨fun layout cols absent => ⟨?_,samePrefix o config info name layout⟩,?_,fun hidden layout cols =>
    ⟨?_,samePrefix o config info name layout⟩⟩
  · rw [disabledLines,absent]
  · intro law draws
    obtain ⟨wide,drawn⟩ := @rowAlone φ τ o config info vcs { left := [[.seg name]] } 0 [.seg name] rfl rfl
    obtain ⟨wide',removed⟩ := @rowAlone φ τ o config info vcs { left := [[]] } 0 [] rfl rfl
    have lines := (law { left := [[.seg name]] } (max wide wide')).1
    have rows : without name { left := [[.seg name]] } = { left := [[]] } := by
      have gone : withoutRow name [.seg name] = [] := by simp [withoutRow,names]
      exact congrArg (fun row => ({ left := [row] } : Layout)) gone
    rw [disabledLines,rows] at lines
    have first := List.cons.inj lines
    rw [drawn _ (le_max_left _ _),removed _ (le_max_right _ _)] at first
    have lengths := congrArg List.length first.1
    unfold chars at lengths
    rw [List.length_map,List.length_map,List.length_append,List.length_append,List.length_append,
      List.length_append] at lengths
    have same := Nat.add_right_cancel (Nat.add_left_cancel lengths)
    exact aloneShown o config info vcs name draws none config.separators (List.length_eq_zero_iff.mp same)
  · rw [disabledLines,hiddenLines o config info vcs name hidden]

end disabled

/-! Outside a repository, the state of the repository and the directory, each disabled. -/

def outsideRepository : HeaderInfo Unit where
  exitCode := none
  cwd := "/srv".toList
  execSeconds := ()

theorem disabledRemovedVcs : SameAsRemoved silent ({} : Config Unit) outsideRepository none "vcs".toList
      { left := [[.seg "dir".toList,.seg "vcs".toList]] } 80 ∧
    SameAsRemoved silent ({} : Config Unit) outsideRepository none "vcs".toList { left := [[.seg "dir".toList]] } 80 := by
  have hidden : ¬ Draws silent ({} : Config Unit) outsideRepository none "vcs".toList :=
    not_not.mpr (by decide +kernel)
  have laws := disabledRemoved silent ({} : Config Unit) outsideRepository none "vcs".toList
  exact ⟨laws.2.mpr hidden _ 80,laws.1 _ 80 rfl⟩

theorem disabledStays : ¬ ∀ (config : Config Unit) (info : HeaderInfo Unit) (vcs : Option GitStatus) (name : Str)
    (cols : Nat), SameAsRemoved silent config info vcs name config.layout cols := by
  intro law
  have same := (law { layout := { left := [[.seg "dir".toList]] } } outsideRepository none "dir".toList 80).1
  revert same
  decide +kernel

end P11k.Render
