import P11k.Render.Row
import P11k.Render.UniquePrefix

/-! Which elements of a row draw something. It does not depend on the columns that the directory has to save, nor
on the column that the element stands in, nor on a join. -/
namespace P11k.Render
open P11k P11k.Settings

section visible
variable {φ τ : Type} (o : Outside τ)

/-! The directory. -/

theorem namesSome {p name : Str} (mem : name ∈ (components p).filterMap Component.name) : name ≠ [] := by
  obtain ⟨c,there,named⟩ := List.mem_filterMap.mp mem
  cases c with
  | rootDir => cases named
  | curDir => cases named
  | parentDir => cases named
  | normal piece =>
    cases named
    have body : Component.normal name ∈ ((p.splitOn '/').filter fun piece => piece ≠ [] ∧ piece ≠ ".".toList).map
        fun piece => if piece = "..".toList then Component.parentDir else .normal piece := by
      unfold components at there
      dsimp only at there
      split at there
      · exact (List.mem_cons.mp there).resolve_left (by simp)
      · split at there
        · exact (List.mem_cons.mp there).resolve_left (by simp)
        · exact there
    obtain ⟨piece,kept,same⟩ := List.mem_map.mp body
    split at same
    · cases same
    · cases same
      exact (of_decide_eq_true (List.mem_filter.mp kept).2).1

theorem partsSome {cwd : Str} {home : Option Str} {name : Str} (mem : name ∈ (splitParts cwd home).1) : name ≠ [] := by
  unfold splitParts at mem
  split at mem
  · rename_i found under
    obtain ⟨base,_,inside⟩ := Option.bind_eq_some_iff.mp under
    obtain ⟨rest,stripped,rfl⟩ := Option.map_eq_some_iff.mp inside
    unfold stripBase at stripped
    split at stripped
    · cases stripped
      obtain ⟨c,there,named⟩ := List.mem_filterMap.mp mem
      exact namesSome (List.mem_filterMap.mpr ⟨c,List.mem_of_mem_drop there,named⟩)
    · cases stripped
  · exact namesSome mem

theorem shortenSome (path : Str) {name : Str} (some' : name ≠ []) : shortenComponent o path name ≠ [] := by
  unfold shortenComponent
  split
  · exact some'
  · rename_i names _
    rcases prefixFound names name with ⟨j,small,found,_⟩ | ⟨found,_⟩
    · rw [found]
      intro none'
      have length := congrArg List.length none'
      rw [List.length_take,List.length_nil] at length
      omega
    · rw [found]
      exact some'

theorem uniqueNamed (opts : Opts) (firstAnchor i saved : Nat) (above : Str) {part : Str} (some' : part ≠ [])
    (rest : List Str) : ∃ text cls parts,
      foldUniqueLoop o opts firstAnchor i above saved (part :: rest) = ⟨text,cls⟩ :: parts ∧ text ≠ [] := by
  unfold foldUniqueLoop
  dsimp only
  split
  · exact ⟨_,_,_,rfl,some'⟩
  · split
    · exact ⟨_,_,_,rfl,some'⟩
    · split
      · exact ⟨_,_,_,rfl,shortenSome o _ some'⟩
      · exact ⟨_,_,_,rfl,some'⟩

theorem shownPartsBudget (seg : Segment φ) (cwd : Str) :
    (∀ budget, shownParts o seg cwd budget = shownParts o seg cwd none) ∨
      ∀ budget, ∃ text cls parts, shownParts o seg cwd budget = ⟨text,cls⟩ :: parts ∧ text ≠ [] := by
  unfold shownParts shorten
  have named : ∀ name ∈ (splitParts cwd (homeOf o seg)).1, name ≠ [] := fun name => partsSome
  generalize splitParts cwd (homeOf o seg) = split at named
  obtain ⟨parts,base⟩ := split
  cases parts with
  | nil => exact .inl fun budget => rfl
  | cons part parts =>
    unfold dirShortenOpts
    dsimp only
    rw [if_neg (List.cons_ne_nil part parts)]
    cases Strategy.parse (strProp seg "shorten-strategy" []) with
    | truncateToUnique =>
      refine .inr fun budget => ?_
      rw [if_neg (List.cons_ne_nil part parts)]
      exact uniqueNamed o _ _ _ _ _ (named part List.mem_cons_self) parts
    | truncateMiddle => exact .inl fun budget => rfl
    | truncateFromRight => exact .inl fun budget => rfl
    | truncateToLast => exact .inl fun budget => rfl
    | truncateToFirstAndLast => exact .inl fun budget => rfl
    | truncateAbsolute => exact .inl fun budget => rfl
    | truncateWithFolderMarker => exact .inl fun budget => rfl
    | foldToLast => exact .inl fun budget => rfl

theorem paintNone {t : Str} {style : Style} : paint t style = [] ↔ t = [] := by
  unfold paint
  split
  · exact ⟨fun _ => by assumption,fun _ => rfl⟩
  · rename_i some'
    refine ⟨fun none' => absurd none' ?_,fun none' => absurd none' some'⟩
    simp [code,reset]

theorem partsDrawn (config : Config φ) (seg : Segment φ) (cwd : Str) (sepStyle : Style) (n i : Nat) {t : Str} (cls : Class)
    (parts : List DirPart) (some' : t ≠ []) : dirParts o config seg cwd sepStyle n i (⟨t,cls⟩ :: parts) ≠ [] := by
  unfold dirParts
  dsimp only
  intro none'
  exact some' (paintNone.mp (List.append_eq_nil_iff.mp (List.append_eq_nil_iff.mp none').2).1)

theorem dirBudget (config : Config φ) (info : HeaderInfo τ) (seg : Segment φ) (default : Style) (budget : Option Nat) :
    dirSegText o config info seg default budget = [] ↔ dirSegText o config info seg default none = [] := by
  rcases shownPartsBudget o seg info.cwd with same | begins
  · unfold dirSegText
    rw [same budget]
  · have drawn : ∀ b, seg.content = none → dirSegText o config info seg default b ≠ [] := by
      intro b own none'
      obtain ⟨t,cls,parts,shown,some'⟩ := begins b
      unfold dirSegText at none'
      rw [shown,own] at none'
      dsimp only at none'
      split at none'
      · exact List.cons_ne_nil _ _ (List.append_eq_nil_iff.mp none').1
      · exact partsDrawn o _ _ _ _ _ _ _ _ some' (List.append_eq_nil_iff.mp none').2
    cases own : seg.content with
    | none => exact iff_of_false (drawn budget own) (drawn none own)
    | some content =>
      unfold dirSegText
      rw [own]

/-! Segments. -/

theorem contentBudget (config : Config φ) (name : Str) (info : HeaderInfo τ) (vcs : Option GitStatus)
    (budget : Option Nat) :
    (contentText o config name info vcs budget = none ∧ contentText o config name info vcs none = none) ∨
      ∃ a b style, contentText o config name info vcs budget = some (a,style) ∧
        contentText o config name info vcs none = some (b,style) ∧ (a = [] ↔ b = []) := by
  by_cases dir : name = "dir".toList
  · unfold contentText
    dsimp only
    rw [if_pos dir,if_pos dir]
    exact .inr ⟨_,_,_,rfl,rfl,dirBudget o config info _ _ budget⟩
  · have same : contentText o config name info vcs budget = contentText o config name info vcs none := by
      unfold contentText
      dsimp only
      rw [if_neg dir,if_neg dir]
    rw [same]
    cases contentText o config name info vcs none with
    | none => exact .inl ⟨rfl,rfl⟩
    | some content => exact .inr ⟨_,_,_,rfl,rfl,Iff.rfl⟩

theorem bodyNone {seg : Segment φ} {style : Style} {content icon : List Ink} {first : Bool} :
    segmentBody seg style content icon first = [] ↔
      (content = [] ∧ icon = []) ∧ (paintOption style seg.pre = [] ∧ attachOption style seg.textLeft = []) ∧
        attachOption style seg.textRight = [] ∧ paintOption style seg.suf = [] := by
  unfold segmentBody
  dsimp only
  rw [List.append_eq_nil_iff,List.append_eq_nil_iff,List.append_eq_nil_iff,List.append_eq_nil_iff]
  have inner : (if first then
        icon ++ ((if icon ≠ [] ∧ content ≠ [] then attachOption style seg.textMiddle else []) ++ content)
      else content ++ ((if icon ≠ [] ∧ content ≠ [] then attachOption style seg.textMiddle else []) ++ icon)) = [] ↔
      content = [] ∧ icon = [] := by
    cases first with
    | true =>
      rw [if_pos rfl,List.append_eq_nil_iff,List.append_eq_nil_iff]
      constructor
      · rintro ⟨noIcon,_,noContent⟩
        exact ⟨noContent,noIcon⟩
      · rintro ⟨noContent,noIcon⟩
        exact ⟨noIcon,if_neg fun both => both.1 noIcon,noContent⟩
    | false =>
      rw [if_neg Bool.false_ne_true,List.append_eq_nil_iff,List.append_eq_nil_iff]
      constructor
      · rintro ⟨noContent,_,noIcon⟩
        exact ⟨noContent,noIcon⟩
      · rintro ⟨noContent,noIcon⟩
        exact ⟨noContent,if_neg fun both => both.1 noIcon,noIcon⟩
  rw [inner]
  constructor
  · rintro ⟨pre,left,within,right,suf⟩
    exact ⟨within,⟨pre,left⟩,right,suf⟩
  · rintro ⟨within,⟨pre,left⟩,right,suf⟩
    exact ⟨pre,left,within,right,suf⟩

theorem iconAlone (config : Config φ) (name : Str) (icon : Option Str) (style : Style) (first first' : Bool) :
    iconText config name icon style true first = iconText config name icon style true first' := by
  cases icon <;> rfl

/-- The inside of a segment that there is a content for. -/
def innerText (config : Config φ) (name : Str) (info : HeaderInfo τ) (vcs : Option GitStatus) (right : Bool)
    (content : List Ink) (style : Style) : List Ink :=
  let seg := config.segment name
  let first := iconFirst seg right
  segmentBody seg style content (iconText config name (segmentIcon o config name info vcs)
    (iconStyle name info seg style) (decide (content = [])) first) first

theorem innerSide (config : Config φ) (name : Str) (info : HeaderInfo τ) (vcs : Option GitStatus) (right right' : Bool)
    {a b : List Ink} (style : Style) (alike : a = [] ↔ b = []) :
    innerText o config name info vcs right a style = [] ↔ innerText o config name info vcs right' b style = [] := by
  unfold innerText
  dsimp only
  rw [bodyNone,bodyNone]
  by_cases empty : a = []
  · rw [empty,alike.mp empty,decide_eq_true (rfl : ([] : List Ink) = []),
      iconAlone config name _ _ (iconFirst (config.segment name) right) (iconFirst (config.segment name) right')]
  · exact iff_of_false (fun none' => empty none'.1.1) fun none' => empty (alike.mpr none'.1.1)

theorem segmentTextOf {config : Config φ} {name : Str} {info : HeaderInfo τ} {vcs : Option GitStatus}
    {budget : Option Nat} {content : List Ink} {style : Style} (right joinedLeft : Bool)
    (read : contentText o config name info vcs budget = some (content,style)) :
    renderSegment o config name info vcs right budget joinedLeft =
      if innerText o config name info vcs right content style = [] then { style := style, joinedLeft := joinedLeft }
      else
        { text := (if (((config.segment name).effectiveStyle none config.defaults).bg ≠ .default ∨ right) ∧
              joinedLeft = false then paint " ".toList style else []) ++
            (innerText o config name info vcs right content style ++ paint " ".toList style),
          style := style, padded := true, joinedLeft := joinedLeft } := by
  unfold renderSegment innerText
  dsimp only
  rw [read]

theorem segmentTextNone {config : Config φ} {name : Str} {info : HeaderInfo τ} {vcs : Option GitStatus}
    {budget : Option Nat} {content : List Ink} {style : Style} (right joinedLeft : Bool)
    (read : contentText o config name info vcs budget = some (content,style)) :
    (renderSegment o config name info vcs right budget joinedLeft).text = [] ↔
      innerText o config name info vcs right content style = [] := by
  rw [segmentTextOf o right joinedLeft read]
  by_cases empty : innerText o config name info vcs right content style = []
  · rw [if_pos empty]
    exact iff_of_true rfl empty
  · rw [if_neg empty]
    refine iff_of_false (fun none' => ?_) empty
    exact empty (List.append_eq_nil_iff.mp (List.append_eq_nil_iff.mp none').2).1

def Draws (config : Config φ) (info : HeaderInfo τ) (vcs : Option GitStatus) (name : Str) : Prop :=
  (renderSegment o config name info vcs false none false).text ≠ []

theorem drawsAnywhere (config : Config φ) (info : HeaderInfo τ) (vcs : Option GitStatus) (name : Str) (right : Bool)
    (budget : Option Nat) (joinedLeft : Bool) :
    (renderSegment o config name info vcs right budget joinedLeft).text ≠ [] ↔ Draws o config info vcs name := by
  unfold Draws
  rcases contentBudget o config name info vcs budget with ⟨none',none''⟩ | ⟨a,b,style,here,there,alike⟩
  · unfold renderSegment
    dsimp only
    rw [none',none'']
  · rw [ne_eq,ne_eq,segmentTextNone o right joinedLeft here,segmentTextNone o false false there]
    exact not_congr (innerSide o config name info vcs right false style alike)

/-- A text of the layout is there when something is left of it. -/
def DrawsElement (config : Config φ) (info : HeaderInfo τ) (vcs : Option GitStatus) : Element → Prop
  | .seg name => Draws o config info vcs name
  | .joined name => Draws o config info vcs name
  | .text t => expandEnv o t ≠ []

theorem elementDrawn (config : Config φ) (info : HeaderInfo τ) (vcs : Option GitStatus) (right : Bool)
    (budget : Option Nat) (e : Element) :
    (renderElement o config info vcs right budget e).text ≠ [] ↔ DrawsElement o config info vcs e := by
  cases e with
  | seg name => exact drawsAnywhere o config info vcs name right budget false
  | joined name => exact drawsAnywhere o config info vcs name right budget true
  | text t => exact not_congr paintNone

/-! What an element draws does not depend on the layout, nor on whether segments are disabled. -/

structure Alike (c d : Config φ) : Prop where
  segment : ∀ name, ∃ shown, d.segment name = { c.segment name with shown := shown }
  defaults : d.defaults = c.defaults
  remoteIcons : d.vcsRemoteIcons = c.vcsRemoteIcons
  mode : d.mode = c.mode
  overrides : d.iconOverrides = c.iconOverrides
  classes : d.dirClasses = c.dirClasses
  padding : d.iconPadding = c.iconPadding

theorem alikeLayout (config : Config φ) (layout : Layout) : Alike config { config with layout := layout } where
  segment name := ⟨(config.segment name).shown,rfl⟩
  defaults := rfl
  remoteIcons := rfl
  mode := rfl
  overrides := rfl
  classes := rfl
  padding := rfl

variable {c d : Config φ}

theorem dirPartsAlike (alike : Alike c d) (seg : Segment φ) (shown : Bool) (cwd : Str) (sepStyle : Style) (n i : Nat)
    (parts : List DirPart) : dirParts o d { seg with shown := shown } cwd sepStyle n i parts =
      dirParts o c seg cwd sepStyle n i parts := by
  have style : ∀ cls, partStyle o d { seg with shown := shown } cwd cls = partStyle o c seg cwd cls := by
    intro cls
    unfold partStyle dirClassMatch
    rw [alike.defaults,alike.classes]
    rfl
  induction parts generalizing i with
  | nil => rfl
  | cons part parts ih =>
    unfold dirParts
    rw [ih,style]
    rfl

theorem dirTextAlike (alike : Alike c d) (info : HeaderInfo τ) (seg : Segment φ) (shown : Bool) (default : Style)
    (budget : Option Nat) : dirSegText o d info { seg with shown := shown } default budget =
      dirSegText o c info seg default budget := by
  unfold dirSegText
  dsimp only
  rw [dirPartsAlike o alike,alike.defaults]
  rfl

theorem contentAlike (alike : Alike c d) (name : Str) (info : HeaderInfo τ) (vcs : Option GitStatus)
    (budget : Option Nat) : contentText o d name info vcs budget = contentText o c name info vcs budget := by
  obtain ⟨shown,same⟩ := alike.segment name
  obtain ⟨shown',same'⟩ := alike.segment "prompt_char".toList
  have icon : ∀ key, iconStr d key = iconStr c key := by
    intro key
    unfold iconStr
    rw [alike.overrides,alike.mode]
  unfold contentText promptState symfony2TestsStyle
  dsimp only
  rw [same,same',dirTextAlike o alike,icon,icon,alike.defaults]
  rfl

theorem iconAlike (alike : Alike c d) (name : Str) (info : HeaderInfo τ) (vcs : Option GitStatus) :
    segmentIcon o d name info vcs = segmentIcon o c name info vcs := by
  obtain ⟨shown,same⟩ := alike.segment name
  obtain ⟨shown',same'⟩ := alike.segment "dir".toList
  have icon : iconStr d = iconStr c := by
    funext key
    unfold iconStr
    rw [alike.overrides,alike.mode]
  unfold segmentIcon resolveIcon dirClassMatch
  rw [same,same',icon,alike.remoteIcons,alike.mode,alike.classes]
  rfl

theorem segmentAlike (alike : Alike c d) (name : Str) (info : HeaderInfo τ) (vcs : Option GitStatus) (right : Bool)
    (budget : Option Nat) (joinedLeft : Bool) : renderSegment o d name info vcs right budget joinedLeft =
      renderSegment o c name info vcs right budget joinedLeft := by
  obtain ⟨shown,same⟩ := alike.segment name
  unfold renderSegment iconText
  dsimp only
  rw [contentAlike o alike,iconAlike o alike,same,alike.defaults,alike.padding]
  rfl

theorem elementAlike (alike : Alike c d) (info : HeaderInfo τ) (vcs : Option GitStatus) (right : Bool)
    (budget : Option Nat) (e : Element) :
    renderElement o d info vcs right budget e = renderElement o c info vcs right budget e := by
  cases e with
  | seg name => exact segmentAlike o alike name info vcs right budget false
  | joined name => exact segmentAlike o alike name info vcs right budget true
  | text t =>
    obtain ⟨shown,same⟩ := alike.segment "text".toList
    unfold renderElement
    dsimp only
    rw [same,alike.defaults]
    rfl

theorem sideAlike (alike : Alike c d) (elements : Option (List Element)) (info : HeaderInfo τ)
    (vcs : Option GitStatus) (right : Bool) (budget : Option Nat) :
    renderSide o d elements info vcs right budget = renderSide o c elements info vcs right budget := by
  cases elements with
  | none => rfl
  | some elements => exact List.map_congr_left fun e _ => elementAlike o alike info vcs right budget e

/-! A row depends only on what its columns show. -/

theorem assembleAlike {left left' right right' : List SegmentText} {seps : Separators}
    (onLeft : leftText seps left = leftText seps left') (onRight : rightText seps right = rightText seps right')
    (there : visibleSegments right = [] ↔ visibleSegments right' = []) (cols rightIndent : Nat) :
    assembleRow o left right cols seps rightIndent = assembleRow o left' right' cols seps rightIndent := by
  unfold assembleRow
  dsimp only
  rw [onLeft,onRight,if_congr there rfl rfl]

theorem headerRowAlike {info : HeaderInfo τ} {vcs : Option GitStatus} {i : Nat}
    (frame : d.frame = c.frame) (defaults : d.defaults = c.defaults) (separators : d.separators = c.separators)
    (indent : d.layout.rightIndent = c.layout.rightIndent)
    (onLeft : ∀ b, leftText c.separators (renderSide o d (rowShape d i).left info vcs false b) =
      leftText c.separators (renderSide o c (rowShape c i).left info vcs false b))
    (onRight : ∀ b, rightText c.separators (renderSide o d (rowShape d i).right info vcs true b) =
      rightText c.separators (renderSide o c (rowShape c i).right info vcs true b))
    (there : ∀ b, visibleSegments (renderSide o d (rowShape d i).right info vcs true b) = [] ↔
      visibleSegments (renderSide o c (rowShape c i).right info vcs true b) = []) (cols : Nat) :
    headerRow o d info vcs cols i = headerRow o c info vcs cols i := by
  have pieces : (rowShape d i).pre = (rowShape c i).pre ∧ (rowShape d i).suf = (rowShape c i).suf := by
    unfold rowShape
    rw [frame]
    exact ⟨rfl,rfl⟩
  have painted : ∀ piece, framePaint d piece = framePaint c piece := by
    intro piece
    unfold framePaint Config.framePieceStyle
    rw [frame,defaults]
  have budget : bodyBudget o (rowShape d i) cols = bodyBudget o (rowShape c i) cols := by
    unfold bodyBudget
    rw [pieces.1,pieces.2]
  have alone : ∀ b n, assembleRow o (renderSide o d (rowShape d i).left info vcs false b) [] n c.separators 0 =
      assembleRow o (renderSide o c (rowShape c i).left info vcs false b) [] n c.separators 0 :=
    fun b n => assembleAlike o (onLeft b) rfl Iff.rfl n 0
  have aside : ∀ b, assembleRow o [] (renderSide o d (rowShape d i).right info vcs true b) 0 c.separators 0 =
      assembleRow o [] (renderSide o c (rowShape c i).right info vcs true b) 0 c.separators 0 :=
    fun b => assembleAlike o rfl (onRight b) (there b) 0 0
  have plan : rowPlan o d info vcs cols i = rowPlan o c info vcs cols i := by
    unfold rowPlan
    simp only [separators,budget,indent,alone,aside]
  unfold headerRow rowColumns
  dsimp only
  rw [plan,pieces.1,pieces.2,painted,painted,separators,budget,indent]
  congr 2
  cases drawn : (rowPlan o c info vcs cols i).2 with
  | true =>
    rw [if_pos rfl,if_pos rfl]
    exact assembleAlike o (onLeft _) (onRight _) (there _) _ _
  | false =>
    rw [if_neg Bool.false_ne_true,if_neg Bool.false_ne_true]
    exact assembleAlike o (onLeft _) rfl Iff.rfl _ _

theorem visibleAppend (a b : List SegmentText) : visibleSegments (a ++ b) = visibleSegments a ++ visibleSegments b :=
  List.filter_append a b

def sideText (seps : Separators) (right : Bool) (column : List SegmentText) : List Ink :=
  if right then rightText seps column else leftText seps column

/-! The rows of a layout. -/

def rowAt (layout : Layout) (right : Bool) (i : Nat) : Option (List Element) :=
  if right then layout.right[i]? else layout.left[i]?

variable (config : Config φ) (info : HeaderInfo τ) (vcs : Option GitStatus)

theorem layoutSides (layout : Layout) (i : Nat) (b : Option Nat) :
    renderSide o { config with layout := layout } (rowShape { config with layout := layout } i).left info vcs false b =
        renderSide o config (rowAt layout false i) info vcs false b ∧
      renderSide o { config with layout := layout } (rowShape { config with layout := layout } i).right info vcs true b =
        renderSide o config (rowAt layout true i) info vcs true b :=
  ⟨sideAlike o (alikeLayout config layout) _ info vcs false b,sideAlike o (alikeLayout config layout) _ info vcs true b⟩

theorem layoutRowAlike {layout layout' : Layout} {i : Nat} (indent : layout'.rightIndent = layout.rightIndent)
    (alike : ∀ right b, sideText config.separators right (renderSide o config (rowAt layout' right i) info vcs right b) =
          sideText config.separators right (renderSide o config (rowAt layout right i) info vcs right b) ∧
        (visibleSegments (renderSide o config (rowAt layout' right i) info vcs right b) = [] ↔
          visibleSegments (renderSide o config (rowAt layout right i) info vcs right b) = [])) (cols : Nat) :
    headerRow o { config with layout := layout' } info vcs cols i =
      headerRow o { config with layout := layout } info vcs cols i := by
  refine @headerRowAlike φ τ o { config with layout := layout } { config with layout := layout' } info vcs i rfl rfl rfl
    indent (fun b => ?_) (fun b => ?_) (fun b => ?_) cols
  · rw [(layoutSides o config info vcs layout' i b).1,(layoutSides o config info vcs layout i b).1]
    exact (alike false b).1
  · rw [(layoutSides o config info vcs layout' i b).2,(layoutSides o config info vcs layout i b).2]
    exact (alike true b).1
  · rw [(layoutSides o config info vcs layout' i b).2,(layoutSides o config info vcs layout i b).2]
    exact (alike true b).2

theorem rowAlone {layout : Layout} {i : Nat} {row : List Element} (left : layout.left[i]? = some row)
    (right : layout.right[i]? = none) : ∃ wide, ∀ cols, wide ≤ cols →
      headerRow o { config with layout := layout } info vcs cols i =
        framePaint config (rowShape { config with layout := layout } i).pre ++
        (leftText config.separators (renderRow o config row info vcs false none) ++
          framePaint config (rowShape { config with layout := layout } i).suf) := by
  let shape := rowShape { config with layout := layout } i
  refine ⟨displayWidth o.charWidth shape.pre.text + displayWidth o.charWidth shape.suf.text +
    (lineWidth o (leftText config.separators (renderRow o config row info vcs false none)) + layout.rightIndent + 1),
    fun cols wide => ?_⟩
  have room : lineWidth o (leftText config.separators (renderRow o config row info vcs false none)) +
      layout.rightIndent < bodyBudget o shape cols := by
    unfold bodyBudget
    omega
  have onLeft : ∀ b, renderSide o { config with layout := layout } (rowShape { config with layout := layout } i).left
      info vcs false b = renderRow o config row info vcs false b := by
    intro b
    rw [sideAlike o (alikeLayout config layout),rowShape]
    dsimp only
    rw [left]
    rfl
  have onRight : ∀ b, renderSide o { config with layout := layout } (rowShape { config with layout := layout } i).right
      info vcs true b = [] := by
    intro b
    rw [rowShape]
    dsimp only
    rw [right]
    rfl
  have plan : rowPlan o { config with layout := layout } info vcs cols i = (none,true) := by
    unfold rowPlan
    simp only [onLeft,onRight]
    exact if_pos (decide_eq_true room)
  unfold headerRow rowColumns
  dsimp only
  rw [plan]
  dsimp only
  rw [onLeft,onRight]
  rfl

end visible
end P11k.Render
