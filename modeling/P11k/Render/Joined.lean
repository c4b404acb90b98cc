import P11k.Render.Visible

/-! A joined element with nothing drawn before it on its side, beside the plain one. Only the segment
`prompt_char` can tell them apart, whose background may depend on its state. -/
namespace P11k.Render
open P11k P11k.Settings

section joined
variable {φ τ : Type} (o : Outside τ) (config : Config φ) (info : HeaderInfo τ) (vcs : Option GitStatus)

def padWhen (p : Prop) [Decidable p] (style : Style) : List Ink := if p then paint " ".toList style else []

/-- The style that a segment leaves in the row. -/
def endStyle (name : Str) : Style :=
  (config.segment name).effectiveStyle
    (if name = "prompt_char".toList then promptState o config (some info) else none) config.defaults

def ownStyle (name : Str) : Style := (config.segment name).effectiveStyle none config.defaults

theorem contentStyle {name : Str} {budget : Option Nat} {content : List Ink} {style : Style}
    (read : contentText o config name info vcs budget = some (content,style)) :
    style = endStyle o config info name := by
  unfold contentText at read
  unfold endStyle
  dsimp only at read
  by_cases dir : name = "dir".toList
  · rw [if_pos dir] at read
    rw [if_neg (by rw [dir]; decide)]
    cases read
    rfl
  rw [if_neg dir] at read
  by_cases repo : name = "vcs".toList
  · rw [if_pos repo] at read
    rw [if_neg (by rw [repo]; decide)]
    split at read <;> (cases read; rfl)
  rw [if_neg repo] at read
  by_cases status : name = "status".toList
  · rw [if_pos status] at read
    rw [if_neg (by rw [status]; decide)]
    cases read
    rfl
  rw [if_neg status] at read
  by_cases char : name = "prompt_char".toList
  · rw [if_pos char] at read
    rw [if_pos char]
    cases read
    rw [char]
  rw [if_neg char] at read
  rw [if_neg char]
  split at read
  · cases read
    rfl
  · split at read
    · cases read
      rfl
    · split at read
      · cases read
        rfl
      · cases read

theorem leftRestAlike (seps : Separators) (p q : SegmentText) (style : p.style = q.style) (padded : p.padded = q.padded)
    (rest : List SegmentText) : leftRest seps p rest = leftRest seps q rest := by
  cases rest with
  | nil => rw [leftRest,leftRest,style]
  | cons s rest => rw [leftRest,leftRest,style,padded]

theorem rightRestAlike (seps : Separators) (p q : SegmentText) (style : p.style = q.style) (rest : List SegmentText) :
    rightRest seps p rest = rightRest seps q rest := by
  cases rest <;> rw [rightRest,rightRest,style]

/-- What the side shows when its first visible segment has this style, pad and inside. -/
def sideFrom (seps : Separators) (right : Bool) (style : Style) (pad inside : List Ink) (rest : List SegmentText) :
    List Ink :=
  let first : SegmentText := { text := inside, style := style, padded := true }
  if right then
    (if seps.rightStart ≠ [] then arrow seps.rightStart style.bg .default else []) ++
      (pad ++ (inside ++ rightRest seps first rest))
  else
    (if seps.leftTail ≠ [] ∧ style.bg ≠ .default then arrow seps.leftTail style.bg .default else []) ++
      (pad ++ (inside ++ leftRest seps first rest))

theorem sideJoined (seps : Separators) (right : Bool) (style : Style) (inside : List Ink)
    {column rest : List SegmentText}
    (visible : visibleSegments column = { text := inside, style := style, padded := true, joinedLeft := true } :: rest) :
    sideText seps right column =
      sideFrom seps right style (padWhen (style.bg ≠ .default ∨ right) style) inside rest := by
  unfold sideText sideFrom padWhen
  cases right with
  | true =>
    rw [if_pos rfl,if_pos rfl,rightText,visible]
    dsimp only
    rw [if_pos rfl,if_pos (Or.inr rfl)]
    rw [rightRestAlike seps { text := inside, style := style, padded := true, joinedLeft := true }
      { text := inside, style := style, padded := true } rfl]
  | false =>
    rw [if_neg Bool.false_ne_true,if_neg Bool.false_ne_true,leftText,visible]
    dsimp only
    rw [if_congr (by simp : (true = true ∧ style.bg ≠ .default) ↔ (style.bg ≠ .default ∨ false = true)) rfl rfl]
    rw [leftRestAlike seps { text := inside, style := style, padded := true, joinedLeft := true }
      { text := inside, style := style, padded := true } rfl rfl]

theorem sidePlain (seps : Separators) (right : Bool) (style : Style) (pad inside : List Ink)
    {column rest : List SegmentText}
    (visible : visibleSegments column =
      { text := pad ++ inside, style := style, padded := true, joinedLeft := false } :: rest) :
    sideText seps right column = sideFrom seps right style pad inside rest := by
  unfold sideText sideFrom
  cases right with
  | true =>
    rw [if_pos rfl,if_pos rfl,rightText,visible]
    dsimp only
    rw [if_neg Bool.false_ne_true,List.nil_append,List.append_assoc]
    rw [rightRestAlike seps { text := pad ++ inside, style := style, padded := true }
      { text := inside, style := style, padded := true } rfl]
  | false =>
    rw [if_neg Bool.false_ne_true,if_neg Bool.false_ne_true,leftText,visible]
    dsimp only
    have apart : ¬ (false = true ∧ style.bg ≠ .default) := fun joined => Bool.false_ne_true joined.1
    rw [if_neg apart,List.nil_append,List.append_assoc]
    rw [leftRestAlike seps { text := pad ++ inside, style := style, padded := true }
      { text := inside, style := style, padded := true } rfl rfl]

theorem nothingBefore {before : List Element} (nothing : ∀ e ∈ before, ¬ DrawsElement o config info vcs e)
    (rest : List Element) (right : Bool) (budget : Option Nat) :
    visibleSegments (renderRow o config (before ++ rest) info vcs right budget) =
      visibleSegments (renderRow o config rest info vcs right budget) := by
  have none' : visibleSegments (renderRow o config before info vcs right budget) = [] := by
    refine List.filter_eq_nil_iff.mpr fun s mem => ?_
    obtain ⟨e,there,rfl⟩ := List.mem_map.mp mem
    have hidden := fun drawn => nothing e there ((elementDrawn o config info vcs right budget e).mp drawn)
    exact fun drawn => hidden (of_decide_eq_true drawn)
  rw [renderRow,List.map_append,← renderRow,← renderRow,visibleAppend,none',List.nil_append]

theorem visibleFirst {name : Str} (draws : Draws o config info vcs name) {before : List Element}
    (nothing : ∀ e ∈ before, ¬ DrawsElement o config info vcs e) (after : List Element) (right : Bool)
    (budget : Option Nat) {joinedLeft : Bool} (e : Element) (same : renderElement o config info vcs right budget e =
      renderSegment o config name info vcs right budget joinedLeft) :
    visibleSegments (renderRow o config (before ++ e :: after) info vcs right budget) =
      renderSegment o config name info vcs right budget joinedLeft ::
        visibleSegments (renderRow o config after info vcs right budget) := by
  have shown := (drawsAnywhere o config info vcs name right budget joinedLeft).mpr draws
  rw [nothingBefore o config info vcs nothing,renderRow,List.map_cons,← renderRow,same]
  exact List.filter_cons_of_pos (decide_eq_true shown)

/-- The two columns show the same, apart from the space before the first visible segment. -/
theorem firstApart {name : Str} (draws : Draws o config info vcs name) {before : List Element}
    (nothing : ∀ e ∈ before, ¬ DrawsElement o config info vcs e) (after : List Element) (seps : Separators)
    (right : Bool) (budget : Option Nat) : ∃ inside rest,
      sideText seps right (renderRow o config (before ++ .joined name :: after) info vcs right budget) =
        sideFrom seps right (endStyle o config info name)
          (padWhen ((endStyle o config info name).bg ≠ .default ∨ right) (endStyle o config info name)) inside rest ∧
      sideText seps right (renderRow o config (before ++ .seg name :: after) info vcs right budget) =
        sideFrom seps right (endStyle o config info name)
          (padWhen ((ownStyle config name).bg ≠ .default ∨ right) (endStyle o config info name)) inside rest := by
  have shown := fun joinedLeft => (drawsAnywhere o config info vcs name right budget joinedLeft).mpr draws
  rcases contentBudget o config name info vcs budget with ⟨none',_⟩ | ⟨content,_,style,read,_,_⟩
  · have hidden := shown false
    unfold renderSegment at hidden
    dsimp only at hidden
    rw [none'] at hidden
    exact absurd rfl hidden
  cases contentStyle o config info vcs read
  have inner : innerText o config name info vcs right content (endStyle o config info name) ≠ [] :=
    fun none' => shown false ((segmentTextNone o right false read).mpr none')
  have joined := visibleFirst o config info vcs draws nothing after right budget (.joined name) rfl
  have plain := visibleFirst o config info vcs draws nothing after right budget (.seg name) rfl
  refine ⟨innerText o config name info vcs right content (endStyle o config info name) ++
      paint " ".toList (endStyle o config info name),visibleSegments (renderRow o config after info vcs right budget),
    sideJoined seps right _ _ (joined.trans ?_),
    sidePlain seps right _ _ _ (plain.trans ?_)⟩
  · rw [segmentTextOf o right true read,if_neg inner,if_neg fun pad => Bool.false_ne_true pad.2.symm,
      List.nil_append]
  · rw [segmentTextOf o right false read,if_neg inner]
    unfold padWhen ownStyle
    rw [if_congr (and_iff_left rfl) rfl rfl]

theorem visibleHidden {name : Str} (hidden : ¬ Draws o config info vcs name) {before : List Element}
    (nothing : ∀ e ∈ before, ¬ DrawsElement o config info vcs e) (after : List Element) (right : Bool)
    (budget : Option Nat) : visibleSegments (renderRow o config (before ++ .joined name :: after) info vcs right budget) =
      visibleSegments (renderRow o config (before ++ .seg name :: after) info vcs right budget) := by
  have gone : ∀ e, ¬ DrawsElement o config info vcs e →
      visibleSegments (renderRow o config (before ++ e :: after) info vcs right budget) =
        visibleSegments (renderRow o config after info vcs right budget) := by
    intro e unseen
    have all : ∀ e' ∈ before ++ [e], ¬ DrawsElement o config info vcs e' := by
      intro e' mem
      rcases List.mem_append.mp mem with early | last
      · exact nothing e' early
      · exact List.mem_singleton.mp last ▸ unseen
    rw [← List.singleton_append,← List.append_assoc]
    exact nothingBefore o config info vcs all after right budget
  rw [gone (.joined name) hidden,gone (.seg name) hidden]

/-- Whether the join leaves the row as it is: on the right always, on the left unless the segment has a background
of its own and none in its state, or the other way round. -/
def JoinIdle (right : Bool) (name : Str) : Prop :=
  Draws o config info vcs name → right = true ∨
    ((ownStyle config name).bg = .default ↔ (endStyle o config info name).bg = .default)

theorem idleColumns {name : Str} {right : Bool} (idle : JoinIdle o config info vcs right name) {before : List Element}
    (nothing : ∀ e ∈ before, ¬ DrawsElement o config info vcs e) (after : List Element) (seps : Separators)
    (budget : Option Nat) :
    sideText seps right (renderRow o config (before ++ .joined name :: after) info vcs right budget) =
        sideText seps right (renderRow o config (before ++ .seg name :: after) info vcs right budget) ∧
      (visibleSegments (renderRow o config (before ++ .joined name :: after) info vcs right budget) = [] ↔
        visibleSegments (renderRow o config (before ++ .seg name :: after) info vcs right budget) = []) := by
  by_cases draws : Draws o config info vcs name
  · constructor
    · obtain ⟨inside,rest,joined,plain⟩ := firstApart o config info vcs draws nothing after seps right budget
      have pads : ((endStyle o config info name).bg ≠ .default ∨ right = true) ↔
          ((ownStyle config name).bg ≠ .default ∨ right = true) := by
        rcases idle draws with onRight | same
        · exact iff_of_true (.inr onRight) (.inr onRight)
        · exact or_congr (not_congr same.symm) Iff.rfl
      rw [joined,plain]
      unfold padWhen
      rw [if_congr pads rfl rfl]
    · rw [visibleFirst o config info vcs draws nothing after right budget (.joined name) rfl,
        visibleFirst o config info vcs draws nothing after right budget (.seg name) rfl]
      exact iff_of_false (List.cons_ne_nil _ _) (List.cons_ne_nil _ _)
  · have same := visibleHidden o config info vcs draws nothing after right budget
    constructor
    · unfold sideText leftText rightText
      rw [same]
    · rw [same]

/-! The row beside the other. -/

def setRow (layout : Layout) (right : Bool) (i : Nat) (row : List Element) : Layout :=
  if right then { layout with right := layout.right.set i row } else { layout with left := layout.left.set i row }

theorem rowSet {layout : Layout} {right : Bool} {i : Nat} {old : List Element} (there : rowAt layout right i = some old)
    (row : List Element) : rowAt (setRow layout right i row) right i = some row ∧
      rowAt (setRow layout right i row) (!right) i = rowAt layout (!right) i ∧
      (setRow layout right i row).rightIndent = layout.rightIndent := by
  unfold rowAt setRow at *
  cases right with
  | true =>
    obtain ⟨below,_⟩ := List.getElem?_eq_some_iff.mp there
    exact ⟨List.getElem?_set_self below,rfl,rfl⟩
  | false =>
    obtain ⟨below,_⟩ := List.getElem?_eq_some_iff.mp there
    exact ⟨List.getElem?_set_self below,rfl,rfl⟩

theorem idleRow {before : List Element} (nothing : ∀ e ∈ before, ¬ DrawsElement o config info vcs e) {name : Str}
    {right : Bool} (idle : JoinIdle o config info vcs right name) {after : List Element} {layout : Layout} {i : Nat}
    (there : rowAt layout right i = some (before ++ .joined name :: after)) (cols : Nat) :
    headerRow o { config with layout := setRow layout right i (before ++ .seg name :: after) } info vcs cols i =
      headerRow o { config with layout := layout } info vcs cols i := by
  obtain ⟨here,other,indent⟩ := rowSet there (before ++ .seg name :: after)
  refine layoutRowAlike o config info vcs indent (fun side b => ?_) cols
  by_cases same : side = right
  · have columns := idleColumns o config info vcs idle nothing after config.separators b
    rw [same,here,there]
    exact ⟨columns.1.symm,columns.2.symm⟩
  · rw [Bool.eq_not_of_ne same,other]
    exact ⟨rfl,Iff.rfl⟩

theorem padLength {p q : Prop} [Decidable p] [Decidable q] {style : Style} {cap rest : List Ink}
    (same : (cap ++ (padWhen p style ++ rest)).length = (cap ++ (padWhen q style ++ rest)).length) : p ↔ q := by
  have some' : (paint " ".toList style).length ≠ 0 := fun none' =>
    (by decide : " ".toList ≠ []) (paintNone.mp (List.length_eq_zero_iff.mp none'))
  rw [List.length_append,List.length_append,List.length_append,List.length_append] at same
  unfold padWhen at same
  by_cases first : p
  · rw [if_pos first] at same
    refine iff_of_true first ?_
    by_contra second
    rw [if_neg second,List.length_nil] at same
    omega
  · rw [if_neg first] at same
    refine iff_of_false first fun second => ?_
    rw [if_pos second,List.length_nil] at same
    omega

/-- A join with nothing drawn before it on its side does nothing, whatever stands in the other column and however
wide the line is, exactly when it is idle. -/
theorem firstJoin (before : List Element) (nothing : ∀ e ∈ before, ¬ DrawsElement o config info vcs e) (right : Bool)
    (name : Str) (after : List Element) :
    (∀ layout i cols, rowAt layout right i = some (before ++ .joined name :: after) →
      chars (headerRow o { config with layout := setRow layout right i (before ++ .seg name :: after) } info vcs cols i) =
        chars (headerRow o { config with layout := layout } info vcs cols i)) ↔
    JoinIdle o config info vcs right name := by
  constructor
  · intro law draws
    cases right with
    | true => exact .inl rfl
    | false =>
      refine .inr ?_
      obtain ⟨inside,rest,joined,plain⟩ := firstApart o config info vcs draws nothing after config.separators false none
      obtain ⟨wide,first⟩ := @rowAlone φ τ o config info vcs { left := [before ++ .joined name :: after] } 0
        (before ++ .joined name :: after) rfl rfl
      obtain ⟨wide',second⟩ := @rowAlone φ τ o config info vcs { left := [before ++ .seg name :: after] } 0
        (before ++ .seg name :: after) rfl rfl
      have lines := law { left := [before ++ .joined name :: after] } 0 (max wide wide') rfl
      have rows : setRow { left := [before ++ .joined name :: after] } false 0 (before ++ .seg name :: after) =
          { left := [before ++ .seg name :: after] } := rfl
      have plainLeft : leftText config.separators (renderRow o config (before ++ .seg name :: after) info vcs false none) =
          _ := plain
      have joinedLeft : leftText config.separators
          (renderRow o config (before ++ .joined name :: after) info vcs false none) = _ := joined
      rw [rows,first _ (le_max_left _ _),second _ (le_max_right _ _),plainLeft,joinedLeft] at lines
      have lengths := congrArg List.length lines
      unfold chars at lengths
      rw [List.length_map,List.length_map,List.length_append,List.length_append,List.length_append,
        List.length_append] at lengths
      have pads := padLength (Nat.add_right_cancel (Nat.add_left_cancel lengths))
      simpa using not_congr pads
  · intro idle layout i cols there
    rw [idleRow o config info vcs nothing idle there]

end joined

/-! A prompt character that gets a background when the last command failed. -/

def redOnError : Config Unit where
  layout := { left := [[.joined "prompt_char".toList]] }
  segments := SortedMap.empty.insert "prompt_char".toList
    { states := SortedMap.empty.insert "ERROR".toList ⟨{ bg := .xterm 1 },none⟩ }

def failing : HeaderInfo Unit where
  exitCode := some 1
  cwd := "/srv".toList
  execSeconds := ()

theorem firstJoinDir :
    chars (headerRow silent { redOnError with layout := { left := [[.seg "dir".toList]] } } failing none 80 0) =
      chars (headerRow silent { redOnError with layout := { left := [[.joined "dir".toList]] } } failing none 80 0) :=
  (firstJoin silent redOnError failing none [] (fun _ mem => nomatch mem) false "dir".toList []).mpr
    (fun _ => .inr Iff.rfl) { left := [[.joined "dir".toList]] } 0 80 rfl

/-- The joined prompt character begins with a space that the plain one does not begin with. -/
theorem firstJoinShown : ¬ ∀ (config : Config Unit) (info : HeaderInfo Unit) (vcs : Option GitStatus) (right : Bool)
    (name : Str) (before after : List Element) (i cols : Nat),
    (∀ e ∈ before, ¬ DrawsElement silent config info vcs e) →
    rowAt config.layout right i = some (before ++ .joined name :: after) →
    chars (headerRow silent { config with layout := setRow config.layout right i (before ++ .seg name :: after) } info
        vcs cols i) = chars (headerRow silent config info vcs cols i) := by
  intro law
  have same := law redOnError failing none false "prompt_char".toList [] [] 0 80 (fun _ mem => nomatch mem) rfl
  revert same
  decide +kernel

end P11k.Render
