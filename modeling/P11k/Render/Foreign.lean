import P11k.Render.Drawn

/-! Where the texts of a line come from: those that the configuration holds, and those that come from
elsewhere, each as its segment shows it. -/
namespace P11k.Render
open P11k P11k.Settings P11k.Terminal P11k.Text

section own
variable {φ : Type}

def attachTexts (a : Option AttachText) : List Str := (a.map AttachText.text).toList

def propText : PropValue φ → Option Str
  | .str s => some s
  | _ => none

def segmentTexts (seg : Segment φ) : List Str :=
  seg.content.toList ++ (attachTexts seg.textLeft ++ (attachTexts seg.textMiddle ++ (attachTexts seg.textRight ++
    (seg.pre.toList ++ (seg.suf.toList ++ (seg.states.entries.filterMap (fun e => e.2.char) ++
      seg.props.entries.filterMap (fun e => propText e.2)))))))

def separatorTexts (seps : Separators) : List Str :=
  [seps.segment,seps.sub,seps.endSymbol,seps.rightStart,seps.rightSegment,seps.rightSub,seps.leftTail,
    seps.rightTail,seps.gap]

def frameTexts (frame : Frame) : List Str :=
  [frame.firstPrefix.text,frame.firstSuffix.text,frame.newlinePrefix.text,frame.newlineSuffix.text]

def overrideTexts (ov : IconOverride) : List Str :=
  ov.all.toList ++ (ov.nf.toList ++ (ov.compat.toList ++ ov.ascii.toList))

/-- No text that the configuration holds for the lines has a control character; the texts of the layout
are read with the environment. -/
structure OwnPlain (config : Config φ) : Prop where
  segments : ∀ e ∈ config.segments.entries, ∀ t ∈ segmentTexts e.2, Plain t
  separators : ∀ t ∈ separatorTexts config.separators, Plain t
  frame : ∀ t ∈ frameTexts config.frame, Plain t
  overrides : ∀ e ∈ config.iconOverrides.entries, ∀ t ∈ overrideTexts e.2, Plain t
  remotes : ∀ e ∈ config.vcsRemoteIcons, Plain e.2
  classes : ∀ c ∈ config.dirClasses, Plain c.icon

end own

/-! Texts from elsewhere. -/

section foreign
variable {φ τ : Type} (o : Outside τ)

def dirForeign (info : HeaderInfo τ) (seg : Segment φ) (budget : Option Nat) : List Str :=
  if seg.content.isSome then [] else (shownParts o seg info.cwd budget).map DirPart.text

def vcsForeign (seg : Segment φ) (v : GitStatus) : List Str :=
  [if showChangeset seg v then v.commit.take (hashLen seg) else [],
    if v.branch ≠ [] then shortenBranch v.branch seg
      else if v.tag ≠ [] then shortenBranch v.tag seg
      else v.commit.take (hashLen seg),
    if v.remoteBranch ≠ [] ∧ v.remoteBranch ≠ v.branch then v.remoteBranch else [],
    v.action]

def contentForeign (config : Config φ) (name : Str) (info : HeaderInfo τ) (vcs : Option GitStatus)
    (budget : Option Nat) : List Str :=
  let seg := config.segment name
  if name = "dir".toList then dirForeign o info seg budget
  else if name = "vcs".toList then if seg.content.isSome then [] else (vcs.map (vcsForeign seg)).getD []
  else if name = "status".toList then []
  else if name = "prompt_char".toList then []
  else if name = "symfony2_tests".toList then [symfony2TestsText o info.cwd]
  else ((plainTexts o info seg).lookup name).toList

def foreignTexts (config : Config φ) (info : HeaderInfo τ) (vcs : Option GitStatus) (budget : Option Nat) :
    Element → List Str
  | .seg name => contentForeign o config name info vcs budget
  | .joined name => contentForeign o config name info vcs budget
  | .text t => [expandEnv o t]

/-- Of the row as it is drawn, shortened and perhaps without its right column. -/
def rowForeign (config : Config φ) (info : HeaderInfo τ) (vcs : Option GitStatus) (cols i : Nat) : List Str :=
  let shape := rowShape config i
  let (budget,right) := rowPlan o config info vcs cols i
  (shape.left.getD []).flatMap (foreignTexts o config info vcs budget) ++
    if right then (shape.right.getD []).flatMap (foreignTexts o config info vcs budget) else []

end foreign

/-! Characters that are shown. -/

section shown
variable {c : Char}

@[simp] theorem shownInCode (s : Str) : Ink.text c ∉ code s := by
  intro mem
  obtain ⟨d,_,same⟩ := List.mem_map.mp mem
  cases same

@[simp] theorem shownInText (t : Str) : Ink.text c ∈ text t ↔ c ∈ t := by simp [text]

@[simp] theorem shownInPaint (t : Str) (style : Style) : Ink.text c ∈ paint t style ↔ c ∈ t := by
  unfold paint
  split
  · rename_i empty
    simp [empty]
  · simp

@[simp] theorem shownInArrow (ch : Str) (fg bg : Color) : Ink.text c ∈ arrow ch fg bg ↔ c ∈ ch := by simp [arrow]

@[simp] theorem shownWhen {p : Prop} [Decidable p] (a : List Ink) :
    Ink.text c ∈ (if p then a else []) ↔ p ∧ Ink.text c ∈ a := by
  split
  · rename_i holds
    simp [holds]
  · rename_i not
    simp [not]

theorem plainFree {t : Str} (plain : Plain t) (steers : control c = true) : c ∉ t := by
  intro mem
  rw [plain c mem] at steers
  contradiction

theorem spaceFree (steers : control c = true) : c ∉ " ".toList := plainFree (by decide) steers

theorem slashFree (steers : control c = true) : c ∉ "/".toList := plainFree (by decide) steers

theorem plainNil : Plain [] := fun _ mem => absurd mem List.not_mem_nil

theorem plainAppend {s t : Str} (first : Plain s) (rest : Plain t) : Plain (s ++ t) := by
  intro c mem
  rcases List.mem_append.mp mem with here | there
  · exact first c here
  · exact rest c there

theorem plainDecimal (n : Nat) : Plain (decimal n) := fun _ mem => (paramPlain (decimalParam mem)).1

theorem plainSigned (n : Int) : Plain (signed n) := by
  cases n with
  | ofNat n => exact plainDecimal n
  | negSucc n => exact plainAppend (s := ['-']) (by decide) (plainDecimal (n + 1))

theorem plainCounted {sign : Str} (plain : Plain sign) (n : Nat) : Plain (counted sign n) := by
  unfold counted
  split
  · exact plainAppend plain (plainDecimal n)
  · exact plainNil

end shown

/-! The configuration's texts are plain. -/

section plain
variable {φ τ : Type} {o : Outside τ} {config : Config φ} {seg : Segment φ} {c : Char}

def SegmentPlain (seg : Segment φ) : Prop := ∀ t ∈ segmentTexts seg, Plain t

theorem segmentPlain (own : OwnPlain config) (name : Str) : SegmentPlain (config.segment name) := by
  unfold Config.segment
  cases found : config.segments.get? name with
  | none =>
    intro t mem
    cases mem
  | some seg => exact own.segments (name,seg) (SortedMap.getMem found)

theorem contentPlain (plain : SegmentPlain seg) {t : Str} (found : seg.content = some t) : Plain t := by
  refine plain t (List.mem_append_left _ ?_)
  rw [found]
  exact List.mem_singleton_self t

theorem attachPlain (plain : SegmentPlain seg) : (∀ t ∈ attachTexts seg.textLeft, Plain t) ∧
    (∀ t ∈ attachTexts seg.textMiddle, Plain t) ∧ ∀ t ∈ attachTexts seg.textRight, Plain t := by
  simp only [SegmentPlain,segmentTexts,List.mem_append] at plain
  exact ⟨fun t mem => plain t (.inr (.inl mem)),fun t mem => plain t (.inr (.inr (.inl mem))),
    fun t mem => plain t (.inr (.inr (.inr (.inl mem))))⟩

theorem aroundPlain (plain : SegmentPlain seg) : Plain (seg.pre.getD []) ∧ Plain (seg.suf.getD []) := by
  simp only [SegmentPlain,segmentTexts,List.mem_append] at plain
  constructor
  · cases found : seg.pre with
    | none => exact plainNil
    | some t => exact plain t (.inr (.inr (.inr (.inr (.inl (by simp [found]))))))
  · cases found : seg.suf with
    | none => exact plainNil
    | some t => exact plain t (.inr (.inr (.inr (.inr (.inr (.inl (by simp [found])))))))

theorem statePlain (plain : SegmentPlain seg) {state t : Str} {spec : StateSpec}
    (found : seg.states.get? state = some spec) (char : spec.char = some t) : Plain t := by
  simp only [SegmentPlain,segmentTexts,List.mem_append] at plain
  have mem : t ∈ seg.states.entries.filterMap (fun e => e.2.char) :=
    List.mem_filterMap.mpr ⟨(state,spec),SortedMap.getMem found,char⟩
  exact plain t (.inr (.inr (.inr (.inr (.inr (.inr (.inl mem)))))))

theorem propPlain (plain : SegmentPlain seg) {name t : Str} (found : seg.prop name = some (.str t)) : Plain t := by
  simp only [SegmentPlain,segmentTexts,List.mem_append] at plain
  have there : (name,PropValue.str t) ∈ seg.props.entries := SortedMap.getMem found
  have mem : t ∈ seg.props.entries.filterMap (fun e => propText e.2) := List.mem_filterMap.mpr ⟨_,there,rfl⟩
  exact plain t (.inr (.inr (.inr (.inr (.inr (.inr (.inr mem)))))))

theorem strPropPlain (plain : SegmentPlain seg) (name : String) {default : Str} (default' : Plain default) :
    Plain (strProp seg name default) := by
  unfold strProp
  split
  · rename_i s found
    exact propPlain plain found
  · exact default'

theorem charPlain (plain : SegmentPlain seg) (state : Option Str) {default : Str} (default' : Plain default) :
    Plain (seg.charFor state default) := by
  unfold Segment.charFor
  split
  · rename_i t found
    obtain ⟨spec,there,char⟩ := Option.bind_eq_some_iff.mp found
    obtain ⟨name,_,there⟩ := Option.bind_eq_some_iff.mp there
    exact statePlain plain there char
  · split
    · rename_i t found
      exact propPlain plain found
    · exact default'

/-! Icons. -/

theorem formsPlain {n c a : String} (nerd : Plain n.toList) (compatible : Plain c.toList) (ascii : Plain a.toList)
    (mode : IconMode) : Plain (iconByMode (icon n c a) mode) := by
  cases mode with
  | nerdfontComplete => exact nerd
  | nerdfontFontconfig => exact nerd
  | compatible => exact compatible
  | ascii => exact ascii

theorem rowsPlain {rows : List (String × String × String × String)}
    (all : rows.all (fun row => decide (Plain row.2.1.toList) && decide (Plain row.2.2.1.toList) &&
      decide (Plain row.2.2.2.toList)) = true) (mode : IconMode) :
    ∀ row ∈ rows, Plain (iconByMode (icon row.2.1 row.2.2.1 row.2.2.2) mode) := by
  intro row mem
  have plain := List.all_eq_true.mp all row mem
  simp only [Bool.and_eq_true,decide_eq_true_eq] at plain
  exact formsPlain plain.1.1 plain.1.2 plain.2 mode

theorem tablePlain (mode : IconMode) :
    ∀ row ∈ iconTable, Plain (iconByMode (icon row.2.1 row.2.2.1 row.2.2.2) mode) :=
  rowsPlain (by decide +kernel) mode

theorem distributionsPlain (mode : IconMode) :
    ∀ row ∈ distributions, Plain (iconByMode (icon row.2.1 row.2.2.1 row.2.2.2) mode) :=
  rowsPlain (by decide +kernel) mode

theorem overridePlain {ov : IconOverride} (plain : ∀ t ∈ overrideTexts ov, Plain t) {mode : IconMode} {t : Str}
    (found : (IconOverride.exact ov mode).or (ov.all.filter (allCovers · mode)) = some t) : Plain t := by
  have there : ov.all = some t ∨ ov.nf = some t ∨ ov.compat = some t ∨ ov.ascii = some t := by
    rcases Option.or_eq_some_iff.mp found with exact' | ⟨_,all⟩
    · cases mode with
      | nerdfontComplete => exact .inr (.inl exact')
      | nerdfontFontconfig => exact .inr (.inl exact')
      | compatible => exact .inr (.inr (.inl exact'))
      | ascii => exact .inr (.inr (.inr exact'))
    · exact .inl (Option.filter_eq_some_iff.mp all).1
  refine plain t ?_
  simp only [overrideTexts,List.mem_append,Option.mem_toList]
  exact there

theorem iconStrPlain (own : OwnPlain config) {key t : Str} (found : iconStr config key = some t) : Plain t := by
  rcases Option.or_eq_some_iff.mp found with overridden | ⟨_,default⟩
  · obtain ⟨ov,there,found⟩ := Option.bind_eq_some_iff.mp overridden
    exact overridePlain (own.overrides _ (SortedMap.getMem there)) found
  · obtain ⟨e,entry,rfl⟩ := Option.map_eq_some_iff.mp default
    obtain ⟨row,there,rfl⟩ := Option.map_eq_some_iff.mp entry
    exact tablePlain config.mode row (List.mem_of_find?_eq_some there)

theorem osIconPlain (mode : IconMode) : Plain (osIcon o mode) := by
  unfold osIcon detectOsIcon
  split
  · split
    · exact formsPlain (by decide) (by decide) (by decide) mode
    · split
      · exact formsPlain (by decide) (by decide) (by decide) mode
      · exact formsPlain (by decide) (by decide) (by decide) mode
  · dsimp only
    split
    · rename_i found
      exact distributionsPlain mode _ (List.mem_of_find?_eq_some found)
    · exact formsPlain (by decide) (by decide) (by decide) mode

theorem iconPlain (own : OwnPlain config) {name : Str} {info : HeaderInfo τ} {vcs : Option GitStatus} {t : Str}
    (found : segmentIcon o config name info vcs = some t) : Plain t := by
  unfold segmentIcon at found
  split at found
  · obtain ⟨key,_,found⟩ := Option.bind_eq_some_iff.mp found
    exact iconStrPlain own found
  · unfold resolveIcon at found
    split at found
    · cases found
      exact osIconPlain config.mode
    · split at found
      · split at found
        · rename_i there
          cases found
          obtain ⟨v,_,there⟩ := Option.bind_eq_some_iff.mp there
          exact own.remotes _ (List.mem_of_find?_eq_some there)
        · exact iconStrPlain own found
      · split at found
        · exact iconStrPlain own found
        · split at found
          · exact iconStrPlain own found
          · split at found
            · rename_i cls there
              split at there
              · split at found
                · cases found
                · cases found
                  exact own.classes cls (List.mem_of_find?_eq_some there)
              · cases there
            · obtain ⟨key,_,found⟩ := Option.bind_eq_some_iff.mp found
              exact iconStrPlain own found

end plain

/-! What a segment shows from elsewhere. -/

section reach
variable {φ τ : Type} {o : Outside τ} {config : Config φ} {info : HeaderInfo τ} {vcs : Option GitStatus}
  {seg : Segment φ} {c : Char}

theorem dirPartsForeign (steers : control c = true) {cwd : Str} (sepStyle : Style) (n i : Nat)
    (parts : List DirPart) :
    Ink.text c ∈ dirParts o config seg cwd sepStyle n i parts ↔ ∃ part ∈ parts, c ∈ part.text := by
  have slash := slashFree steers
  induction parts generalizing i with
  | nil => simp [dirParts]
  | cons part parts ih => simp only [dirParts,List.mem_append,shownWhen,shownInPaint,slash,and_false,false_or,ih,
      List.mem_cons,exists_eq_or_imp]

theorem dirSegForeign (plain : SegmentPlain seg) (steers : control c = true) (default : Style)
    (budget : Option Nat) :
    Ink.text c ∈ dirSegText o config info seg default budget ↔ ∃ t ∈ dirForeign o info seg budget, c ∈ t := by
  have linked : ∀ {p : Prop} [Decidable p] {s : List Ink},
      Ink.text c ∈ (if p then code (linkOpens info.cwd) ++ (s ++ code linkCloses) else s) ↔ Ink.text c ∈ s := by
    intro p _ s
    split
    · simp
    · exact .rfl
  have slash := slashFree steers
  have home : c ∉ strProp seg "home-abbreviation" "~".toList := plainFree (strPropPlain plain _ (by decide)) steers
  unfold dirSegText dirForeign
  rw [linked]
  cases found : seg.content with
  | some content =>
    have free : c ∉ content := plainFree (contentPlain plain found) steers
    simp [free]
  | none =>
    dsimp only
    rw [List.mem_append,dirPartsForeign steers,or_iff_right]
    · simp
    · split
      · rwa [shownInPaint]
      · split
        · rw [List.mem_append,shownInPaint,shownWhen,shownInPaint]
          simp only [home,slash,and_false,or_self,not_false_iff]
        · rw [shownWhen,shownInPaint]
          exact fun both => slash both.2

theorem markedForeign {mark : Str} (plain : Plain mark) (steers : control c = true) (name : Str) :
    c ∈ marked mark name ↔ c ∈ name := by
  have space : c ≠ ' ' := fun same => spaceFree steers (by simp [same])
  unfold marked
  split
  · simp [plainFree plain steers,space]
  · exact .rfl

theorem vcsHeadForeign {v : GitStatus} {branchIcon commitIcon : Str} (branch' : Plain branchIcon)
    (commit' : Plain commitIcon) (steers : control c = true) (clean meta' : Style) :
    Ink.text c ∈ vcsHead v branchIcon commitIcon seg clean meta' ↔
      (showChangeset seg v = true ∧ c ∈ v.commit.take (hashLen seg)) ∨
      (c ∈ if v.branch ≠ [] then shortenBranch v.branch seg
        else if v.tag ≠ [] then shortenBranch v.tag seg
        else v.commit.take (hashLen seg)) ∨
      ((v.remoteBranch ≠ [] ∧ v.remoteBranch ≠ v.branch) ∧ c ∈ v.remoteBranch) := by
  have marks : c ∉ "#".toList ∧ c ∉ "@".toList ∧ c ∉ ":".toList ∧ c ∉ " ".toList :=
    ⟨plainFree (by decide) steers,plainFree (by decide) steers,plainFree (by decide) steers,spaceFree steers⟩
  have gap : c ∉ (if showChangeset seg v = true then " ".toList else []) := by
    split
    · exact marks.2.2.2
    · exact List.not_mem_nil
  have name : Ink.text c ∈ (if v.branch ≠ [] then
        paint ((if showChangeset seg v = true then " ".toList else []) ++
          marked branchIcon (shortenBranch v.branch seg)) clean
      else if v.tag ≠ [] then paint "#".toList meta' ++ paint (shortenBranch v.tag seg) clean
      else if v.commit ≠ [] then paint "@".toList meta' ++ paint (v.commit.take (hashLen seg)) clean
      else []) ↔ c ∈ if v.branch ≠ [] then shortenBranch v.branch seg
        else if v.tag ≠ [] then shortenBranch v.tag seg
        else v.commit.take (hashLen seg) := by
    split
    · rw [shownInPaint,List.mem_append,markedForeign branch' steers,or_iff_right gap]
    · split
      · rw [List.mem_append,shownInPaint,shownInPaint,or_iff_right marks.1]
      · split
        · rw [List.mem_append,shownInPaint,shownInPaint,or_iff_right marks.2.1]
        · rename_i none'
          rw [not_not.mp none',List.take_nil]
          simp
  unfold vcsHead
  dsimp only
  rw [List.mem_append,List.mem_append,name,shownWhen,shownWhen,shownInPaint,markedForeign commit' steers,
    List.mem_append,shownInPaint,shownInPaint,or_iff_right marks.2.2.1]

theorem vcsCountsForeign (plain : SegmentPlain seg) (steers : control c = true) (v : GitStatus)
    (style clean modified conflicted : Style) :
    (∃ part ∈ vcsCounts o v seg style clean modified conflicted, c ∈ part.1) ↔ c ∈ v.action := by
  have sign : ∀ name d n, Plain d → c ∉ counted (strProp seg name d) n := fun name d n default' =>
    plainFree (plainCounted (strPropPlain plain name default') n) steers
  have wip : c ∉ (if hasWipWord o v.commitSummary then "wip".toList else []) := by
    split
    · exact plainFree (by decide) steers
    · exact List.not_mem_nil
  have cut : ∀ b : Bool, c ∉ (if b then ['─'] else []) := by
    intro b
    split
    · exact plainFree (by decide) steers
    · exact List.not_mem_nil
  simp only [vcsCounts,List.mem_cons,exists_eq_or_imp,List.not_mem_nil,or_false,exists_eq_left,
    List.mem_append,wip,cut,sign "behind-symbol" ['⇣'] _ (by decide),sign "ahead-symbol" ['⇡'] _ (by decide),
    sign "push-behind-symbol" ['⇠'] _ (by decide),sign "push-ahead-symbol" ['⇢'] _ (by decide),
    sign "stash-symbol" ['*'] _ (by decide),sign "conflicted-symbol" ['~'] _ (by decide),
    sign "staged-symbol" ['+'] _ (by decide),sign "unstaged-symbol" ['!'] _ (by decide),
    sign "untracked-symbol" ['?'] _ (by decide),false_or]

theorem vcsTextForeign (plain : SegmentPlain seg) {branchIcon commitIcon : Str} (branch' : Plain branchIcon)
    (commit' : Plain commitIcon) (steers : control c = true) (style : Style) :
    Ink.text c ∈ vcsText o vcs branchIcon commitIcon seg style ↔
      ∃ t ∈ (vcs.map (vcsForeign seg)).getD [], c ∈ t := by
  cases vcs with
  | none => simp [vcsText]
  | some v =>
    have space := spaceFree steers
    have counts : ∀ parts : List (Str × Style), Ink.text c ∈ ((parts.filter (·.1 ≠ [])).flatMap fun part =>
        paint " ".toList style ++ paint part.1 part.2) ↔ ∃ part ∈ parts, c ∈ part.1 := by
      intro parts
      rw [List.mem_flatMap]
      constructor
      · rintro ⟨part,mem,shown⟩
        rw [List.mem_append,shownInPaint,shownInPaint,or_iff_right space] at shown
        exact ⟨part,List.mem_of_mem_filter mem,shown⟩
      · rintro ⟨part,mem,shown⟩
        refine ⟨part,List.mem_filter.mpr ⟨mem,decide_eq_true (List.ne_nil_of_mem shown)⟩,?_⟩
        rw [List.mem_append,shownInPaint,shownInPaint]
        exact .inr shown
    unfold vcsText
    dsimp only
    rw [List.mem_append,vcsHeadForeign branch' commit' steers,counts,vcsCountsForeign plain steers]
    simp only [vcsForeign,Option.map_some,Option.getD_some,List.mem_cons,exists_eq_or_imp,List.not_mem_nil,
      or_false,exists_eq_left,or_assoc]
    refine or_congr ?_ (or_congr .rfl (or_congr ?_ .rfl))
    · split
      · rename_i holds
        simp [holds]
      · rename_i not
        simp [not]
    · split
      · rename_i holds
        simp [holds]
      · rename_i not
        simp [not]

theorem contentReach (own : OwnPlain config) (steers : control c = true) (name : Str) (budget : Option Nat) :
    Ink.text c ∈ ((contentText o config name info vcs budget).map Prod.fst).getD [] ↔
      ∃ t ∈ contentForeign o config name info vcs budget, c ∈ t := by
  have plain := segmentPlain own name
  have iconOr : ∀ key, Plain ((iconStr config key).getD []) := by
    intro key
    cases there : iconStr config key with
    | none => exact plainNil
    | some t => exact iconStrPlain own there
  unfold contentText contentForeign
  dsimp only
  by_cases isDir : name = "dir".toList
  · rw [if_pos isDir,if_pos isDir]
    exact dirSegForeign plain steers _ _
  rw [if_neg isDir,if_neg isDir]
  by_cases isVcs : name = "vcs".toList
  · rw [if_pos isVcs,if_pos isVcs]
    cases there : (config.segment name).content with
    | some t =>
      have free : c ∉ t := plainFree (contentPlain plain there) steers
      simp [free]
    | none => exact vcsTextForeign plain (iconOr _) (iconOr _) steers _
  rw [if_neg isVcs,if_neg isVcs]
  by_cases isStatus : name = "status".toList
  · rw [if_pos isStatus,if_pos isStatus]
    have quiet : Ink.text c ∉ statusText info (config.segment name)
        ((config.segment name).effectiveStyle none config.defaults) := by
      unfold statusText
      split
      · rw [shownInPaint]
        exact plainFree (plainSigned _) steers
      · exact List.not_mem_nil
    simpa using quiet
  rw [if_neg isStatus,if_neg isStatus]
  by_cases isChar : name = "prompt_char".toList
  · rw [if_pos isChar,if_pos isChar]
    have free : c ∉ (config.segment name).charFor (promptState o config (some info)) "❯".toList :=
      plainFree (charPlain plain _ (by decide)) steers
    simpa using free
  rw [if_neg isChar,if_neg isChar]
  by_cases isTests : name = "symfony2_tests".toList
  · rw [if_pos isTests,if_pos isTests]
    simp
  rw [if_neg isTests,if_neg isTests]
  cases (plainTexts o info (config.segment name)).lookup name with
  | some t => simp
  | none =>
    dsimp only
    split
    · simp
    · simp

theorem iconQuiet {icon : Option Str} (plain : ∀ t, icon = some t → Plain t) (steers : control c = true)
    (name : Str) (style : Style) (empty first : Bool) :
    Ink.text c ∉ iconText config name icon style empty first := by
  cases icon with
  | none => exact List.not_mem_nil
  | some ic =>
    have free : c ∉ ic := plainFree (plain ic rfl) steers
    have space := spaceFree steers
    have pad : c ∉ spaces config.iconPadding := by
      cases config.iconPadding with
      | none => exact space
      | moderate => exact plainFree (by decide) steers
    unfold iconText
    dsimp only
    split
    · rw [shownWhen,shownInPaint]
      exact fun both => free both.2
    · split
      · rw [shownInPaint,List.mem_append,not_or]
        exact ⟨free,pad⟩
      · have blank : c ≠ ' ' := fun same => space (by simp [same])
        rw [shownInPaint,List.mem_append,List.mem_cons,not_or,not_or]
        refine ⟨⟨blank,free⟩,?_⟩
        split
        · exact space
        · exact List.not_mem_nil

theorem attachQuiet {a : Option AttachText} (plain : ∀ t ∈ attachTexts a, Plain t) (steers : control c = true)
    (style : Style) : Ink.text c ∉ attachOption style a := by
  cases a with
  | none => exact List.not_mem_nil
  | some a =>
    have free : c ∉ a.text := plainFree (plain a.text (List.mem_singleton_self _)) steers
    change Ink.text c ∉ paintAttach style a
    rwa [paintAttach,shownInPaint]

theorem bodyReach (plain : SegmentPlain seg) (steers : control c = true) {style : Style} {content icon : List Ink}
    {first : Bool} (quiet : Ink.text c ∉ icon) :
    Ink.text c ∈ segmentBody seg style content icon first ↔ Ink.text c ∈ content := by
  obtain ⟨left,middle,right⟩ := attachPlain plain
  obtain ⟨front,back⟩ := aroundPlain plain
  have between : Ink.text c ∉ (if icon ≠ [] ∧ content ≠ [] then attachOption style seg.textMiddle else []) := by
    rw [shownWhen]
    exact fun both => attachQuiet middle steers style both.2
  have inner : Ink.text c ∈ (if first then icon ++ ((if icon ≠ [] ∧ content ≠ [] then attachOption style seg.textMiddle
        else []) ++ content)
      else content ++ ((if icon ≠ [] ∧ content ≠ [] then attachOption style seg.textMiddle else []) ++ icon)) ↔
      Ink.text c ∈ content := by
    split
    · rw [List.mem_append,List.mem_append,or_iff_right quiet,or_iff_right between]
    · rw [List.mem_append,List.mem_append,or_iff_left]
      exact not_or.mpr ⟨between,quiet⟩
  unfold segmentBody
  dsimp only
  rw [List.mem_append,List.mem_append,List.mem_append,List.mem_append,inner,paintOption,paintOption,shownInPaint,
    shownInPaint,or_iff_right (plainFree front steers),or_iff_right (attachQuiet left steers style),or_iff_left]
  exact not_or.mpr ⟨attachQuiet right steers style,plainFree back steers⟩

theorem segmentReach (own : OwnPlain config) (steers : control c = true) (name : Str) (right : Bool)
    (budget : Option Nat) (joinedLeft : Bool) :
    Ink.text c ∈ (renderSegment o config name info vcs right budget joinedLeft).text ↔
      ∃ t ∈ contentForeign o config name info vcs budget, c ∈ t := by
  have space := spaceFree steers
  rw [← contentReach own steers]
  unfold renderSegment
  dsimp only
  cases contentText o config name info vcs budget with
  | none => exact .rfl
  | some shown =>
    obtain ⟨content,style⟩ := shown
    have body : Ink.text c ∈ segmentBody (config.segment name) style content
        (iconText config name (segmentIcon o config name info vcs) (iconStyle name info (config.segment name) style)
          (decide (content = [])) (iconFirst (config.segment name) right)) (iconFirst (config.segment name) right) ↔
        Ink.text c ∈ content :=
      bodyReach (segmentPlain own name) steers (iconQuiet (fun t => iconPlain own) steers _ _ _ _)
    change _ ↔ Ink.text c ∈ content
    rw [← body]
    dsimp only
    split
    · rename_i empty
      rw [empty]
    · rw [List.mem_append,List.mem_append,shownWhen,shownInPaint,or_iff_right,or_iff_left space]
      exact fun both => space both.2

theorem elementReach (own : OwnPlain config) (steers : control c = true) (right : Bool) (budget : Option Nat)
    (e : Element) :
    Ink.text c ∈ (renderElement o config info vcs right budget e).text ↔
      ∃ t ∈ foreignTexts o config info vcs budget e, c ∈ t := by
  cases e with
  | seg name => exact segmentReach own steers name right budget false
  | joined name => exact segmentReach own steers name right budget true
  | text t => simp [renderElement,foreignTexts]

/-! What a row shows from elsewhere. -/

theorem separatorQuiet {seps : Separators} (plain : ∀ t ∈ separatorTexts seps, Plain t) (steers : control c = true) :
    c ∉ seps.segment ∧ c ∉ seps.sub ∧ c ∉ seps.endSymbol ∧ c ∉ seps.rightStart ∧ c ∉ seps.rightSegment ∧
      c ∉ seps.rightSub ∧ c ∉ seps.leftTail ∧ c ∉ seps.rightTail ∧ c ∉ seps.gap := by
  simp only [separatorTexts,List.forall_mem_cons] at plain
  obtain ⟨a,b,d,e,f,g,h,i,j,_⟩ := plain
  exact ⟨plainFree a steers,plainFree b steers,plainFree d steers,plainFree e steers,plainFree f steers,
    plainFree g steers,plainFree h steers,plainFree i steers,plainFree j steers⟩

theorem leftBetweenQuiet {seps : Separators} (plain : ∀ t ∈ separatorTexts seps, Plain t)
    (steers : control c = true) (prevBg : Color) (prevPadded : Bool) (s : SegmentText) :
    Ink.text c ∉ leftBetween seps prevBg prevPadded s := by
  have space : Ink.text c ∉ (if prevPadded then [] else text " ".toList) := by
    split
    · exact List.not_mem_nil
    · rw [shownInText]
      exact spaceFree steers
  obtain ⟨segment,sub,_⟩ := separatorQuiet plain steers
  unfold leftBetween
  dsimp only
  split
  · exact List.not_mem_nil
  · split
    · exact space
    · split
      · split
        · exact space
        · rwa [shownInPaint]
      · split
        · exact space
        · rwa [shownInArrow]

/-- A segment and those behind it, with something in front that shows none of it. -/
theorem behindQuiet {opening rest : List Ink} {s : SegmentText} {column : List SegmentText}
    (quiet : Ink.text c ∉ opening) (reach : Ink.text c ∈ rest ↔ ∃ x ∈ column, Ink.text c ∈ x.text) :
    Ink.text c ∈ opening ++ (s.text ++ rest) ↔ ∃ x ∈ s :: column, Ink.text c ∈ x.text := by
  rw [List.mem_append,List.mem_append,or_iff_right quiet,reach]
  simp only [List.mem_cons,exists_eq_or_imp]

theorem openingQuiet {p q : Prop} [Decidable p] [Decidable q] {ch : Str} (other : c ∉ ch)
    (steers : control c = true) (fg bg : Color) (style : Style) :
    Ink.text c ∉ (if p then arrow ch fg bg else []) ++ (if q then paint " ".toList style else []) := by
  rw [List.mem_append,shownWhen,shownWhen,shownInArrow,shownInPaint]
  rintro (both | both)
  · exact other both.2
  · exact spaceFree steers both.2

theorem leftRestReach {seps : Separators} (plain : ∀ t ∈ separatorTexts seps, Plain t) (steers : control c = true)
    (prev : SegmentText) (column : List SegmentText) :
    Ink.text c ∈ leftRest seps prev column ↔ ∃ s ∈ column, Ink.text c ∈ s.text := by
  induction column generalizing prev with
  | nil =>
    have ends : c ∉ seps.endSymbol := (separatorQuiet plain steers).2.2.1
    simp [leftRest,ends]
  | cons s column ih =>
    rw [leftRest]
    exact behindQuiet (leftBetweenQuiet plain steers _ _ _) (ih s)

theorem rightBetweenQuiet {seps : Separators} (plain : ∀ t ∈ separatorTexts seps, Plain t)
    (steers : control c = true) (prevBg : Color) (s : SegmentText) : Ink.text c ∉ rightBetween seps prevBg s := by
  obtain ⟨_,_,_,_,segment,sub,_⟩ := separatorQuiet plain steers
  unfold rightBetween
  split
  · exact List.not_mem_nil
  · split
    · rwa [shownInPaint]
    · rw [shownWhen,shownInArrow]
      exact fun both => segment both.2

theorem rightRestReach {seps : Separators} (plain : ∀ t ∈ separatorTexts seps, Plain t) (steers : control c = true)
    (prev : SegmentText) (column : List SegmentText) :
    Ink.text c ∈ rightRest seps prev column ↔ ∃ s ∈ column, Ink.text c ∈ s.text := by
  induction column generalizing prev with
  | nil =>
    have ends : c ∉ seps.rightTail := (separatorQuiet plain steers).2.2.2.2.2.2.2.1
    simp [rightRest,ends]
  | cons s column ih =>
    rw [rightRest]
    exact behindQuiet (rightBetweenQuiet plain steers _ _) (ih s)

theorem visibleReach (column : List SegmentText) :
    (∃ s ∈ visibleSegments column, Ink.text c ∈ s.text) ↔ ∃ s ∈ column, Ink.text c ∈ s.text := by
  constructor
  · intro ⟨s,mem,shown⟩
    exact ⟨s,List.mem_of_mem_filter mem,shown⟩
  · intro ⟨s,mem,shown⟩
    exact ⟨s,List.mem_filter.mpr ⟨mem,decide_eq_true (List.ne_nil_of_mem shown)⟩,shown⟩

theorem leftReach {seps : Separators} (plain : ∀ t ∈ separatorTexts seps, Plain t) (steers : control c = true)
    (column : List SegmentText) : Ink.text c ∈ leftText seps column ↔ ∃ s ∈ column, Ink.text c ∈ s.text := by
  have tail : c ∉ seps.leftTail := (separatorQuiet plain steers).2.2.2.2.2.2.1
  rw [← visibleReach]
  unfold leftText
  split
  · rename_i none'
    rw [none']
    simp
  · rename_i first rest visible
    rw [visible,← List.append_assoc]
    exact behindQuiet (openingQuiet tail steers _ _ _) (leftRestReach plain steers first rest)

theorem rightReach {seps : Separators} (plain : ∀ t ∈ separatorTexts seps, Plain t) (steers : control c = true)
    (column : List SegmentText) : Ink.text c ∈ rightText seps column ↔ ∃ s ∈ column, Ink.text c ∈ s.text := by
  have start : c ∉ seps.rightStart := (separatorQuiet plain steers).2.2.2.1
  rw [← visibleReach]
  unfold rightText
  split
  · rename_i none'
    rw [none']
    simp
  · rename_i first rest visible
    rw [visible,← List.append_assoc]
    exact behindQuiet (openingQuiet start steers _ _ _) (rightRestReach plain steers first rest)

theorem gapCharQuiet {seps : Separators} (plain : ∀ t ∈ separatorTexts seps, Plain t) (steers : control c = true) :
    c ∉ gapChar seps := by
  unfold gapChar
  split
  · exact plainFree (by decide) steers
  · exact (separatorQuiet plain steers).2.2.2.2.2.2.2.2

theorem copiesFree {t : Str} (free : c ∉ t) (n : Nat) : c ∉ (List.replicate n t).flatten := by
  intro mem
  obtain ⟨piece,copy,here⟩ := List.mem_flatten.mp mem
  exact free (List.eq_of_mem_replicate copy ▸ here)

theorem gapQuiet {seps : Separators} (plain : ∀ t ∈ separatorTexts seps, Plain t) (steers : control c = true)
    (n : Nat) : Ink.text c ∉ gapText seps n := by
  have all := copiesFree (gapCharQuiet plain steers) n
  unfold gapText
  dsimp only
  split
  · rwa [shownInPaint]
  · rwa [shownInText]

theorem assembledReach {seps : Separators} (plain : ∀ t ∈ separatorTexts seps, Plain t) (steers : control c = true)
    (left right : List SegmentText) (cols rightIndent : Nat) :
    Ink.text c ∈ assembleRow o left right cols seps rightIndent ↔ ∃ s ∈ left ++ right, Ink.text c ∈ s.text := by
  have both : (∃ s ∈ left ++ right, Ink.text c ∈ s.text) ↔
      (∃ s ∈ left, Ink.text c ∈ s.text) ∨ ∃ s ∈ right, Ink.text c ∈ s.text := by
    simp only [List.mem_append,or_and_right,exists_or]
  rw [both]
  unfold assembleRow
  dsimp only
  split
  · rename_i none'
    rw [leftReach plain steers,← visibleReach right,none']
    simp
  · rw [List.mem_append,List.mem_append,or_iff_right (gapQuiet plain steers _),leftReach plain steers,
      rightReach plain steers]

theorem sideReach (own : OwnPlain config) (steers : control c = true) (elements : Option (List Element))
    (right : Bool) (budget : Option Nat) :
    (∃ s ∈ renderSide o config elements info vcs right budget, Ink.text c ∈ s.text) ↔
      ∃ t ∈ (elements.getD []).flatMap (foreignTexts o config info vcs budget), c ∈ t := by
  have side : renderSide o config elements info vcs right budget =
      (elements.getD []).map (renderElement o config info vcs right budget) := by
    cases elements with
    | none => rfl
    | some elements => rfl
  rw [side]
  constructor
  · intro ⟨s,mem,shown⟩
    obtain ⟨e,there,rfl⟩ := List.mem_map.mp mem
    obtain ⟨t,one,here⟩ := (elementReach own steers right budget e).mp shown
    exact ⟨t,List.mem_flatMap.mpr ⟨e,there,one⟩,here⟩
  · intro ⟨t,mem,here⟩
    obtain ⟨e,there,one⟩ := List.mem_flatMap.mp mem
    exact ⟨_,List.mem_map_of_mem there,(elementReach own steers right budget e).mpr ⟨t,one,here⟩⟩

theorem frameQuiet (own : OwnPlain config) (steers : control c = true) (i : Nat) :
    Ink.text c ∉ framePaint config (rowShape config i).pre ∧ Ink.text c ∉ framePaint config (rowShape config i).suf := by
  have plain := own.frame
  simp only [frameTexts,List.forall_mem_cons] at plain
  obtain ⟨a,b,d,e,_⟩ := plain
  rw [framePaint,framePaint,shownInPaint,shownInPaint]
  unfold rowShape
  split
  · exact ⟨plainFree a steers,plainFree b steers⟩
  · exact ⟨plainFree d steers,plainFree e steers⟩

/-- A control character reaches a row with the texts from elsewhere and in no other way. -/
theorem rowReach (own : OwnPlain config) (steers : control c = true) (cols i : Nat) :
    Ink.text c ∈ headerRow o config info vcs cols i ↔ ∃ t ∈ rowForeign o config info vcs cols i, c ∈ t := by
  obtain ⟨pre,suf⟩ := frameQuiet own steers i
  have columns : (∃ s ∈ (rowColumns o config info vcs cols i).1 ++ (rowColumns o config info vcs cols i).2,
      Ink.text c ∈ s.text) ↔ ∃ t ∈ rowForeign o config info vcs cols i, c ∈ t := by
    unfold rowColumns rowForeign
    dsimp only
    simp only [List.mem_append,or_and_right,exists_or]
    refine or_congr (sideReach own steers _ _ _) ?_
    split
    · exact sideReach own steers _ _ _
    · simp
  unfold headerRow
  dsimp only
  rw [List.mem_append,List.mem_append,or_iff_right pre,or_iff_left suf,assembledReach own.separators steers]
  exact columns

theorem rulerCharQuiet (own : OwnPlain config) (steers : control c = true) : c ∉ rulerChar config := by
  unfold rulerChar
  cases found : iconStr config "ruler".toList with
  | none => exact plainFree (by decide) steers
  | some t => exact plainFree (iconStrPlain own found) steers

theorem rulerQuiet (own : OwnPlain config) (steers : control c = true) (cols : Nat) :
    Ink.text c ∉ rulerRow o config cols := by
  rw [rulerRow,shownInPaint]
  exact copiesFree (rulerCharQuiet own steers) _

theorem headerReach (own : OwnPlain config) (steers : control c = true) (cols : Nat) :
    (∃ line ∈ renderHeaderLines o config info vcs cols, Ink.text c ∈ line) ↔
      ∃ i < layoutRows config, ∃ t ∈ rowForeign o config info vcs cols i, c ∈ t := by
  constructor
  · intro ⟨line,mem,shown⟩
    rcases List.mem_append.mp mem with ruler | row
    · split at ruler
      · rw [List.mem_singleton.mp ruler] at shown
        exact absurd shown (rulerQuiet own steers cols)
      · cases ruler
    · obtain ⟨i,there,rfl⟩ := List.mem_map.mp row
      exact ⟨i,List.mem_range.mp there,(rowReach own steers cols i).mp shown⟩
  · intro ⟨i,there,reach⟩
    exact ⟨_,List.mem_append_right _ (List.mem_map_of_mem (List.mem_range.mpr there)),
      (rowReach own steers cols i).mpr reach⟩

end reach
end P11k.Render
