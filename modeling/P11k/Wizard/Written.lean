import P11k.Settings.RoundTrip
import P11k.Wizard.Flow
import P11k.Wizard.Themes

/-! What the wizard writes, and when. -/
namespace P11k.Wizard
open Settings Presets Render Terminal
open Dialogue (Reply Tells Yields Lawful tellsThen tellsAsk tellsPure tellsMono yieldsThen lawfulThen lawfulAsk lawfulPure)

section written
variable {φ : Type}

/-! What an edit does to the layout. -/

theorem listedWithout (name : String) (layout : Layout) :
    listed { layout with left := without name layout.left, right := without name layout.right } =
      (listed layout).filter (· ≠ name.toList) := by
  have row : ∀ row : List Element, (row.filter fun e => !isSeg name e).filterMap segName =
      (row.filterMap segName).filter (· ≠ name.toList) := by
    intro row
    induction row with
    | nil => rfl
    | cons e row ih =>
      cases e with
      | seg s =>
        rw [List.filterMap_cons_some (show segName (.seg s) = some s from rfl)]
        by_cases same : s = name.toList
        · rw [List.filter_cons_of_neg (by simp [isSeg,same]),List.filter_cons_of_neg (by simp [same]),ih]
        · rw [List.filter_cons_of_pos (by simp [isSeg,same]),List.filter_cons_of_pos (by simp [same]),← ih]
          rfl
      | joined s => rw [List.filter_cons_of_pos (by rfl)]; exact ih
      | text t => rw [List.filter_cons_of_pos (by rfl)]; exact ih
  have rows : ∀ rows : List (List Element), (without name rows).flatten.filterMap segName =
      (rows.flatten.filterMap segName).filter (· ≠ name.toList) := by
    intro rows
    induction rows with
    | nil => rfl
    | cons r rows ih =>
      rw [without,List.map_cons,List.flatten_cons,List.filterMap_append,row,List.flatten_cons,List.filterMap_append,
        List.filter_append]
      exact congrArg _ ih
  simp only [listed,List.filterMap_append,rows,List.filter_append]

theorem pushedNames (name : String) (rows : List (List Element)) :
    ((pushFirst name rows).flatten.filterMap segName).Perm (name.toList :: rows.flatten.filterMap segName) := by
  cases rows with
  | nil => exact .refl _
  | cons row rows =>
    simp only [pushFirst,List.flatten_cons,List.append_assoc,List.filterMap_append]
    exact List.perm_middle

theorem listedLeft (name : String) (layout : Layout) :
    (listed { layout with left := pushFirst name layout.left }).Perm (name.toList :: listed layout) := by
  simp only [listed,List.filterMap_append]
  exact (pushedNames name layout.left).append_right _

theorem listedRight (name : String) (layout : Layout) :
    (listed { layout with right := pushFirst name layout.right }).Perm (name.toList :: listed layout) := by
  simp only [listed,List.filterMap_append]
  exact ((pushedNames name layout.right).append_left _).trans List.perm_middle

theorem withoutReadable {rows : List (List Element)} (readable : ∀ row ∈ rows, ∀ e ∈ row, e.Readable) (name : String) :
    ∀ row ∈ without name rows, ∀ e ∈ row, e.Readable := by
  intro row mem e there
  obtain ⟨old,before,rfl⟩ := List.mem_map.mp mem
  exact readable old before e (List.mem_of_mem_filter there)

theorem pushReadable {rows : List (List Element)} (readable : ∀ row ∈ rows, ∀ e ∈ row, e.Readable) {name : String}
    (new : (Element.seg name.toList).Readable) : ∀ row ∈ pushFirst name rows, ∀ e ∈ row, e.Readable := by
  have one : ∀ e ∈ segs [name], e.Readable := by
    intro e mem
    rw [List.mem_singleton.mp mem]
    exact new
  cases rows with
  | nil =>
    intro row mem
    rw [List.mem_singleton.mp mem]
    exact one
  | cons first rows =>
    obtain ⟨here,rest⟩ := List.forall_mem_cons.mp readable
    exact List.forall_mem_cons.mpr ⟨List.forall_mem_append.mpr ⟨here,one⟩,rest⟩

/-! What an edit keeps. -/

theorem layoutSound {c : Config φ} (sound : ThemeSound c) {layout : Layout} (readable : layout.Readable)
    (once : (listed layout).Nodup) : ThemeSound { c with layout := layout } := by
  obtain ⟨⟨_,segments,defaults,separators,frame⟩,⟨texts,symbols,pieces,overrides,remotes,classes⟩,_⟩ := sound
  exact ⟨⟨readable,segments,defaults,separators,frame⟩,⟨texts,symbols,pieces,overrides,remotes,classes⟩,once⟩

theorem segmentSound {c : Config φ} (sound : ThemeSound c) (name : Str) {seg : Segment φ} (new : SegmentSound seg) :
    ThemeSound { c with segments := c.segments.insert name seg } := by
  obtain ⟨⟨layout,segments,defaults,separators,frame⟩,⟨texts,symbols,pieces,overrides,remotes,classes⟩,once⟩ := sound
  exact ⟨⟨layout,insertForall new.readable segments,defaults,separators,frame⟩,
    ⟨insertForall new.plain texts,symbols,pieces,overrides,remotes,classes⟩,once⟩

theorem foundSound {c : Config φ} (sound : ThemeSound c) {name : Str} {seg : Segment φ}
    (there : c.segments.get? name = some seg) : SegmentSound seg :=
  ⟨sound.readable.segments _ (SortedMap.getMem there),sound.plain.segments _ (SortedMap.getMem there)⟩

theorem separatorsSound {c : Config φ} (sound : ThemeSound c) {separators : Separators} (readable : separators.Readable)
    (plain : ∀ t ∈ separatorTexts separators, Plain t) : ThemeSound { c with separators := separators } := by
  obtain ⟨⟨layout,segments,defaults,_,frame⟩,⟨texts,_,pieces,overrides,remotes,classes⟩,once⟩ := sound
  exact ⟨⟨layout,segments,defaults,readable,frame⟩,⟨texts,plain,pieces,overrides,remotes,classes⟩,once⟩

theorem frameSound {c : Config φ} (sound : ThemeSound c) {frame : Frame} (readable : frame.Readable)
    (plain : ∀ t ∈ frameTexts frame, Plain t) : ThemeSound { c with frame := frame } := by
  obtain ⟨⟨layout,segments,defaults,separators,_⟩,⟨texts,symbols,_,overrides,remotes,classes⟩,once⟩ := sound
  exact ⟨⟨layout,segments,defaults,separators,readable⟩,⟨texts,symbols,plain,overrides,remotes,classes⟩,once⟩

theorem modeSound {c : Config φ} (sound : ThemeSound c) (mode : IconMode) : ThemeSound { c with mode := mode } := by
  obtain ⟨⟨layout,segments,defaults,separators,frame⟩,⟨texts,symbols,pieces,overrides,remotes,classes⟩,once⟩ := sound
  exact ⟨⟨layout,segments,defaults,separators,frame⟩,⟨texts,symbols,pieces,overrides,remotes,classes⟩,once⟩

theorem removeSound {c : Config φ} (sound : ThemeSound c) (name : String) : ThemeSound (removeSegment c name) := by
  obtain ⟨left,right,newline,indent⟩ := sound.readable.layout
  refine layoutSound sound ⟨withoutReadable left name,withoutReadable right name,newline,indent⟩ ?_
  rw [listedWithout]
  exact sound.once.filter _

theorem removeListed (c : Config φ) (name : String) : listed (removeSegment c name).layout =
    (listed c.layout).filter (· ≠ name.toList) := listedWithout name c.layout

theorem addSound {c : Config φ} (sound : ThemeSound c) (name : String) (new : (Element.seg name.toList).Readable)
    (fresh : name.toList ∉ listed c.layout) : ThemeSound (addToRight c name) := by
  unfold addToRight
  split
  · exact sound
  · obtain ⟨left,right,newline,indent⟩ := sound.readable.layout
    refine layoutSound sound ⟨left,pushReadable right new,newline,indent⟩ ?_
    exact (listedRight name c.layout).nodup_iff.mpr (List.nodup_cons.mpr ⟨fresh,sound.once⟩)

theorem rpromptSound {c : Config φ} (sound : ThemeSound c) (i : Nat) : ThemeSound (useRprompt c i) := by
  have removed := removeSound sound "command_execution_time"
  have fresh : "command_execution_time".toList ∉ listed (removeSegment c "command_execution_time").layout := by
    rw [removeListed]
    exact fun mem => of_decide_eq_true (List.mem_filter.mp mem).2 rfl
  obtain ⟨left,right,newline,indent⟩ := removed.readable.layout
  have once := List.nodup_cons.mpr ⟨fresh,removed.once⟩
  unfold useRprompt
  dsimp only
  split
  · exact layoutSound removed ⟨pushReadable left (by decide),right,newline,indent⟩ ((listedLeft _ _).nodup_iff.mpr once)
  · exact layoutSound removed ⟨left,pushReadable right (by decide),newline,indent⟩ ((listedRight _ _).nodup_iff.mpr once)

theorem rpromptListed (c : Config φ) (i : Nat) {name : Str} (other : name ≠ "command_execution_time".toList)
    (fresh : name ∉ listed c.layout) : name ∉ listed (useRprompt c i).layout := by
  have removed : name ∉ "command_execution_time".toList ::
      listed (removeSegment c "command_execution_time").layout := by
    rw [removeListed,List.mem_cons,List.mem_filter]
    exact not_or.mpr ⟨other,fun there => fresh there.1⟩
  unfold useRprompt
  dsimp only
  split
  · exact fun mem => removed ((listedLeft _ _).mem_iff.mp mem)
  · exact fun mem => removed ((listedRight _ _).mem_iff.mp mem)

theorem propSound {seg : Segment φ} (sound : SegmentSound seg) {name : Str} {v : PropValue φ}
    (new : PropSound (name,v)) : SegmentSound { seg with props := seg.props.insert name v } := by
  obtain ⟨⟨style,states,left,middle,right,props⟩,plain⟩ := sound
  refine ⟨⟨style,states,left,middle,right,insertForall new.1 props⟩,fun t mem => ?_⟩
  rcases memTexts.mp mem with fixed | states | ⟨e,there,text⟩
  · exact plain t (memTexts.mpr (.inl fixed))
  · exact plain t (memTexts.mpr (.inr (.inl states)))
  · rcases SortedMap.insertMem there with rfl | before
    · exact new.2 t text
    · exact plain t (memTexts.mpr (.inr (.inr ⟨e,before,text⟩)))

theorem timeSound {c : Config φ} (sound : ThemeSound c) (fresh : "time".toList ∉ listed c.layout) (kind : PresetKind)
    (i : Nat) : ThemeSound (showTime kind c i) := by
  unfold showTime
  split
  · exact removeSound sound "time"
  · have added := addSound sound "time" (by decide) fresh
    have seg : SegmentSound (timeSegment kind (addToRight c "time")) := by
      unfold timeSegment
      cases there : (addToRight c "time").segments.get? "time".toList with
      | some seg => exact foundSound added there
      | none => exact colouredSound (styledReadable (xReadable 66) _) emptyForall emptyForall rfl
    refine segmentSound added _ (propSound seg ?_)
    split <;> exact wordSound (by decide) (by decide)

theorem symbolsSound {c : Config φ} (sound : ThemeSound c) {separators : Separators}
    (gap : separators.gapForeground = c.separators.gapForeground ∨ ∀ g, separators.gapForeground = some g → g.Readable)
    (sub : separators.subForeground = c.separators.subForeground)
    (rightSub : separators.rightSubForeground = c.separators.rightSubForeground)
    (plain : ∀ t ∈ separatorTexts separators, Plain t) : ThemeSound { c with separators := separators } := by
  obtain ⟨gapOk,subOk,rightOk⟩ := sound.readable.separators
  refine separatorsSound sound ⟨?_,sub ▸ subOk,rightSub ▸ rightOk⟩ plain
  rcases gap with same | readable
  · exact same ▸ gapOk
  · exact readable

theorem setSeparatorsSound {c : Config φ} (sound : ThemeSound c) (i : Nat) : ThemeSound (setSeparators c i) := by
  have old := sound.plain.separators
  simp only [separatorTexts,List.forall_mem_cons] at old
  obtain ⟨_,_,last,start,_,_,leftTail,rightTail,gap,_⟩ := old
  refine symbolsSound sound (.inl rfl) rfl rfl ?_
  simp only [separatorTexts,List.forall_mem_cons]
  split <;> exact ⟨by decide,by decide,last,start,by decide,by decide,leftTail,rightTail,gap,List.forall_mem_nil _⟩

theorem setHeadsSound {c : Config φ} (sound : ThemeSound c) (i : Nat) : ThemeSound (setHeads c i) := by
  have old := sound.plain.separators
  simp only [separatorTexts,List.forall_mem_cons] at old
  obtain ⟨seg,sub,_,_,rseg,rsub,leftTail,rightTail,gap,_⟩ := old
  refine symbolsSound sound (.inl rfl) rfl rfl ?_
  simp only [separatorTexts,List.forall_mem_cons]
  split <;> exact ⟨seg,sub,by decide,by decide,rseg,rsub,leftTail,rightTail,gap,List.forall_mem_nil _⟩

theorem setTailsSound {c : Config φ} (sound : ThemeSound c) (i : Nat) : ThemeSound (setTails c i) := by
  have old := sound.plain.separators
  simp only [separatorTexts,List.forall_mem_cons] at old
  obtain ⟨seg,sub,last,start,rseg,rsub,_,_,gap,_⟩ := old
  refine symbolsSound sound (.inl rfl) rfl rfl ?_
  simp only [separatorTexts,List.forall_mem_cons]
  split <;> exact ⟨seg,sub,last,start,rseg,rsub,by decide,by decide,gap,List.forall_mem_nil _⟩

theorem setNumLinesSound {c : Config φ} (sound : ThemeSound c) (i : Nat) : ThemeSound (setNumLines c i) := by
  unfold setNumLines
  split
  · obtain ⟨_,_,newline,indent⟩ := sound.readable.layout
    have cleared : ThemeSound { c with layout := { c.layout with left := [], right := [] } } := layoutSound sound
      ⟨fun _ mem => absurd mem List.not_mem_nil,fun _ mem => absurd mem List.not_mem_nil,newline,indent⟩ List.nodup_nil
    exact separatorsSound (frameSound cleared noFrame (by decide)) noColours (by decide)
  · exact sound

theorem setGapCharSound {c : Config φ} (sound : ThemeSound c) (i : Nat) : ThemeSound (setGapChar c i) := by
  have old := sound.plain.separators
  simp only [separatorTexts,List.forall_mem_cons] at old
  obtain ⟨seg,sub,last,start,rseg,rsub,leftTail,rightTail,_,_⟩ := old
  refine symbolsSound sound (.inr ?_) rfl rfl ?_
  · intro g same
    dsimp only at same
    split at same
    · cases same
    · exact Option.some.inj same ▸ xReadable 240
  · simp only [separatorTexts,List.forall_mem_cons]
    split <;> exact ⟨seg,sub,last,start,rseg,rsub,leftTail,rightTail,by decide,List.forall_mem_nil _⟩

theorem emptyPlain : Plain [] := by decide

theorem prefixSound {f : Frame} (readable : f.Readable) (plain : ∀ t ∈ frameTexts f, Plain t) :
    (clearPrefix f).Readable ∧ ∀ t ∈ frameTexts (clearPrefix f), Plain t := by
  obtain ⟨style,_,firstSuffix,_,newlineSuffix,_,lastSuffix⟩ := readable
  simp only [frameTexts,List.forall_mem_cons] at plain ⊢
  exact ⟨⟨style,pieceReadable _,firstSuffix,pieceReadable _,newlineSuffix,pieceReadable _,lastSuffix⟩,
    emptyPlain,plain.2.1,emptyPlain,plain.2.2.2.1,List.forall_mem_nil _⟩

theorem suffixSound {f : Frame} (readable : f.Readable) (plain : ∀ t ∈ frameTexts f, Plain t) :
    (clearSuffix f).Readable ∧ ∀ t ∈ frameTexts (clearSuffix f), Plain t := by
  obtain ⟨style,firstPrefix,_,newlinePrefix,_,lastPrefix,_⟩ := readable
  simp only [frameTexts,List.forall_mem_cons] at plain ⊢
  exact ⟨⟨style,firstPrefix,pieceReadable _,newlinePrefix,pieceReadable _,lastPrefix,pieceReadable _⟩,
    plain.1,emptyPlain,plain.2.2.1,emptyPlain,List.forall_mem_nil _⟩

theorem setFrameSound {c : Config φ} (sound : ThemeSound c) (i : Nat) : ThemeSound (setFrame c i) := by
  have both : ∀ f : Frame, f.Readable ∧ (∀ t ∈ frameTexts f, Plain t) → ThemeSound { c with frame := f } :=
    fun f ⟨readable,plain⟩ => frameSound sound readable plain
  have readable := sound.readable.frame
  have plain := sound.plain.frame
  unfold setFrame
  refine both _ ?_
  split
  · obtain ⟨readable',plain'⟩ := prefixSound readable plain
    exact suffixSound readable' plain'
  · exact suffixSound readable plain
  · exact prefixSound readable plain
  · exact ⟨readable,plain⟩

theorem setEmptyLineSound {c : Config φ} (sound : ThemeSound c) (i : Nat) : ThemeSound (setEmptyLine c i) := by
  obtain ⟨left,right,_,indent⟩ := sound.readable.layout
  refine layoutSound sound ⟨left,right,?_,indent⟩ sound.once
  dsimp only
  split <;> decide

theorem setExtraIconsSound {c : Config φ} (sound : ThemeSound c) (i : Nat) : ThemeSound (setExtraIcons c i) := by
  unfold setExtraIcons
  split
  · obtain ⟨readable,⟨texts,symbols,pieces,overrides,remotes,classes⟩,once⟩ := removeSound sound "os_icon"
    obtain ⟨layout,segments,defaults,separators,frame⟩ := readable
    have hidden : ∀ t ∈ overrideTexts { all := some [] }, Plain t := by decide
    refine ⟨⟨layout,segments,defaults,separators,frame⟩,⟨texts,symbols,pieces,?_,
      fun _ mem => absurd mem List.not_mem_nil,classes⟩,once⟩
    simp only [List.foldl_cons,List.foldl_nil]
    exact insertForall hidden (insertForall hidden (insertForall hidden (insertForall hidden
      (insertForall hidden overrides))))
  · exact sound

theorem setPrefixSound {c : Config φ} (sound : ThemeSound c) (name : String) {told : Option String}
    (plain : ∀ text, told = some text → Plain text.toList) : ThemeSound (setPrefix c name told) := by
  unfold setPrefix
  split
  · exact sound
  · rename_i seg there
    obtain ⟨⟨style,states,left,middle,right,props⟩,texts⟩ := foundSound sound there
    refine segmentSound sound _ ⟨⟨style,states,left,middle,right,props⟩,fun t mem => ?_⟩
    rcases memTexts.mp mem with fixed | rest
    · have new : t ∈ ownTexts seg ∨ told.map String.toList = some t := by
        simp only [ownTexts,List.mem_append,Option.mem_toList] at fixed ⊢
        tauto
      rcases new with old | same
      · exact texts t (memTexts.mpr (.inl old))
      · obtain ⟨text,here,rfl⟩ := Option.map_eq_some_iff.mp same
        exact plain text here
    · exact texts t (memTexts.mpr (.inr rest))

theorem setPrefixesSound {c : Config φ} (sound : ThemeSound c) (i : Nat) : ThemeSound (setPrefixes c i) := by
  have none' : ∀ text : String, (none : Option String) = some text → Plain text.toList :=
    fun _ no => absurd no (by simp)
  have bare : ThemeSound (["vcs","command_execution_time","time"].foldl (fun c name => setPrefix c name none) c) :=
    setPrefixSound (setPrefixSound (setPrefixSound sound _ none') _ none') _ none'
  have word : ∀ word : String, Plain word.toList → ∀ text, some word = some text → Plain text.toList :=
    fun _ plain _ same => Option.some.inj same ▸ plain
  unfold setPrefixes
  dsimp only
  split
  · exact setPrefixSound (setPrefixSound (setPrefixSound bare _ (word _ (by decide))) _ (word _ (by decide))) _
      (word _ (by decide))
  · exact bare

theorem transientSound {c : Config φ} (sound : ThemeSound c) (transient : TransientPrompt) :
    ThemeSound { c with layout := { c.layout with transientPrompt := transient } } := by
  obtain ⟨left,right,newline,indent⟩ := sound.readable.layout
  exact layoutSound sound ⟨left,right,newline,indent⟩ sound.once

/-! Along the questions. -/

/-- Before the question for the time. -/
structure Untimed (c : Config φ) : Prop where
  sound : ThemeSound c
  fresh : "time".toList ∉ listed c.layout

theorem arrowUntimed : "time".toList ∉ listed arrowLayout := by decide

theorem colourUntimed (kind : PresetKind) (i : Nat) (mode : IconMode) :
    Untimed { (buildWithColor kind i : Config φ) with mode := mode } := by
  cases kind with
  | lean =>
    have fresh : "time".toList ∉ listed (lean false : Config Unit).layout := by decide
    exact ⟨modeSound (leanSound _) mode,fresh⟩
  | classic => exact ⟨modeSound (classicSound _) mode,arrowUntimed⟩
  | rainbow => exact ⟨modeSound (rainbowSound _) mode,arrowUntimed⟩
  | pure =>
    have fresh : "time".toList ∉ listed (Presets.pure false : Config Unit).layout := by decide
    exact ⟨modeSound (pureSound _) mode,fresh⟩

theorem choiceYields (q : Question) : Yields (askChoicePreview q) fun _ => True := tellsAsk fun _ _ _ => trivial

theorem ynYields (title yes no : String) : Yields (askYn title yes no) fun _ => True := tellsAsk fun _ _ _ => trivial

theorem applyYields {q : Question} {c : Config φ} {apply : Config φ → Nat → Config φ} {P : Config φ → Prop}
    (keeps : ∀ i, P (apply c i)) : Yields (askApply q c apply) P :=
  yieldsThen (choiceYields q) fun i _ => tellsPure (keeps i)

theorem fontYields : Yields askFont fun _ => True := fun _ _ _ => trivial

theorem colorYields (kind : PresetKind) (mode : IconMode) : Yields (askColor kind mode : Asking (Config φ)) Untimed :=
  yieldsThen (choiceYields _) fun i _ => tellsPure (colourUntimed kind i mode)

theorem unicodeYields {c : Config φ} (untimed : Untimed c) : Yields (askUnicode c) Untimed := by
  unfold askUnicode
  split
  · refine yieldsThen (P := fun _ => True) (yieldsThen (choiceYields _) fun i _ => tellsPure trivial) fun ascii _ => ?_
    refine tellsPure ?_
    cases ascii with
    | true => exact ⟨modeSound untimed.sound .ascii,untimed.fresh⟩
    | false => exact untimed
  · exact tellsPure untimed

theorem rpromptYields (kind : PresetKind) {c : Config φ} (untimed : Untimed c) : Yields (askRprompt kind c) Untimed := by
  unfold askRprompt
  split
  · exact applyYields fun i => ⟨rpromptSound untimed.sound i,rpromptListed c i (by decide) untimed.fresh⟩
  · exact tellsPure untimed

theorem shapeYields (kind : PresetKind) {c : Config φ} (sound : ThemeSound c) : Yields (askShape kind c) ThemeSound := by
  unfold askShape
  split
  · exact yieldsThen (applyYields (setSeparatorsSound sound)) fun c sound =>
      yieldsThen (applyYields (setHeadsSound sound)) fun c sound => applyYields (setTailsSound sound)
  · exact tellsPure sound

theorem connectionYields (kind : PresetKind) {c : Config φ} (sound : ThemeSound c) :
    Yields (askConnection kind c) ThemeSound := by
  unfold askConnection
  split
  · exact yieldsThen (applyYields (setGapCharSound sound)) fun c sound => applyYields (setFrameSound sound)
  · exact tellsPure sound

theorem transientYields {c : Config φ} (sound : ThemeSound c) : Yields (askTransient c) ThemeSound :=
  yieldsThen (ynYields _ _ _) fun _ _ => tellsPure (transientSound sound _)

theorem themeYields : Yields (askTheme : Asking (Config φ)) ThemeSound := by
  refine yieldsThen fontYields fun mode _ => ?_
  refine yieldsThen (P := fun _ => True) (yieldsThen (choiceYields _) fun i _ => tellsPure trivial) fun kind _ => ?_
  refine yieldsThen (colorYields kind mode) fun c untimed => ?_
  refine yieldsThen (unicodeYields untimed) fun c untimed => ?_
  refine yieldsThen (rpromptYields kind untimed) fun c untimed => ?_
  refine yieldsThen (applyYields (timeSound untimed.sound untimed.fresh kind)) fun c sound => ?_
  refine yieldsThen (shapeYields kind sound) fun c sound => ?_
  refine yieldsThen (applyYields (setNumLinesSound sound)) fun c sound => ?_
  refine yieldsThen (connectionYields kind sound) fun c sound => ?_
  refine yieldsThen (applyYields (setEmptyLineSound sound)) fun c sound => ?_
  refine yieldsThen (applyYields (setExtraIconsSound sound)) fun c sound => ?_
  exact yieldsThen (applyYields (setPrefixesSound sound)) fun c sound => transientYields sound

/-! The last questions. -/

def yes (q : Question) : Reply UInt8 Question := ⟨q,121,.answer ()⟩

/-- The replies that a theme is written behind. -/
def consent (exists' : Bool) : List (Reply UInt8 Question) :=
  yes confirmation :: if exists' then [yes overwriting] else []

theorem confirmTells (q : Question) : Tells (confirm q) fun _ replies => replies = [yes q] := by
  refine tellsAsk fun k u meaning => ?_
  obtain ⟨step,read,same⟩ := Option.map_eq_some_iff.mp meaning
  have agreed : k = 121 := by
    unfold ynKey at read
    split at read
    · obtain rfl := Option.some.inj read
      cases same
    · split at read
      · obtain rfl := Option.some.inj read
        cases same
      · split at read
        · assumption
        · split at read
          · obtain rfl := Option.some.inj read
            cases same
          · cases read
  rw [agreed]
  rfl

theorem flowTells (exists' : Bool) : Tells (flow exists' : Asking (Config φ)) fun c replies =>
    ThemeSound c ∧ ∃ before, replies = before ++ consent exists' := by
  refine tellsThen themeYields fun c before sound => ?_
  refine tellsThen (confirmTells confirmation) fun _ first agreed => ?_
  subst agreed
  cases exists' with
  | true =>
    refine tellsThen (confirmTells overwriting) fun _ second agreed => ?_
    subst agreed
    exact tellsPure ⟨sound,before,rfl⟩
  | false => exact tellsPure ⟨sound,before,rfl⟩

/-! Every question may be left. -/

theorem choiceLawful (q : Question) : Lawful (askChoicePreview q) := lawfulAsk _ _

theorem ynLawful (title yes no : String) : Lawful (askYn title yes no) := lawfulAsk _ _

theorem applyLawful (q : Question) (c : Config φ) (apply : Config φ → Nat → Config φ) : Lawful (askApply q c apply) :=
  lawfulThen (choiceLawful q) fun _ => lawfulPure _

theorem fontLawful : Lawful askFont := by
  refine lawfulThen (ynLawful _ _ _) fun diamond => ?_
  cases diamond with
  | true => exact lawfulThen (ynLawful _ _ _) fun _ => lawfulPure _
  | false => exact lawfulThen (ynLawful _ _ _) fun _ => lawfulPure _

theorem branchLawful {α : Type} {p : Prop} [Decidable p] {m : Asking α} {a : α} (lawful : Lawful m) :
    Lawful (if p then m else Pure.pure a) := by
  split
  · exact lawful
  · exact lawfulPure a

theorem themeLawful : Lawful (askTheme : Asking (Config φ)) := by
  refine lawfulThen fontLawful fun mode => lawfulThen (lawfulThen (choiceLawful _) fun _ => lawfulPure _) fun kind => ?_
  refine lawfulThen (lawfulThen (choiceLawful _) fun _ => lawfulPure _) fun c => ?_
  refine lawfulThen (branchLawful ?_) fun c => lawfulThen (branchLawful (applyLawful _ _ _)) fun c => ?_
  · exact lawfulThen (lawfulThen (choiceLawful _) fun _ => lawfulPure _) fun _ => lawfulPure _
  refine lawfulThen (applyLawful _ _ _) fun c => lawfulThen (branchLawful ?_) fun c => ?_
  · exact lawfulThen (applyLawful _ _ _) fun c => lawfulThen (applyLawful _ _ _) fun c => applyLawful _ _ _
  refine lawfulThen (applyLawful _ _ _) fun c => lawfulThen (branchLawful ?_) fun c => ?_
  · exact lawfulThen (applyLawful _ _ _) fun c => applyLawful _ _ _
  refine lawfulThen (applyLawful _ _ _) fun c => lawfulThen (applyLawful _ _ _) fun c => lawfulThen (applyLawful _ _ _) fun c => ?_
  exact lawfulThen (ynLawful _ _ _) fun _ => lawfulPure _

theorem flowLawful (exists' : Bool) : Lawful (flow exists' : Asking (Config φ)) := by
  refine lawfulThen themeLawful fun c => lawfulThen (lawfulAsk _ _) fun _ => ?_
  cases exists' with
  | true => exact lawfulThen (lawfulAsk _ _) fun _ => lawfulPure _
  | false => exact lawfulPure _

/-- The rounds of a run are enough for its keys. -/
theorem roundsEnough (exists' : Bool) (keys : List UInt8) {n : Nat} (more : keys.length < n) :
    Dialogue.converse (flow exists' : Asking (Config φ)) n keys = run exists' keys :=
  Dialogue.converseEnough (flowLawful exists') more (Nat.lt_succ_self keys.length)

/-- A theme that the wizard writes can be read again, whatever the keys were, and is read as it was written; none of its
texts has a control character, and its layout lists no segment twice. -/
theorem writtenThemeRead (floatText : φ → Str) (t : Str → Str) {exists' : Bool} {keys : List UInt8} {c : Config φ}
    (written : (run exists' keys).1 = some c) (later : Bool) :
    parseDoc floatText t later (toDocument c) = .ok c ∧ OwnPlain c ∧ (listed c.layout).Nodup := by
  obtain ⟨-,before,last,-,answer,-⟩ := Dialogue.converseAnswer (flowLawful exists') written
  have sound := (flowTells exists' last c answer).1
  exact ⟨documentRead later sound.readable,sound.plain,sound.once⟩

/-- The configuration file changes only when the theme was confirmed last, and the overwriting behind it where there was
a file; nobody quit before. -/
theorem changedOnConsent (write : Config φ → Str) (file : Option Str) (keys : List UInt8)
    (changed : configured write file keys ≠ file) : ∃ c before, configured write file keys = some (write c) ∧
      run file.isSome keys = (some c,before ++ consent file.isSome) ∧ ∀ r ∈ before, r.kind ≠ .quit := by
  unfold configured at changed ⊢
  cases written : (run file.isSome keys).1 with
  | none =>
    rw [written] at changed
    exact absurd rfl changed
  | some c =>
    obtain ⟨stayed,before,last,same,answer,-⟩ := Dialogue.converseAnswer (flowLawful file.isSome) written
    obtain ⟨-,front,replies⟩ := flowTells file.isSome last c answer
    have whole : (run file.isSome keys : Option (Config φ) × _).2 = (before ++ front) ++ consent file.isSome := by
      rw [List.append_assoc,← replies]
      exact same
    refine ⟨c,before ++ front,rfl,Prod.ext written whole,fun r mem => stayed r ?_⟩
    exact whole ▸ List.mem_append_left _ mem

end written

/-- Nerd font icons, the `lean` theme in two lines, and the first of everything else. -/
def leanKeys : List UInt8 := [121,121,49,49,49,49,50,49,50,49,110,121]

theorem leanThemeRead : ∃ c : Config Unit, (run false leanKeys).1 = some c ∧
    parseDoc (fun _ => []) id true (toDocument c) = .ok c ∧ OwnPlain c ∧ (listed c.layout).Nodup := by
  have answered : (run false leanKeys : Option (Config Unit) × _).1.isSome = true := by decide
  obtain ⟨c,written⟩ := Option.isSome_iff_exists.mp answered
  exact ⟨c,written,writtenThemeRead (fun _ => []) id written true⟩

theorem leanChangedOnConsent : ∃ (c : Config Unit) (before : List (Reply UInt8 Question)),
    configured (fun _ : Config Unit => ['n']) (some ['o']) (leanKeys ++ [114] ++ leanKeys ++ [121]) = some ['n'] ∧
      run true (leanKeys ++ [114] ++ leanKeys ++ [121]) = (some c,before ++ consent true) ∧
      ∀ r ∈ before, r.kind ≠ .quit :=
  changedOnConsent (fun _ => ['n']) (some ['o']) _ (by decide)

end P11k.Wizard
