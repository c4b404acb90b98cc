import P11k.Lib.Overrides
import P11k.Settings.Parse

/-! Repeated nodes of one segment beside one node that holds everything they hold: a later setting wins, except
where it sets an attribute back to its default. -/
namespace P11k.Settings
open P11k Reading Overrides

section repeated
variable {φ : Type} (floatText : φ → Str) (t : Str → Str)

/-! What a node of a segment says, attribute by attribute. -/

def setting {ν : Type} (attr : Str) (read : KdlValue φ → ν) (e : KdlEntry φ) : Option ν :=
  if e.name = some attr then some (read e.value) else none

/-- The last entry of the attribute, if there is one. -/
def lastSetting {ν : Type} (attr : Str) (read : KdlValue φ → ν) (entries : List (KdlEntry φ)) : Option ν :=
  lastSet (entries.map (setting attr read))

def colorOf (v : KdlValue φ) : Color := (Color.fromValue v).toOption.getD .default

def propEntry (e : KdlEntry φ) : Option (Str × PropValue φ) :=
  e.name.bind fun name => if ownNames.any fun own => own = name then none else some (name,propVal e.value)

def stateEntry (child : KdlNode φ) : Option (Str × StateSpec) :=
  if child.name = "state".toList then (firstStateName child).bind fun nm =>
    (Style.parse child.entries).toOption.map fun st => (nm,⟨st,namedStr floatText child "char".toList⟩)
  else none

def attachment (slot : Str) (child : KdlNode φ) : Option (Option AttachText) :=
  if child.name = slot then (firstStateName child).bind fun text =>
    (namedColor child "fg".toList).toOption.map fun fg => some ⟨text,fg⟩
  else none

def lastAttachment (slot : Str) (kids : List (KdlNode φ)) : Option (Option AttachText) :=
  lastSet (kids.map (attachment slot))

def segmentOf (entries : List (KdlEntry φ)) (kids : List (KdlNode φ)) : Segment φ where
  style :=
    { fg := (lastSetting "fg".toList colorOf entries).getD .default
      bg := (lastSetting "bg".toList colorOf entries).getD .default
      bold := (lastSetting "bold".toList boolVal entries).getD false }
  states := SortedMap.empty.insertAll (kids.filterMap (stateEntry floatText))
  content := (lastSetting "content".toList (strVal floatText) entries).getD none
  textLeft := (lastAttachment "text-left".toList kids).getD none
  textMiddle := (lastAttachment "text-middle".toList kids).getD none
  textRight := (lastAttachment "text-right".toList kids).getD none
  pre := (lastSetting "prefix".toList (strVal floatText) entries).getD none
  suf := (lastSetting "suffix".toList (strVal floatText) entries).getD none
  shown := (lastSetting "disabled".toList (fun v => !boolVal v) entries).getD true
  props := SortedMap.empty.insertAll (entries.filterMap propEntry)

theorem lastSettingCons {ν : Type} (attr : Str) (read : KdlValue φ → ν) (e : KdlEntry φ) (es : List (KdlEntry φ))
    (d : ν) : (lastSetting attr read (e :: es)).getD d = (lastSetting attr read es).getD ((setting attr read e).getD d) := by
  rw [lastSetting,List.map_cons,lastSetCons,← lastSetting]
  cases lastSetting attr read es <;> rfl

theorem styleEntryOf {s s' : Style} {e : KdlEntry φ} (read : styleEntry s e = .ok s') : s' =
    ⟨(setting "fg".toList colorOf e).getD s.fg,(setting "bg".toList colorOf e).getD s.bg,
      (setting "bold".toList boolVal e).getD s.bold⟩ := by
  unfold styleEntry at read
  unfold setting
  by_cases fg : e.name = some "fg".toList
  · rw [if_pos fg] at read
    obtain ⟨c,value,rfl⟩ := mapOk read
    have color : colorOf e.value = c := by rw [colorOf,value]; rfl
    rw [fg,color]
    rfl
  by_cases bg : e.name = some "bg".toList
  · rw [if_neg fg,if_pos bg] at read
    obtain ⟨c,value,rfl⟩ := mapOk read
    have color : colorOf e.value = c := by rw [colorOf,value]; rfl
    rw [bg,color]
    rfl
  by_cases bold : e.name = some "bold".toList
  · rw [if_neg fg,if_neg bg,if_pos bold] at read
    cases read
    rw [bold]
    rfl
  · rw [if_neg fg,if_neg bg,if_neg bold] at read
    cases read
    rw [if_neg fg,if_neg bg,if_neg bold]
    rfl

theorem styleOf {s s' : Style} {entries : List (KdlEntry φ)} (read : entries.foldlM styleEntry s = .ok s') : s' =
    ⟨(lastSetting "fg".toList colorOf entries).getD s.fg,(lastSetting "bg".toList colorOf entries).getD s.bg,
      (lastSetting "bold".toList boolVal entries).getD s.bold⟩ := by
  induction entries generalizing s with
  | nil => exact (Except.ok.inj read).symm
  | cons e entries ih =>
    rw [List.foldlM_cons] at read
    obtain ⟨next,one,rest⟩ := bindOk read
    rw [ih rest,styleEntryOf one,lastSettingCons,lastSettingCons,lastSettingCons]

theorem segmentEntryOf (seg : Segment φ) (e : KdlEntry φ) : segmentEntry floatText seg e = { seg with
    content := (setting "content".toList (strVal floatText) e).getD seg.content
    pre := (setting "prefix".toList (strVal floatText) e).getD seg.pre
    suf := (setting "suffix".toList (strVal floatText) e).getD seg.suf
    shown := (setting "disabled".toList (fun v => !boolVal v) e).getD seg.shown
    props := seg.props.insertAll (propEntry e).toList } := by
  obtain ⟨name,value⟩ := e
  cases name with
  | none => rfl
  | some name =>
    by_cases content : name = "content".toList
    · rw [content]
      rfl
    by_cases pre : name = "prefix".toList
    · rw [pre]
      rfl
    by_cases suf : name = "suffix".toList
    · rw [suf]
      rfl
    by_cases disabled : name = "disabled".toList
    · rw [disabled]
      rfl
    have apart : ∀ {ν : Type} {attr : Str} (read : KdlValue φ → ν), name ≠ attr →
        setting attr read ⟨some name,value⟩ = none := fun read other => if_neg fun same => other (Option.some.inj same)
    rw [apart _ content,apart _ pre,apart _ suf,apart _ disabled]
    simp only [segmentEntry,if_neg content,if_neg pre,if_neg suf,if_neg disabled,propEntry,Option.bind_some]
    have listed : (ownNames.any fun own => own = name) = true ↔ name ∈ ownNames := by
      rw [List.any_eq_true]
      exact ⟨fun ⟨own,mem,same⟩ => of_decide_eq_true same ▸ mem,fun mem => ⟨name,mem,decide_eq_true rfl⟩⟩
    by_cases own : name ∈ ownNames
    · rw [if_pos own,if_pos (listed.mpr own)]
      rfl
    · rw [if_neg own,if_neg (mt listed.mp own)]
      rfl

theorem insertAllAppend {α : Type} (m : SortedMap Str α) (es fs : List (Str × α)) :
    m.insertAll (es ++ fs) = (m.insertAll es).insertAll fs := List.foldl_append

theorem filterMapCons {α β : Type} (f : α → Option β) (x : α) (xs : List α) :
    (x :: xs).filterMap f = (f x).toList ++ xs.filterMap f := by
  rw [List.filterMap_cons]
  cases f x <;> rfl

theorem segmentEntriesOf (seg : Segment φ) (entries : List (KdlEntry φ)) :
    entries.foldl (segmentEntry floatText) seg = { seg with
      content := (lastSetting "content".toList (strVal floatText) entries).getD seg.content
      pre := (lastSetting "prefix".toList (strVal floatText) entries).getD seg.pre
      suf := (lastSetting "suffix".toList (strVal floatText) entries).getD seg.suf
      shown := (lastSetting "disabled".toList (fun v => !boolVal v) entries).getD seg.shown
      props := seg.props.insertAll (entries.filterMap propEntry) } := by
  induction entries generalizing seg with
  | nil => rfl
  | cons e entries ih =>
    rw [List.foldl_cons,ih,segmentEntryOf,filterMapCons,insertAllAppend]
    simp only [lastSettingCons]

theorem lastAttachmentCons (slot : Str) (child : KdlNode φ) (kids : List (KdlNode φ)) (d : Option AttachText) :
    (lastAttachment slot (child :: kids)).getD d = (lastAttachment slot kids).getD ((attachment slot child).getD d) := by
  rw [lastAttachment,List.map_cons,lastSetCons,← lastAttachment]
  cases lastAttachment slot kids <;> rfl

theorem segmentChildOf {seg next : Segment φ} {child : KdlNode φ}
    (read : segmentChild floatText t seg child = .ok next) : next = { seg with
      states := seg.states.insertAll (stateEntry floatText child).toList
      textLeft := (attachment "text-left".toList child).getD seg.textLeft
      textMiddle := (attachment "text-middle".toList child).getD seg.textMiddle
      textRight := (attachment "text-right".toList child).getD seg.textRight } := by
  unfold segmentChild at read
  by_cases state : child.name = "state".toList
  · rw [if_pos state] at read
    have apart : ∀ slot, "state".toList ≠ slot → attachment slot child = none := fun slot other =>
      if_neg (state ▸ other)
    rw [stateEntry,if_pos state,apart _ (by decide),apart _ (by decide),apart _ (by decide)]
    cases named : firstStateName child with
    | none =>
      rw [named] at read
      cases read
    | some nm =>
      rw [named] at read
      obtain ⟨st,style,rfl⟩ := mapOk read
      rw [Option.bind_some,style]
      rfl
  rw [if_neg state] at read
  rw [stateEntry,if_neg state]
  by_cases slots : child.name ∈ ["text-left".toList,"text-middle".toList,"text-right".toList]
  · rw [if_pos slots] at read
    cases named : firstStateName child with
    | none =>
      rw [named] at read
      cases read
    | some text =>
      rw [named] at read
      obtain ⟨fg,color,rfl⟩ := mapOk read
      unfold attachment
      rw [named,Option.bind_some,color]
      simp only [List.mem_cons,List.not_mem_nil,or_false] at slots
      rcases slots with left | middle | right
      · rw [left]
        rfl
      · rw [middle]
        rfl
      · rw [right]
        rfl
  · rw [if_neg slots] at read
    cases read
    have apart : ∀ slot ∈ ["text-left".toList,"text-middle".toList,"text-right".toList],
        attachment slot child = none := fun slot mem => if_neg fun (same : child.name = slot) => slots (same ▸ mem)
    rw [apart _ (by simp),apart _ (by simp),apart _ (by simp)]
    rfl

theorem segmentKidsOf {seg next : Segment φ} {kids : List (KdlNode φ)}
    (read : kids.foldlM (segmentChild floatText t) seg = .ok next) : next = { seg with
      states := seg.states.insertAll (kids.filterMap (stateEntry floatText))
      textLeft := (lastAttachment "text-left".toList kids).getD seg.textLeft
      textMiddle := (lastAttachment "text-middle".toList kids).getD seg.textMiddle
      textRight := (lastAttachment "text-right".toList kids).getD seg.textRight } := by
  induction kids generalizing seg with
  | nil => exact (Except.ok.inj read).symm
  | cons child kids ih =>
    rw [List.foldlM_cons] at read
    obtain ⟨middle,one,rest⟩ := bindOk read
    rw [ih rest,segmentChildOf floatText t one,filterMapCons,insertAllAppend]
    simp only [lastAttachmentCons]

theorem parseSegmentOf {node : KdlNode φ} {seg : Segment φ} (read : parseSegment floatText t node = .ok seg) :
    seg = segmentOf floatText node.entries node.kids := by
  obtain ⟨style,parsed,rest⟩ := bindOk read
  rw [segmentKidsOf floatText t rest,segmentEntriesOf,styleOf parsed]
  rfl

/-! Whether a node can be read does not depend on what was read before it. -/

theorem mapIsOk {ε α β : Type} (x : Except ε α) (f : α → β) : (x.map f).isOk = x.isOk := by
  cases x <;> rfl

theorem bindIsOk {ε α β : Type} (x : Except ε α) (f : α → Except ε β) (b : Bool)
    (then' : ∀ a, x = .ok a → (f a).isOk = b) : (x >>= f).isOk = (x.isOk && b) := by
  cases x with
  | error e => rfl
  | ok a => exact then' a rfl

theorem foldIsOk {ε σ β : Type} {step : σ → β → Except ε σ} (reads : β → Bool)
    (steps : ∀ a x, (step a x).isOk = reads x) (xs : List β) (a : σ) :
    (xs.foldlM step a).isOk = xs.all reads := by
  induction xs generalizing a with
  | nil => rfl
  | cons x xs ih =>
    rw [List.foldlM_cons,bindIsOk _ _ (xs.all reads) fun b _ => ih b,steps,List.all_cons]

def entryReads (e : KdlEntry φ) : Bool := (styleEntry {} e).isOk

def kidReads (child : KdlNode φ) : Bool := (segmentChild floatText t {} child).isOk

theorem styleEntryReads (s : Style) (e : KdlEntry φ) : (styleEntry s e).isOk = entryReads e := by
  unfold entryReads styleEntry
  by_cases fg : e.name = some "fg".toList
  · rw [if_pos fg,if_pos fg,mapIsOk,mapIsOk]
  by_cases bg : e.name = some "bg".toList
  · rw [if_neg fg,if_pos bg,if_neg fg,if_pos bg,mapIsOk,mapIsOk]
  rw [if_neg fg,if_neg bg,if_neg fg,if_neg bg]
  split <;> rfl

theorem segmentChildReads (seg : Segment φ) (child : KdlNode φ) :
    (segmentChild floatText t seg child).isOk = kidReads floatText t child := by
  unfold kidReads segmentChild
  by_cases state : child.name = "state".toList
  · rw [if_pos state,if_pos state]
    cases firstStateName child with
    | none => rfl
    | some nm => exact (mapIsOk _ _).trans (mapIsOk _ _).symm
  rw [if_neg state,if_neg state]
  by_cases slots : child.name ∈ ["text-left".toList,"text-middle".toList,"text-right".toList]
  · rw [if_pos slots,if_pos slots]
    cases firstStateName child with
    | none => rfl
    | some text => exact (mapIsOk _ _).trans (mapIsOk _ _).symm
  · rw [if_neg slots,if_neg slots]
    rfl

theorem parseSegmentReads (node : KdlNode φ) : (parseSegment floatText t node).isOk =
    (node.entries.all entryReads && node.kids.all (kidReads floatText t)) := by
  rw [parseSegment,bindIsOk _ _ _ fun style _ => foldIsOk _ (segmentChildReads floatText t) node.kids _,
    Style.parse,foldIsOk _ styleEntryReads]

/-! Merging segment after segment. -/

theorem boldKeep (a b : Bool) : (a || b) = keep false a b := by
  cases a <;> cases b <;> rfl

theorem shownKeep (a b : Bool) : (a && b) = keep true a b := by
  cases a <;> cases b <;> rfl

theorem optionKeep {α : Type} [DecidableEq α] (a b : Option α) : b.or a = keep none a b := by
  cases b <;> rfl

def mergeNode (seg : Segment φ) (node : KdlNode φ) : Segment φ :=
  mergeSegment seg (segmentOf floatText node.entries node.kids)

theorem mergeSettings {ν : Type} [DecidableEq ν] (d : ν) (attr : Str) (read : KdlValue φ → ν)
    (field : Segment φ → ν)
    (merges : ∀ seg node,
      field (mergeNode floatText seg node) = keep d (field seg) ((lastSetting attr read node.entries).getD d))
    (nodes : List (KdlNode φ)) (seg : Segment φ) : field (nodes.foldl (mergeNode floatText) seg) =
      (nodes.map fun node => lastSetting attr read node.entries).foldl (fun a o => keep d a (o.getD d)) (field seg) := by
  induction nodes generalizing seg with
  | nil => rfl
  | cons node nodes ih => rw [List.foldl_cons,ih,merges,List.map_cons,List.foldl_cons]

theorem mergeAttachments (slot : Str) (field : Segment φ → Option AttachText)
    (merges : ∀ seg node, field (mergeNode floatText seg node) =
      keep none (field seg) ((lastAttachment slot node.kids).getD none))
    (nodes : List (KdlNode φ)) (seg : Segment φ) : field (nodes.foldl (mergeNode floatText) seg) =
      (nodes.map fun node => lastAttachment slot node.kids).foldl (fun a o => keep none a (o.getD none)) (field seg) := by
  induction nodes generalizing seg with
  | nil => rfl
  | cons node nodes ih => rw [List.foldl_cons,ih,merges,List.map_cons,List.foldl_cons]

theorem mergeFills {α : Type} (entriesOf : KdlNode φ → List (Str × α)) (field : Segment φ → SortedMap Str α)
    (merges : ∀ seg node, field (mergeNode floatText seg node) =
      (field seg).insertAll (SortedMap.empty.insertAll (entriesOf node)).entries)
    (nodes : List (KdlNode φ)) (seg : Segment φ) : field (nodes.foldl (mergeNode floatText) seg) =
      (field seg).insertAll (nodes.flatMap entriesOf) := by
  induction nodes generalizing seg with
  | nil => rfl
  | cons node nodes ih =>
    rw [List.foldl_cons,ih,merges,SortedMap.insertAllFilled,List.flatMap_cons,insertAllAppend]

theorem lastSettingJoin {ν : Type} (attr : Str) (read : KdlValue φ → ν) (nodes : List (KdlNode φ)) :
    lastSetting attr read (nodes.flatMap (·.entries)) =
      lastSet (nodes.map fun node => lastSetting attr read node.entries) := by
  rw [lastSetting,List.map_flatMap,List.flatMap_def,lastSetFlatten,List.map_map]
  rfl

theorem lastAttachmentJoin (slot : Str) (nodes : List (KdlNode φ)) :
    lastAttachment slot (nodes.flatMap (·.kids)) = lastSet (nodes.map fun node => lastAttachment slot node.kids) := by
  rw [lastAttachment,List.map_flatMap,List.flatMap_def,lastSetFlatten,List.map_map]
  rfl

/-- An attribute set back to its default: by the last node that says it, after another node said another value. -/
def AttributeBack {ν : Type} [DecidableEq ν] (d : ν) (attr : Str) (read : KdlValue φ → ν)
    (nodes : List (KdlNode φ)) : Prop :=
  SetBack d (nodes.map fun node => lastSetting attr read node.entries)

def SetsBack (nodes : List (KdlNode φ)) : Prop :=
  AttributeBack .default "fg".toList colorOf nodes ∨ AttributeBack .default "bg".toList colorOf nodes ∨
  AttributeBack false "bold".toList boolVal nodes ∨
  AttributeBack none "content".toList (strVal floatText) nodes ∨
  AttributeBack none "prefix".toList (strVal floatText) nodes ∨
  AttributeBack none "suffix".toList (strVal floatText) nodes ∨
  AttributeBack true "disabled".toList (fun v => !boolVal v) nodes

theorem mergeAttribute {ν : Type} [DecidableEq ν] (d : ν) (attr : Str) (read : KdlValue φ → ν)
    (field : Segment φ → ν) (start : field {} = d)
    (merges : ∀ seg node,
      field (mergeNode floatText seg node) = keep d (field seg) ((lastSetting attr read node.entries).getD d))
    (nodes : List (KdlNode φ)) : field (nodes.foldl (mergeNode floatText) {}) =
      (lastSetting attr read (nodes.flatMap (·.entries))).getD d ↔ ¬ AttributeBack d attr read nodes := by
  rw [mergeSettings floatText d attr read field merges,start,lastSettingJoin]
  exact keepLast d _

theorem attachmentNeverBack (slot : Str) (nodes : List (KdlNode φ)) :
    ¬ SetBack none (nodes.map fun node => lastAttachment slot node.kids) := by
  have something : ∀ child : KdlNode φ, attachment slot child ≠ some none := by
    intro child same
    unfold attachment at same
    split at same
    · obtain ⟨text,_,color⟩ := Option.bind_eq_some_iff.mp same
      obtain ⟨fg,_,nothing⟩ := Option.map_eq_some_iff.mp color
      cases nothing
    · cases same
  rintro ⟨last,_⟩
  obtain ⟨node,_,said⟩ := List.mem_map.mp (lastSetMem last)
  obtain ⟨child,_,here⟩ := List.mem_map.mp (lastSetMem said)
  exact something child here

theorem mergeAttachment (slot : Str) (field : Segment φ → Option AttachText) (start : field {} = none)
    (merges : ∀ seg node, field (mergeNode floatText seg node) =
      keep none (field seg) ((lastAttachment slot node.kids).getD none))
    (nodes : List (KdlNode φ)) : field (nodes.foldl (mergeNode floatText) {}) =
      (lastAttachment slot (nodes.flatMap (·.kids))).getD none := by
  rw [mergeAttachments floatText slot field merges,start,lastAttachmentJoin]
  exact (keepLast none _).mpr (attachmentNeverBack slot nodes)

theorem mergeMap {α : Type} (entriesOf : KdlNode φ → List (Str × α)) (field : Segment φ → SortedMap Str α)
    (start : field {} = .empty)
    (merges : ∀ seg node, field (mergeNode floatText seg node) =
      (field seg).insertAll (SortedMap.empty.insertAll (entriesOf node)).entries)
    (nodes : List (KdlNode φ)) : field (nodes.foldl (mergeNode floatText) {}) =
      SortedMap.empty.insertAll (nodes.flatMap entriesOf) := by
  rw [mergeFills floatText entriesOf field merges,start]

/-- Merging the nodes one after another gives what one node with all they hold gives, unless they set an
attribute back. -/
theorem mergeJoin (nodes : List (KdlNode φ)) : nodes.foldl (mergeNode floatText) {} =
      segmentOf floatText (nodes.flatMap (·.entries)) (nodes.flatMap (·.kids)) ↔ ¬ SetsBack floatText nodes := by
  have fg := mergeAttribute floatText .default "fg".toList colorOf (·.style.fg) rfl (fun _ _ => rfl) nodes
  have bg := mergeAttribute floatText .default "bg".toList colorOf (·.style.bg) rfl (fun _ _ => rfl) nodes
  have bold := mergeAttribute floatText false "bold".toList boolVal (·.style.bold) rfl
    (fun _ _ => boldKeep _ _) nodes
  have content := mergeAttribute floatText none "content".toList (strVal floatText) (·.content) rfl
    (fun _ _ => optionKeep _ _) nodes
  have pre := mergeAttribute floatText none "prefix".toList (strVal floatText) (·.pre) rfl
    (fun _ _ => optionKeep _ _) nodes
  have suf := mergeAttribute floatText none "suffix".toList (strVal floatText) (·.suf) rfl
    (fun _ _ => optionKeep _ _) nodes
  have shown := mergeAttribute floatText true "disabled".toList (fun v => !boolVal v) (·.shown) rfl
    (fun _ _ => shownKeep _ _) nodes
  have left := mergeAttachment floatText "text-left".toList (·.textLeft) rfl (fun _ _ => optionKeep _ _) nodes
  have middle := mergeAttachment floatText "text-middle".toList (·.textMiddle) rfl (fun _ _ => optionKeep _ _) nodes
  have right := mergeAttachment floatText "text-right".toList (·.textRight) rfl (fun _ _ => optionKeep _ _) nodes
  have states := mergeMap floatText (fun node => node.kids.filterMap (stateEntry floatText)) (·.states) rfl
    (fun _ _ => rfl) nodes
  have props := mergeMap floatText (fun node => node.entries.filterMap propEntry) (·.props) rfl (fun _ _ => rfl) nodes
  have statesJoin : (nodes.flatMap (·.kids)).filterMap (stateEntry floatText) =
      nodes.flatMap fun node => node.kids.filterMap (stateEntry floatText) := List.filterMap_flatMap
  have propsJoin : (nodes.flatMap (·.entries)).filterMap propEntry =
      nodes.flatMap fun node => node.entries.filterMap propEntry := List.filterMap_flatMap
  unfold SetsBack
  rw [not_or,not_or,not_or,not_or,not_or,not_or,← fg,← bg,← bold,← content,← pre,← suf,← shown]
  generalize nodes.foldl (mergeNode floatText) {} = merged at *
  constructor
  · rintro rfl
    exact ⟨rfl,rfl,rfl,rfl,rfl,rfl,rfl⟩
  · rintro ⟨fg,bg,bold,content,pre,suf,shown⟩
    obtain ⟨⟨_,_,_⟩,_,_,_,_,_,_,_,_,_⟩ := merged
    unfold segmentOf
    rw [statesJoin,propsJoin,← fg,← bg,← bold,← content,← pre,← suf,← shown,← left,← middle,← right,← states,← props]

theorem mergeFirst (node : KdlNode φ) : mergeNode floatText {} node = segmentOf floatText node.entries node.kids := by
  have alone : ¬ SetsBack floatText [node] := by
    have single : ∀ {ν : Type} [DecidableEq ν] (d : ν) (attr : Str) (read : KdlValue φ → ν),
        ¬ AttributeBack d attr read [node] := by
      rintro ν _ d attr read ⟨back,v,mem,other⟩
      rw [List.map_singleton] at back mem
      rw [← List.mem_singleton.mp mem] at back
      exact other (Option.some.inj back)
    rintro (back | back | back | back | back | back | back) <;> exact single _ _ _ back
  have joined := (mergeJoin floatText [node]).mpr alone
  rw [List.flatMap_singleton,List.flatMap_singleton] at joined
  exact joined

/-! All segments of a document. -/

def enterSegment (segments : SortedMap Str (Segment φ)) (node : KdlNode φ) : SortedMap Str (Segment φ) :=
  segments.insert node.name (mergeNode floatText ((segments.get? node.name).getD {}) node)

def segmentReads (node : KdlNode φ) : Bool := (parseSegment floatText t node).isOk

theorem segmentNamedOk {segments after : SortedMap Str (Segment φ)} {node : KdlNode φ} :
    segmentNamed floatText t segments node = .ok after ↔
      segmentReads floatText t node = true ∧ enterSegment floatText segments node = after := by
  unfold segmentNamed segmentReads
  cases read : parseSegment floatText t node with
  | error e =>
    constructor
    · intro ok
      cases ok
    · rintro ⟨ok,_⟩
      cases ok
  | ok seg =>
    have entered : segmentNamed floatText t segments node = .ok (enterSegment floatText segments node) := by
      rw [segmentNamed,read,enterSegment]
      cases there : segments.get? node.name with
      | none =>
        rw [Option.getD_none,mergeFirst,← parseSegmentOf floatText t read]
        rfl
      | some existing =>
        rw [Option.getD_some,mergeNode,← parseSegmentOf floatText t read]
        rfl
    rw [segmentNamed,read] at entered
    rw [entered]
    exact ⟨fun ok => ⟨rfl,Except.ok.inj ok⟩,fun ok => congrArg Except.ok ok.2⟩

theorem segmentsOk {nodes : List (KdlNode φ)} {segments after : SortedMap Str (Segment φ)} :
    nodes.foldlM (segmentNamed floatText t) segments = .ok after ↔
      nodes.all (segmentReads floatText t) = true ∧ nodes.foldl (enterSegment floatText) segments = after := by
  induction nodes generalizing segments with
  | nil => exact ⟨fun ok => ⟨rfl,Except.ok.inj ok⟩,fun ok => congrArg Except.ok ok.2⟩
  | cons node nodes ih =>
    rw [List.foldlM_cons,List.all_cons,Bool.and_eq_true,List.foldl_cons]
    constructor
    · intro ok
      obtain ⟨middle,one,rest⟩ := bindOk ok
      obtain ⟨reads,rfl⟩ := (segmentNamedOk floatText t).mp one
      exact ⟨⟨reads,(ih.mp rest).1⟩,(ih.mp rest).2⟩
    · rintro ⟨⟨reads,others⟩,rfl⟩
      rw [(segmentNamedOk floatText t).mpr ⟨reads,rfl⟩]
      exact ih.mpr ⟨others,rfl⟩

theorem getSegments (nodes : List (KdlNode φ)) (segments : SortedMap Str (Segment φ)) (k : Str) :
    (nodes.foldl (enterSegment floatText) segments).get? k =
      if nodes.filter (·.name = k) = [] then segments.get? k
      else some ((nodes.filter (·.name = k)).foldl (mergeNode floatText) ((segments.get? k).getD {})) := by
  induction nodes generalizing segments with
  | nil => rfl
  | cons node nodes ih =>
    rw [List.foldl_cons,ih,enterSegment,SortedMap.getInsert]
    by_cases here : node.name = k
    · rw [List.filter_cons_of_pos (by simpa using here),if_neg (List.cons_ne_nil node _),if_pos here.symm,here,
        List.foldl_cons,Option.getD_some]
      split
      · rename_i last
        rw [last]
        rfl
      · rfl
    · rw [List.filter_cons_of_neg (by simpa using here),if_neg (Ne.symm here)]

/-! Documents. -/

/-- The segment nodes of a document, in order, whichever block they stand in. -/
def segmentNodes (doc : KdlDocument φ) : List (KdlNode φ) :=
  (doc.filter (·.name = "segments".toList)).flatMap (·.kids)

def otherNodes (doc : KdlDocument φ) : List (KdlNode φ) := doc.filter (·.name ≠ "segments".toList)

def occurrences (name : Str) (doc : KdlDocument φ) : List (KdlNode φ) := (segmentNodes doc).filter (·.name = name)

/-- In `whole` one node of the segment holds, in order, all that several nodes hold in `parts`. Nothing else
is different. -/
structure Joined (name : Str) (parts whole : KdlDocument φ) : Prop where
  others : otherNodes whole = otherNodes parts
  segments : ∀ other, other ≠ name → occurrences other whole = occurrences other parts
  there : occurrences name parts ≠ []
  node : ∃ node, occurrences name whole = [node] ∧
    node.entries = (occurrences name parts).flatMap (·.entries) ∧
    node.kids = (occurrences name parts).flatMap (·.kids)

theorem docNodeApart (c : Config φ) (segments : SortedMap Str (Segment φ)) {node : KdlNode φ}
    (other : node.name ≠ "segments".toList) : docNode floatText t { c with segments := segments } node =
      (docNode floatText t c node).map fun c => { c with segments := segments } := by
  have twice : ∀ {α : Type} (x : Except Failure α) (f : α → Config φ) (g : Config φ → Config φ),
      (x.map f).map g = x.map fun a => g (f a) := by
    intro α x f g
    cases x <;> rfl
  unfold docNode
  by_cases layout : node.name = "layout".toList
  · rw [if_pos layout,if_pos layout]
    rfl
  rw [if_neg layout,if_neg layout,if_neg other,if_neg other]
  by_cases defaults : node.name = "defaults".toList
  · rw [if_pos defaults,if_pos defaults,twice]
  rw [if_neg defaults,if_neg defaults]
  by_cases separators : node.name = "separators".toList
  · rw [if_pos separators,if_pos separators,twice]
  rw [if_neg separators,if_neg separators]
  by_cases frame : node.name = "frame".toList
  · rw [if_pos frame,if_pos frame,twice]
  rw [if_neg frame,if_neg frame]
  by_cases icons : node.name = "vcs-remote-icons".toList
  · rw [if_pos icons,if_pos icons]
    rfl
  rw [if_neg icons,if_neg icons]
  by_cases mode : node.name = "mode".toList
  · rw [if_pos mode,if_pos mode]
    cases (firstValue node).bind (strVal floatText) <;> rfl
  rw [if_neg mode,if_neg mode]
  by_cases icon : node.name = "icon".toList
  · rw [if_pos icon,if_pos icon]
    rfl
  rw [if_neg icon,if_neg icon]
  by_cases classes : node.name = "dir-classes".toList
  · rw [if_pos classes,if_pos classes]
    rfl
  rw [if_neg classes,if_neg classes]
  by_cases shell : node.name = "shell".toList
  · rw [if_pos shell,if_pos shell]
    rfl
  rw [if_neg shell,if_neg shell]
  by_cases padding : node.name = "icon-padding".toList
  · rw [if_pos padding,if_pos padding]
    cases (firstValue node).bind (strVal floatText) <;> rfl
  · rw [if_neg padding,if_neg padding]
    rfl

theorem docNodesApart {nodes : List (KdlNode φ)} (others : ∀ node ∈ nodes, node.name ≠ "segments".toList)
    (c : Config φ) (segments : SortedMap Str (Segment φ)) :
    nodes.foldlM (docNode floatText t) { c with segments := segments } =
      (nodes.foldlM (docNode floatText t) c).map fun c => { c with segments := segments } := by
  induction nodes generalizing c with
  | nil => rfl
  | cons node nodes ih =>
    rw [List.foldlM_cons,List.foldlM_cons,docNodeApart floatText t c segments (others node List.mem_cons_self)]
    cases docNode floatText t c node with
    | error e => rfl
    | ok next => exact ih (fun n mem => others n (List.mem_cons_of_mem node mem)) next

theorem docOk {doc : KdlDocument φ} {c after : Config φ} : doc.foldlM (docNode floatText t) c = .ok after ↔
    ∃ rest segments, (otherNodes doc).foldlM (docNode floatText t) c = .ok rest ∧
      (segmentNodes doc).foldlM (segmentNamed floatText t) c.segments = .ok segments ∧
      { rest with segments := segments } = after := by
  induction doc generalizing c with
  | nil =>
    constructor
    · intro ok
      exact ⟨c,c.segments,rfl,rfl,Except.ok.inj ok⟩
    · rintro ⟨rest,segments,here,there,rfl⟩
      cases here
      cases there
      rfl
  | cons node doc ih =>
    rw [List.foldlM_cons]
    by_cases segmentsNode : node.name = "segments".toList
    · have others : otherNodes (node :: doc) = otherNodes doc :=
        List.filter_cons_of_neg fun other => of_decide_eq_true other segmentsNode
      have blocks : (node :: doc).filter (·.name = "segments".toList) = node :: doc.filter (·.name = "segments".toList) :=
        List.filter_cons_of_pos (decide_eq_true segmentsNode)
      have nodes : segmentNodes (node :: doc) = node.kids ++ segmentNodes doc := by
        rw [segmentNodes,blocks,List.flatMap_cons,← segmentNodes]
      have apart : ∀ n ∈ otherNodes doc, n.name ≠ "segments".toList := fun n mem =>
        of_decide_eq_true (List.mem_filter.mp mem).2
      rw [others,nodes,List.foldlM_append,docNode,if_neg (by rw [segmentsNode]; decide),if_pos segmentsNode]
      cases here : node.kids.foldlM (segmentNamed floatText t) c.segments with
      | error e =>
        constructor
        · intro ok
          cases ok
        · rintro ⟨_,_,_,ok,_⟩
          cases ok
      | ok segments =>
        refine Iff.trans (ih (c := { c with segments := segments })) ?_
        rw [docNodesApart floatText t apart]
        constructor
        · rintro ⟨rest,later,ok,read,rfl⟩
          obtain ⟨first,others,rfl⟩ := mapOk ok
          exact ⟨first,later,others,read,rfl⟩
        · rintro ⟨rest,later,ok,read,rfl⟩
          rw [ok]
          exact ⟨{ rest with segments := segments },later,rfl,read,rfl⟩
    · have others : otherNodes (node :: doc) = node :: otherNodes doc :=
        List.filter_cons_of_pos (decide_eq_true segmentsNode)
      have blocks : (node :: doc).filter (·.name = "segments".toList) = doc.filter (·.name = "segments".toList) :=
        List.filter_cons_of_neg fun same => segmentsNode (of_decide_eq_true same)
      have nodes : segmentNodes (node :: doc) = segmentNodes doc := by
        rw [segmentNodes,blocks,← segmentNodes]
      rw [others,nodes,List.foldlM_cons]
      have apart := docNodeApart floatText t c c.segments segmentsNode
      cases here : docNode floatText t c node with
      | error e =>
        constructor
        · intro ok
          cases ok
        · rintro ⟨_,_,ok,_⟩
          cases ok
      | ok next =>
        have kept : next.segments = c.segments := by
          rw [here] at apart
          have same : (Except.ok next : Except Failure _) = .ok { next with segments := c.segments } := apart
          have kept := congrArg Config.segments (Except.ok.inj same)
          exact kept
        rw [← kept]
        exact ih

theorem docIsOk (doc : KdlDocument φ) (c : Config φ) : (doc.foldlM (docNode floatText t) c).isOk = true ↔
    ((otherNodes doc).foldlM (docNode floatText t) c).isOk = true ∧
      (segmentNodes doc).all (segmentReads floatText t) = true := by
  have isOk : ∀ {α : Type} {x : Except Failure α}, x.isOk = true ↔ ∃ a, x = .ok a := by
    intro α x
    cases x with
    | error e => exact ⟨fun ok => (nomatch ok),fun ⟨_,ok⟩ => (nomatch ok)⟩
    | ok a => exact ⟨fun _ => ⟨a,rfl⟩,fun _ => rfl⟩
  rw [isOk,isOk]
  constructor
  · rintro ⟨after,ok⟩
    obtain ⟨rest,segments,others,read,_⟩ := (docOk floatText t).mp ok
    exact ⟨⟨rest,others⟩,((segmentsOk floatText t).mp read).1⟩
  · rintro ⟨⟨rest,others⟩,reads⟩
    exact ⟨_,(docOk floatText t).mpr ⟨rest,_,others,(segmentsOk floatText t).mpr ⟨reads,rfl⟩,rfl⟩⟩

section joined
variable {name : Str} {parts whole : KdlDocument φ}

theorem joinedReads (joined : Joined name parts whole) :
    (segmentNodes parts).all (segmentReads floatText t) = true ↔
      (segmentNodes whole).all (segmentReads floatText t) = true := by
  have byName : ∀ doc : KdlDocument φ, (segmentNodes doc).all (segmentReads floatText t) = true ↔
      ∀ k, ∀ node ∈ occurrences k doc, segmentReads floatText t node = true := by
    intro doc
    rw [List.all_eq_true]
    constructor
    · exact fun all k node mem => all node (List.mem_filter.mp mem).1
    · exact fun all node mem => all node.name node (List.mem_filter.mpr ⟨mem,decide_eq_true rfl⟩)
  obtain ⟨node,only,entries,kids⟩ := joined.node
  have here : (∀ node ∈ occurrences name parts, segmentReads floatText t node = true) ↔
      ∀ node ∈ occurrences name whole, segmentReads floatText t node = true := by
    rw [only,List.forall_mem_singleton,segmentReads,parseSegmentReads,entries,kids,Bool.and_eq_true,List.all_flatMap,
      List.all_flatMap,List.all_eq_true,List.all_eq_true,← forall₂_and]
    refine forall₂_congr fun part _ => ?_
    rw [segmentReads,parseSegmentReads,Bool.and_eq_true]
  rw [byName,byName]
  constructor
  · intro all k
    by_cases same : k = name
    · exact same ▸ here.mp (same ▸ all k)
    · exact joined.segments k same ▸ all k
  · intro all k
    by_cases same : k = name
    · exact same ▸ here.mpr (same ▸ all k)
    · exact joined.segments k same ▸ all k

theorem joinedSegments (joined : Joined name parts whole) :
    (segmentNodes parts).foldl (enterSegment floatText) .empty =
        (segmentNodes whole).foldl (enterSegment floatText) .empty ↔
      ¬ SetsBack floatText (occurrences name parts) := by
  obtain ⟨node,only,entries,kids⟩ := joined.node
  have empty : ∀ k, (SortedMap.empty : SortedMap Str (Segment φ)).get? k = none := fun _ => rfl
  have here : ((segmentNodes parts).foldl (enterSegment floatText) .empty).get? name =
        ((segmentNodes whole).foldl (enterSegment floatText) .empty).get? name ↔
      ¬ SetsBack floatText (occurrences name parts) := by
    rw [getSegments,getSegments,← occurrences,← occurrences,if_neg joined.there,only,if_neg (List.cons_ne_nil node []),
      empty,Option.getD_none,List.foldl_cons,List.foldl_nil,mergeFirst,entries,kids,Option.some.injEq]
    exact mergeJoin floatText (occurrences name parts)
  rw [← here]
  constructor
  · exact fun same => congrArg (SortedMap.get? · name) same
  · intro alike
    refine SortedMap.extGet fun k => ?_
    by_cases same : k = name
    · exact same ▸ alike
    · rw [getSegments,getSegments,← occurrences,← occurrences,joined.segments k same]

/-- Several nodes of a segment are read as the one node that holds all they hold, exactly when none of them
sets an attribute back to its default. -/
theorem parseDocJoined (localeIsUtf8 : Bool) (joined : Joined name parts whole) :
    (parseDoc floatText t localeIsUtf8 parts).isOk = (parseDoc floatText t localeIsUtf8 whole).isOk ∧
      ∀ c, parseDoc floatText t localeIsUtf8 parts = .ok c →
        (parseDoc floatText t localeIsUtf8 whole = .ok c ↔ ¬ SetsBack floatText (occurrences name parts)) := by
  unfold parseDoc
  generalize start : ({ mode := if localeIsUtf8 then .nerdfontComplete else .ascii } : Config φ) = first
  have fresh : first.segments = .empty := start ▸ rfl
  constructor
  · rw [Bool.eq_iff_iff,docIsOk floatText t parts,docIsOk floatText t whole,joined.others,joinedReads floatText t joined]
  · intro c ok
    obtain ⟨rest,segments,others,read,rfl⟩ := (docOk floatText t).mp ok
    obtain ⟨reads,rfl⟩ := (segmentsOk floatText t).mp read
    rw [docOk,joined.others,others,← joinedSegments floatText joined]
    rw [fresh]
    constructor
    · rintro ⟨again,filled,same,all,whole⟩
      cases same
      rw [← ((segmentsOk floatText t).mp all).2] at whole
      exact (congrArg Config.segments whole).symm
    · intro same
      exact ⟨rest,_,rfl,(segmentsOk floatText t).mpr ⟨(joinedReads floatText t joined).mp reads,same.symm⟩,rfl⟩

end joined
end repeated

/-! The segment `dir` on two lines and on one. -/

def boldEntry (b : Bool) : KdlEntry Empty := ⟨some "bold".toList,.bool b⟩

def foregroundEntry : KdlEntry Empty := ⟨some "fg".toList,.integer 196⟩

def dirLines (lines : List (List (KdlEntry Empty))) : KdlDocument Empty :=
  [⟨"segments".toList,[],some (lines.map fun entries => ⟨"dir".toList,entries,none⟩)⟩]

theorem dirJoined (lines : List (List (KdlEntry Empty))) (some' : lines ≠ []) :
    Joined "dir".toList (dirLines lines) (dirLines [lines.flatten]) := by
  have nodes : ∀ lines : List (List (KdlEntry Empty)), segmentNodes (dirLines lines) =
      lines.map fun entries => ⟨"dir".toList,entries,none⟩ := fun lines => List.append_nil _
  have all : ∀ lines : List (List (KdlEntry Empty)), occurrences "dir".toList (dirLines lines) =
      lines.map fun entries => ⟨"dir".toList,entries,none⟩ := by
    intro lines
    rw [occurrences,nodes]
    refine List.filter_eq_self.mpr fun node mem => ?_
    obtain ⟨entries,_,rfl⟩ := List.mem_map.mp mem
    rfl
  have others : ∀ (other : Str) (lines : List (List (KdlEntry Empty))), other ≠ "dir".toList →
      occurrences other (dirLines lines) = [] := by
    intro other lines different
    rw [occurrences,nodes]
    refine List.filter_eq_nil_iff.mpr fun node mem same => different ?_
    obtain ⟨entries,_,rfl⟩ := List.mem_map.mp mem
    exact (of_decide_eq_true same).symm
  refine ⟨rfl,fun other different => ?_,?_,⟨"dir".toList,lines.flatten,none⟩,all [lines.flatten],?_,?_⟩
  · rw [others other _ different,others other _ different]
  · rw [all]
    exact fun none' => some' (List.map_eq_nil_iff.mp none')
  · rw [all,List.flatMap_map,List.flatMap_id']
  · rw [all,List.flatMap_map]
    exact (List.flatMap_eq_nil_iff.mpr fun _ _ => rfl).symm

theorem parseDocJoinedDir :
    (parseDoc (fun e => nomatch e) id true (dirLines [[foregroundEntry],[boldEntry true]])).isOk =
        (parseDoc (fun e => nomatch e) id true (dirLines [[foregroundEntry,boldEntry true]])).isOk ∧
      parseDoc (fun e => nomatch e) id true (dirLines [[foregroundEntry,boldEntry true]]) =
        parseDoc (fun e => nomatch e) id true (dirLines [[foregroundEntry],[boldEntry true]]) := by
  have joined := dirJoined [[foregroundEntry],[boldEntry true]] (List.cons_ne_nil _ _)
  have laws := parseDocJoined (fun e => nomatch e) id true joined
  have forward : ¬ SetsBack (fun e => nomatch e)
      (occurrences "dir".toList (dirLines [[foregroundEntry],[boldEntry true]])) := by
    rintro (⟨back,_⟩ | ⟨back,_⟩ | ⟨back,_⟩ | ⟨back,_⟩ | ⟨back,_⟩ | ⟨back,_⟩ | ⟨back,_⟩) <;> cases back
  exact ⟨laws.1,(laws.2 _ rfl).mpr forward⟩

/-- `dir bold=#true` and then `dir bold=#false` stays bold. -/
theorem boldStays : ¬ ∀ (name : Str) (parts whole : KdlDocument Empty), Joined name parts whole →
    ∀ c, parseDoc (fun e => nomatch e) id true parts = .ok c →
      parseDoc (fun e => nomatch e) id true whole = .ok c := by
  intro law
  have same := law "dir".toList _ _ (dirJoined [[boldEntry true],[boldEntry false]] (List.cons_ne_nil _ _)) _ rfl
  have bold := congrArg (fun read => read.toOption.bind fun c =>
    (c.segments.get? "dir".toList).map fun seg => seg.style.bold) same
  revert bold
  decide

end P11k.Settings
