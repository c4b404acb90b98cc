import P11k.Render.Foreign
import P11k.Settings.Presets
import P11k.Settings.Readable

/-! What the built-in themes have in common, and what changes to a theme keep: it can be written and read again, its
texts are free of control characters, and its layout lists no segment twice. -/
namespace P11k.Wizard
open P11k P11k.Settings P11k.Presets P11k.Render P11k.Terminal

section themes
variable {φ : Type}

def segName : Element → Option Str
  | .seg name => some name
  | _ => none

def listed (layout : Layout) : List Str := (layout.left.flatten ++ layout.right.flatten).filterMap segName

structure SegmentSound (seg : Segment φ) : Prop where
  readable : seg.Readable
  plain : ∀ t ∈ segmentTexts seg, Plain t

structure ThemeSound (c : Config φ) : Prop where
  readable : c.Readable
  plain : OwnPlain c
  once : (listed c.layout).Nodup

/-! Segments. -/

theorem insertForall {κ α : Type} [LinearOrder κ] {P : κ × α → Prop} {m : SortedMap κ α} {k : κ} {v : α} (new : P (k,v))
    (old : ∀ e ∈ m.entries, P e) : ∀ e ∈ (m.insert k v).entries, P e := by
  intro e mem
  rcases SortedMap.insertMem mem with rfl | before
  · exact new
  · exact old e before

theorem emptyForall {κ α : Type} [LinearOrder κ] {P : κ × α → Prop} :
    ∀ e ∈ (SortedMap.empty : SortedMap κ α).entries, P e := fun _ mem => absurd mem List.not_mem_nil

/-- A property of a preset: no style of its own, and its text is plain. -/
def PropSound (e : Str × PropValue φ) : Prop := e.1 ∉ ownNames ∧ ∀ t, propText e.2 = some t → Plain t

/-- A state of a preset: it brings colours and no text. -/
def StateSound (e : Str × StateSpec) : Prop := e.2.style.Readable ∧ e.2.char = none

/-- The texts of a segment that belong to no state and no property. -/
def ownTexts (seg : Segment φ) : List Str :=
  seg.content.toList ++ (attachTexts seg.textLeft ++ (attachTexts seg.textMiddle ++ (attachTexts seg.textRight ++
    (seg.pre.toList ++ seg.suf.toList))))

theorem memTexts {seg : Segment φ} {t : Str} : t ∈ segmentTexts seg ↔ t ∈ ownTexts seg ∨
    (∃ e ∈ seg.states.entries, e.2.char = some t) ∨ ∃ e ∈ seg.props.entries, propText e.2 = some t := by
  simp only [segmentTexts,ownTexts,List.mem_append,List.mem_filterMap,or_assoc]

theorem colouredSound {seg : Segment φ} (style : seg.style.Readable) (states : ∀ e ∈ seg.states.entries, StateSound e)
    (props : ∀ e ∈ seg.props.entries, PropSound e)
    (rest : seg = { style := seg.style, states := seg.states, props := seg.props }) : SegmentSound seg := by
  rw [rest]
  refine ⟨⟨style,fun e mem => (states e mem).1,?_,?_,?_,fun e mem => (props e mem).1⟩,fun t mem => ?_⟩
  · exact fun _ none' => absurd none' (by simp)
  · exact fun _ none' => absurd none' (by simp)
  · exact fun _ none' => absurd none' (by simp)
  · rcases memTexts.mp mem with fixed | ⟨e,there,text⟩ | ⟨e,there,text⟩
    · exact absurd fixed (by simp [ownTexts,attachTexts])
    · cases (states e there).2.symm.trans text
    · exact (props e there).2 t text

theorem xReadable (n : UInt8) : (x n).Readable := trivial

theorem defaultReadable : Color.default.Readable := trivial

theorem styledReadable {fg : Color} (readable : fg.Readable) (bg : Option UInt8) : (styled fg bg).Readable := by
  cases bg with
  | none => exact ⟨readable,trivial⟩
  | some n => exact ⟨readable,trivial⟩

theorem numberSound {name : Str} (other : name ∉ ownNames) (n : Int64) : PropSound ((name,.int n) : Str × PropValue φ) :=
  ⟨other,fun _ none' => absurd none' (by simp [propText])⟩

theorem switchSound {name : Str} (other : name ∉ ownNames) (b : Bool) : PropSound ((name,.bool b) : Str × PropValue φ) :=
  ⟨other,fun _ none' => absurd none' (by simp [propText])⟩

theorem wordSound {name word : Str} (other : name ∉ ownNames) (plain : Plain word) :
    PropSound ((name,.str word) : Str × PropValue φ) :=
  ⟨other,fun _ same => Option.some.inj same ▸ plain⟩

theorem foregroundsSound {colors : List (Str × UInt8)} (other : ∀ c ∈ colors, c.1 ∉ ownNames) :
    ∀ e ∈ (foregrounds colors : SortedMap Str (PropValue φ)).entries, PropSound e := by
  suffices all : ∀ (colors : List (Str × UInt8)) (m : SortedMap Str (PropValue φ)), (∀ c ∈ colors, c.1 ∉ ownNames) →
      (∀ e ∈ m.entries, PropSound e) → ∀ e ∈ (colors.foldl (fun props c =>
        props.insert c.1 (.int (Int64.ofNat c.2.toNat))) m).entries, PropSound e from
    all colors .empty other emptyForall
  intro colors
  induction colors with
  | nil => exact fun _ _ old => old
  | cons c colors ih =>
    intro m other old
    obtain ⟨first,rest⟩ := List.forall_mem_cons.mp other
    exact ih _ rest (insertForall (numberSound first _) old)

theorem dirSound (fg short anchor : UInt8) (anchorBold : Bool) (bg : Option UInt8) :
    SegmentSound (dirSeg fg short anchor anchorBold bg : Segment φ) :=
  colouredSound (styledReadable (xReadable _) bg)
    (insertForall ⟨⟨trivial,trivial⟩,rfl⟩ (insertForall ⟨⟨trivial,trivial⟩,rfl⟩ emptyForall))
    (insertForall (numberSound (by decide) 1) (insertForall (wordSound (by decide) (by decide)) emptyForall)) rfl

theorem vcsSound {fg : Option UInt8} (clean modified conflicted untracked metaColor : UInt8) (bg : Option UInt8) :
    SegmentSound (vcsSeg fg clean modified conflicted untracked metaColor bg : Segment φ) := by
  refine colouredSound (styledReadable ?_ bg) emptyForall (insertForall (wordSound (by decide) (by decide))
    (insertForall (numberSound (by decide) 32) (insertForall (numberSound (by decide) 12) (foregroundsSound ?_)))) rfl
  · cases fg <;> exact trivial
  · simp only [List.forall_mem_cons]
    exact ⟨by decide,by decide,by decide,by decide,by decide,List.forall_mem_nil _⟩

theorem statusSound (ok err : UInt8) (bg : Option UInt8) : SegmentSound (statusSeg ok err bg : Segment φ) := by
  refine colouredSound (styledReadable defaultReadable bg) emptyForall
    (insertForall (switchSound (by decide) true) (foregroundsSound ?_)) rfl
  simp only [List.forall_mem_cons]
  exact ⟨by decide,by decide,List.forall_mem_nil _⟩

theorem execSound (fg : UInt8) (bg : Option UInt8) : SegmentSound (execSeg fg bg : Segment φ) :=
  colouredSound (styledReadable (xReadable _) bg) emptyForall
    (insertForall (numberSound (by decide) 0) (insertForall (numberSound (by decide) 3) emptyForall)) rfl

theorem jobsSound (fg : UInt8) (bg : Option UInt8) : SegmentSound (jobsSeg fg bg : Segment φ) :=
  colouredSound (styledReadable (xReadable _) bg) emptyForall (insertForall (switchSound (by decide) false) emptyForall) rfl

theorem osIconSound (fg : UInt8) (bg : Option UInt8) : SegmentSound (osIconSeg fg bg : Segment φ) :=
  colouredSound (styledReadable (xReadable _) bg) emptyForall emptyForall rfl

theorem promptCharSound (ok err : UInt8) : SegmentSound (promptCharSeg ok err : Segment φ) :=
  colouredSound ⟨trivial,trivial⟩ (insertForall ⟨⟨trivial,trivial⟩,rfl⟩ emptyForall) emptyForall rfl

theorem withFgSound {seg : Segment φ} (sound : SegmentSound seg) {c : Color} (readable : c.Readable) :
    SegmentSound (withFg seg c) := by
  obtain ⟨⟨style,states,left,middle,right,props⟩,plain⟩ := sound
  exact ⟨⟨⟨readable,style.bg⟩,states,left,middle,right,props⟩,plain⟩

theorem withStateFgSound {seg : Segment φ} (sound : SegmentSound seg) (name : String) {c : Color}
    (readable : c.Readable) : SegmentSound (withStateFg seg name c) := by
  unfold withStateFg
  split
  · exact sound
  · rename_i spec there
    have old := SortedMap.getMem there
    obtain ⟨⟨style,states,left,middle,right,props⟩,plain⟩ := sound
    refine ⟨⟨style,insertForall ⟨readable,(states _ old).bg⟩ states,left,middle,right,props⟩,fun t mem => ?_⟩
    rcases memTexts.mp mem with fixed | ⟨e,now,text⟩ | props
    · exact plain t (memTexts.mpr (.inl fixed))
    · rcases SortedMap.insertMem now with rfl | before
      · exact plain t (memTexts.mpr (.inr (.inl ⟨_,old,text⟩)))
      · exact plain t (memTexts.mpr (.inr (.inl ⟨e,before,text⟩)))
    · exact plain t (memTexts.mpr (.inr (.inr props)))

/-! The presets. -/

theorem segmentsSound {entries : List (String × Segment φ)} (each : ∀ e ∈ entries, SegmentSound e.2) :
    ∀ e ∈ (segments entries).entries, SegmentSound e.2 := by
  suffices all : ∀ (entries : List (String × Segment φ)) (m : SortedMap Str (Segment φ)),
      (∀ e ∈ entries, SegmentSound e.2) → (∀ e ∈ m.entries, SegmentSound e.2) →
      ∀ e ∈ (entries.foldl (fun segments e => segments.insert e.1.toList e.2) m).entries, SegmentSound e.2 from
    all entries .empty each emptyForall
  intro entries
  induction entries with
  | nil => exact fun _ _ old => old
  | cons e entries ih =>
    intro m each old
    obtain ⟨first,rest⟩ := List.forall_mem_cons.mp each
    exact ih _ rest (insertForall first old)

structure ShapeSound (layout : Layout) (separators : Separators) (frame : Frame) : Prop where
  arranged : layout.Readable
  once : (listed layout).Nodup
  coloured : separators.Readable
  symbols : ∀ t ∈ separatorTexts separators, Plain t
  framed : frame.Readable
  pieces : ∀ t ∈ frameTexts frame, Plain t

instance (element : Element) : Decidable element.Readable :=
  match element with
  | .seg name => inferInstanceAs (Decidable (name.dropSuffix? "_joined".toList = none))
  | .joined _ => isTrue trivial
  | .text _ => isTrue trivial

theorem remotesPlain : ∀ e ∈ defaultRemoteIcons, Plain e.2 := by decide

theorem presetSound {layout : Layout} {separators : Separators} {frame : Frame} (shape : ShapeSound layout separators frame)
    {entries : List (String × Segment φ)} (each : ∀ e ∈ entries, SegmentSound e.2) :
    ThemeSound { layout := layout, separators := separators, frame := frame, segments := segments entries } :=
  ⟨⟨shape.arranged,fun e mem => (segmentsSound each e mem).readable,⟨trivial,trivial⟩,shape.coloured,shape.framed⟩,
    ⟨fun e mem => (segmentsSound each e mem).plain,shape.symbols,shape.pieces,emptyForall,remotesPlain,
      fun _ mem => absurd mem List.not_mem_nil⟩,shape.once⟩

theorem pieceReadable (text : Str) : ({ text := text } : FramePiece).Readable := fun _ none' => absurd none' (by simp)

theorem noFrame : Frame.Readable {} :=
  ⟨⟨trivial,trivial⟩,pieceReadable _,pieceReadable _,pieceReadable _,pieceReadable _,pieceReadable _,pieceReadable _⟩

theorem noColours : Separators.Readable {} := by
  refine ⟨?_,?_,?_⟩ <;> exact fun _ none' => absurd none' (by simp)

theorem bareShape {layout : Layout} (readable : layout.Readable) (once : (listed layout).Nodup) :
    ShapeSound layout {} {} := ⟨readable,once,noColours,by decide,noFrame,by decide⟩

theorem arrowShape (sub : Option UInt8) (frame : UInt8) :
    ShapeSound arrowLayout (powerlineSeparators sub) (powerlineFrame frame) := by
  have shades : ∀ c, sub.map x = some c → c.Readable := by
    intro c same
    cases sub with
    | none => cases same
    | some n => exact Option.some.inj same ▸ xReadable n
  have symbols : ∀ t ∈ separatorTexts (powerlineSeparators none), Plain t := by decide
  have pieces : ∀ t ∈ frameTexts (powerlineFrame 0), Plain t := by decide
  refine ⟨⟨by decide,by decide,by decide,by decide⟩,by decide,⟨?_,shades,shades⟩,symbols,
    ⟨⟨trivial,trivial⟩,pieceReadable _,pieceReadable _,pieceReadable _,pieceReadable _,pieceReadable _,pieceReadable _⟩,
    pieces⟩
  exact fun _ none' => absurd none' (by simp [powerlineSeparators])

theorem leanSound (colors8 : Bool) : ThemeSound (lean colors8 : Config φ) := by
  refine presetSound (bareShape ⟨by decide,by decide,by decide,by decide⟩ (by decide)) ?_
  simp only [List.forall_mem_cons]
  exact ⟨dirSound ..,vcsSound ..,statusSound ..,execSound ..,jobsSound ..,promptCharSound ..,List.forall_mem_nil _⟩

theorem classicSound (color : Nat) : ThemeSound (classic color : Config φ) := by
  refine presetSound (arrowShape ..) ?_
  simp only [List.forall_mem_cons]
  exact ⟨osIconSound ..,dirSound ..,vcsSound ..,statusSound ..,execSound ..,jobsSound ..,promptCharSound ..,
    List.forall_mem_nil _⟩

theorem rainbowSound (color : Nat) : ThemeSound (rainbow color : Config φ) := by
  refine presetSound (arrowShape ..) ?_
  simp only [List.forall_mem_cons]
  exact ⟨osIconSound ..,dirSound ..,vcsSound ..,statusSound ..,execSound ..,jobsSound ..,promptCharSound ..,
    List.forall_mem_nil _⟩

theorem bareSound : SegmentSound ({} : Segment φ) := colouredSound ⟨trivial,trivial⟩ emptyForall emptyForall rfl

theorem pureSound (snazzy : Bool) : ThemeSound (Presets.pure snazzy : Config φ) := by
  have colours : (palette snazzy).grey.Readable ∧ (palette snazzy).red.Readable ∧ (palette snazzy).yellow.Readable ∧
      (palette snazzy).blue.Readable ∧ (palette snazzy).magenta.Readable := by
    cases snazzy <;> exact ⟨trivial,trivial,trivial,trivial,trivial⟩
  obtain ⟨grey,red,yellow,blue,magenta⟩ := colours
  refine presetSound (bareShape ⟨by decide,by decide,by decide,by decide⟩ (by decide)) ?_
  simp only [List.forall_mem_cons]
  exact ⟨withFgSound bareSound grey,
    withStateFgSound (withStateFgSound (withFgSound (dirSound ..) blue) _ grey) _ blue,withFgSound bareSound grey,
    withFgSound (execSound ..) yellow,withStateFgSound (withFgSound (promptCharSound ..) magenta) _ red,
    List.forall_mem_nil _⟩

theorem buildSound (kind : PresetKind) : ThemeSound (build kind : Config φ) := by
  cases kind with
  | lean => exact leanSound false
  | classic => exact classicSound 2
  | rainbow => exact rainbowSound 2
  | pure => exact pureSound true

end themes
end P11k.Wizard
