import P11k.Settings.Write

/-! What every configuration read from a document has in common: colours, names and numbers are
such that writing them and reading them again gives them back. -/
namespace P11k.Settings
open P11k Reading

/-! Colours. -/

theorem hexCharDigit : ∀ n < 16, hexDigit (hexChar n) = some n ∧ (hexChar n).utf8Size = 1 ∧ hexChar n ≠ '+' := by
  decide

theorem hexByteDigits (b : UInt8) : b.toNat / 16 < 16 ∧ b.toNat % 16 < 16 := by
  have := b.toNat_lt
  omega

theorem hexByteRead (b : UInt8) : fromStrRadix (hexByte b) = some b := by
  obtain ⟨high,low⟩ := hexByteDigits b
  have digits : (hexByte b).mapM hexDigit = some [b.toNat / 16,b.toNat % 16] := by
    simp only [hexByte,List.mapM_cons,List.mapM_nil,(hexCharDigit _ high).1,(hexCharDigit _ low).1]
    rfl
  have plain : ¬ ((hexByte b).head? = some '+' ∧ 1 < (hexByte b).length) := by
    simp [hexByte,(hexCharDigit _ high).2.2]
  rw [fromStrRadix,if_neg plain,digits]
  simp only [hexByte,List.cons_ne_nil,if_false,Option.map_some,List.foldl_cons,List.foldl_nil]
  have whole : 16 * (16 * 0 + b.toNat / 16) + b.toNat % 16 = b.toNat := by omega
  rw [whole,UInt8.ofNat_toNat]

theorem hexByteSlice (b : UInt8) (rest : Str) : sliceBytes (hexByte b ++ rest) 2 = some (hexByte b,rest) := by
  obtain ⟨high,low⟩ := hexByteDigits b
  simp [hexByte,sliceBytes,(hexCharDigit _ high).2.1,(hexCharDigit _ low).2.1]

theorem hexByteLength (b : UInt8) : byteLength (hexByte b) = 2 := by
  obtain ⟨high,low⟩ := hexByteDigits b
  simp [hexByte,byteLength,(hexCharDigit _ high).2.1,(hexCharDigit _ low).2.1]

theorem rgbRead (r g b : UInt8) :
    Color.fromStr ('#' :: (hexByte r ++ hexByte g ++ hexByte b)) = .ok (.rgb r g b) := by
  have six : byteLength (hexByte r ++ hexByte g ++ hexByte b) = 6 := by
    have lengths := And.intro (hexByteLength r) (And.intro (hexByteLength g) (hexByteLength b))
    simp only [byteLength,List.map_append,List.sum_append] at lengths ⊢
    omega
  simp only [Color.fromStr,six,if_true]
  rw [List.append_assoc,hexByteSlice]
  simp only [Option.bind_some,hexByteSlice,Option.map_some,hexByteRead]

/-- A name is never the text of another colour. -/
def Color.Readable : Color → Prop
  | .named name => Color.fromStr name = .ok (.named name)
  | _ => True

theorem fromStrReadable {s : Str} {c : Color} (read : Color.fromStr s = .ok c) : c.Readable := by
  have named : ∀ name, Color.fromStr s = .ok (.named name) → name = s := by
    intro name read
    unfold Color.fromStr at read
    split at read
    · split at read
      · split at read
        · contradiction
        · split at read
          · simp at read
          · exact (by simpa using read.symm)
      · simpa using read.symm
    · split at read
      · simp at read
      · simpa using read.symm
  cases c with
  | named name =>
    have same := named name read
    subst same
    exact read
  | default => trivial
  | xterm n => trivial
  | rgb r g b => trivial

theorem clampId {n most : Nat} (least : n ≤ most) : clamp n most = n := by
  unfold clamp
  omega

section readable
variable {φ : Type}

theorem fromValueReadable {v : KdlValue φ} {c : Color} (read : Color.fromValue v = .ok c) : c.Readable := by
  cases v with
  | string s => exact fromStrReadable read
  | integer n => exact Except.ok.inj read ▸ trivial
  | float f => exact Except.ok.inj read ▸ trivial
  | bool b => exact Except.ok.inj read ▸ trivial
  | null => exact Except.ok.inj read ▸ trivial

theorem colorRead {c : Color} (readable : c.Readable) :
    Color.fromValue (colorValue c : KdlValue φ) = .ok c := by
  cases c with
  | default => rfl
  | xterm n =>
    have small : n.toNat ≤ 255 := by have := n.toNat_lt; omega
    rw [colorValue,Color.fromValue,clampId small,UInt8.ofNat_toNat]
  | rgb r g b => exact rgbRead r g b
  | named name => exact readable

/-! Styles. -/

structure Style.Readable (s : Style) : Prop where
  fg : s.fg.Readable
  bg : s.bg.Readable

theorem styleParsed {es : List (KdlEntry φ)} {s : Style} (read : Style.parse es = .ok s) : s.Readable := by
  have start : Style.Readable {} := ⟨trivial,trivial⟩
  refine readKeeps (I := Style.Readable) ?_ start read
  intro s e s' _ readable one
  unfold styleEntry at one
  split at one
  · obtain ⟨c,value,rfl⟩ := mapOk one
    exact ⟨fromValueReadable value,readable.bg⟩
  · split at one
    · obtain ⟨c,value,rfl⟩ := mapOk one
      exact ⟨readable.fg,fromValueReadable value⟩
    · split at one
      · exact Except.ok.inj one ▸ ⟨readable.fg,readable.bg⟩
      · exact Except.ok.inj one ▸ readable

/-- An entry that says nothing about style. -/
def Unstyled (e : KdlEntry φ) : Prop := ∀ name, e.name = some name → name ∉ ["fg".toList,"bg".toList,"bold".toList]

theorem unstyledEntry {e : KdlEntry φ} (other : Unstyled e) (s : Style) : styleEntry s e = .ok s := by
  have apart : ∀ name ∈ ["fg".toList,"bg".toList,"bold".toList], e.name ≠ some name :=
    fun name mem same => other name same mem
  rw [styleEntry,if_neg (apart _ (by simp)),if_neg (apart _ (by simp)),if_neg (apart _ (by simp))]

theorem styleRead {s : Style} (readable : s.Readable) (before : List (KdlEntry φ)) {after : List (KdlEntry φ)}
    (unstyled : ∀ e ∈ before ++ after, Unstyled e) :
    Style.parse (before ++ (styleEntries s ++ after)) = .ok s := by
  have fg : styleEntry {} (property "fg".toList (colorValue s.fg) : KdlEntry φ) = .ok { fg := s.fg } := by
    simp [styleEntry,property,colorRead readable.fg,Except.map]
  have bg : styleEntry { fg := s.fg } (property "bg".toList (colorValue s.bg) : KdlEntry φ) =
      .ok { fg := s.fg, bg := s.bg } := by
    simp [styleEntry,property,colorRead readable.bg,Except.map]
  have skip : ∀ (part : List (KdlEntry φ)) (a : Style), (∀ e ∈ part, e ∈ before ++ after) →
      part.foldlM styleEntry a = .ok a :=
    fun part a inside => readSame fun e mem => unstyledEntry (unstyled e (inside e mem)) a
  refine readThen (skip before {} fun e mem => List.mem_append_left _ mem) (readThen ?_
    (skip after s fun e mem => List.mem_append_right _ mem))
  refine readThen (readPiece (b := { fg := s.fg }) ?_ fun _ => readOne fg)
    (readThen (readPiece (b := { fg := s.fg, bg := s.bg }) ?_ fun _ => readOne bg) (readPiece ?_ fun bold => readOne ?_))
  · intro same
    rw [not_not.mp same]
  · intro same
    rw [not_not.mp same]
  · intro plain
    rw [Bool.not_eq_true] at plain
    rw [← plain]
  · rw [← bold]
    rfl

theorem styleLast {s : Style} (readable : s.Readable) {before : List (KdlEntry φ)}
    (unstyled : ∀ e ∈ before, Unstyled e) : Style.parse (before ++ styleEntries s) = .ok s := by
  have all : ∀ e ∈ before ++ [], Unstyled e := by simpa using unstyled
  have read := styleRead readable before all
  rwa [List.append_nil] at read

/-! Segments. -/

def AttachText.Readable (a : AttachText) : Prop := ∀ c, a.fg = some c → c.Readable

structure Segment.Readable (seg : Segment φ) : Prop where
  style : seg.style.Readable
  states : ∀ e ∈ seg.states.entries, e.2.style.Readable
  left : ∀ a, seg.textLeft = some a → a.Readable
  middle : ∀ a, seg.textMiddle = some a → a.Readable
  right : ∀ a, seg.textRight = some a → a.Readable
  props : ∀ e ∈ seg.props.entries, e.1 ∉ ownNames

variable {floatText : φ → Str} {t : Str → Str}

theorem namedColorReadable {node : KdlNode φ} {name : Str} {c : Option Color}
    (read : namedColor node name = .ok c) : ∀ c', c = some c' → c'.Readable := by
  intro c' there
  unfold namedColor at read
  split at read
  · rw [← Except.ok.inj read] at there
    contradiction
  · obtain ⟨d,value,rfl⟩ := mapOk read
    exact Option.some.inj there ▸ fromValueReadable value

theorem segmentEntryKeeps {seg : Segment φ} (readable : seg.Readable) (e : KdlEntry φ) :
    (segmentEntry floatText seg e).Readable := by
  obtain ⟨style,states,left,middle,right,props⟩ := readable
  unfold segmentEntry
  split
  · exact ⟨style,states,left,middle,right,props⟩
  · split
    · exact ⟨style,states,left,middle,right,props⟩
    · split
      · exact ⟨style,states,left,middle,right,props⟩
      · split
        · exact ⟨style,states,left,middle,right,props⟩
        · split
          · exact ⟨style,states,left,middle,right,props⟩
          · split
            · exact ⟨style,states,left,middle,right,props⟩
            · rename_i other
              refine ⟨style,states,left,middle,right,fun e mem => ?_⟩
              rcases SortedMap.insertMem mem with rfl | old
              · exact other
              · exact props e old

theorem segmentChildKeeps {seg next : Segment φ} (readable : seg.Readable) {child : KdlNode φ}
    (read : segmentChild floatText t seg child = .ok next) : next.Readable := by
  obtain ⟨style,states,left,middle,right,props⟩ := readable
  unfold segmentChild at read
  split at read
  · split at read
    · contradiction
    · obtain ⟨st,parsed,rfl⟩ := mapOk read
      refine ⟨style,fun e mem => ?_,left,middle,right,props⟩
      rcases SortedMap.insertMem mem with rfl | old
      · exact styleParsed parsed
      · exact states e old
  · split at read
    · split at read
      · contradiction
      · rename_i text _
        obtain ⟨fg,parsed,rfl⟩ := mapOk read
        have attached : ∀ a, some (AttachText.mk text fg) = some a → a.Readable :=
          fun a same => Option.some.inj same ▸ namedColorReadable parsed
        split
        · exact ⟨style,states,attached,middle,right,props⟩
        · split
          · exact ⟨style,states,left,attached,right,props⟩
          · exact ⟨style,states,left,middle,attached,props⟩
    · exact Except.ok.inj read ▸ ⟨style,states,left,middle,right,props⟩

theorem segmentParsed {node : KdlNode φ} {seg : Segment φ} (read : parseSegment floatText t node = .ok seg) :
    seg.Readable := by
  obtain ⟨style,parsed,read⟩ := bindOk read
  have start : Segment.Readable ({ style := style } : Segment φ) :=
    ⟨styleParsed parsed,by simp [SortedMap.empty],by simp,by simp,by simp,by simp [SortedMap.empty]⟩
  have entered : (node.entries.foldl (segmentEntry floatText) { style := style }).Readable :=
    List.foldlRecOn _ _ start fun _ readable e _ => segmentEntryKeeps readable e
  exact readKeeps (fun _ _ _ _ readable one => segmentChildKeeps readable one) entered read

theorem orReadable {a b : Option AttachText} (fromA : ∀ x, a = some x → x.Readable)
    (fromB : ∀ x, b = some x → x.Readable) (x : AttachText) (there : b.or a = some x) : x.Readable := by
  rcases Option.or_eq_some_iff.mp there with now | ⟨_,before⟩
  · exact fromB x now
  · exact fromA x before

theorem mergeReadable {a b : Segment φ} (first : a.Readable) (later : b.Readable) :
    (mergeSegment a b).Readable := by
  refine ⟨⟨?_,?_⟩,fun e mem => ?_,orReadable first.left later.left,orReadable first.middle later.middle,
    orReadable first.right later.right,fun e mem => ?_⟩
  · unfold mergeSegment
    dsimp only
    split
    · exact first.style.fg
    · exact later.style.fg
  · unfold mergeSegment
    dsimp only
    split
    · exact first.style.bg
    · exact later.style.bg
  · rcases SortedMap.insertAllMem mem with new | old
    · exact later.states e new
    · exact first.states e old
  · rcases SortedMap.insertAllMem mem with new | old
    · exact later.props e new
    · exact first.props e old

/-! The rest of a configuration. -/

def Element.Readable : Element → Prop
  | .seg name => name.dropSuffix? "_joined".toList = none
  | _ => True

structure Layout.Readable (layout : Layout) : Prop where
  left : ∀ row ∈ layout.left, ∀ element ∈ row, element.Readable
  right : ∀ row ∈ layout.right, ∀ element ∈ row, element.Readable
  newline : layout.promptAddNewline ≤ 9
  indent : layout.rightIndent ≤ 9

structure Separators.Readable (s : Separators) : Prop where
  gap : ∀ c, s.gapForeground = some c → c.Readable
  sub : ∀ c, s.subForeground = some c → c.Readable
  rightSub : ∀ c, s.rightSubForeground = some c → c.Readable

/-- A piece without colours has no style of its own. -/
def FramePiece.Readable (piece : FramePiece) : Prop := ∀ st, piece.style = some st → st.Readable ∧ st ≠ {}

structure Frame.Readable (f : Frame) : Prop where
  style : f.style.Readable
  firstPrefix : f.firstPrefix.Readable
  firstSuffix : f.firstSuffix.Readable
  newlinePrefix : f.newlinePrefix.Readable
  newlineSuffix : f.newlineSuffix.Readable
  lastPrefix : f.lastPrefix.Readable
  lastSuffix : f.lastSuffix.Readable

structure Config.Readable (c : Config φ) : Prop where
  layout : c.layout.Readable
  segments : ∀ e ∈ c.segments.entries, e.2.Readable
  defaults : c.defaults.Readable
  separators : c.separators.Readable
  frame : c.frame.Readable

theorem linesReadable (node : KdlNode φ) : ∀ row ∈ parseLines node, ∀ element ∈ row, element.Readable := by
  intro row mem element inside
  obtain ⟨line,_,rfl⟩ := List.mem_map.mp mem
  obtain ⟨child,_,read⟩ := List.mem_filterMap.mp inside
  unfold parseElement at read
  split at read
  · exact Option.some.inj read ▸ trivial
  · split at read
    · split at read
      · exact Option.some.inj read ▸ trivial
      · rename_i plain
        exact Option.some.inj read ▸ plain
    · contradiction

theorem clampMost (n : Int) (most : Nat) : clamp n most ≤ most := by
  unfold clamp
  omega

theorem layoutChildKeeps {layout : Layout} (readable : layout.Readable) (child : KdlNode φ) :
    (layoutChild layout child).Readable := by
  obtain ⟨left,right,newline,indent⟩ := readable
  unfold layoutChild
  split
  · exact ⟨linesReadable child,right,newline,indent⟩
  · split
    · exact ⟨left,linesReadable child,newline,indent⟩
    · split
      · refine ⟨left,right,?_,indent⟩
        dsimp only
        split
        · exact clampMost _ 9
        · split <;> omega
      · split
        · exact ⟨left,right,newline,indent⟩
        · split
          · exact ⟨left,right,newline,indent⟩
          · split
            · split
              · exact ⟨left,right,newline,clampMost _ 9⟩
              · exact ⟨left,right,newline,indent⟩
            · exact ⟨left,right,newline,indent⟩

theorem layoutReadable (node : KdlNode φ) : (parseLayout node).Readable := by
  have start : Layout.Readable {} := ⟨by simp,by simp,by simp,by simp⟩
  exact List.foldlRecOn _ _ start fun _ readable child _ => layoutChildKeeps readable child

theorem separatorsChildKeeps {s : Separators} (readable : s.Readable) (child : KdlNode φ) :
    (separatorsChild floatText s child).Readable := by
  obtain ⟨gap,sub,rightSub⟩ := readable
  unfold separatorsChild
  split
  · exact ⟨gap,sub,rightSub⟩
  · repeat' split
    all_goals exact ⟨gap,sub,rightSub⟩

theorem separatorsReadable {node : KdlNode φ} {s : Separators} (read : parseSeparators floatText node = .ok s) :
    s.Readable := by
  obtain ⟨g,gap,read⟩ := bindOk read
  obtain ⟨u,sub,read⟩ := bindOk read
  obtain ⟨r,rightSub,read⟩ := bindOk read
  have start : Separators.Readable { gapForeground := g, subForeground := u, rightSubForeground := r } :=
    ⟨namedColorReadable gap,namedColorReadable sub,namedColorReadable rightSub⟩
  exact Except.ok.inj read ▸ List.foldlRecOn _ _ start fun _ readable child _ =>
    separatorsChildKeeps readable child

theorem setPieceKeeps {f : Frame} (readable : f.Readable) (name : Str) {piece : FramePiece}
    (ok : piece.Readable) : (setPiece f name piece).Readable := by
  obtain ⟨style,firstPrefix,firstSuffix,newlinePrefix,newlineSuffix,lastPrefix,lastSuffix⟩ := readable
  unfold setPiece
  split
  · exact ⟨style,ok,firstSuffix,newlinePrefix,newlineSuffix,lastPrefix,lastSuffix⟩
  split
  · exact ⟨style,firstPrefix,ok,newlinePrefix,newlineSuffix,lastPrefix,lastSuffix⟩
  split
  · exact ⟨style,firstPrefix,firstSuffix,ok,newlineSuffix,lastPrefix,lastSuffix⟩
  split
  · exact ⟨style,firstPrefix,firstSuffix,newlinePrefix,ok,lastPrefix,lastSuffix⟩
  split
  · exact ⟨style,firstPrefix,firstSuffix,newlinePrefix,newlineSuffix,ok,lastSuffix⟩
  split
  · exact ⟨style,firstPrefix,firstSuffix,newlinePrefix,newlineSuffix,lastPrefix,ok⟩
  · exact ⟨style,firstPrefix,firstSuffix,newlinePrefix,newlineSuffix,lastPrefix,lastSuffix⟩

theorem frameChildKeeps {f next : Frame} (readable : f.Readable) {child : KdlNode φ}
    (read : frameChild floatText f child = .ok next) : next.Readable := by
  unfold frameChild at read
  split at read
  · exact Except.ok.inj read ▸ readable
  · obtain ⟨st,parsed,rfl⟩ := mapOk read
    refine setPieceKeeps readable _ ?_
    intro st' there
    by_cases plain : st = {}
    · rw [if_pos plain] at there
      contradiction
    · rw [if_neg plain] at there
      exact Option.some.inj there ▸ ⟨styleParsed parsed,plain⟩

theorem frameReadable {node : KdlNode φ} {f : Frame} (read : parseFrame floatText node = .ok f) :
    f.Readable := by
  obtain ⟨style,parsed,read⟩ := bindOk read
  have none' : FramePiece.Readable {} := fun _ none' => by contradiction
  exact readKeeps (fun _ _ _ _ readable one => frameChildKeeps readable one)
    ⟨styleParsed parsed,none',none',none',none',none',none'⟩ read

theorem segmentNamedKeeps {segments next : SortedMap Str (Segment φ)}
    (readable : ∀ e ∈ segments.entries, e.2.Readable) {node : KdlNode φ}
    (read : segmentNamed floatText t segments node = .ok next) : ∀ e ∈ next.entries, e.2.Readable := by
  obtain ⟨seg,parsed,read⟩ := bindOk read
  have new := segmentParsed parsed
  split at read
  · rename_i existing there
    have old := readable _ (SortedMap.getMem there)
    intro e mem
    rw [← Except.ok.inj read] at mem
    rcases SortedMap.insertMem mem with rfl | before
    · exact mergeReadable old new
    · exact readable e before
  · intro e mem
    rw [← Except.ok.inj read] at mem
    rcases SortedMap.insertMem mem with rfl | before
    · exact new
    · exact readable e before

theorem docNodeKeeps {c next : Config φ} (readable : c.Readable) {node : KdlNode φ}
    (read : docNode floatText t c node = .ok next) : next.Readable := by
  obtain ⟨layout,segments,defaults,separators,frame⟩ := readable
  unfold docNode at read
  by_cases here : node.name = "layout".toList
  · rw [if_pos here] at read
    exact Except.ok.inj read ▸ ⟨layoutReadable node,segments,defaults,separators,frame⟩
  rw [if_neg here] at read
  by_cases here : node.name = "segments".toList
  · rw [if_pos here] at read
    obtain ⟨named,parsed,rfl⟩ := mapOk read
    exact ⟨layout,readKeeps (I := fun m : SortedMap Str (Segment φ) => ∀ e ∈ m.entries, e.2.Readable)
      (fun _ _ _ _ readable one => segmentNamedKeeps readable one) segments parsed,defaults,separators,frame⟩
  rw [if_neg here] at read
  by_cases here : node.name = "defaults".toList
  · rw [if_pos here] at read
    obtain ⟨st,parsed,rfl⟩ := mapOk read
    exact ⟨layout,segments,styleParsed parsed,separators,frame⟩
  rw [if_neg here] at read
  by_cases here : node.name = "separators".toList
  · rw [if_pos here] at read
    obtain ⟨s,parsed,rfl⟩ := mapOk read
    exact ⟨layout,segments,defaults,separatorsReadable parsed,frame⟩
  rw [if_neg here] at read
  by_cases here : node.name = "frame".toList
  · rw [if_pos here] at read
    obtain ⟨f,parsed,rfl⟩ := mapOk read
    exact ⟨layout,segments,defaults,separators,frameReadable parsed⟩
  rw [if_neg here] at read
  repeat' split at read
  all_goals exact Except.ok.inj read ▸ ⟨layout,segments,defaults,separators,frame⟩

theorem docReadable {localeIsUtf8 : Bool} {doc : KdlDocument φ} {c : Config φ}
    (read : parseDoc floatText t localeIsUtf8 doc = .ok c) : c.Readable := by
  refine readKeeps (fun _ _ _ _ readable one => docNodeKeeps readable one) ?_ read
  have none' : FramePiece.Readable {} := fun _ none' => by contradiction
  exact ⟨⟨by simp,by simp,by simp,by simp⟩,by simp [SortedMap.empty],⟨trivial,trivial⟩,
    ⟨by simp,by simp,by simp⟩,⟨⟨trivial,trivial⟩,none',none',none',none',none',none'⟩⟩

end readable
end P11k.Settings
