import P11k.Settings.Readable

/-! A configuration that was read from a document is read again from the document it is written
as. The reader is followed through each piece that the writer leaves in. -/
namespace P11k.Settings
open P11k Reading

section roundTrip
variable {φ : Type} {floatText : φ → Str} {t : Str → Str}

theorem readPure {σ β : Type} {step : σ → β → σ} {xs : List β} {a b : σ}
    (read : xs.foldlM (fun s x => (.ok (step s x) : Except Failure σ)) a = .ok b) : xs.foldl step a = b := by
  induction xs generalizing a with
  | nil => exact Except.ok.inj read
  | cons x xs ih => exact ih read

/-! Layout. -/

theorem elementRead {element : Element} (readable : element.Readable) :
    parseElement (elementNode element : KdlNode φ) = some element := by
  cases element with
  | seg name =>
    have plain : name.dropSuffix? "_joined".toList = none := readable
    simp only [elementNode,parseElement,firstValue,List.find?_nil,Option.map_none,Option.getD_none,if_true]
    rw [plain]
  | joined name =>
    have cut : (name ++ "_joined".toList).dropSuffix? "_joined".toList = some name :=
      List.dropSuffix?_eq_some_iff.mpr ⟨_,rfl,by simp⟩
    simp only [elementNode,parseElement,firstValue,List.find?_nil,Option.map_none,Option.getD_none,if_true]
    rw [cut]
  | text s => rfl

theorem rowsRead {rows : List (List Element)} (readable : ∀ row ∈ rows, ∀ element ∈ row, element.Readable)
    (name : Str) : parseLines (rowsNode name rows : KdlNode φ) = rows := by
  have line : ∀ row ∈ rows, parseLine (lineNode row : KdlNode φ) = row := by
    intro row mem
    have all : ∀ element ∈ row, parseElement (elementNode element : KdlNode φ) = some element :=
      fun element inside => elementRead (readable row mem element inside)
    simp only [parseLine,lineNode,KdlNode.kids,Option.getD_some,List.filterMap_map]
    exact (List.filterMap_congr all).trans List.filterMap_some
  have kids : (rowsNode name rows : KdlNode φ).kids = rows.map lineNode := by
    simp only [rowsNode,KdlNode.kids]
    split
    · rename_i none'
      rw [none']
      rfl
    · rfl
  rw [parseLines,kids,List.map_map]
  exact (List.map_congr_left line).trans (List.map_id rows)

theorem layoutRead {layout : Layout} (readable : layout.Readable) :
    parseLayout (layoutNode layout : KdlNode φ) = layout := by
  obtain ⟨leftOk,rightOk,newlineOk,indentOk⟩ := readable
  refine readPure ?_
  refine readThen (b := { left := layout.left, right := layout.right }) ?_
    (readThen (b := ⟨layout.left,layout.right,layout.promptAddNewline,.off,false,1⟩) ?_
      (readThen (b := ⟨layout.left,layout.right,layout.promptAddNewline,layout.transientPrompt,false,1⟩) ?_
        (readThen (b := { layout with rightIndent := 1 }) (readPiece ?_ ?_) (readPiece ?_ ?_))))
  · refine readThen (readOne (b := { left := layout.left }) ?_) (readOne ?_)
    · exact congrArg (fun rows => (.ok { left := rows } : Except Failure Layout))
        (rowsRead leftOk "left".toList)
    · exact congrArg (fun rows => (.ok { left := layout.left, right := rows } : Except Failure Layout))
        (rowsRead rightOk "right".toList)
  · unfold newlineNodes
    split
    · rename_i one
      rw [one]
      rfl
    · split
      · exact readOne (congrArg (fun n => (.ok ⟨layout.left,layout.right,n,.off,false,1⟩ :
          Except Failure Layout)) (clampId newlineOk))
      · rename_i other small
        have zero : layout.promptAddNewline = 0 := by omega
        rw [zero]
        rfl
  · cases layout.transientPrompt with
    | off => rfl
    | always => rfl
    | sameDir => rfl
  · intro plain
    rw [Bool.not_eq_true] at plain
    rw [← plain]
  · intro shown
    rw [← shown]
    rfl
  · intro one
    rw [← not_not.mp one]
  · intro _
    exact readOne (congrArg (fun n => (.ok { layout with rightIndent := n } : Except Failure Layout))
      (clampId indentOk))

/-! Segments. -/

def styleNames : List Str := ["fg".toList,"bg".toList,"bold".toList]

theorem styleEntryNames (s : Style) : ∀ e ∈ (styleEntries s : List (KdlEntry φ)), ∃ name ∈ styleNames,
    e.name = some name := by
  intro e mem
  unfold styleEntries at mem
  rcases List.mem_append.mp mem with fg | rest
  · split at fg
    · exact ⟨"fg".toList,by decide,List.mem_singleton.mp fg ▸ rfl⟩
    · contradiction
  · rcases List.mem_append.mp rest with bg | bold
    · split at bg
      · exact ⟨"bg".toList,by decide,List.mem_singleton.mp bg ▸ rfl⟩
      · contradiction
    · split at bold
      · exact ⟨"bold".toList,by decide,List.mem_singleton.mp bold ▸ rfl⟩
      · contradiction

theorem findBehindStyle {name : Str} (other : name ∉ styleNames) (s : Style) (rest : List (KdlEntry φ)) :
    (styleEntries s ++ rest).find? (·.name = some name) = rest.find? (·.name = some name) := by
  have none' : (styleEntries s : List (KdlEntry φ)).find? (·.name = some name) = none := by
    rw [List.find?_eq_none]
    intro e mem same
    obtain ⟨styled,there,is⟩ := styleEntryNames s e mem
    rw [is] at same
    exact other (Option.some.inj (of_decide_eq_true same) ▸ there)
  rw [List.find?_append,none',Option.none_or]

theorem unstyledNamed {name : Str} (other : name ∉ styleNames) (v : KdlValue φ) : Unstyled (property name v) :=
  fun _ same => Option.some.inj same ▸ other

theorem unstyledArgument (v : KdlValue φ) : Unstyled (argument v) := fun _ none' => by contradiction

theorem unstyledText {name : Str} (other : name ∉ styleNames) (o : Option Str) :
    ∀ e ∈ (textEntry name o : List (KdlEntry φ)), Unstyled e := by
  cases o with
  | none => exact fun _ none' => absurd none' List.not_mem_nil
  | some s => exact fun e mem => List.mem_singleton.mp mem ▸ unstyledNamed other _

theorem stateRead {e : Str × StateSpec} (readable : e.2.style.Readable) (seg : Segment φ) :
    segmentChild floatText t seg (stateNode e) = .ok { seg with states := seg.states.insert e.1 e.2 } := by
  obtain ⟨name,style,char⟩ := e
  have parsed : Style.parse (stateNode (name,⟨style,char⟩) : KdlNode φ).entries = .ok style := by
    refine styleRead readable [argument (.string name)] ?_
    intro e mem
    rcases List.mem_append.mp mem with here | there
    · exact List.mem_singleton.mp here ▸ unstyledArgument _
    · exact unstyledText (by decide) char e there
  have named : namedStr floatText (stateNode (name,⟨style,char⟩) : KdlNode φ) "char".toList = char := by
    have find : namedEntry (stateNode (name,⟨style,char⟩) : KdlNode φ) "char".toList =
        (char.map fun c => property "char".toList (.string c)).toList.find? (·.name = some "char".toList) :=
      findBehindStyle (by decide) style _
    rw [namedStr,find]
    cases char <;> rfl
  have step : segmentChild floatText t seg (stateNode (name,⟨style,char⟩)) =
      (Style.parse (stateNode (name,⟨style,char⟩) : KdlNode φ).entries).map fun st =>
        let char := namedStr floatText (stateNode (name,⟨style,char⟩)) "char".toList
        { seg with states := seg.states.insert name ⟨st,char⟩ } := rfl
  rw [step,parsed,named]
  rfl

theorem attachColor {a : AttachText} (readable : a.Readable) (name : Str) :
    namedColor (attachNode name a : KdlNode φ) "fg".toList = .ok a.fg := by
  obtain ⟨text,fg⟩ := a
  cases fg with
  | none => rfl
  | some c =>
    have step : namedColor (attachNode name ⟨text,some c⟩ : KdlNode φ) "fg".toList =
        (Color.fromValue (colorValue c : KdlValue φ)).map some := rfl
    rw [step,colorRead (readable c rfl)]
    rfl

/-- One lemma for the three texts: `put` enters the colour that is read with the text. -/
theorem attachRead {a : AttachText} (readable : a.Readable) {name : Str} {seg : Segment φ}
    (put : Option Color → Segment φ) (step : segmentChild floatText t seg (attachNode name a) =
      (namedColor (attachNode name a : KdlNode φ) "fg".toList).map put) :
    segmentChild floatText t seg (attachNode name a) = .ok (put a.fg) := by
  rw [step,attachColor readable]
  rfl

theorem leftRead {a : AttachText} (readable : a.Readable) (seg : Segment φ) :
    segmentChild floatText t seg (attachNode "text-left".toList a) = .ok { seg with textLeft := some a } :=
  attachRead readable (fun fg => { seg with textLeft := some ⟨a.text,fg⟩ }) rfl

theorem middleRead {a : AttachText} (readable : a.Readable) (seg : Segment φ) :
    segmentChild floatText t seg (attachNode "text-middle".toList a) = .ok { seg with textMiddle := some a } :=
  attachRead readable (fun fg => { seg with textMiddle := some ⟨a.text,fg⟩ }) rfl

theorem rightRead {a : AttachText} (readable : a.Readable) (seg : Segment φ) :
    segmentChild floatText t seg (attachNode "text-right".toList a) = .ok { seg with textRight := some a } :=
  attachRead readable (fun fg => { seg with textRight := some ⟨a.text,fg⟩ }) rfl

theorem propRead (p : PropValue φ) : propVal (propValue p) = p := by
  cases p with
  | str s => rfl
  | int n => exact congrArg PropValue.int (Int64.ofInt_toInt n)
  | float f => rfl
  | bool b => rfl

theorem segmentKids (e : Str × Segment φ) : (segmentNode e).kids =
    e.2.states.entries.map stateNode ++ ((e.2.textLeft.map (attachNode "text-left".toList)).toList ++
      ((e.2.textMiddle.map (attachNode "text-middle".toList)).toList ++
        (e.2.textRight.map (attachNode "text-right".toList)).toList)) := by
  simp only [segmentNode,KdlNode.kids]
  split
  · rfl
  · rename_i nothing
    simp only [not_or,not_not,Bool.not_eq_true,Option.isSome_eq_false_iff,Option.isNone_iff_eq_none] at nothing
    obtain ⟨states,left,middle,right⟩ := nothing
    rw [states,left,middle,right]
    rfl

theorem segmentEntries {seg : Segment φ} (props : ∀ e ∈ seg.props.entries, e.1 ∉ ownNames) :
    (textEntry "content".toList seg.content ++ (textEntry "prefix".toList seg.pre ++
      (textEntry "suffix".toList seg.suf ++
        ((if seg.shown = false then [property "disabled".toList (.bool true)] else []) ++
          seg.props.entries.map fun p => property p.1 (propValue p.2)))) : List (KdlEntry φ)).foldl
      (segmentEntry floatText) { style := seg.style } =
      { seg with states := .empty, textLeft := none, textMiddle := none, textRight := none } := by
  refine readPure ?_
  refine readThen (readOption (b := { style := seg.style, content := seg.content }) ?_ ?_)
    (readThen (readOption (b := { style := seg.style, content := seg.content, pre := seg.pre }) ?_ ?_)
      (readThen (readOption (b := { style := seg.style, content := seg.content, pre := seg.pre, suf := seg.suf })
        ?_ ?_) (readThen (readPiece (b := { seg with
          states := .empty, textLeft := none, textMiddle := none, textRight := none, props := .empty }) ?_ ?_) ?_)))
  · intro none'
    rw [none']
  · intro s there
    rw [there]
    rfl
  · intro none'
    rw [none']
  · intro s there
    rw [there]
    rfl
  · intro none'
    rw [none']
  · intro s there
    rw [there]
    rfl
  · intro shown
    rw [Bool.not_eq_false] at shown
    rw [shown]
  · intro hidden
    rw [hidden]
    rfl
  · refine SortedMap.readEntries (fun props => { seg with
      states := .empty, textLeft := none, textMiddle := none, textRight := none, props := props }) _ seg.props ?_
    intro acc e mem _
    have own := props e mem
    have apart : ∀ name ∈ ownNames, e.1 ≠ name := fun name known same => own (same ▸ known)
    dsimp only [segmentEntry,property]
    rw [if_neg (apart "content".toList (by decide)),if_neg (apart "prefix".toList (by decide)),
      if_neg (apart "suffix".toList (by decide)),if_neg (apart "disabled".toList (by decide)),if_neg own,propRead]

theorem segmentRead {e : Str × Segment φ} (readable : e.2.Readable) :
    parseSegment floatText t (segmentNode e) = .ok e.2 := by
  obtain ⟨name,seg⟩ := e
  obtain ⟨style,states,left,middle,right,props⟩ := readable
  dsimp only at style states left middle right props
  have own : ∀ name ∈ styleNames, name ∈ ownNames := by decide
  have parsed : Style.parse (segmentNode (name,seg)).entries = .ok seg.style := by
    refine styleRead style [] ?_
    intro e mem
    rw [List.nil_append] at mem
    rcases List.mem_append.mp mem with content | mem
    · exact unstyledText (by decide) _ e content
    rcases List.mem_append.mp mem with pre | mem
    · exact unstyledText (by decide) _ e pre
    rcases List.mem_append.mp mem with suf | mem
    · exact unstyledText (by decide) _ e suf
    rcases List.mem_append.mp mem with disabled | prop
    · split at disabled
      · exact List.mem_singleton.mp disabled ▸ unstyledNamed (by decide) _
      · contradiction
    · obtain ⟨p,there,rfl⟩ := List.mem_map.mp prop
      exact unstyledNamed (fun styled => props p there (own _ styled)) _
  have skipped : (styleEntries seg.style : List (KdlEntry φ)).foldl (segmentEntry floatText)
      { style := seg.style } = { style := seg.style } := by
    refine readPure (readSame fun e mem => ?_)
    obtain ⟨styled,known,is⟩ := styleEntryNames seg.style e mem
    unfold segmentEntry
    rw [is]
    simp only [styleNames,List.mem_cons,List.not_mem_nil,or_false] at known
    rcases known with rfl | rfl | rfl <;> rfl
  have entered : (segmentNode (name,seg)).entries.foldl (segmentEntry floatText) { style := seg.style } =
      { seg with states := .empty, textLeft := none, textMiddle := none, textRight := none } := by
    simp only [segmentNode,List.foldl_append] at skipped ⊢
    rw [skipped]
    simpa only [List.foldl_append] using segmentEntries props
  have children : (segmentNode (name,seg)).kids.foldlM (segmentChild floatText t)
      { seg with states := .empty, textLeft := none, textMiddle := none, textRight := none } = .ok seg := by
    rw [segmentKids]
    refine readThen (SortedMap.readEntries (fun states => { seg with
      states := states, textLeft := none, textMiddle := none, textRight := none }) stateNode seg.states ?_)
      (readThen (readOption (b := { seg with textMiddle := none, textRight := none }) ?_ ?_)
        (readThen (readOption (b := { seg with textRight := none }) ?_ ?_) (readOption ?_ ?_)))
    · exact fun acc e mem _ => stateRead (states e mem) _
    · intro none'
      rw [← none']
    · exact fun a there => (leftRead (left a there) _).trans (by rw [← there])
    · intro none'
      rw [← none']
    · exact fun a there => (middleRead (middle a there) _).trans (by rw [← there])
    · intro none'
      rw [← none']
    · exact fun a there => (rightRead (right a there) _).trans (by rw [← there])
  unfold parseSegment
  rw [parsed,← children,← entered]
  rfl

/-! Separators and frame. -/

theorem symbolRead {name val : Str} {a b : Separators} (absent : val = [] → a = b)
    (present : separatorsChild floatText a (leaf name (.string val)) = b) :
    (symbolNode name val).foldlM (fun s x => (.ok (separatorsChild floatText s x) : Except Failure Separators)) a =
      .ok b :=
  readPiece (fun same => absent (not_not.mp same)) fun _ => readOne (congrArg Except.ok present)

theorem colorNamed {name : Str} {c : Option Color} (readable : ∀ c', c = some c' → c'.Readable)
    {node : KdlNode φ} (find : namedEntry node name = (colorEntry name c).head?) : namedColor node name = .ok c := by
  unfold namedColor
  rw [find]
  cases c with
  | none => rfl
  | some c' =>
    have step : (Color.fromValue (colorValue c' : KdlValue φ)).map some = .ok (some c') := by
      rw [colorRead (readable c' rfl)]
      rfl
    exact step

theorem separatorsRead {s : Separators} (readable : s.Readable) :
    parseSeparators floatText (separatorsNode s : KdlNode φ) = .ok s := by
  obtain ⟨segment,sub,endSymbol,rightStart,rightSegment,rightSub,leftTail,rightTail,gap,gapC,subC,rightSubC⟩ := s
  obtain ⟨gapOk,subOk,rightSubOk⟩ := readable
  dsimp only at gapOk subOk rightSubOk
  unfold parseSeparators
  rw [colorNamed gapOk,colorNamed subOk,colorNamed rightSubOk]
  · refine congrArg Except.ok (readPure ?_)
    refine readThen (symbolRead (b := ⟨segment,[],[],[],[],[],[],[],[],gapC,subC,rightSubC⟩) ?_ rfl) ?_
    · exact fun none' => none' ▸ rfl
    refine readThen (symbolRead (b := ⟨segment,sub,[],[],[],[],[],[],[],gapC,subC,rightSubC⟩) ?_ rfl) ?_
    · exact fun none' => none' ▸ rfl
    refine readThen (symbolRead (b := ⟨segment,sub,endSymbol,[],[],[],[],[],[],gapC,subC,rightSubC⟩) ?_ rfl) ?_
    · exact fun none' => none' ▸ rfl
    refine readThen (symbolRead
      (b := ⟨segment,sub,endSymbol,rightStart,[],[],[],[],[],gapC,subC,rightSubC⟩) ?_ rfl) ?_
    · exact fun none' => none' ▸ rfl
    refine readThen (symbolRead
      (b := ⟨segment,sub,endSymbol,rightStart,rightSegment,[],[],[],[],gapC,subC,rightSubC⟩) ?_ rfl) ?_
    · exact fun none' => none' ▸ rfl
    refine readThen (symbolRead
      (b := ⟨segment,sub,endSymbol,rightStart,rightSegment,rightSub,[],[],[],gapC,subC,rightSubC⟩) ?_ rfl) ?_
    · exact fun none' => none' ▸ rfl
    refine readThen (symbolRead
      (b := ⟨segment,sub,endSymbol,rightStart,rightSegment,rightSub,leftTail,[],[],gapC,subC,rightSubC⟩) ?_ rfl) ?_
    · exact fun none' => none' ▸ rfl
    refine readThen (symbolRead
      (b := ⟨segment,sub,endSymbol,rightStart,rightSegment,rightSub,leftTail,rightTail,[],gapC,subC,rightSubC⟩)
      ?_ rfl) (symbolRead ?_ rfl)
    · exact fun none' => none' ▸ rfl
    · exact fun none' => none' ▸ rfl
  all_goals
    cases gapC <;> cases subC <;> cases rightSubC <;> rfl

theorem pieceRead {piece : FramePiece} (readable : piece.Readable) {name : Str} {a b : Frame}
    (absent : piece = {} → a = b) (present : setPiece a name piece = b) :
    (pieceNode name piece).foldlM (frameChild floatText) a = .ok b := by
  obtain ⟨text,style⟩ := piece
  have parsed : ∃ st, Style.parse (argument (.string text) :: (style.map styleEntries).getD [] :
      List (KdlEntry φ)) = .ok st ∧ (if st = {} then none else some st) = style := by
    cases style with
    | none => exact ⟨{},rfl,rfl⟩
    | some st =>
      obtain ⟨ok,plain⟩ := readable st rfl
      have unstyled : ∀ e ∈ [(argument (.string text) : KdlEntry φ)], Unstyled e :=
        fun e mem => List.mem_singleton.mp mem ▸ unstyledArgument _
      exact ⟨st,styleLast ok unstyled,if_neg plain⟩
  obtain ⟨st,read,same⟩ := parsed
  refine readPiece (fun none' => absent ?_) fun _ => readOne ?_
  · obtain ⟨noText,noStyle⟩ : text = [] ∧ style = none := not_not.mp none'
    rw [noText,noStyle]
  · have step : frameChild floatText a ⟨name,argument (.string text) :: (style.map styleEntries).getD [],none⟩ =
        (Style.parse (argument (.string text) :: (style.map styleEntries).getD [] : List (KdlEntry φ))).map
          fun st => setPiece a name ⟨text,if st = {} then none else some st⟩ := rfl
    have set : setPiece a name ⟨text,if st = {} then none else some st⟩ = b := by
      rw [same]
      exact present
    rw [step,read]
    exact congrArg Except.ok set

theorem frameRead {f : Frame} (readable : f.Readable) : parseFrame floatText (frameNode f : KdlNode φ) = .ok f := by
  obtain ⟨style,firstPrefix,firstSuffix,newlinePrefix,newlineSuffix,lastPrefix,lastSuffix⟩ := f
  obtain ⟨styleOk,firstPrefixOk,firstSuffixOk,newlinePrefixOk,newlineSuffixOk,lastPrefixOk,lastSuffixOk⟩ := readable
  have parsed : Style.parse ([] ++ styleEntries style : List (KdlEntry φ)) = .ok style :=
    styleLast styleOk fun _ none' => absurd none' List.not_mem_nil
  have children : (frameNode ⟨style,firstPrefix,firstSuffix,newlinePrefix,newlineSuffix,lastPrefix,lastSuffix⟩ :
      KdlNode φ).kids.foldlM (frameChild floatText) { style := style } =
      .ok ⟨style,firstPrefix,firstSuffix,newlinePrefix,newlineSuffix,lastPrefix,lastSuffix⟩ := by
    refine readThen (pieceRead (b := ⟨style,firstPrefix,{},{},{},{},{}⟩) firstPrefixOk ?_ rfl) ?_
    · exact fun none' => none' ▸ rfl
    refine readThen (pieceRead (b := ⟨style,firstPrefix,firstSuffix,{},{},{},{}⟩) firstSuffixOk ?_ rfl) ?_
    · exact fun none' => none' ▸ rfl
    refine readThen (pieceRead (b := ⟨style,firstPrefix,firstSuffix,newlinePrefix,{},{},{}⟩) newlinePrefixOk
      ?_ rfl) ?_
    · exact fun none' => none' ▸ rfl
    refine readThen (pieceRead (b := ⟨style,firstPrefix,firstSuffix,newlinePrefix,newlineSuffix,{},{}⟩)
      newlineSuffixOk ?_ rfl) ?_
    · exact fun none' => none' ▸ rfl
    refine readThen (pieceRead (b := ⟨style,firstPrefix,firstSuffix,newlinePrefix,newlineSuffix,lastPrefix,{}⟩)
      lastPrefixOk ?_ rfl) (pieceRead lastSuffixOk ?_ rfl)
    · exact fun none' => none' ▸ rfl
    · exact fun none' => none' ▸ rfl
  unfold parseFrame
  rw [← children]
  exact congrArg (· >>= fun style => (frameNode _ : KdlNode φ).kids.foldlM (frameChild floatText) { style := style })
    parsed

/-! Icons and classes. -/

theorem remoteIconsRead (icons : List (Str × Str)) : parseRemoteIcons (remoteIconsNode icons : KdlNode φ) = icons := by
  simp only [parseRemoteIcons,remoteIconsNode,KdlNode.kids,Option.getD_some,List.filterMap_map]
  exact List.filterMap_some

theorem overrideRead (o : Str × IconOverride) :
    (overrideNode o : KdlNode φ).kids.foldl (iconField floatText) {} = o.2 := by
  obtain ⟨name,all,nf,compat,ascii⟩ := o
  refine readPure ?_
  refine readThen (readOption (b := ⟨all,none,none,none⟩) ?_ ?_)
    (readThen (readOption (b := ⟨all,nf,none,none⟩) ?_ ?_)
      (readThen (readOption (b := ⟨all,nf,compat,none⟩) ?_ ?_) (readOption ?_ ?_)))
  · exact fun none' => none' ▸ rfl
  · intro v (there : all = some v)
    rw [there]
    rfl
  · exact fun none' => none' ▸ rfl
  · intro v (there : nf = some v)
    rw [there]
    rfl
  · exact fun none' => none' ▸ rfl
  · intro v (there : compat = some v)
    rw [there]
    rfl
  · exact fun none' => none' ▸ rfl
  · intro v (there : ascii = some v)
    rw [there]
    rfl

theorem iconRead (overrides : SortedMap Str IconOverride) :
    parseIconTable floatText (iconNode overrides : KdlNode φ) = overrides := by
  refine readPure (SortedMap.readEntries id overrideNode overrides ?_)
  intro acc o _ _
  exact congrArg (fun ov => (.ok (acc.insert o.1 ov) : Except Failure _)) (overrideRead o)

theorem dirClassRead (c : DirClass) : parseDirClass (dirClassNode c : KdlNode φ) = some c := by
  obtain ⟨pattern,state,icon⟩ := c
  cases state with
  | nil =>
    cases icon with
    | nil => rfl
    | cons a icon => rfl
  | cons b state =>
    cases icon with
    | nil => rfl
    | cons a icon => rfl

theorem dirClassesRead (classes : List DirClass) :
    parseDirClasses (dirClassesNode classes : KdlNode φ) = classes := by
  simp only [parseDirClasses,dirClassesNode,KdlNode.kids,Option.getD_some,List.filterMap_map]
  exact (List.filterMap_congr fun c _ => dirClassRead c).trans List.filterMap_some

/-! The document. -/

theorem segmentsRead {segments : SortedMap Str (Segment φ)} (readable : ∀ e ∈ segments.entries, e.2.Readable) :
    (segmentsNode segments).kids.foldlM (segmentNamed floatText t) .empty = .ok segments := by
  refine SortedMap.readEntries id segmentNode segments ?_
  intro acc e mem above
  have fresh : acc.get? (segmentNode e).name = none := SortedMap.getAbove above
  unfold segmentNamed
  rw [segmentRead (readable e mem)]
  simp only [bind,Except.bind,id,fresh]
  rfl

theorem documentRead (localeIsUtf8 : Bool) {c : Config φ} (readable : c.Readable) :
    parseDoc floatText t localeIsUtf8 (toDocument c) = .ok c := by
  obtain ⟨layout,segments,defaults,separators,frame,icons,mode,overrides,classes,shell,padding⟩ := c
  obtain ⟨layoutOk,segmentsOk,defaultsOk,separatorsOk,frameOk⟩ := readable
  dsimp only at layoutOk segmentsOk defaultsOk separatorsOk frameOk
  refine readThen (b := { layout := layout, mode := mode }) ?_ ?_
  · refine readThen (readOne (b := { mode := mode }) ?_) (readOne ?_)
    · cases mode with
      | nerdfontComplete => rfl
      | nerdfontFontconfig => rfl
      | compatible => rfl
      | ascii => rfl
    · exact congrArg (fun layout => (.ok { layout := layout, mode := mode } : Except Failure (Config φ)))
        (layoutRead layoutOk)
  refine readThen (readPiece (b := { layout := layout, defaults := defaults, mode := mode }) ?_ ?_) ?_
  · exact fun same => not_not.mp same ▸ rfl
  · intro _
    have parsed : Style.parse ([] ++ styleEntries defaults : List (KdlEntry φ)) = .ok defaults :=
      styleLast defaultsOk fun _ none' => absurd none' List.not_mem_nil
    exact readOne (congrArg (Except.map fun defaults =>
      ({ layout := layout, defaults := defaults, mode := mode } : Config φ)) parsed)
  refine readThen (readPiece (b := { layout := layout, defaults := defaults, separators := separators, mode := mode })
    ?_ ?_) ?_
  · exact fun same => not_not.mp same ▸ rfl
  · exact fun _ => readOne (congrArg (Except.map fun separators =>
      ({ layout := layout, defaults := defaults, separators := separators, mode := mode } : Config φ))
      (separatorsRead separatorsOk))
  refine readThen (readPiece (b := ⟨layout,.empty,defaults,separators,frame,defaultRemoteIcons,mode,.empty,[],none,
    .none⟩) ?_ ?_) ?_
  · exact fun same => not_not.mp same ▸ rfl
  · exact fun _ => readOne (congrArg (Except.map fun frame =>
      (⟨layout,.empty,defaults,separators,frame,defaultRemoteIcons,mode,.empty,[],none,.none⟩ : Config φ))
      (frameRead frameOk))
  refine readThen (readPiece (b := ⟨layout,segments,defaults,separators,frame,defaultRemoteIcons,mode,.empty,[],none,
    .none⟩) ?_ ?_) ?_
  · exact fun same => (SortedMap.ext (n := segments) (not_not.mp same).symm : .empty = segments) ▸ rfl
  · exact fun _ => readOne (congrArg (Except.map fun segments =>
      (⟨layout,segments,defaults,separators,frame,defaultRemoteIcons,mode,.empty,[],none,.none⟩ : Config φ))
      (segmentsRead segmentsOk))
  refine readThen (readPiece (b := ⟨layout,segments,defaults,separators,frame,icons,mode,.empty,[],none,.none⟩)
    ?_ ?_) ?_
  · exact fun same => not_not.mp same ▸ rfl
  · exact fun _ => readOne (congrArg (fun icons => (.ok
      ⟨layout,segments,defaults,separators,frame,icons,mode,.empty,[],none,.none⟩ : Except Failure (Config φ)))
      (remoteIconsRead icons))
  refine readThen (readPiece (b := ⟨layout,segments,defaults,separators,frame,icons,mode,overrides,[],none,.none⟩)
    ?_ ?_) ?_
  · exact fun same => (SortedMap.ext (n := overrides) (not_not.mp same).symm : .empty = overrides) ▸ rfl
  · exact fun _ => readOne (congrArg (fun overrides => (.ok
      ⟨layout,segments,defaults,separators,frame,icons,mode,overrides,[],none,.none⟩ : Except Failure (Config φ)))
      (iconRead overrides))
  refine readThen (readPiece (b := ⟨layout,segments,defaults,separators,frame,icons,mode,overrides,classes,none,
    .none⟩) ?_ ?_) ?_
  · exact fun same => not_not.mp same ▸ rfl
  · exact fun _ => readOne (congrArg (fun classes => (.ok
      ⟨layout,segments,defaults,separators,frame,icons,mode,overrides,classes,none,.none⟩ :
        Except Failure (Config φ))) (dirClassesRead classes))
  refine readThen (readOption (b := ⟨layout,segments,defaults,separators,frame,icons,mode,overrides,classes,shell,
    .none⟩) ?_ ?_) (readPiece ?_ ?_)
  · exact fun none' => none' ▸ rfl
  · intro s (there : shell = some s)
    rw [there]
    rfl
  · intro plain
    cases padding with
    | none => rfl
    | moderate => exact absurd rfl plain
  · intro (moderate : padding = .moderate)
    rw [moderate]
    rfl

/-- Every configuration that a document is read as is read again from the document it is written
as, whatever the locale is then. -/
theorem configRoundTrips (floatText : φ → Str) (t : Str → Str) {localeIsUtf8 : Bool} {doc : KdlDocument φ}
    {c : Config φ} (read : parseDoc floatText t localeIsUtf8 doc = .ok c) (later : Bool) :
    parseDoc floatText t later (toDocument c) = .ok c :=
  documentRead later (docReadable read)

end roundTrip
/-- Two nodes for one segment, a joined element, a number out of range and a colour that is
none. -/
def sampleDocument : KdlDocument Unit :=
  [⟨"layout".toList,[],some [⟨"left".toList,[],some [⟨"line".toList,[],some
      [⟨"dir_joined".toList,[argument (.bool true)],none⟩,⟨"time".toList,[argument (.bool false)],none⟩]⟩]⟩,
      leaf "right-indent".toList (.integer 12)]⟩,
    ⟨"segments".toList,[],some
      [⟨"dir".toList,[property "fg".toList (.string "#0G".toList)],
        some [⟨"state".toList,[argument (.string "HOME".toList),property "bg".toList (.integer 300)],none⟩]⟩,
        ⟨"dir".toList,[property "width".toList (.float ()),property "disabled".toList (.bool true)],none⟩]⟩]

def sampleConfig : Config Unit where
  layout := { left := [[.joined "dir".toList]], rightIndent := 9 }
  segments := ⟨[("dir".toList,
    { style := { fg := .named "#0G".toList }
      states := ⟨[("HOME".toList,⟨{ bg := .xterm 255 },none⟩)],by decide⟩
      shown := false
      props := ⟨[("width".toList,.float ())],by decide⟩ })],by decide⟩

theorem sampleRoundTrips :
    parseDoc (fun _ => "0.5".toList) id false (toDocument sampleConfig) = .ok sampleConfig := by
  have read : parseDoc (fun _ => "0.5".toList) id true sampleDocument = .ok sampleConfig := by rfl
  exact configRoundTrips (fun _ => "0.5".toList) id read false

end P11k.Settings
