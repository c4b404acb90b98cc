import P11k.Lib.Terminal
import P11k.Render.Prefix
import P11k.Render.Row

/-! How every line of the header is put together: texts, painted texts, separators, and the link around the
directory, one behind the other. -/
namespace P11k.Render
open P11k P11k.Settings P11k.Terminal

/-- What holds of painted texts and separators, of a space between them, and of two pieces one behind the other. -/
structure Closed (P : List Ink → Prop) : Prop where
  nothing : P []
  append : ∀ {a b : List Ink}, P a → P b → P (a ++ b)
  paint : ∀ t style, P (paint t style)
  arrow : ∀ ch fg bg, P (arrow ch fg bg)
  space : P (text " ".toList)

section closed
variable {φ τ : Type} {o : Outside τ} {config : Config φ} {info : HeaderInfo τ} {vcs : Option GitStatus}
  {P : List Ink → Prop}

theorem closedIf {p : Prop} [Decidable p] {a b : List Ink} (first : P a) (other : P b) : P (if p then a else b) := by
  split
  · exact first
  · exact other

theorem closedWhen (closed : Closed P) {p : Prop} [Decidable p] {a : List Ink} (first : P a) :
    P (if p then a else []) := closedIf first closed.nothing

theorem closedFlatMap (closed : Closed P) {α : Type} {f : α → List Ink} {xs : List α} (each : ∀ x ∈ xs, P (f x)) :
    P (xs.flatMap f) := by
  induction xs with
  | nil => exact closed.nothing
  | cons x xs ih =>
    rw [List.flatMap_cons]
    exact closed.append (each x List.mem_cons_self) (ih fun y mem => each y (List.mem_cons_of_mem x mem))

theorem closedLeftRest (closed : Closed P) (seps : Separators) {column : List SegmentText}
    (each : ∀ s ∈ column, P s.text) (prev : SegmentText) : P (leftRest seps prev column) := by
  induction column generalizing prev with
  | nil => exact closedWhen closed (closed.arrow _ _ _)
  | cons s column ih =>
    have between : P (leftBetween seps prev.style.bg prev.padded s) := by
      have space : P (if prev.padded then [] else text " ".toList) := closedIf closed.nothing closed.space
      exact closedIf closed.nothing (closedIf space
        (closedIf space (closedIf (closed.paint _ _) (closed.arrow _ _ _))))
    exact closed.append between (closed.append (each s List.mem_cons_self)
      (ih (fun t mem => each t (List.mem_cons_of_mem s mem)) s))

theorem closedLeft (closed : Closed P) (seps : Separators) {column : List SegmentText}
    (each : ∀ s ∈ column, P s.text) : P (leftText seps column) := by
  unfold leftText
  split
  · exact closed.nothing
  · rename_i first rest visible
    have shown : ∀ s ∈ first :: rest, P s.text := fun s mem => each s (List.mem_of_mem_filter (visible ▸ mem))
    have behind : P (leftRest seps first rest) :=
      closedLeftRest closed seps (fun s mem => shown s (List.mem_cons_of_mem first mem)) first
    exact closed.append (closedWhen closed (closed.arrow _ _ _)) (closed.append
      (closedWhen closed (closed.paint _ _)) (closed.append (shown first List.mem_cons_self) behind))

theorem closedRightRest (closed : Closed P) (seps : Separators) {column : List SegmentText}
    (each : ∀ s ∈ column, P s.text) (prev : SegmentText) : P (rightRest seps prev column) := by
  induction column generalizing prev with
  | nil => exact closedWhen closed (closed.arrow _ _ _)
  | cons s column ih =>
    have between : P (rightBetween seps prev.style.bg s) :=
      closedIf closed.nothing (closedIf (closed.paint _ _) (closedWhen closed (closed.arrow _ _ _)))
    exact closed.append between (closed.append (each s List.mem_cons_self)
      (ih (fun t mem => each t (List.mem_cons_of_mem s mem)) s))

theorem closedRight (closed : Closed P) (seps : Separators) {column : List SegmentText}
    (each : ∀ s ∈ column, P s.text) : P (rightText seps column) := by
  unfold rightText
  split
  · exact closed.nothing
  · rename_i first rest visible
    have shown : ∀ s ∈ first :: rest, P s.text := fun s mem => each s (List.mem_of_mem_filter (visible ▸ mem))
    have behind : P (rightRest seps first rest) :=
      closedRightRest closed seps (fun s mem => shown s (List.mem_cons_of_mem first mem)) first
    exact closed.append (closedWhen closed (closed.arrow _ _ _)) (closed.append
      (closedWhen closed (closed.paint _ _)) (closed.append (shown first List.mem_cons_self) behind))

theorem closedAssembled (closed : Closed P) {left right : List SegmentText} {seps : Separators}
    {cols rightIndent : Nat} (gap : ∀ n, P (gapText seps n)) (left' : ∀ s ∈ left, P s.text)
    (right' : ∀ s ∈ right, P s.text) : P (assembleRow o left right cols seps rightIndent) :=
  closedIf (closedLeft closed seps left')
    (closed.append (closedLeft closed seps left') (closed.append (gap _) (closedRight closed seps right')))

theorem closedColumns (each : ∀ right budget e, P (renderElement o config info vcs right budget e).text)
    (cols i : Nat) : (∀ s ∈ (rowColumns o config info vcs cols i).1, P s.text) ∧
      ∀ s ∈ (rowColumns o config info vcs cols i).2, P s.text := by
  have side : ∀ elements right budget, ∀ s ∈ renderSide o config elements info vcs right budget, P s.text := by
    intro elements right budget s mem
    cases elements with
    | none => cases mem
    | some elements =>
      obtain ⟨e,_,rfl⟩ := List.mem_map.mp mem
      exact each right budget e
  constructor
  · exact side _ _ _
  · intro s mem
    unfold rowColumns at mem
    dsimp only at mem
    split at mem
    · exact side _ _ _ s mem
    · cases mem

end closed

inductive Drawn (cwd : Str) : List Ink → Prop where
  | text (t : Str) : Drawn cwd (text t)
  | paint (t : Str) (style : Style) : Drawn cwd (paint t style)
  | arrow (ch : Str) (fg bg : Color) : Drawn cwd (arrow ch fg bg)
  | link {s : List Ink} (shown : Drawn cwd s) : Drawn cwd (code (linkOpens cwd) ++ (s ++ code linkCloses))
  | append {a b : List Ink} (first : Drawn cwd a) (rest : Drawn cwd b) : Drawn cwd (a ++ b)

section pieces
variable {φ τ : Type} {o : Outside τ} {config : Config φ} {info : HeaderInfo τ} {vcs : Option GitStatus}
  {seg : Segment φ} {cwd : Str}

theorem drawnClosed : Closed (Drawn cwd) where
  nothing := .text []
  append first rest := first.append rest
  paint := .paint
  arrow := .arrow
  space := .text _

theorem drawnNone : Drawn cwd [] := drawnClosed.nothing

theorem drawnWhen {p : Prop} [Decidable p] {a : List Ink} (first : Drawn cwd a) :
    Drawn cwd (if p then a else []) := closedWhen drawnClosed first

/-! Segments. -/

theorem drawnDirParts (sepStyle : Style) (n i : Nat) (parts : List DirPart) :
    Drawn cwd (dirParts o config seg cwd sepStyle n i parts) := by
  induction parts generalizing i with
  | nil => exact drawnNone
  | cons part parts ih => exact (drawnWhen (.paint _ _)).append ((Drawn.paint _ _).append (ih (i + 1)))

theorem drawnDir (default : Style) (budget : Option Nat) :
    Drawn info.cwd (dirSegText o config info seg default budget) := by
  have linked : ∀ {p : Prop} [Decidable p] {s : List Ink}, Drawn info.cwd s →
      Drawn info.cwd (if p then code (linkOpens info.cwd) ++ (s ++ code linkCloses) else s) :=
    fun s => closedIf s.link s
  unfold dirSegText
  cases seg.content with
  | some content => exact linked (.text content)
  | none =>
    refine linked (.append (closedIf (.paint _ _) (closedIf ?_ (drawnWhen (.paint _ _)))) (drawnDirParts _ _ 0 _))
    exact (Drawn.paint _ _).append (drawnWhen (.paint _ _))

theorem drawnVcs (branchIcon commitIcon : Str) (style : Style) :
    Drawn cwd (vcsText o vcs branchIcon commitIcon seg style) := by
  cases vcs with
  | none => exact drawnNone
  | some v =>
    refine .append (.append (drawnWhen (.paint _ _)) (.append ?_ ?_)) (closedFlatMap drawnClosed fun part _ => ?_)
    · refine closedIf (.paint _ _) (closedIf ?_ (drawnWhen ?_))
      · exact (Drawn.paint _ _).append (.paint _ _)
      · exact (Drawn.paint _ _).append (.paint _ _)
    · exact drawnWhen ((Drawn.paint _ _).append (.paint _ _))
    · exact (Drawn.paint _ _).append (.paint _ _)

theorem drawnStatus (style : Style) : Drawn cwd (statusText info seg style) := by
  unfold statusText
  split
  · exact .paint _ _
  · exact drawnNone

theorem drawnContent {name : Str} {budget : Option Nat} {content : List Ink} {style : Style}
    (found : contentText o config name info vcs budget = some (content,style)) : Drawn info.cwd content := by
  unfold contentText at found
  dsimp only at found
  split at found
  · cases found
    exact drawnDir _ _
  · split at found
    · split at found
      · cases found
        exact .paint _ _
      · cases found
        exact drawnVcs _ _ _
    · split at found
      · cases found
        exact drawnStatus _
      · split at found
        · cases found
          exact .paint _ _
        · split at found
          · cases found
            exact .paint _ _
          · split at found
            · cases found
              exact .paint _ _
            · split at found
              · cases found
                exact drawnNone
              · cases found

theorem drawnIcon (name : Str) (icon : Option Str) (style : Style) (empty first : Bool) :
    Drawn cwd (iconText config name icon style empty first) := by
  cases icon with
  | none => exact drawnNone
  | some ic => exact closedIf (drawnWhen (.paint _ _)) (closedIf (.paint _ _) (.paint _ _))

theorem drawnAttach (style : Style) (a : Option AttachText) : Drawn cwd (attachOption style a) := by
  cases a with
  | none => exact drawnNone
  | some a => exact .paint _ _

theorem drawnBody {style : Style} {content icon : List Ink} {first : Bool} (content' : Drawn cwd content)
    (icon' : Drawn cwd icon) : Drawn cwd (segmentBody seg style content icon first) := by
  have middle : Drawn cwd (if icon ≠ [] ∧ content ≠ [] then attachOption style seg.textMiddle else []) :=
    drawnWhen (drawnAttach _ _)
  refine .append (.paint _ _) (.append (drawnAttach _ _) (.append ?_ (.append (drawnAttach _ _) (.paint _ _))))
  exact closedIf (icon'.append (middle.append content')) (content'.append (middle.append icon'))

theorem drawnSegment (name : Str) (right : Bool) (budget : Option Nat) (joinedLeft : Bool) :
    Drawn info.cwd (renderSegment o config name info vcs right budget joinedLeft).text := by
  unfold renderSegment
  dsimp only
  split
  · exact drawnNone
  · rename_i content style found
    have body : Drawn info.cwd (segmentBody (config.segment name) style content
        (iconText config name (segmentIcon o config name info vcs) (iconStyle name info (config.segment name) style)
          (decide (content = [])) (iconFirst (config.segment name) right)) (iconFirst (config.segment name) right)) :=
      drawnBody (drawnContent found) (drawnIcon _ _ _ _ _)
    split
    · exact drawnNone
    · exact (drawnWhen (.paint _ _)).append (body.append (.paint _ _))

theorem drawnElement (right : Bool) (budget : Option Nat) (e : Element) :
    Drawn info.cwd (renderElement o config info vcs right budget e).text := by
  cases e with
  | seg name => exact drawnSegment name right budget false
  | joined name => exact drawnSegment name right budget true
  | text t => exact .paint _ _

/-! Rows. -/

theorem drawnGap (seps : Separators) (n : Nat) : Drawn cwd (gapText seps n) := by
  unfold gapText
  dsimp only
  split
  · exact .paint _ _
  · exact .text _

theorem drawnRow (cols i : Nat) : Drawn info.cwd (headerRow o config info vcs cols i) := by
  have columns : (∀ s ∈ (rowColumns o config info vcs cols i).1, Drawn info.cwd s.text) ∧
      ∀ s ∈ (rowColumns o config info vcs cols i).2, Drawn info.cwd s.text := closedColumns drawnElement cols i
  exact (Drawn.paint _ _).append
    ((closedAssembled drawnClosed (drawnGap config.separators) columns.1 columns.2).append (.paint _ _))

theorem drawnHeader {cols : Nat} {line : List Ink} (mem : line ∈ renderHeaderLines o config info vcs cols) :
    Drawn info.cwd line := by
  rcases List.mem_append.mp mem with ruler | row
  · split at ruler
    · rw [List.mem_singleton.mp ruler]
      exact .paint _ _
    · cases ruler
  · obtain ⟨i,_,rfl⟩ := List.mem_map.mp row
    exact drawnRow cols i

end pieces

/-! What is written to steer the terminal. -/

inductive Sequence (cwd : Str) : Str → Prop where
  | style (style : Style) : Sequence cwd (ansiStyle style)
  | separator (fg bg : Color) : Sequence cwd (colorSgr "38".toList fg ++ colorSgr "48".toList bg)
  | reset : Sequence cwd reset
  | linkOpens : Sequence cwd (linkOpens cwd)
  | linkCloses : Sequence cwd linkCloses

/-- What steers the terminal comes in these sequences, each of them whole. -/
inductive Written (cwd : Str) : List Ink → Prop where
  | nil : Written cwd []
  | shown (c : Char) {line : List Ink} (rest : Written cwd line) : Written cwd (Ink.text c :: line)
  | sequence {s : Str} {line : List Ink} (here : Sequence cwd s) (rest : Written cwd line) :
      Written cwd (code s ++ line)

section sequences
variable {cwd : Str}

theorem writtenAppend {a b : List Ink} (first : Written cwd a) (rest : Written cwd b) : Written cwd (a ++ b) := by
  induction first with
  | nil => exact rest
  | shown c _ ih => exact .shown c ih
  | sequence here _ ih =>
    rw [List.append_assoc]
    exact .sequence here ih

theorem writtenText (t : Str) : Written cwd (text t) := by
  induction t with
  | nil => exact .nil
  | cons c t ih => exact .shown c ih

theorem writtenSequence {s : Str} (here : Sequence cwd s) : Written cwd (code s) := by
  have one := Written.sequence here .nil
  rwa [List.append_nil] at one

theorem drawnWritten {line : List Ink} (drawn : Drawn cwd line) : Written cwd line := by
  induction drawn with
  | text t => exact writtenText t
  | paint t style =>
    unfold paint
    split
    · exact .nil
    · exact writtenAppend (writtenAppend (writtenSequence (.style style)) (writtenText t)) (writtenSequence .reset)
  | arrow ch fg bg =>
    exact writtenAppend (writtenAppend (writtenSequence (.separator fg bg)) (writtenText ch)) (writtenSequence .reset)
  | link _ ih => exact .sequence .linkOpens (writtenAppend ih (writtenSequence .linkCloses))
  | append _ _ first rest => exact writtenAppend first rest

theorem colorPaints {ground : Str} (digits : ∀ c ∈ ground, c.isDigit = true) (color : Color) :
    Paints (colorSgr ground color) := by
  rcases colorSequence digits color with none' | ⟨body,whole,marks⟩
  · rw [none']
    exact .nil
  · rw [whole]
    refine paintsOne fun c mem => ?_
    rcases marks c mem with rfl | digit
    · rfl
    · rw [paramChar,digit,Bool.true_or]

theorem stylePaints (style : Style) : Paints (ansiStyle style) := by
  refine paintsAppend (paintsAppend (colorPaints groundDigits.1 _) (colorPaints groundDigits.2 _)) ?_
  split
  · exact paintsOne (numberParam (by decide : '1'.isDigit = true))
  · exact .nil

theorem resetPaints : Paints reset := paintsOne (numberParam (by decide : '0'.isDigit = true))

theorem urlKeepsPlain {c : Char} (keeps : urlKeeps c = true) : control c = false := by
  rw [urlKeeps,Bool.or_eq_true,decide_eq_true_eq] at keeps
  rcases keeps with letter | mark
  · exact alphanumPlain letter
  · have marks : ∀ c ∈ "\"/:_.-!'()~".toList, control c = false := fun c mem =>
      List.all_eq_true.mp (by decide : ("\"/:_.-!'()~".toList.all fun c => control c == false) = true) c mem |> eq_of_beq
    exact marks c mark

theorem upperHexPlain (b : UInt8) : Plain (upperHex b) := by
  have digits : ∀ n < 16, control (if n < 10 then Char.ofNat (n + 48) else Char.ofNat (n + 55)) = false := by decide
  have small := b.toNat_lt
  intro c mem
  rcases List.mem_cons.mp mem with rfl | low
  · exact digits _ (Nat.div_lt_of_lt_mul small)
  · rw [List.mem_singleton.mp low]
    exact digits _ (Nat.mod_lt _ (by decide))

theorem urlEscapePlain (s : Str) : Plain (urlEscape s) := by
  intro c mem
  obtain ⟨b,_,here⟩ := List.mem_flatMap.mp mem
  split at here
  · rename_i keeps
    rw [List.mem_singleton.mp here]
    exact urlKeepsPlain (Bool.and_eq_true_iff.mp keeps).2
  · rcases List.mem_cons.mp here with rfl | digit
    · rfl
    · exact upperHexPlain b c digit

theorem linkBody (cwd : Str) : Plain ("8;;file://".toList ++ urlEscape cwd) := by
  intro c mem
  rcases List.mem_append.mp mem with scheme | path
  · have marks := List.all_eq_true.mp (by decide : ("8;;file://".toList.all fun c => control c == false) = true) c scheme
    exact eq_of_beq marks
  · exact urlEscapePlain cwd c path

theorem sequenceControl {s : Str} (here : Sequence cwd s) {c : Char} (mem : c ∈ s) (steers : control c = true) :
    c = '\x1b' ∨ c = '\x07' := by
  cases here with
  | style style => exact .inl (paintsControl (stylePaints style) mem steers)
  | separator fg bg =>
    have paints := paintsAppend (colorPaints groundDigits.1 fg) (colorPaints groundDigits.2 bg)
    exact .inl (paintsControl paints mem steers)
  | reset => exact .inl (paintsControl resetPaints mem steers)
  | linkOpens =>
    have parts : c = '\x1b' ∨ c = ']' ∨ c ∈ "8;;file://".toList ++ urlEscape cwd ∨ c = '\x07' := by
      simpa [linkOpens,esc,or_assoc] using mem
    rcases parts with escape | rfl | inner | bell
    · exact .inl escape
    · contradiction
    · rw [linkBody cwd c inner] at steers
      contradiction
    · exact .inr bell
  | linkCloses =>
    have parts : c = '\x1b' ∨ c = ']' ∨ c = '8' ∨ c = ';' ∨ c = ';' ∨ c = '\x07' := by
      simpa [linkCloses,esc] using mem
    rcases parts with escape | rfl | rfl | rfl | rfl | bell
    · exact .inl escape
    · contradiction
    · contradiction
    · contradiction
    · contradiction
    · exact .inr bell

theorem writtenControl {line : List Ink} (written : Written cwd line) {c : Char} (mem : Ink.code c ∈ line)
    (steers : control c = true) : c = '\x1b' ∨ c = '\x07' := by
  induction written with
  | nil => cases mem
  | shown d _ ih =>
    rcases List.mem_cons.mp mem with same | there
    · cases same
    · exact ih there
  | sequence here _ ih =>
    rcases List.mem_append.mp mem with first | there
    · obtain ⟨d,inside,same⟩ := List.mem_map.mp first
      cases same
      exact sequenceControl here inside steers
    · exact ih there

end sequences
end P11k.Render
