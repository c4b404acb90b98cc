import P11k.Engine.Placement
import P11k.Lib.Replace
import P11k.Render.Drawn
import P11k.Render.Encodings

/-! The colour of PowerShell's prefix. The line editor repaints the prompt without it, and the
engine writes the coloured prefix for each copy of the bare one that it passes on. -/
namespace P11k.Render
open P11k P11k.Settings
open P11k.Terminal (Plain Paints control paramChar sgr)
open P11k.Machine (run runAppend)
open P11k.Markers (marks)
open P11k.Replace (fill)
open P11k.Engine (rewriteLoop rewritePwshPrefix)

/-- What the loop keeps of the prefix that an ack carries. -/
def pwshPrefix {φ : Type} (config : Config φ) (state : Option Str) : Str × Str :=
  let p := prefixText config state
  (stripAnsi p,p)

def pairBytes (pair : Str × Str) : List UInt8 × List UInt8 := (Utf8.encode pair.1,Utf8.encode pair.2)

theorem rewriteFills (visible colored : List UInt8) (skip : Nat) (data : List UInt8) :
    rewriteLoop visible colored skip data = fill colored (marks visible skip data) := by
  induction data generalizing skip with
  | nil => cases skip <;> rfl
  | cons b data ih =>
    cases skip with
    | succ skip => exact ih skip
    | zero =>
      rw [rewriteLoop,marks]
      by_cases here : visible <+: b :: data
      · rw [if_pos (by simpa using here),if_pos here,ih]
        rfl
      · rw [if_neg (by simpa using here),if_neg here,ih]
        rfl

/-! What `strip_ansi` makes of a text, character by character. -/

inductive Reader where
  | shown
  | opened
  | skipping
  deriving DecidableEq, Repr

def readerStep (r : Reader) (c : Char) : Reader × Str :=
  match r with
  | .shown => if c = esc then (.opened,[]) else (.shown,[c])
  | .opened => if c = '[' then (.skipping,[]) else if c = esc then (.opened,[]) else (.shown,[c])
  | .skipping => if c.isAlpha then (.shown,[]) else (.skipping,[])

def Reader.keeps (r : Reader) (c : Char) : Bool :=
  match r with
  | .shown => true
  | .opened => c ≠ '['
  | .skipping => false

theorem readerStrips (s : Str) :
    (run readerStep .shown s).2 = stripAnsi s ∧ (run readerStep .skipping s).2 = skipSequence s ∧
    (run readerStep .opened s).2 = if s.head? = some '[' then skipSequence s else stripAnsi s := by
  induction s with
  | nil => exact ⟨rfl,rfl,rfl⟩
  | cons c s ih =>
    obtain ⟨shown,skipping,opened⟩ := ih
    have strip : (run readerStep .shown (c :: s)).2 = stripAnsi (c :: s) := by
      rw [run,readerStep,stripAnsi]
      split
      · exact opened
      · exact congrArg (c :: ·) shown
    have skip : (run readerStep .skipping (c :: s)).2 = skipSequence (c :: s) := by
      rw [run,readerStep,skipSequence]
      split
      · exact shown
      · exact skipping
    refine ⟨strip,skip,?_⟩
    by_cases bracket : c = '['
    · rw [bracket] at skip ⊢
      rw [List.head?_cons,if_pos rfl,← skip]
      rfl
    · rw [List.head?_cons,if_neg fun same => bracket (Option.some.inj same),← strip,run,run]
      simp only [readerStep,if_neg bracket]

theorem readsShown {t : Str} (plain : esc ∉ t) : run readerStep .shown t = (.shown,t) := by
  induction t with
  | nil => rfl
  | cons c t ih =>
    rw [List.mem_cons,not_or] at plain
    rw [run,readerStep,if_neg (Ne.symm plain.1)]
    dsimp only
    rw [ih plain.2]
    rfl

theorem readsShort (r : Reader) (s : Str) : (run readerStep r s).2.length ≤ s.length := by
  induction s generalizing r with
  | nil => exact Nat.le_refl 0
  | cons c s ih =>
    have one : (readerStep r c).2.length ≤ 1 := by
      unfold readerStep
      repeat' split
      all_goals simp
    have rest := ih (readerStep r c).1
    rw [run,List.length_append,List.length_cons]
    omega

theorem readsKept {r : Reader} {c : Char} (keeps : r.keeps c = true) (plain : c ≠ esc) (s : Str) :
    run readerStep r (c :: s) = run readerStep .shown (c :: s) := by
  have shown : readerStep .shown c = (.shown,[c]) := if_neg plain
  have same : readerStep r c = (.shown,[c]) := by
    cases r with
    | shown => exact shown
    | opened => rw [readerStep,if_neg (by simpa [Reader.keeps] using keeps),if_neg plain]
    | skipping => cases keeps
  rw [run,run,shown,same]

theorem readsDropped {r : Reader} {c : Char} (drops : r.keeps c = false) (s : Str) :
    (run readerStep r (c :: s)).2.length < (c :: s).length := by
  have none' : (readerStep r c).2 = [] := by
    cases r with
    | shown => cases drops
    | opened => rw [readerStep,if_pos (by simpa [Reader.keeps] using drops)]
    | skipping =>
      rw [readerStep]
      split <;> rfl
  rw [run,none',List.nil_append,List.length_cons]
  exact Nat.lt_succ_of_le (readsShort _ s)

/-! One reading is behind another when it may still be inside a sequence that the other has left. -/

def Behind (a b : Reader) : Prop := a = b ∨ a = .skipping

structure Fewer (x y : Reader × Str) : Prop where
  behind : Behind x.1 y.1
  length : x.2.length ≤ y.2.length

theorem behindTrans {a b c : Reader} (first : Behind a b) (second : Behind b c) : Behind a c := by
  rcases first with rfl | skipping
  · exact second
  · exact .inr skipping

theorem fewerTrans {x y z : Reader × Str} (first : Fewer x y) (second : Fewer y z) : Fewer x z :=
  ⟨behindTrans first.behind second.behind,Nat.le_trans first.length second.length⟩

theorem fewerSelf (x : Reader × Str) : Fewer x x := ⟨.inl rfl,Nat.le_refl _⟩

theorem fewerThen {x y x' y' : Reader × Str} (first : Fewer x y) (rest : Fewer x' y') :
    Fewer (x'.1,x.2 ++ x'.2) (y'.1,y.2 ++ y'.2) := by
  refine ⟨rest.behind,?_⟩
  rw [List.length_append,List.length_append]
  exact Nat.add_le_add first.length rest.length

theorem fewerStep (c : Char) {a b : Reader} (behind : Behind a b) :
    Fewer (readerStep a c) (readerStep b c) := by
  rcases behind with rfl | rfl
  · exact fewerSelf _
  · by_cases letter : c.isAlpha = true
    · have escape : c ≠ esc := by
        rintro rfl
        exact absurd letter (by decide)
      have bracket : c ≠ '[' := by
        rintro rfl
        exact absurd letter (by decide)
      have skipped : readerStep .skipping c = (.shown,[]) := if_pos letter
      rw [skipped]
      refine ⟨.inl ?_,Nat.zero_le _⟩
      cases b <;> simp [readerStep,escape,bracket,letter]
    · have skipped : readerStep .skipping c = (.skipping,[]) := if_neg letter
      rw [skipped]
      exact ⟨.inr rfl,Nat.zero_le _⟩

theorem fewerRun (s : Str) {a b : Reader} (behind : Behind a b) :
    Fewer (run readerStep a s) (run readerStep b s) := by
  induction s generalizing a b with
  | nil => exact ⟨behind,Nat.le_refl 0⟩
  | cons c s ih =>
    have one := fewerStep c behind
    exact fewerThen one (ih one.behind)

theorem fewerAppend {a a' b b' : Str} {r r' : Reader} (first : Fewer (run readerStep r a) (run readerStep r' a'))
    (second : ∀ r, Fewer (run readerStep r b) (run readerStep r b')) :
    Fewer (run readerStep r (a ++ b)) (run readerStep r' (a' ++ b')) := by
  have rest := fewerTrans (fewerRun b first.behind) (second (run readerStep r' a').1)
  rw [runAppend,runAppend]
  exact fewerThen first rest

/-! Painted texts, and the same texts bare. -/

theorem readsSgr {params : Str} (params' : ∀ c ∈ params, paramChar c = true) (r : Reader) :
    run readerStep r (sgr params) = (.shown,[]) := by
  have inside : ∀ params : Str, (∀ c ∈ params, paramChar c = true) →
      run readerStep .skipping (params ++ ['m']) = (.shown,[]) := by
    intro params params'
    induction params with
    | nil => rfl
    | cons c params ih =>
      have letterless : ¬ c.isAlpha = true := by
        have param := params' c List.mem_cons_self
        rw [paramChar,Bool.or_eq_true,beq_iff_eq] at param
        rcases param with digit | rfl
        · rw [digitLetterless digit]
          exact Bool.false_ne_true
        · decide
      have stays : readerStep .skipping c = (.skipping,[]) := if_neg letterless
      rw [List.cons_append,run,stays]
      exact ih fun d mem => params' d (List.mem_cons_of_mem c mem)
  have opens : run readerStep r (sgr params) = run readerStep .skipping (params ++ ['m']) := by
    cases r <;> rfl
  rw [opens,inside params params']

theorem readsPaints {s : Str} (paints : Paints s) :
    run readerStep .shown s = (.shown,[]) ∧ (s ≠ [] → ∀ r, run readerStep r s = (.shown,[])) := by
  induction paints with
  | nil => exact ⟨rfl,fun some' => absurd rfl some'⟩
  | @cons params s params' _ ih =>
    have all : ∀ r, run readerStep r (sgr params ++ s) = (Reader.shown,[]) := fun r => by
      rw [runAppend,readsSgr params' r]
      exact congrArg (fun x => (x.1,[] ++ x.2)) ih.1
    exact ⟨all .shown,fun _ => all⟩

section painted
variable {t : Str} (style : Style)

theorem paintedChars (some' : t ≠ []) : chars (paint t style) = ansiStyle style ++ (t ++ reset) := by
  rw [paint,if_neg some',charsAppend,charsAppend,charsCode,charsCode,charsText,List.append_assoc]

theorem readsReset (r : Reader) : run readerStep r reset = (.shown,[]) :=
  (readsPaints resetPaints).2 (List.cons_ne_nil _ _) r

/-- A text with a colour in front is read from its beginning, wherever the reader was. -/
theorem readsColoured (plain : esc ∉ t) (some' : t ≠ []) (colour : ansiStyle style ≠ []) (r : Reader) :
    run readerStep r (chars (paint t style)) = (.shown,t) := by
  rw [paintedChars style some',runAppend,(readsPaints (stylePaints style)).2 colour r]
  dsimp only
  rw [runAppend,readsShown plain]
  dsimp only
  rw [readsReset,List.append_nil,List.nil_append]

/-- Without a colour only the reset behind the text ends what the reader was in. -/
theorem readsColourless (some' : t ≠ []) (colourless : ansiStyle style = []) (r : Reader) :
    run readerStep r (chars (paint t style)) = (.shown,(run readerStep r t).2) := by
  rw [paintedChars style some',colourless,List.nil_append,runAppend,readsReset,List.append_nil]

theorem readsPainted (plain : esc ∉ t) : run readerStep .shown (chars (paint t style)) = (.shown,t) := by
  by_cases none' : t = []
  · rw [none']
    rfl
  · by_cases colour : ansiStyle style = []
    · rw [readsColourless style none' colour,readsShown plain]
    · exact readsColoured style plain none' colour .shown

theorem readsEnd (plain : esc ∉ t) (some' : t ≠ []) (r : Reader) :
    Behind (run readerStep r t).1 .shown := by
  obtain ⟨c,s,rfl⟩ := List.exists_cons_of_ne_nil some'
  rw [List.mem_cons,not_or] at plain
  have one : Behind (readerStep r c).1 .shown := by
    cases r with
    | shown => exact .inl (by rw [readerStep,if_neg (Ne.symm plain.1)])
    | opened =>
      rw [readerStep]
      split
      · exact .inr rfl
      · exact .inl (by rw [if_neg (Ne.symm plain.1)])
    | skipping =>
      rw [readerStep]
      split
      · exact .inl rfl
      · exact .inr rfl
  have rest := (fewerRun s one).behind
  rw [readsShown plain.2] at rest
  exact rest

theorem fewerPainted (plain : esc ∉ t) (r : Reader) :
    Fewer (run readerStep r t) (run readerStep r (chars (paint t style))) := by
  by_cases none' : t = []
  · rw [none']
    exact fewerSelf _
  · by_cases colour : ansiStyle style = []
    · rw [readsColourless style none' colour]
      exact ⟨readsEnd plain none' r,Nat.le_refl _⟩
    · rw [readsColoured style plain none' colour]
      exact ⟨readsEnd plain none' r,readsShort r t⟩

theorem readsLetter (plain : esc ∉ t) {c : Char} (mem : c ∈ t) (letter : c.isAlpha = true) (r : Reader) :
    (run readerStep r t).1 = .shown := by
  induction t generalizing r with
  | nil => cases mem
  | cons d t ih =>
    rw [List.mem_cons,not_or] at plain
    rcases List.mem_cons.mp mem with rfl | later
    · have bracket : c ≠ '[' := by
        rintro rfl
        exact absurd letter (by decide)
      have ends : (readerStep r c).1 = .shown := by
        cases r <;> simp [readerStep,Ne.symm plain.1,bracket,letter]
      rw [run,ends,readsShown plain.2]
    · exact ih plain.2 later (readerStep r d).1

theorem readsLetterless (letterless : ∀ c ∈ t, c.isAlpha = false) : run readerStep .skipping t = (.skipping,[]) := by
  induction t with
  | nil => rfl
  | cons c t ih =>
    have stays : readerStep .skipping c = (.skipping,[]) := by
      rw [readerStep,letterless c List.mem_cons_self,if_neg Bool.false_ne_true]
    rw [run,stays,ih fun d mem => letterless d (List.mem_cons_of_mem c mem)]
    rfl

theorem readsInside {c : Char} {s : Str} (letterless : ∀ d ∈ c :: s, d.isAlpha = false) {r : Reader}
    (drops : r.keeps c = false) : run readerStep r (c :: s) = (.skipping,[]) := by
  have whole := readsLetterless letterless
  cases r with
  | shown => cases drops
  | skipping => exact whole
  | opened =>
    have bracket : c = '[' := by simpa [Reader.keeps] using drops
    rw [bracket] at whole ⊢
    exact whole

end painted

section pieces
variable {pieces : List (Str × Style)}

def bare (pieces : List (Str × Style)) : Str := pieces.flatMap (·.1) ++ " ".toList

def coloured (pieces : List (Str × Style)) : Str := (pieces.flatMap fun x => chars (paint x.1 x.2)) ++ " ".toList

/-- The first text that is shown is written as it is and holds a letter. -/
def Immune (pieces : List (Str × Style)) : Prop :=
  ∀ x ∈ pieces.find? (·.1 ≠ []), ansiStyle x.2 = [] ∧ ∃ c ∈ x.1, c.isAlpha = true

theorem bareCons (x : Str × Style) (pieces : List (Str × Style)) : bare (x :: pieces) = x.1 ++ bare pieces := by
  rw [bare,bare,List.flatMap_cons,List.append_assoc]

theorem colouredCons (x : Str × Style) (pieces : List (Str × Style)) :
    coloured (x :: pieces) = chars (paint x.1 x.2) ++ coloured pieces := by
  rw [coloured,coloured,List.flatMap_cons,List.append_assoc]

theorem bareSome (pieces : List (Str × Style)) : bare pieces ≠ [] :=
  List.append_ne_nil_of_right_ne_nil _ (by decide)

theorem barePlain (plain : ∀ x ∈ pieces, esc ∉ x.1) : esc ∉ bare pieces := by
  intro mem
  rcases List.mem_append.mp mem with text | space
  · obtain ⟨x,inside,here⟩ := List.mem_flatMap.mp text
    exact plain x inside here
  · exact absurd space (by decide)

theorem readsBare (plain : ∀ x ∈ pieces, esc ∉ x.1) :
    run readerStep .shown (coloured pieces) = (.shown,bare pieces) := by
  induction pieces with
  | nil => rfl
  | cons x pieces ih =>
    obtain ⟨first,rest⟩ := List.forall_mem_cons.mp plain
    rw [colouredCons,bareCons,runAppend,readsPainted x.2 first]
    dsimp only
    rw [ih rest]

theorem fewerBare (plain : ∀ x ∈ pieces, esc ∉ x.1) (r : Reader) :
    Fewer (run readerStep r (bare pieces)) (run readerStep r (coloured pieces)) := by
  induction pieces generalizing r with
  | nil => exact fewerSelf _
  | cons x pieces ih =>
    obtain ⟨first,rest⟩ := List.forall_mem_cons.mp plain
    rw [colouredCons,bareCons]
    exact fewerAppend (fewerPainted x.2 first r) (ih rest)

/-- The first text that is shown, and the texts behind it. -/
structure Opens (pieces : List (Str × Style)) (t : Str) (style : Style) (rest : List (Str × Style)) : Prop where
  some' : t ≠ []
  first : (t,style) ∈ pieces
  behind : rest ⊆ pieces
  bare : bare pieces = t ++ bare rest
  coloured : coloured pieces = chars (paint t style) ++ coloured rest
  immune : Immune pieces ↔ ansiStyle style = [] ∧ ∃ c ∈ t, c.isAlpha = true

theorem firstShown (pieces : List (Str × Style)) :
    (bare pieces = " ".toList ∧ coloured pieces = " ".toList ∧ Immune pieces) ∨
      ∃ t style rest, Opens pieces t style rest := by
  induction pieces with
  | nil => exact .inl ⟨rfl,rfl,fun x none' => by cases none'⟩
  | cons x pieces ih =>
    obtain ⟨t,style⟩ := x
    by_cases none' : t = []
    · subst none'
      have same : Immune (([],style) :: pieces) ↔ Immune pieces := by
        rw [Immune,Immune,List.find?_cons_of_neg (by simp)]
      rcases ih with ⟨blank,blank',immune⟩ | ⟨t,style',rest,opens⟩
      · exact .inl ⟨blank,blank',same.mpr immune⟩
      · exact .inr ⟨t,style',rest,opens.some',List.mem_cons_of_mem _ opens.first,
          fun y mem => List.mem_cons_of_mem _ (opens.behind mem),opens.bare,opens.coloured,same.trans opens.immune⟩
    · refine .inr ⟨t,style,pieces,none',List.mem_cons_self,fun y mem => List.mem_cons_of_mem _ mem,
        bareCons _ _,colouredCons _ _,?_⟩
      rw [Immune,List.find?_cons_of_pos (by simpa using none')]
      simp

theorem immuneSame (plain : ∀ x ∈ pieces, esc ∉ x.1) (immune : Immune pieces) (r : Reader) :
    run readerStep r (coloured pieces) = run readerStep r (bare pieces) := by
  rcases firstShown pieces with ⟨blank,blank',_⟩ | ⟨t,style,rest,opens⟩
  · rw [blank,blank']
  · have first := plain _ opens.first
    have others : ∀ x ∈ rest, esc ∉ x.1 := fun x mem => plain x (opens.behind mem)
    obtain ⟨colourless,c,mem,letter⟩ := opens.immune.mp immune
    have ends := readsLetter first mem letter r
    rw [opens.coloured,opens.bare,runAppend,runAppend,readsColourless style opens.some' colourless,ends]
    dsimp only
    rw [readsBare others,readsShown (barePlain others)]

theorem exposedLonger (plain : ∀ x ∈ pieces, esc ∉ x.1) (exposed : ¬ Immune pieces) {r : Reader}
    (drops : ∀ c, (bare pieces).head? = some c → r.keeps c = false) :
    (run readerStep r (bare pieces)).2.length < (run readerStep r (coloured pieces)).2.length := by
  rcases firstShown pieces with ⟨_,_,immune⟩ | ⟨t,style,rest,opens⟩
  · exact absurd immune exposed
  · have first := plain _ opens.first
    have others : ∀ x ∈ rest, esc ∉ x.1 := fun x mem => plain x (opens.behind mem)
    have some' := opens.some'
    rw [opens.immune] at exposed
    rw [opens.bare] at drops ⊢
    rw [opens.coloured]
    obtain ⟨c,s,rfl⟩ := List.exists_cons_of_ne_nil some'
    have dropped : r.keeps c = false := drops c rfl
    by_cases colourless : ansiStyle style = []
    · have letterless : ∀ d ∈ c :: s, d.isAlpha = false := by
        intro d mem
        cases letter : d.isAlpha with
        | false => rfl
        | true => exact absurd ⟨colourless,d,mem,letter⟩ exposed
      obtain ⟨d,u,whole⟩ := List.exists_cons_of_ne_nil (bareSome rest)
      have less := @readsDropped .skipping d rfl u
      have inside := readsInside letterless dropped
      rw [runAppend,runAppend,readsColourless style some' colourless,inside]
      dsimp only
      rw [readsBare others]
      rwa [whole,List.nil_append,List.nil_append]
    · rw [runAppend readerStep r (chars _),readsColoured style first some' colourless]
      dsimp only
      rw [readsBare others]
      exact readsDropped dropped _

theorem keptColoured (plain : ∀ x ∈ pieces, esc ∉ x.1) {r : Reader}
    (keeps : ∀ c, (bare pieces).head? = some c → r.keeps c = true) :
    run readerStep r (coloured pieces) = (.shown,bare pieces) := by
  rcases firstShown pieces with ⟨blank,blank',_⟩ | ⟨t,style,rest,opens⟩
  · rw [blank] at keeps ⊢
    rw [blank']
    exact (readsKept (keeps ' ' rfl) (by decide) []).trans rfl
  · have first := plain _ opens.first
    have others : ∀ x ∈ rest, esc ∉ x.1 := fun x mem => plain x (opens.behind mem)
    have some' := opens.some'
    rw [opens.bare] at keeps ⊢
    rw [opens.coloured]
    obtain ⟨c,s,rfl⟩ := List.exists_cons_of_ne_nil some'
    have kept : r.keeps c = true := keeps c rfl
    have escape : c ≠ esc := fun same => first (by rw [same]; exact List.mem_cons_self)
    have painted : run readerStep r (chars (paint (c :: s) style)) = (.shown,c :: s) := by
      by_cases colourless : ansiStyle style = []
      · rw [readsColourless style some' colourless,readsKept kept escape,readsShown first]
      · exact readsColoured style first some' colourless r
    rw [runAppend,painted]
    dsimp only
    rw [readsBare others]

theorem keptBare (plain : ∀ x ∈ pieces, esc ∉ x.1) {r : Reader}
    (keeps : ∀ c, (bare pieces).head? = some c → r.keeps c = true) :
    run readerStep r (bare pieces) = (.shown,bare pieces) := by
  have whole := readsShown (barePlain plain)
  have clean := barePlain plain
  obtain ⟨c,s,shape⟩ := List.exists_cons_of_ne_nil (bareSome pieces)
  rw [shape] at keeps whole clean ⊢
  rw [readsKept (keeps c rfl) fun same => clean (by rw [same]; exact List.mem_cons_self)]
  exact whole

/-! Every copy replaced. -/

/-- Each copy of `v` begins with a character that `strip_ansi` keeps. -/
def Placed (v : Str) (r : Reader) : List (Option Char) → Prop
  | [] => True
  | none :: ms => (∀ c, v.head? = some c → r.keeps c = true) ∧ Placed v (run readerStep r v).1 ms
  | some c :: ms => Placed v (readerStep r c).1 ms

instance decidablePlaced (v : Str) : (r : Reader) → (ms : List (Option Char)) → Decidable (Placed v r ms)
  | _, [] => .isTrue trivial
  | r, none :: ms =>
      @instDecidableAnd _ _ (decidable_of_iff (v.head?.all r.keeps = true) (by cases v.head? <;> simp))
        (decidablePlaced v (run readerStep r v).1 ms)
  | r, some c :: ms => decidablePlaced v (readerStep r c).1 ms

theorem fillCopy (p : Str) (ms : List (Option Char)) : fill p (none :: ms) = p ++ fill p ms := rfl

theorem fillOther (p : Str) (c : Char) (ms : List (Option Char)) : fill p (some c :: ms) = c :: fill p ms := rfl

theorem placedSame (plain : ∀ x ∈ pieces, esc ∉ x.1) {r : Reader} {ms : List (Option Char)}
    (placed : Placed (bare pieces) r ms) :
    run readerStep r (fill (coloured pieces) ms) = run readerStep r (fill (bare pieces) ms) := by
  induction ms generalizing r with
  | nil => rfl
  | cons m ms ih =>
    cases m with
    | none =>
      rw [fillCopy,fillCopy,runAppend,runAppend,keptColoured plain placed.1,keptBare plain placed.1]
      have later := placed.2
      rw [keptBare plain placed.1] at later
      dsimp only
      rw [ih later]
    | some c =>
      rw [fillOther,fillOther,run,run]
      rw [ih placed]

theorem immuneFilled (plain : ∀ x ∈ pieces, esc ∉ x.1) (immune : Immune pieces) (r : Reader)
    (ms : List (Option Char)) :
    run readerStep r (fill (coloured pieces) ms) = run readerStep r (fill (bare pieces) ms) := by
  induction ms generalizing r with
  | nil => rfl
  | cons m ms ih =>
    cases m with
    | none => rw [fillCopy,fillCopy,runAppend,runAppend,immuneSame plain immune,ih]
    | some c => rw [fillOther,fillOther,run,run,ih]

theorem fewerFilled (plain : ∀ x ∈ pieces, esc ∉ x.1) (ms : List (Option Char)) {a b : Reader}
    (behind : Behind a b) :
    Fewer (run readerStep a (fill (bare pieces) ms)) (run readerStep b (fill (coloured pieces) ms)) := by
  induction ms generalizing a b with
  | nil => exact ⟨behind,Nat.le_refl 0⟩
  | cons m ms ih =>
    cases m with
    | none =>
      have first := fewerTrans (fewerRun (bare pieces) behind) (fewerBare plain b)
      rw [fillCopy,fillCopy,runAppend,runAppend]
      exact fewerThen first (ih first.behind)
    | some c =>
      have first := fewerStep c behind
      exact fewerThen first (ih first.behind)

/-- A copy inside a sequence shows more once it is coloured, and nothing behind it shows less. -/
theorem misplacedLonger (plain : ∀ x ∈ pieces, esc ∉ x.1) (exposed : ¬ Immune pieces) {r : Reader}
    {ms : List (Option Char)} (misplaced : ¬ Placed (bare pieces) r ms) :
    (run readerStep r (fill (bare pieces) ms)).2.length < (run readerStep r (fill (coloured pieces) ms)).2.length := by
  induction ms generalizing r with
  | nil => exact absurd trivial misplaced
  | cons m ms ih =>
    cases m with
    | none =>
      rw [fillCopy,fillCopy,runAppend,runAppend,List.length_append,List.length_append]
      by_cases keeps : ∀ c, (bare pieces).head? = some c → r.keeps c = true
      · have later : ¬ Placed (bare pieces) (run readerStep r (bare pieces)).1 ms :=
          fun placed => misplaced ⟨keeps,placed⟩
        rw [keptBare plain keeps] at later ⊢
        rw [keptColoured plain keeps]
        exact Nat.add_lt_add_left (ih later) _
      · have drops : ∀ c, (bare pieces).head? = some c → r.keeps c = false := by
          intro c head
          by_contra kept
          refine keeps fun d same => ?_
          rw [head] at same
          cases same
          simpa using kept
        have longer := exposedLonger plain exposed drops
        have rest := fewerFilled plain ms (fewerBare plain r).behind
        exact Nat.add_lt_add_of_lt_of_le longer rest.length
    | some c =>
      rw [fillOther,fillOther,run,run,List.length_append,List.length_append]
      exact Nat.add_lt_add_left (ih misplaced) _

end pieces

section config
variable {φ : Type} (config : Config φ) (state : Option Str)

/-- The two texts of the prefix. -/
def prefixPieces : List (Str × Style) :=
  [(config.frame.lastPrefix.text,config.framePieceStyle config.frame.lastPrefix),
    (promptChar config state,(config.segment "prompt_char".toList).effectiveStyle state config.defaults)]

variable {config state}

theorem piecesPlain (last : Plain config.frame.lastPrefix.text) (char : Plain (promptChar config state)) :
    ∀ x ∈ prefixPieces config state, esc ∉ x.1 := by
  have clean : ∀ {t : Str}, Plain t → esc ∉ t := fun plain mem => absurd (plain esc mem) (by decide)
  simp only [prefixPieces,List.forall_mem_cons]
  exact ⟨clean last,clean char,nofun⟩

theorem prefixColoured : prefixText config state = coloured (prefixPieces config state) := by
  rw [prefixText,prefixParts fun _ => rfl]
  simp [coloured,prefixPieces]

theorem prefixPair (plain : ∀ x ∈ prefixPieces config state, esc ∉ x.1) :
    pwshPrefix config state = (bare (prefixPieces config state),coloured (prefixPieces config state)) := by
  rw [pwshPrefix,prefixColoured,← (readerStrips _).1,readsBare plain]

/-- Rewriting the prefix keeps the visible text of what is passed on exactly when each copy that is
found begins in the visible text, or the prefix is read alike in both forms wherever it stands. -/
theorem rewriteKeepsText (shell : Engine.Shell) (data : Str) (last : Plain config.frame.lastPrefix.text)
    (char : Plain (promptChar config state)) :
    stripAnsi (Utf8.decode (rewritePwshPrefix (Utf8.encode data) shell
        (some (pairBytes (pwshPrefix config state))))) = stripAnsi data ↔
      shell ≠ .pwsh ∨ Immune (prefixPieces config state) ∨
        Placed (pwshPrefix config state).1 .shown (marks (pwshPrefix config state).1 0 data) := by
  have plain := piecesPlain last char
  rw [prefixPair plain]
  by_cases pwsh : shell = .pwsh
  · subst pwsh
    have some' := bareSome (prefixPieces config state)
    have written : rewritePwshPrefix (Utf8.encode data) .pwsh
        (some (pairBytes (bare (prefixPieces config state),coloured (prefixPieces config state)))) =
        Utf8.encode (fill (coloured (prefixPieces config state)) (marks (bare (prefixPieces config state)) 0 data)) := by
      rw [pairBytes,rewritePwshPrefix,if_neg (by simpa using Replace.encodeSome some'),rewriteFills,
        Replace.fillEncoded some']
    have own := Replace.fillOwn some' data
    rw [written,Utf8.decodeEncode,← (readerStrips _).1,← (readerStrips data).1]
    constructor
    · intro same
      by_contra! misses
      have longer := misplacedLonger plain misses.2.1 misses.2.2
      rw [own,same] at longer
      exact Nat.lt_irrefl _ longer
    · rintro (other | immune | placed)
      · exact absurd rfl other
      · rw [immuneFilled plain immune,own]
      · rw [placedSame plain placed,own]
  · refine iff_of_true ?_ (.inl pwsh)
    rw [pairBytes,rewritePwshPrefix,if_pos (.inl pwsh),Utf8.decodeEncode]

end config

/-! A prompt character that is the first character of many sequences. -/

def digitPrompt : Config Unit where
  segments := SortedMap.empty.insert "prompt_char".toList
    { style := { fg := .xterm 1 }, props := SortedMap.empty.insert "char".toList (.str "2".toList) }

theorem digitPromptPlain : Plain digitPrompt.frame.lastPrefix.text ∧ Plain (promptChar digitPrompt none) := by
  constructor <;> decide +kernel

theorem repaintKeepsText :
    stripAnsi (Utf8.decode (rewritePwshPrefix (Utf8.encode "\x1b[1mls\x1b[0m\r\n2 ".toList) .pwsh
      (some (pairBytes (pwshPrefix digitPrompt none))))) = "ls\r\n2 ".toList := by
  have kept := (rewriteKeepsText .pwsh "\x1b[1mls\x1b[0m\r\n2 ".toList digitPromptPlain.1 digitPromptPlain.2).mpr
    (.inr (.inr (by decide +kernel)))
  exact kept.trans (by decide +kernel)

/-- Text, and sequences that are complete: parameters, intermediate characters and a final one. -/
inductive CsiText : Str → Prop where
  | nil : CsiText []
  | text {c : Char} {s : Str} (plain : c ≠ esc) (rest : CsiText s) : CsiText (c :: s)
  | csi {params inner : Str} {final : Char} {s : Str} (params' : ∀ c ∈ params, 0x30 ≤ c.toNat ∧ c.toNat ≤ 0x3f)
      (inner' : ∀ c ∈ inner, 0x20 ≤ c.toNat ∧ c.toNat ≤ 0x2f) (final' : 0x40 ≤ final.toNat ∧ final.toNat ≤ 0x7e)
      (rest : CsiText s) : CsiText (esc :: '[' :: (params ++ (inner ++ final :: s)))

/-- The sequence that sets the shape of the cursor is torn apart and its end is shown. -/
theorem cursorShapeTorn :
    ¬ ∀ (config : Config Unit) (state : Option Str) (data : Str), Plain config.frame.lastPrefix.text →
      Plain (promptChar config state) → CsiText data →
      stripAnsi (Utf8.decode (rewritePwshPrefix (Utf8.encode data) .pwsh
        (some (pairBytes (pwshPrefix config state))))) = stripAnsi data := by
  intro kept
  have shape : CsiText "\x1b[2 q".toList :=
    @CsiText.csi ['2'] [' '] 'q' [] (by simp) (by simp) (by simp) .nil
  have same := kept digitPrompt none "\x1b[2 q".toList digitPromptPlain.1 digitPromptPlain.2 shape
  revert same
  decide +kernel

end P11k.Render
