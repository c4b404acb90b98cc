import P11k.Render.Alternatives
import P11k.Render.GlobLanguage

/-! Patterns with alternatives, read piece by piece: what is written out are the pieces of every choice, put
together. -/
namespace P11k.Render
open P11k P11k.Settings P11k.Wildcard

/-- A text each class of which is closed, with these characters outside the classes. -/
inductive Bracketed (p : Char → Prop) : Str → Prop where
  | nil : Bracketed p []
  | char {c t} (plain : p c) (rest : Bracketed p t) : Bracketed p (c :: t)
  | cls {body t} (inside : ']' ∉ body) (rest : Bracketed p t) : Bracketed p ('[' :: (body ++ ']' :: t))

/-- A text without groups and alternatives. -/
abbrev PlainText : Str → Prop := Bracketed fun c => c ≠ '[' ∧ c ≠ '(' ∧ c ≠ ')' ∧ c ≠ '|'

theorem bracketedAppend {p : Char → Prop} {t u : Str} (first : Bracketed p t) (rest : Bracketed p u) :
    Bracketed p (t ++ u) := by
  induction first with
  | nil => exact rest
  | char plain _ ih => exact .char plain ih
  | @cls body t inside _ ih =>
    rw [List.cons_append,List.append_assoc,List.cons_append]
    exact .cls inside ih

theorem bracketedMore {p q : Char → Prop} (more : ∀ c, p c → q c) {t : Str} (text : Bracketed p t) : Bracketed q t := by
  induction text with
  | nil => exact .nil
  | char plain _ ih => exact .char (more _ plain) ih
  | cls inside _ ih => exact .cls inside ih

inductive Level where
  | branch
  | pattern

/-- A text of a pattern, and whether the pattern may begin and may end with it. -/
structure TextPiece where
  text : Str
  first : Bool
  last : Bool

def choiceText (ps : List TextPiece) : Str := ps.flatMap TextPiece.text

/-- A branch or a pattern, with the pieces of one choice: an alternative is taken in the pattern and in every group
that is on the way. `a` and `z` tell whether it stands at the beginning and at the end. -/
inductive Reads : Bool → Bool → Level → Str → List TextPiece → Prop where
  | text {a z t} (plain : PlainText t) : Reads a z .branch t [⟨t,a,z⟩]
  | group {a z t inner rest ps qs} (plain : PlainText t)
      (inside : Reads (a && t.isEmpty) (z && rest.isEmpty) .pattern inner ps) (behind : Reads false z .branch rest qs) :
      Reads a z .branch (t ++ '(' :: (inner ++ ')' :: rest)) (⟨t,a,false⟩ :: (ps ++ qs))
  | only {a z b ps} (here : Reads a z .branch b ps) : Reads a z .pattern b ps
  | first {a z b rest ps qs} (here : Reads a z .branch b ps) (other : Reads a z .pattern rest qs) :
      Reads a z .pattern (b ++ '|' :: rest) ps
  | later {a z b rest ps qs} (other : Reads a z .branch b qs) (there : Reads a z .pattern rest ps) :
      Reads a z .pattern (b ++ '|' :: rest) ps

/-! The scanner on such texts. -/

/-- The scanner stays at this depth and meets no bar outside a class. -/
def Flat (d : Nat) (st : Bool × Nat) : Str → Prop
  | [] => True
  | c :: s => (scanStep st c).2 = d ∧ (c = '|' → (scanStep st c).1 = true) ∧ Flat d (scanStep st c) s

/-- The scanner stays inside a group. -/
def Deep (st : Bool × Nat) : Str → Prop
  | [] => True
  | c :: s => (scanStep st c).2 ≠ 0 ∧ Deep (scanStep st c) s

theorem flatAppend {d : Nat} {st : Bool × Nat} {s u : Str} (first : Flat d st s) (rest : Flat d (s.foldl scanStep st) u) :
    Flat d st (s ++ u) := by
  induction s generalizing st with
  | nil => exact rest
  | cons c s ih => exact ⟨first.1,first.2.1,ih first.2.2 rest⟩

theorem deepAppend {st : Bool × Nat} {s u : Str} (first : Deep st s) (rest : Deep (s.foldl scanStep st) u) :
    Deep st (s ++ u) := by
  induction s generalizing st with
  | nil => exact rest
  | cons c s ih => exact ⟨first.1,ih first.2 rest⟩

theorem flatDeep {d : Nat} {st : Bool × Nat} {s : Str} (flat : Flat (d + 1) st s) : Deep st s := by
  induction s generalizing st with
  | nil => trivial
  | cons c s ih => exact ⟨flat.1 ▸ Nat.succ_ne_zero d,ih flat.2.2⟩

theorem scanClass {c : Char} (inside : c ≠ ']') (d : Nat) : scanStep (true,d) c = (true,d) := by
  simp [scanStep,inside]

theorem scanPlain {c : Char} (plain : c ≠ '[' ∧ c ≠ '(' ∧ c ≠ ')') (d : Nat) : scanStep (false,d) c = (false,d) := by
  simp [scanStep,plain]

theorem classFlat {body : Str} (inside : ']' ∉ body) (d : Nat) :
    Flat d (true,d) body ∧ body.foldl scanStep (true,d) = (true,d) := by
  induction body with
  | nil => exact ⟨trivial,rfl⟩
  | cons c body ih =>
    rw [List.mem_cons,not_or] at inside
    have step := scanClass (Ne.symm inside.1) d
    rw [Flat,List.foldl_cons,step]
    exact ⟨⟨rfl,fun _ => rfl,(ih inside.2).1⟩,(ih inside.2).2⟩

theorem plainFlat {t : Str} (plain : PlainText t) (d : Nat) :
    Flat d (false,d) t ∧ t.foldl scanStep (false,d) = (false,d) := by
  induction plain with
  | nil => exact ⟨trivial,rfl⟩
  | @char c t plain rest ih =>
    have step := scanPlain ⟨plain.1,plain.2.1,plain.2.2.1⟩ d
    rw [Flat,List.foldl_cons,step]
    exact ⟨⟨rfl,fun bar => absurd bar plain.2.2.2,ih.1⟩,ih.2⟩
  | @cls body t inside rest ih =>
    have opens : scanStep (false,d) '[' = (true,d) := rfl
    have closes : scanStep (true,d) ']' = (false,d) := rfl
    obtain ⟨within,kept⟩ := classFlat inside d
    rw [Flat,List.foldl_cons,opens,List.foldl_append,kept,List.foldl_cons,closes]
    refine ⟨⟨rfl,fun bar => absurd bar (by decide),flatAppend within ?_⟩,ih.2⟩
    rw [kept,Flat,closes]
    exact ⟨rfl,fun bar => absurd bar (by decide),ih.1⟩

theorem readsDeep {a z : Bool} {k : Level} {s : Str} {ps : List TextPiece} (reads : Reads a z k s ps) (d : Nat) :
    Deep (false,d + 1) s ∧ s.foldl scanStep (false,d + 1) = (false,d + 1) := by
  have opens : ∀ d, scanStep (false,d) '(' = (false,d + 1) := fun _ => rfl
  have closes : ∀ d, scanStep (false,d + 1) ')' = (false,d) := fun _ => rfl
  have bar : ∀ d, scanStep (false,d) '|' = (false,d) := fun _ => rfl
  induction reads generalizing d with
  | text plain => exact ⟨flatDeep (plainFlat plain (d + 1)).1,(plainFlat plain (d + 1)).2⟩
  | group plain inside behind ih ih' =>
    obtain ⟨within,kept⟩ := ih (d + 1)
    have front := plainFlat plain (d + 1)
    rw [List.foldl_append,front.2,List.foldl_cons,opens,List.foldl_append,kept,List.foldl_cons,closes]
    refine ⟨deepAppend (flatDeep front.1) ?_,(ih' d).2⟩
    rw [front.2,Deep,opens]
    refine ⟨Nat.succ_ne_zero _,deepAppend within ?_⟩
    rw [kept,Deep,closes]
    exact ⟨Nat.succ_ne_zero _,(ih' d).1⟩
  | only here ih => exact ih d
  | first here other ih ih' =>
    rw [List.foldl_append,(ih d).2,List.foldl_cons,bar]
    refine ⟨deepAppend (ih d).1 ?_,(ih' d).2⟩
    rw [(ih d).2,Deep,bar]
    exact ⟨Nat.succ_ne_zero _,(ih' d).1⟩
  | later other there ih ih' =>
    rw [List.foldl_append,(ih d).2,List.foldl_cons,bar]
    refine ⟨deepAppend (ih d).1 ?_,(ih' d).2⟩
    rw [(ih d).2,Deep,bar]
    exact ⟨Nat.succ_ne_zero _,(ih' d).1⟩

/-! The first group. -/

theorem groupFlat {st : Bool × Nat} (ground : st.2 = 0) {s : Str} (flat : Flat 0 st s) (front inner u : Str) :
    groupLoop st front inner (s ++ u) = groupLoop (s.foldl scanStep st) (front ++ s) inner u := by
  induction s generalizing st front with
  | nil => rw [List.append_nil]; rfl
  | cons c s ih =>
    rw [List.cons_append,groupLoop,if_pos ground,if_pos flat.1,ih flat.1 flat.2.2,List.append_assoc]
    rfl

theorem groupDeep {st : Bool × Nat} (inside : st.2 ≠ 0) {s : Str} (deep : Deep st s) (front inner u : Str) :
    groupLoop st front inner (s ++ u) = groupLoop (s.foldl scanStep st) front (inner ++ s) u := by
  induction s generalizing st inner with
  | nil => rw [List.append_nil]; rfl
  | cons c s ih =>
    rw [List.cons_append,groupLoop,if_neg inside,if_neg deep.1,ih deep.1 deep.2,List.append_assoc]
    rfl

theorem firstGroupPlain {t : Str} (plain : PlainText t) : firstGroup t = none := by
  obtain ⟨flat,kept⟩ := plainFlat plain 0
  have whole := groupFlat rfl flat [] [] []
  rw [List.append_nil,kept] at whole
  exact whole

theorem firstGroupFound {a z : Bool} {t inner : Str} {ps : List TextPiece} (plain : PlainText t)
    (inside : Reads a z .pattern inner ps) (rest : Str) :
    firstGroup (t ++ '(' :: (inner ++ ')' :: rest)) = some (t,inner,rest) := by
  obtain ⟨flat,kept⟩ := plainFlat plain 0
  obtain ⟨deep,kept'⟩ := readsDeep inside 0
  have opens : scanStep (false,0) '(' = (false,1) := rfl
  have closes : scanStep (false,1) ')' = (false,0) := rfl
  rw [firstGroup,groupFlat rfl flat,kept,groupLoop,if_pos rfl,opens,if_neg (by decide),groupDeep (by decide) deep,kept',
    groupLoop,if_neg (by decide),closes,if_pos rfl,List.nil_append]
  rfl

/-! The branches. -/

theorem splitFlat {st : Bool × Nat} {s : Str} (flat : Flat 0 st s) (cur u : Str) :
    splitLoop '|' st cur (s ++ u) = splitLoop '|' (s.foldl scanStep st) (cur ++ s) u := by
  induction s generalizing st cur with
  | nil => rw [List.append_nil]; rfl
  | cons c s ih =>
    have stays : ¬ (c = '|' ∧ (scanStep st c).2 = 0 ∧ (scanStep st c).1 = false) := fun splits =>
      Bool.false_ne_true (splits.2.2.symm.trans (flat.2.1 splits.1))
    rw [List.cons_append,splitLoop,if_neg stays,ih flat.2.2,List.append_assoc]
    rfl

theorem splitDeep {st : Bool × Nat} {s : Str} (deep : Deep st s) (cur u : Str) :
    splitLoop '|' st cur (s ++ u) = splitLoop '|' (s.foldl scanStep st) (cur ++ s) u := by
  induction s generalizing st cur with
  | nil => rw [List.append_nil]; rfl
  | cons c s ih =>
    rw [List.cons_append,splitLoop,if_neg fun splits => deep.1 splits.2.1,ih deep.2,List.append_assoc]
    rfl

theorem splitBranch {a z : Bool} {k : Level} {b : Str} {ps : List TextPiece} (reads : Reads a z k b ps)
    (branch : k = .branch) (cur u : Str) : splitLoop '|' (false,0) cur (b ++ u) = splitLoop '|' (false,0) (cur ++ b) u := by
  have opens : scanStep (false,0) '(' = (false,1) := rfl
  have closes : scanStep (false,1) ')' = (false,0) := rfl
  induction reads generalizing cur with
  | text plain =>
    obtain ⟨flat,kept⟩ := plainFlat plain 0
    rw [splitFlat flat,kept]
  | @group a z t inner rest ps qs plain inside behind ih ih' =>
    obtain ⟨flat,kept⟩ := plainFlat plain 0
    have deep : Deep (false,1) inner := (readsDeep inside 0).1
    have kept' : inner.foldl scanStep (false,1) = (false,1) := (readsDeep inside 0).2
    have whole : (t ++ '(' :: (inner ++ ')' :: rest)) ++ u = t ++ '(' :: (inner ++ ')' :: (rest ++ u)) := by simp
    rw [whole,splitFlat flat,kept,splitLoop,opens,if_neg (by decide),splitDeep deep,kept',splitLoop,closes,
      if_neg (by decide),ih' rfl]
    simp only [List.append_assoc,List.cons_append,List.nil_append]
  | only here ih => cases branch
  | first here other ih ih' => cases branch
  | later other there ih ih' => cases branch

theorem splitOnly {a z : Bool} {b : Str} {ps : List TextPiece} (reads : Reads a z .branch b ps) :
    splitTopLevel b '|' = [b] := by
  have whole := splitBranch reads rfl [] []
  rw [List.append_nil,List.nil_append] at whole
  exact whole

theorem splitMore {a z : Bool} {b : Str} {ps : List TextPiece} (reads : Reads a z .branch b ps) (rest : Str) :
    splitTopLevel (b ++ '|' :: rest) '|' = b :: splitTopLevel rest '|' := by
  have bar : scanStep (false,0) '|' = (false,0) := rfl
  rw [splitTopLevel,splitBranch reads rfl,List.nil_append,splitLoop,bar,if_pos ⟨rfl,rfl,rfl⟩]
  rfl

theorem readsSplit {a z : Bool} {s : Str} {ps : List TextPiece} (reads : Reads a z .pattern s ps) :
    ∃ b ∈ splitTopLevel s '|', Reads a z .branch b ps := by
  generalize level : Level.pattern = k at reads
  induction reads with
  | text plain => cases level
  | group plain inside behind ih ih' => cases level
  | only here ih => exact ⟨_,by rw [splitOnly here]; exact List.mem_cons_self,here⟩
  | first here other ih ih' => exact ⟨_,by rw [splitMore here]; exact List.mem_cons_self,here⟩
  | later other there ih ih' =>
    obtain ⟨b,mem,reads⟩ := ih' rfl
    exact ⟨b,by rw [splitMore other]; exact List.mem_cons_of_mem _ mem,reads⟩

theorem splitReads {a z : Bool} {s : Str} {qs : List TextPiece} (reads : Reads a z .pattern s qs) {b : Str}
    (mem : b ∈ splitTopLevel s '|') :
    (∃ ps, Reads a z .branch b ps) ∧ ∀ ps, Reads a z .branch b ps → Reads a z .pattern s ps := by
  generalize level : Level.pattern = k at reads
  induction reads with
  | text plain => cases level
  | group plain inside behind ih ih' => cases level
  | only here ih =>
    rw [splitOnly here,List.mem_singleton] at mem
    subst mem
    exact ⟨⟨_,here⟩,fun ps reads => .only reads⟩
  | first here other ih ih' =>
    rw [splitMore here] at mem
    rcases List.mem_cons.mp mem with rfl | mem
    · exact ⟨⟨_,here⟩,fun ps reads => .first reads other⟩
    · obtain ⟨some',all⟩ := ih' mem rfl
      exact ⟨some',fun ps reads => .later here (all ps reads)⟩
  | later other there ih ih' =>
    rw [splitMore other] at mem
    rcases List.mem_cons.mp mem with rfl | mem
    · exact ⟨⟨_,other⟩,fun ps reads => .first reads there⟩
    · obtain ⟨some',all⟩ := ih' mem rfl
      exact ⟨some',fun ps reads => .later other (all ps reads)⟩

/-! How a branch is read is settled by its first group. -/

theorem readsPlain {a z : Bool} {t : Str} {ps : List TextPiece} (none' : firstGroup t = none)
    (reads : Reads a z .branch t ps) : ps = [⟨t,a,z⟩] := by
  cases reads with
  | text plain => rfl
  | group plain inside behind =>
    rw [firstGroupFound plain inside] at none'
    cases none'

theorem readsGroup {a z : Bool} {b t inner rest : Str} {ps : List TextPiece} (found : firstGroup b = some (t,inner,rest))
    (reads : Reads a z .branch b ps) : PlainText t ∧ ∃ is rs, ps = ⟨t,a,false⟩ :: (is ++ rs) ∧
      Reads (a && t.isEmpty) (z && rest.isEmpty) .pattern inner is ∧ Reads false z .branch rest rs := by
  cases reads with
  | text plain =>
    rw [firstGroupPlain plain] at found
    cases found
  | group plain inside behind =>
    rw [firstGroupFound plain inside] at found
    cases found
    exact ⟨plain,_,_,rfl,inside,behind⟩

/-- Where a pattern stands does not change what can be chosen. -/
theorem readsAnywhere {a z : Bool} {k : Level} {s : Str} {ps : List TextPiece} (reads : Reads a z k s ps) (a' z' : Bool) :
    ∃ qs, Reads a' z' k s qs ∧ choiceText qs = choiceText ps := by
  induction reads generalizing a' z' with
  | text plain => exact ⟨_,.text plain,rfl⟩
  | group plain inside behind ih ih' =>
    obtain ⟨is,inside',same⟩ := ih _ _
    obtain ⟨rs,behind',same'⟩ := ih' false z'
    refine ⟨_,.group plain inside' behind',?_⟩
    simp only [choiceText,List.flatMap_cons,List.flatMap_append] at same same' ⊢
    rw [same,same']
  | only here ih =>
    obtain ⟨qs,here',same⟩ := ih a' z'
    exact ⟨qs,.only here',same⟩
  | first here other ih ih' =>
    obtain ⟨qs,here',same⟩ := ih a' z'
    obtain ⟨_,other',_⟩ := ih' a' z'
    exact ⟨qs,.first here' other',same⟩
  | later other there ih ih' =>
    obtain ⟨_,other',_⟩ := ih a' z'
    obtain ⟨qs,there',same⟩ := ih' a' z'
    exact ⟨qs,.later other' there',same⟩

theorem choicePlain {a z : Bool} {k : Level} {s : Str} {ps : List TextPiece} (reads : Reads a z k s ps) :
    PlainText (choiceText ps) := by
  induction reads with
  | text plain =>
    rw [choiceText,List.flatMap_singleton]
    exact plain
  | group plain inside behind ih ih' =>
    rw [choiceText,List.flatMap_cons,List.flatMap_append]
    exact bracketedAppend plain (bracketedAppend ih ih')
  | only here ih => exact ih
  | first here other ih ih' => exact ih
  | later other there ih ih' => exact ih'

theorem readsBefore {a z : Bool} {u b : Str} {qs : List TextPiece} (plain : PlainText u) (reads : Reads a z .branch b qs)
    (a' : Bool) : (∃ ps, Reads a' z .branch (u ++ b) ps) ∧
      ∀ t, (∃ ps, Reads a' z .branch (u ++ b) ps ∧ t = choiceText ps) ↔
        ∃ ps, Reads a z .branch b ps ∧ t = u ++ choiceText ps := by
  cases reads with
  | text tail =>
    have whole := bracketedAppend plain tail
    refine ⟨⟨_,.text whole⟩,fun t => ⟨?_,?_⟩⟩
    · rintro ⟨ps,reads,rfl⟩
      rw [readsPlain (firstGroupPlain whole) reads]
      exact ⟨_,.text tail,by simp [choiceText]⟩
    · rintro ⟨ps,reads,rfl⟩
      rw [readsPlain (firstGroupPlain tail) reads]
      exact ⟨_,.text whole,by simp [choiceText]⟩
  | @group _ _ t inner rest is rs tail inside behind =>
    have split : u ++ (t ++ '(' :: (inner ++ ')' :: rest)) = (u ++ t) ++ '(' :: (inner ++ ')' :: rest) :=
      (List.append_assoc _ _ _).symm
    have whole := bracketedAppend plain tail
    obtain ⟨_,inside',_⟩ := readsAnywhere inside (a' && (u ++ t).isEmpty) (z && rest.isEmpty)
    rw [split]
    refine ⟨⟨_,.group whole inside' behind⟩,fun t => ⟨?_,?_⟩⟩
    · rintro ⟨ps,reads,rfl⟩
      obtain ⟨_,is,rs,rfl,inside,behind⟩ := readsGroup (firstGroupFound whole inside rest) reads
      obtain ⟨is',inside,same⟩ := readsAnywhere inside (a && t.isEmpty) (z && rest.isEmpty)
      refine ⟨_,.group tail inside behind,?_⟩
      simp only [choiceText,List.flatMap_cons,List.flatMap_append,List.append_assoc] at same ⊢
      rw [same]
    · rintro ⟨ps,reads,rfl⟩
      obtain ⟨_,is,rs,rfl,inside,behind⟩ := readsGroup (firstGroupFound tail inside rest) reads
      obtain ⟨is',inside,same⟩ := readsAnywhere inside (a' && (u ++ t).isEmpty) (z && rest.isEmpty)
      refine ⟨_,.group whole inside behind,?_⟩
      simp only [choiceText,List.flatMap_cons,List.flatMap_append,List.append_assoc] at same ⊢
      rw [same]

/-! What is written out. -/

theorem writtenPlain {a z : Bool} {b : Str} {qs : List TextPiece} (found : firstGroup b = none)
    (reads : Reads a z .branch b qs) (fuel : Nat) (alt : Str) :
    alt ∈ written fuel b ↔ ∃ ps, Reads a z .branch b ps ∧ alt = choiceText ps := by
  rw [written,expandPlain found,Option.getD_some,List.mem_singleton]
  constructor
  · rintro rfl
    exact ⟨qs,reads,by rw [readsPlain found reads,choiceText,List.flatMap_singleton]⟩
  · rintro ⟨ps,reads,rfl⟩
    rw [readsPlain found reads,choiceText,List.flatMap_singleton]

theorem writtenPattern {fuel : Nat} {s : Str} (branches : ∀ {a z b qs}, b ∈ splitTopLevel s '|' → Reads a z .branch b qs →
      ∀ alt, alt ∈ written fuel b ↔ ∃ ps, Reads a z .branch b ps ∧ alt = choiceText ps)
    {a z : Bool} {qs : List TextPiece} (reads : Reads a z .pattern s qs) (alt : Str) :
    alt ∈ writtenAlternatives fuel s ↔ ∃ ps, Reads a z .pattern s ps ∧ alt = choiceText ps := by
  rw [writtenAlternatives,List.mem_flatMap]
  constructor
  · rintro ⟨b,branch,mem⟩
    obtain ⟨⟨cs,readsBranch⟩,all⟩ := splitReads reads branch
    obtain ⟨ps,reads,rfl⟩ := (branches branch readsBranch alt).mp mem
    exact ⟨ps,all ps reads,rfl⟩
  · rintro ⟨ps,reads,rfl⟩
    obtain ⟨b,branch,readsBranch⟩ := readsSplit reads
    exact ⟨b,branch,(branches branch readsBranch _).mpr ⟨ps,readsBranch,rfl⟩⟩

theorem writtenReads (fuel : Nat) {a z : Bool} {b : Str} {qs : List TextPiece} (enough : b.count '(' ≤ fuel)
    (reads : Reads a z .branch b qs) (alt : Str) :
    alt ∈ written fuel b ↔ ∃ ps, Reads a z .branch b ps ∧ alt = choiceText ps := by
  induction fuel, b, enough using branchInduction generalizing a z qs alt with
  | plain fuel b enough found => exact writtenPlain found reads fuel alt
  | group fuel b enough t inner rest found ih =>
    have total := groupCount found
    obtain ⟨plain,is,rs,_,inside,behind⟩ := readsGroup found reads
    have inner' := fun alt => writtenPattern
      (fun {a z b qs} branch reads alt => ih b ((branchCount branch).trans (by omega)) reads alt) inside alt
    rw [expandFound found enough,List.mem_flatMap]
    constructor
    · rintro ⟨alt',mem,out⟩
      have few := rebuiltCount found enough mem
      obtain ⟨ps,reads,rfl⟩ := (inner' alt').mp mem
      obtain ⟨⟨_,rebuilt⟩,choices⟩ := readsBefore (bracketedAppend plain (choicePlain reads)) behind a
      rw [← List.append_assoc] at out few
      obtain ⟨us,behind',rfl⟩ := (choices alt).mp ((ih _ few rebuilt alt).mp out)
      refine ⟨⟨t,a,false⟩ :: (ps ++ us),?_,by simp [choiceText]⟩
      rw [firstGroupParts found]
      exact .group plain reads behind'
    · rintro ⟨ps,reads,rfl⟩
      obtain ⟨_,is,rs,rfl,inside,behind⟩ := readsGroup found reads
      have mem := (inner' (choiceText is)).mpr ⟨is,inside,rfl⟩
      have few := rebuiltCount found enough mem
      obtain ⟨⟨_,rebuilt⟩,choices⟩ := readsBefore (bracketedAppend plain (choicePlain inside)) behind a
      refine ⟨choiceText is,mem,?_⟩
      rw [← List.append_assoc] at few ⊢
      exact (ih _ few rebuilt _).mpr ((choices _).mpr ⟨rs,behind,by simp [choiceText]⟩)

/-- The alternatives are the texts of the choices. -/
theorem alternativesRead {a z : Bool} {s : Str} {qs : List TextPiece} (reads : Reads a z .pattern s qs) (alt : Str) :
    alt ∈ patternAlternatives s ↔ ∃ ps, Reads a z .pattern s ps ∧ alt = choiceText ps := by
  rw [alternativesWritten]
  exact writtenPattern (fun branch reads alt => writtenReads _ (branchCount branch) reads alt) reads alt

/-! Balanced patterns. -/

def balancedFrom (st : Bool × Nat) : Str → Bool
  | [] => st == (false,0)
  | c :: s => !(c == ')' && st == (false,0)) && balancedFrom (scanStep st c) s

/-- Every parenthesis outside the classes has its other one, and every class is closed. -/
def Balanced (pat : Str) : Prop := balancedFrom (false,0) pat = true

theorem balancedClass {d : Nat} {s : Str} (balanced : balancedFrom (true,d) s = true) :
    ∃ body t, s = body ++ ']' :: t ∧ ']' ∉ body ∧ balancedFrom (false,d) t = true := by
  induction s with
  | nil => cases balanced
  | cons c s ih =>
    rw [balancedFrom,Bool.and_eq_true] at balanced
    by_cases closes : c = ']'
    · have step : scanStep (true,d) ']' = (false,d) := rfl
      rw [closes,step] at balanced
      exact ⟨[],s,by rw [closes]; rfl,List.not_mem_nil,balanced.2⟩
    · rw [scanClass closes] at balanced
      obtain ⟨body,t,rfl,inside,rest⟩ := ih balanced.2
      refine ⟨c :: body,t,rfl,?_,rest⟩
      rw [List.mem_cons,not_or]
      exact ⟨Ne.symm closes,inside⟩

theorem patternBefore {a z : Bool} {u s : Str} {ps : List TextPiece} (plain : PlainText u)
    (reads : Reads a z .pattern s ps) : ∃ qs, Reads a z .pattern (u ++ s) qs := by
  cases reads with
  | only here =>
    obtain ⟨⟨qs,here⟩,_⟩ := readsBefore plain here a
    exact ⟨qs,.only here⟩
  | first here other =>
    obtain ⟨⟨qs,here⟩,_⟩ := readsBefore plain here a
    rw [← List.append_assoc]
    exact ⟨qs,.first here other⟩
  | later here other =>
    obtain ⟨⟨qs,here⟩,_⟩ := readsBefore plain here a
    rw [← List.append_assoc]
    exact ⟨qs,.first here other⟩

theorem groupBefore {a z : Bool} {inner s : Str} {is ps : List TextPiece} (inside : Reads a z .pattern inner is)
    (reads : Reads a z .pattern s ps) : ∃ qs, Reads a z .pattern ('(' :: (inner ++ ')' :: s)) qs := by
  have branch : ∀ {b bs}, Reads a z .branch b bs → ∃ qs, Reads a z .branch ('(' :: (inner ++ ')' :: b)) qs := by
    intro b bs here
    obtain ⟨_,inside,_⟩ := readsAnywhere inside (a && ([] : Str).isEmpty) (z && b.isEmpty)
    obtain ⟨_,here,_⟩ := readsAnywhere here false z
    exact ⟨_,.group .nil inside here⟩
  have behind : ∀ b rest : Str, '(' :: (inner ++ ')' :: (b ++ '|' :: rest)) =
      '(' :: (inner ++ ')' :: b) ++ '|' :: rest := fun b rest => by simp
  cases reads with
  | only here =>
    obtain ⟨qs,here⟩ := branch here
    exact ⟨qs,.only here⟩
  | first here other =>
    obtain ⟨qs,here⟩ := branch here
    rw [behind]
    exact ⟨qs,.first here other⟩
  | later here other =>
    obtain ⟨qs,here⟩ := branch here
    rw [behind]
    exact ⟨qs,.first here other⟩

/-- What is left behind a pattern inside `n` groups. -/
def Ends : Nat → Str → Prop
  | 0, tail => tail = []
  | n + 1, tail => ∃ rest, tail = ')' :: rest ∧ balancedFrom (false,n) rest = true

theorem balancedFromReads (a z : Bool) {n : Nat} {s : Str} (balanced : balancedFrom (false,n) s = true) :
    ∃ p tail, s = p ++ tail ∧ (∃ ps, Reads a z .pattern p ps) ∧ Ends n tail := by
  induction size : s.length using Nat.strong_induction_on generalizing n s with
  | h k ih =>
    cases s with
    | nil =>
      cases n with
      | zero => exact ⟨[],[],rfl,⟨_,.only (.text .nil)⟩,rfl⟩
      | succ n => cases balanced
    | cons c s =>
      rw [List.length_cons] at size
      have shorter : s.length < k := by omega
      rw [balancedFrom,Bool.and_eq_true] at balanced
      obtain ⟨stays,rest⟩ := balanced
      by_cases open' : c = '['
      · have step : scanStep (false,n) '[' = (true,n) := rfl
        rw [open',step] at rest
        obtain ⟨body,t,rfl,inside,rest⟩ := balancedClass rest
        rw [List.length_append,List.length_cons] at shorter
        obtain ⟨p,tail,rfl,⟨ps,reads⟩,ends⟩ := ih t.length (by omega) rest rfl
        refine ⟨'[' :: (body ++ [']']) ++ p,tail,by simp [open'],patternBefore (.cls inside .nil) reads,ends⟩
      by_cases up : c = '('
      · have step : scanStep (false,n) '(' = (false,n + 1) := rfl
        rw [up,step] at rest
        obtain ⟨inner,_,rfl,⟨is,inside⟩,t,rfl,behind⟩ := ih s.length shorter rest rfl
        rw [List.length_append,List.length_cons] at shorter
        obtain ⟨p,tail,rfl,⟨ps,reads⟩,ends⟩ := ih t.length (by omega) behind rfl
        exact ⟨'(' :: (inner ++ ')' :: p),tail,by simp [up],groupBefore inside reads,ends⟩
      by_cases down : c = ')'
      · cases n with
        | zero =>
          rw [down] at stays
          cases stays
        | succ n =>
          have step : scanStep (false,n + 1) ')' = (false,n) := rfl
          rw [down,step] at rest
          exact ⟨[],_,rfl,⟨_,.only (.text .nil)⟩,s,by rw [down],rest⟩
      rw [scanPlain ⟨open',up,down⟩] at rest
      obtain ⟨p,tail,rfl,⟨ps,reads⟩,ends⟩ := ih s.length shorter rest rfl
      by_cases bar : c = '|'
      · exact ⟨'|' :: p,tail,by rw [bar]; rfl,⟨_,.first (b := []) (.text .nil) reads⟩,ends⟩
      · exact ⟨[c] ++ p,tail,rfl,patternBefore (.char ⟨open',up,down,bar⟩ .nil) reads,ends⟩

theorem balancedReads (a z : Bool) {s : Str} (balanced : Balanced s) : ∃ ps, Reads a z .pattern s ps := by
  obtain ⟨p,_,rfl,reads,rfl⟩ := balancedFromReads a z balanced
  rwa [List.append_nil]

end P11k.Render
