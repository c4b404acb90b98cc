import Mathlib.Data.List.TakeWhile
import P11k.Lib.Wildcard
import P11k.Render.Glob

/-! The documented language of the patterns of directories, and which patterns and paths the matcher gets wrong:
a home directory whose name reads as a pattern, and the directory itself under a trailing slash. -/
namespace P11k.Render
open P11k P11k.Settings P11k.Wildcard

/-! Patterns item by item. -/

/-- The ranges that a class lists, single characters among them. -/
def classRanges : Str → List (Char × Char)
  | a :: '-' :: b :: rest => (a,b) :: classRanges rest
  | a :: rest => (a,a) :: classRanges rest
  | [] => []

def inClass (c : Char) (set : Str) : Bool := (classRanges set).any fun range => range.1 ≤ c && c ≤ range.2

/-- The first item of a pattern that begins with `c`, and the rest behind it. -/
def globHead (c : Char) (p : Str) : Item Char × Str :=
  if c = '*' then
    if p.head? = some '*' then (.many fun _ => true,p.tail) else (.many fun d => d != '/',p)
  else if c = '?' then (.one fun d => d != '/',p)
  else if c = '[' ∧ ']' ∈ p then
    (.one fun d => d != '/' && inClass d (p.takeWhile (· != ']')),(p.dropWhile (· != ']')).tail)
  else (.one (c == ·),p)

theorem globHeadSuffix (c : Char) (p : Str) : (globHead c p).2 <:+ p := by
  unfold globHead
  split
  · split
    · exact List.tail_suffix p
    · exact List.suffix_rfl
  · split
    · exact List.suffix_rfl
    · split
      · exact (List.tail_suffix _).trans (List.dropWhile_suffix _)
      · exact List.suffix_rfl

def globItems : Str → List (Item Char)
  | [] => []
  | c :: p => (globHead c p).1 :: globItems (globHead c p).2
termination_by p => p.length
decreasing_by exact Nat.lt_succ_of_le (globHeadSuffix c p).length_le

theorem globItemsNil : globItems [] = [] := by rw [globItems]

theorem globItemsCons (c : Char) (p : Str) : globItems (c :: p) = (globHead c p).1 :: globItems (globHead c p).2 := by
  rw [globItems]

/-! Patterns behind each other. -/

theorem classAppend {p : Str} (closed : ']' ∈ p) (q : Str) :
    (p ++ q).takeWhile (· != ']') = p.takeWhile (· != ']') ∧
      ((p ++ q).dropWhile (· != ']')).tail = (p.dropWhile (· != ']')).tail ++ q := by
  induction p with
  | nil => cases closed
  | cons c p ih =>
    rw [List.cons_append,List.takeWhile_cons,List.takeWhile_cons,List.dropWhile_cons,List.dropWhile_cons]
    by_cases here : c = ']'
    · rw [here]
      exact ⟨rfl,rfl⟩
    · obtain ⟨inside,behind⟩ := ih ((List.mem_cons.mp closed).resolve_left (Ne.symm here))
      have passes : (c != ']') = true := bne_iff_ne.mpr here
      rw [passes,if_pos rfl,if_pos rfl,if_pos rfl,if_pos rfl,inside,behind]
      exact ⟨rfl,rfl⟩

theorem globHeadAppend {c : Char} {p q : Str} (star : c = '*' → p = [] → q.head? ≠ some '*')
    (bracket : c = '[' → ']' ∈ p ∨ ']' ∉ q) : globHead c (p ++ q) = ((globHead c p).1,(globHead c p).2 ++ q) := by
  unfold globHead
  by_cases isStar : c = '*'
  · rw [if_pos isStar,if_pos isStar]
    cases p with
    | nil =>
      rw [List.nil_append,if_neg (star isStar rfl),if_neg (by simp)]
      rfl
    | cons d p =>
      rw [List.cons_append,List.head?_cons,List.head?_cons]
      split <;> rfl
  rw [if_neg isStar,if_neg isStar]
  by_cases question : c = '?'
  · rw [if_pos question,if_pos question]
  rw [if_neg question,if_neg question]
  by_cases open' : c = '['
  · by_cases closed : ']' ∈ p
    · obtain ⟨inside,behind⟩ := classAppend closed q
      rw [if_pos ⟨open',List.mem_append_left q closed⟩,if_pos ⟨open',closed⟩,inside,behind]
    · have still : ']' ∉ p ++ q := fun mem =>
        (List.mem_append.mp mem).elim closed ((bracket open').resolve_left closed)
      rw [if_neg fun both => still both.2,if_neg fun both => closed both.2]
  · rw [if_neg fun both => open' both.1,if_neg fun both => open' both.1]

/-- A rest that neither joins a star nor closes a bracket. -/
theorem globItemsAppend {q : Str} (star : q.head? ≠ some '*') (bracket : ']' ∉ q) (p : Str) :
    globItems (p ++ q) = globItems p ++ globItems q := by
  fun_induction globItems p with
  | case1 => rfl
  | case2 c p ih =>
    rw [List.cons_append,globItemsCons,globHeadAppend (fun _ _ => star) fun _ => .inr bracket,ih,List.cons_append]

def Quiet (s : Str) : Prop := '*' ∉ s ∧ '?' ∉ s ∧ '[' ∉ s

theorem quietItems {front : Str} (quiet : Quiet front) (rest : Str) :
    globItems (front ++ rest) = literal front ++ globItems rest := by
  induction front with
  | nil => rfl
  | cons c front ih =>
    simp only [Quiet,List.mem_cons,not_or] at quiet
    obtain ⟨⟨star,stars⟩,⟨question,questions⟩,bracket,brackets⟩ := quiet
    have head : globHead c (front ++ rest) = (.one (c == ·),front ++ rest) := by
      unfold globHead
      rw [if_neg (Ne.symm star),if_neg (Ne.symm question),if_neg fun both => bracket both.1.symm]
    rw [List.cons_append,globItemsCons,head,ih ⟨stars,questions,brackets⟩]
    rfl

/-! The matcher. -/

theorem classHitRanges (c : Char) (set : Str) : classHit c set = inClass c set := by
  unfold inClass
  fun_induction classHit c set with
  | case1 a b rest ih => rw [classRanges,List.any_cons,ih]
  | case2 a rest other ih =>
    have single : classRanges (a :: rest) = (a,a) :: classRanges rest := by
      rw [classRanges]
      exact other
    rw [single,List.any_cons,ih]
    congr 1
    rw [Bool.eq_iff_iff,beq_iff_eq,Bool.and_eq_true,decide_eq_true_iff,decide_eq_true_iff]
    exact ⟨fun same => ⟨same.le,same.ge⟩,fun both => le_antisymm both.1 both.2⟩
  | case3 => rfl

theorem memStarTails {t b : Str} : b ∈ starTails t ↔ ∃ a, t = a ++ b ∧ ∀ c ∈ a, (c != '/') = true := by
  induction t with
  | nil =>
    rw [starTails,List.mem_singleton]
    constructor
    · rintro rfl
      exact ⟨[],rfl,fun c mem => nomatch mem⟩
    · rintro ⟨a,split,_⟩
      exact (List.append_eq_nil_iff.mp split.symm).2
  | cons d t ih =>
    rw [starTails,List.mem_cons]
    constructor
    · rintro (rfl | later)
      · exact ⟨[],rfl,fun c mem => nomatch mem⟩
      · split at later
        · cases later
        · rename_i inside
          obtain ⟨a,rfl,run⟩ := ih.mp later
          exact ⟨d :: a,rfl,List.forall_mem_cons.mpr ⟨bne_iff_ne.mpr inside,run⟩⟩
    · rintro ⟨a,split,run⟩
      cases a with
      | nil => exact .inl split.symm
      | cons e a =>
        obtain ⟨rfl,rfl⟩ := List.cons.inj split
        rw [List.forall_mem_cons] at run
        rw [if_neg (bne_iff_ne.mp run.1)]
        exact .inr (ih.mpr ⟨a,rfl,run.2⟩)

theorem globGoMatches (fuel : Nat) (p t : Str) (enough : p.length ≤ fuel) :
    globGo fuel p t = true ↔ Matches (globItems p) t := by
  induction fuel generalizing p t with
  | zero =>
    cases List.length_eq_zero_iff.mp (Nat.le_zero.mp enough)
    rw [globItemsNil,matchesNil]
    exact List.isEmpty_iff
  | succ fuel ih =>
    cases p with
    | nil =>
      rw [globItemsNil,matchesNil]
      exact List.isEmpty_iff
    | cons c p =>
      have short : ∀ q, q <:+ p → q.length ≤ fuel := fun q under => by
        have := under.length_le
        rw [List.length_cons] at enough
        omega
      have rest := fun u => ih (globHead c p).2 u (short _ (globHeadSuffix c p))
      rw [globItemsCons]
      unfold globGo
      unfold globHead at rest ⊢
      by_cases star : c = '*'
      · simp only [if_pos star] at rest ⊢
        by_cases double : p.head? = some '*'
        · simp only [if_pos double] at rest ⊢
          rw [matchesMany,List.any_eq_true]
          constructor
          · rintro ⟨b,suffix,hit⟩
            obtain ⟨a,rfl⟩ := (List.mem_tails _ _).mp suffix
            exact ⟨a,b,rfl,fun _ _ => rfl,(rest b).mp hit⟩
          · rintro ⟨a,b,rfl,_,hit⟩
            exact ⟨b,(List.mem_tails _ _).mpr (List.suffix_append a b),(rest b).mpr hit⟩
        · simp only [if_neg double] at rest ⊢
          rw [matchesMany,List.any_eq_true]
          constructor
          · rintro ⟨b,reached,hit⟩
            obtain ⟨a,split,run⟩ := memStarTails.mp reached
            exact ⟨a,b,split,run,(rest b).mp hit⟩
          · rintro ⟨a,b,split,run,hit⟩
            exact ⟨b,memStarTails.mpr ⟨a,split,run⟩,(rest b).mpr hit⟩
      simp only [if_neg star] at rest ⊢
      cases t with
      | nil =>
        refine iff_of_false Bool.false_ne_true ?_
        split
        · exact notOneNil
        · split
          · exact notOneNil
          · exact notOneNil
      | cons d t =>
        dsimp only
        by_cases question : c = '?'
        · simp only [if_pos question] at rest ⊢
          rw [matchesOneCons,Bool.and_eq_true,rest]
        simp only [if_neg question] at rest ⊢
        by_cases bracket : c = '['
        · by_cases closed : ']' ∈ p
          · simp only [if_pos bracket,if_pos closed,if_pos (And.intro bracket closed)] at rest ⊢
            rw [matchesOneCons,Bool.and_eq_true,Bool.and_eq_true,rest,classHitRanges,Bool.and_eq_true]
          · simp only [if_pos bracket,if_neg closed,if_neg fun both => closed (And.right both)] at rest ⊢
            rw [matchesOneCons,Bool.and_eq_true,rest,bracket,beq_iff_eq,beq_iff_eq,eq_comm]
        · simp only [if_neg bracket,if_neg fun both => bracket (And.left both)] at rest ⊢
          rw [matchesOneCons,Bool.and_eq_true,rest,beq_iff_eq,beq_iff_eq,eq_comm]

/-! The documented language. -/

/-- What a pattern begins with literally, and the pattern behind it. -/
def patternParts (home : Str) : Str → Str × Str
  | '~' :: rest => (home,rest)
  | pattern => ([],pattern)

def InLanguage (home pattern path : Str) : Prop :=
  Matches (literal (patternParts home pattern).1 ++ globItems (patternParts home pattern).2) path

/-- The directory that a pattern with a slash at its end names. The empty path is none. -/
def DirItself (home pattern path : Str) : Prop := path ≠ [] ∧ InLanguage home pattern.dropLast path

def BelowDir (home pattern path : Str) : Prop :=
  ∃ dir below, path = dir ++ '/' :: below ∧ InLanguage home pattern.dropLast dir

def Documented (home pattern path : Str) : Prop :=
  if pattern.getLast? = some '/' then DirItself home pattern path ∨ BelowDir home pattern path
  else InLanguage home pattern path

def Agrees (home pattern path : Str) : Prop := globMatchPath pattern path home = true ↔ Documented home pattern path

/-- A slash at the end leaves out the directory itself. -/
def Missed (home pattern path : Str) : Prop :=
  pattern.getLast? = some '/' ∧ DirItself home pattern path ∧ ¬ BelowDir home pattern path

def PlainHome (home : Str) : Prop := Quiet home ∧ home.getLast? ≠ some '/'

/-! Patterns that say what they mean. -/

def glued (home pattern : Str) : Str := (patternParts home pattern).1 ++ (patternParts home pattern).2

theorem globMatchPathGlued (home pattern path : Str) : globMatchPath pattern path home = true ↔
    if (glued home pattern).getLast? = some '/' then Matches (globItems (glued home pattern ++ "**".toList)) path
    else Matches (globItems (glued home pattern)) path := by
  have whole : (match pattern with | '~' :: rest => home ++ rest | _ => pattern) = glued home pattern := by
    unfold glued patternParts
    split
    · rfl
    · rfl
  have read : globMatchPath pattern path home = if (glued home pattern).getLast? = some '/' then
      globMatch (glued home pattern ++ "**".toList) path else globMatch (glued home pattern) path := by
    rw [← whole]
    rfl
  rw [read]
  split
  · exact globGoMatches _ _ _ le_rfl
  · exact globGoMatches _ _ _ le_rfl

theorem partsAppend (home q : Str) : patternParts home (q ++ ['/']) =
    ((patternParts home q).1,(patternParts home q).2 ++ ['/']) := by
  cases q with
  | nil => rfl
  | cons c q =>
    by_cases tilde : c = '~'
    · rw [tilde]
      rfl
    · unfold patternParts
      split
      · rename_i rest same
        exact absurd (List.cons.inj same).1 tilde
      · split
        · rename_i rest same
          exact absurd (List.cons.inj same).1 tilde
        · rfl

theorem settledFront {home pattern : Str} (settled : pattern.head? ≠ some '~' ∨ PlainHome home) :
    Quiet (patternParts home pattern).1 ∧
      ((glued home pattern).getLast? = some '/' ↔ pattern.getLast? = some '/') := by
  unfold glued patternParts
  split
  · rename_i rest
    have plain := settled.resolve_left fun other => other rfl
    refine ⟨plain.1,?_⟩
    cases rest with
    | nil =>
      rw [List.append_nil]
      exact iff_of_false plain.2 (by decide)
    | cons c rest => rw [List.getLast?_append_cons,List.getLast?_cons_cons]
  · exact ⟨⟨List.not_mem_nil,List.not_mem_nil,List.not_mem_nil⟩,Iff.rfl⟩

theorem belowItems {home pattern path : Str} (front : Quiet (patternParts home pattern).1)
    (slash : pattern.getLast? = some '/') :
    Matches (globItems (glued home pattern ++ "**".toList)) path ↔ BelowDir home pattern path := by
  obtain ⟨q,rfl⟩ := List.getLast?_eq_some_iff.mp slash
  unfold BelowDir InLanguage
  rw [List.dropLast_concat]
  rw [partsAppend] at front
  have whole : globItems (glued home (q ++ ['/']) ++ "**".toList) =
      (literal (patternParts home q).1 ++ globItems (patternParts home q).2) ++ globItems "/**".toList := by
    rw [glued,partsAppend]
    dsimp only
    rw [List.append_assoc,List.append_assoc,quietItems front,List.append_assoc]
    exact congrArg (_ ++ ·) (globItemsAppend (q := "/**".toList) (by decide) (by decide) _)
  have tail : ∀ b, Matches (globItems "/**".toList) b ↔ ∃ below, b = '/' :: below := by
    intro b
    have items : globItems "/**".toList = [.one ('/' == ·),.many fun _ => true] := by
      have slash : globHead '/' ['*','*'] = (.one ('/' == ·),['*','*']) := rfl
      have stars : globHead '*' ['*'] = (.many fun _ => true,[]) := rfl
      have whole : "/**".toList = ['/','*','*'] := rfl
      rw [whole,globItemsCons,slash,globItemsCons,stars,globItemsNil]
    rw [items,matchesOne]
    constructor
    · rintro ⟨c,below,rfl,hit,_⟩
      exact ⟨below,by rw [eq_of_beq hit]⟩
    · rintro ⟨below,rfl⟩
      exact ⟨'/',below,rfl,rfl,matchesMany.mpr ⟨below,[],(List.append_nil _).symm,fun _ _ => rfl,.nil⟩⟩
  rw [whole,matchesAppend]
  constructor
  · rintro ⟨dir,b,rfl,inside,rest⟩
    obtain ⟨below,rfl⟩ := (tail b).mp rest
    exact ⟨dir,below,rfl,inside⟩
  · rintro ⟨dir,below,rfl,inside⟩
    exact ⟨dir,_,rfl,inside,(tail _).mpr ⟨below,rfl⟩⟩

theorem settledAgrees {home pattern : Str} (settled : pattern.head? ≠ some '~' ∨ PlainHome home) (path : Str) :
    Agrees home pattern path ↔ ¬ Missed home pattern path := by
  obtain ⟨front,last⟩ := settledFront settled
  unfold Agrees Missed Documented
  rw [globMatchPathGlued]
  by_cases slash : pattern.getLast? = some '/'
  · rw [if_pos (last.mpr slash),if_pos slash,belowItems front slash]
    tauto
  · rw [if_neg (mt last.mp slash),if_neg slash,glued,quietItems front]
    exact iff_of_true Iff.rfl fun missed => slash missed.1

/-! Homes whose names read as patterns. -/

/-- A star, or a bracket with a closing one behind it. -/
def Shrinks (s : Str) : Prop := '*' ∈ s ∨ ∃ a b, s = a ++ '[' :: b ∧ ']' ∈ b

theorem leastLength (s : Str) : least (globItems s) ≤ s.length ∧ (Shrinks s → least (globItems s) < s.length) := by
  fun_induction globItems s with
  | case1 =>
    refine ⟨le_rfl,fun shrinks => ?_⟩
    rcases shrinks with star | ⟨a,b,split,_⟩
    · cases star
    · cases a <;> cases split
  | case2 c p ih =>
    rw [List.length_cons]
    have suffix := (globHeadSuffix c p).length_le
    have atMost : least ((globHead c p).1 :: globItems (globHead c p).2) ≤ least (globItems (globHead c p).2) + 1 := by
      cases (globHead c p).1 with
      | one q => exact le_rfl
      | many q => exact Nat.le_succ _
    refine ⟨by omega,fun shrinks => ?_⟩
    by_cases star : c = '*'
    · have none' : least ((globHead c p).1 :: globItems (globHead c p).2) = least (globItems (globHead c p).2) := by
        rw [globHead,if_pos star]
        split <;> rfl
      omega
    by_cases closed : c = '[' ∧ ']' ∈ p
    · have shorter : (globHead c p).2.length < p.length := by
        rw [globHead,if_neg star,if_neg (by rw [closed.1]; decide),if_pos closed]
        obtain ⟨d,rest,behind⟩ : ∃ d rest, p.dropWhile (· != ']') = d :: rest := by
          refine List.exists_cons_of_ne_nil fun none' => ?_
          exact bne_iff_ne.mp (List.dropWhile_eq_nil_iff.mp none' ']' closed.2) rfl
        have length := (List.dropWhile_suffix (l := p) (· != ']')).length_le
        rw [behind,List.length_cons] at length
        rw [behind,List.tail_cons]
        exact length
      omega
    · have rest : (globHead c p).2 = p := by
        rw [globHead,if_neg star]
        split
        · rfl
        · rfl
      have inside : Shrinks p := by
        rcases shrinks with mem | ⟨a,b,split,mem⟩
        · exact .inl ((List.mem_cons.mp mem).resolve_left (Ne.symm star))
        · cases a with
          | nil =>
            obtain ⟨rfl,rfl⟩ := List.cons.inj split
            exact absurd ⟨rfl,mem⟩ closed
          | cons d a => exact .inr ⟨a,b,(List.cons.inj split).2,mem⟩
      have less := ih.2 (by rw [rest]; exact inside)
      omega

theorem questionsTaken {s : Str} (stars : '*' ∉ s) (brackets : '[' ∉ s) :
    Matches (globItems s) (s.map fun c => if c = '?' then 'z' else c) := by
  induction s with
  | nil => exact globItemsNil ▸ .nil
  | cons c s ih =>
    rw [List.mem_cons,not_or] at stars brackets
    have rest := ih stars.2 brackets.2
    rw [globItemsCons,globHead,if_neg (Ne.symm stars.1),List.map_cons]
    by_cases question : c = '?'
    · rw [if_pos question,if_pos question]
      exact .one rfl rest
    · rw [if_neg question,if_neg question,if_neg fun both => brackets.1 both.1.symm]
      exact .one (beq_self_eq_true c) rest

theorem documentedHome {home t path : Str} (literal' : ∀ u, Matches (globItems t) u ↔ u = t) (last : t.getLast? ≠ some '/') :
    Documented home ('~' :: t) path ↔ path = home ++ t := by
  have pattern : ('~' :: t).getLast? ≠ some '/' := by
    cases t with
    | nil => decide
    | cons c t => rwa [List.getLast?_cons_cons]
  unfold Documented
  rw [if_neg pattern,InLanguage,patternParts,matchesLiteral]
  simp only [literal']
  exact ⟨fun ⟨u,split,same⟩ => same ▸ split,fun split => ⟨t,split,rfl⟩⟩

theorem plainHome {home : Str} (law : ∀ pattern path, Agrees home pattern path ↔ ¬ Missed home pattern path) :
    PlainHome home := by
  have read : ∀ t path, (∀ u, Matches (globItems t) u ↔ u = t) → t.getLast? ≠ some '/' →
      (globMatchPath ('~' :: t) path home = true ↔ path = home ++ t) := by
    intro t path literal' last
    have pattern : ('~' :: t).getLast? ≠ some '/' := by
      cases t with
      | nil => decide
      | cons c t => rwa [List.getLast?_cons_cons]
    exact ((law ('~' :: t) path).mpr fun missed => pattern missed.1).trans (documentedHome literal' last)
  have nothing : ∀ u, Matches (globItems []) u ↔ u = [] := fun u => by rw [globItemsNil,matchesNil]
  have bracket : ∀ u, Matches (globItems [']']) u ↔ u = [']'] := fun u => by
    have head : globHead ']' [] = (.one (']' == ·),[]) := rfl
    rw [globItemsCons,head,globItemsNil]
    exact matchesLiteralOnly (t := [']'])
  have last : home.getLast? ≠ some '/' := by
    intro slash
    obtain ⟨h,rfl⟩ := List.getLast?_eq_some_iff.mp slash
    have whole : ∀ path, globMatchPath "~".toList path (h ++ ['/']) = true ↔
        Matches (globItems h ++ globItems "/**".toList) path := by
      intro path
      have glue : glued (h ++ ['/']) "~".toList = h ++ ['/'] := List.append_nil _
      have end' : (glued (h ++ ['/']) "~".toList).getLast? = some '/' := by
        rw [glue]
        exact slash
      have items : globItems (glued (h ++ ['/']) "~".toList ++ "**".toList) = globItems h ++ globItems "/**".toList := by
        rw [glue,List.append_assoc]
        exact globItemsAppend (q := "/**".toList) (by decide) (by decide) h
      rw [globMatchPathGlued,if_pos end',items]
    have itself := (whole (h ++ ['/'])).mp ((read [] _ nothing (by decide)).mpr (List.append_nil _).symm)
    obtain ⟨a,b,split,front,back⟩ := matchesAppend.mp itself
    have longer : Matches (globItems "/**".toList) (b ++ ['x']) := by
      have slash : globHead '/' ['*','*'] = (.one ('/' == ·),['*','*']) := rfl
      have stars : globHead '*' ['*'] = (.many fun _ => true,[]) := rfl
      have whole : "/**".toList = ['/','*','*'] := rfl
      rw [whole,globItemsCons,slash,globItemsCons,stars,globItemsNil] at back ⊢
      obtain ⟨c,below,rfl,hit,_⟩ := matchesOne.mp back
      exact .one hit (matchesMany.mpr ⟨below ++ ['x'],[],(List.append_nil _).symm,fun _ _ => rfl,.nil⟩)
    have more := (read [] _ nothing (by decide)).mp ((whole (h ++ ['/'] ++ ['x'])).mpr
      (matchesAppend.mpr ⟨a,b ++ ['x'],by rw [split,List.append_assoc],front,longer⟩))
    simpa using congrArg List.length more
  have shrinks : ¬ Shrinks (home ++ [']']) := by
    intro shrinks
    have end' : (glued home "~]".toList).getLast? ≠ some '/' := by
      have glue : glued home "~]".toList = home ++ [']'] := rfl
      rw [glue,List.getLast?_concat]
      decide
    have whole : ∀ path, Matches (globItems (home ++ [']'])) path ↔ path = home ++ [']'] := by
      intro path
      rw [← read [']'] path bracket (by decide)]
      have matched := globMatchPathGlued home "~]".toList path
      rw [if_neg end'] at matched
      exact matched.symm
    obtain ⟨t,hit,size⟩ := matchesLeast ((whole _).mpr rfl)
    have less := (leastLength (home ++ [']'])).2 shrinks
    rw [← size,(whole t).mp hit] at less
    exact lt_irrefl _ less
  have stars : '*' ∉ home := fun mem => shrinks (.inl (List.mem_append_left _ mem))
  have brackets : '[' ∉ home := by
    intro mem
    obtain ⟨a,b,rfl⟩ := List.append_of_mem mem
    exact shrinks (.inr ⟨a,b ++ [']'],by rw [List.append_assoc,List.cons_append],
      List.mem_append_right b List.mem_cons_self⟩)
  refine ⟨⟨stars,fun question => ?_,brackets⟩,last⟩
  have whole := globMatchPathGlued home "~".toList (home.map fun c => if c = '?' then 'z' else c)
  have glue : glued home "~".toList = home := List.append_nil home
  rw [glue,if_neg last] at whole
  have same := (read [] _ nothing (by decide)).mp (whole.mpr (questionsTaken stars brackets))
  rw [List.append_nil] at same
  rw [← same] at question
  obtain ⟨c,_,here⟩ := List.mem_map.mp question
  split at here
  · exact absurd here (by decide)
  · contradiction

end P11k.Render
