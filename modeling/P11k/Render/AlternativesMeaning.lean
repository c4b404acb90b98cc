import Mathlib.Algebra.Order.BigOperators.Group.List
import Mathlib.Algebra.Order.Group.Nat
import P11k.Render.AlternativesLanguage

/-! What a pattern with alternatives means when each of its pieces is read by itself, and when the alternatives that
are written out mean the same. Stars, classes, a tilde or a last slash may come together where a group was. -/
namespace P11k.Render
open P11k P11k.Settings P11k.Wildcard

/-- The glob of a piece. A tilde counts where the pattern may begin, and a last slash where it may end. -/
def TextPiece.glob (home : Str) (p : TextPiece) : Str :=
  let whole := if p.first = true ∧ p.text.head? = some '~' then home ++ p.text.tail else p.text
  if p.last = true ∧ whole.getLast? = some '/' then whole ++ "**".toList else whole

def TextPiece.items (home : Str) (p : TextPiece) : List (Item Char) := globItems (p.glob home)

/-- The language of a branch or a pattern: a group is alternation, and the texts around it are matched by themselves. -/
inductive Means (home : Str) : Bool → Bool → Level → Str → Str → Prop where
  | text {a z t path} (plain : PlainText t) (hit : Matches (TextPiece.items home ⟨t,a,z⟩) path) :
      Means home a z .branch t path
  | group {a z t inner rest u v w} (plain : PlainText t) (front : Matches (TextPiece.items home ⟨t,a,false⟩) u)
      (inside : Means home (a && t.isEmpty) (z && rest.isEmpty) .pattern inner v)
      (behind : Means home false z .branch rest w) :
      Means home a z .branch (t ++ '(' :: (inner ++ ')' :: rest)) (u ++ (v ++ w))
  | only {a z b path} (here : Means home a z .branch b path) : Means home a z .pattern b path
  | first {a z b rest path} (here : Means home a z .branch b path) (other : ∃ ps, Reads a z .pattern rest ps) :
      Means home a z .pattern (b ++ '|' :: rest) path
  | later {a z b rest path} (other : ∃ ps, Reads a z .branch b ps) (there : Means home a z .pattern rest path) :
      Means home a z .pattern (b ++ '|' :: rest) path

theorem meansReads {home : Str} {a z : Bool} {k : Level} {s path : Str} (means : Means home a z k s path) :
    ∃ ps, Reads a z k s ps ∧ Matches (ps.flatMap (TextPiece.items home)) path := by
  induction means with
  | text plain hit => exact ⟨_,.text plain,by rwa [List.flatMap_singleton]⟩
  | group plain front inside behind ih ih' =>
    obtain ⟨ps,reads,hit⟩ := ih
    obtain ⟨qs,reads',hit'⟩ := ih'
    refine ⟨_,.group plain reads reads',?_⟩
    rw [List.flatMap_cons,List.flatMap_append]
    exact matchesAppend.mpr ⟨_,_,rfl,front,matchesAppend.mpr ⟨_,_,rfl,hit,hit'⟩⟩
  | only here ih =>
    obtain ⟨ps,reads,hit⟩ := ih
    exact ⟨ps,.only reads,hit⟩
  | first here other ih =>
    obtain ⟨ps,reads,hit⟩ := ih
    obtain ⟨_,other⟩ := other
    exact ⟨ps,.first reads other,hit⟩
  | later other there ih =>
    obtain ⟨ps,reads,hit⟩ := ih
    obtain ⟨_,other⟩ := other
    exact ⟨ps,.later other reads,hit⟩

theorem readsMeans {home : Str} {a z : Bool} {k : Level} {s path : Str} {ps : List TextPiece} (reads : Reads a z k s ps)
    (hit : Matches (ps.flatMap (TextPiece.items home)) path) : Means home a z k s path := by
  induction reads generalizing path with
  | text plain =>
    rw [List.flatMap_singleton] at hit
    exact .text plain hit
  | group plain inside behind ih ih' =>
    rw [List.flatMap_cons,List.flatMap_append] at hit
    obtain ⟨u,_,rfl,front,rest⟩ := matchesAppend.mp hit
    obtain ⟨v,w,rfl,middle,back⟩ := matchesAppend.mp rest
    exact .group plain front (ih middle) (ih' back)
  | only here ih => exact .only (ih hit)
  | first here other ih ih' => exact .first (ih hit) ⟨_,other⟩
  | later other there ih ih' => exact .later ⟨_,other⟩ (ih' hit)

theorem meansChosen {home : Str} {a z : Bool} {k : Level} {s path : Str} : Means home a z k s path ↔
    ∃ ps, Reads a z k s ps ∧ Matches (ps.flatMap (TextPiece.items home)) path :=
  ⟨meansReads,fun ⟨_,reads,hit⟩ => readsMeans reads hit⟩

/-! Stars one by one. -/

/-- The items of a pattern, with `none` for each star. -/
def globAtoms : Str → List (Option (Item Char))
  | [] => []
  | c :: p => if c = '*' then none :: globAtoms p else some (globHead c p).1 :: globAtoms (globHead c p).2
termination_by p => p.length
decreasing_by
  · exact Nat.lt_succ_self _
  · exact Nat.lt_succ_of_le (globHeadSuffix c p).length_le

theorem atomsNil : globAtoms [] = [] := by rw [globAtoms]

theorem atomsStar (p : Str) : globAtoms ('*' :: p) = none :: globAtoms p := by rw [globAtoms,if_pos rfl]

theorem atomsCons {c : Char} (star : c ≠ '*') (p : Str) :
    globAtoms (c :: p) = some (globHead c p).1 :: globAtoms (globHead c p).2 := by
  rw [globAtoms,if_neg star]

theorem atomsItems (p : Str) : pairStars (· != '/') (globAtoms p) = globItems p := by
  induction size : p.length using Nat.strong_induction_on generalizing p with
  | h k ih =>
    cases p with
    | nil => rw [atomsNil,globItemsNil]; rfl
    | cons c p =>
      rw [List.length_cons] at size
      by_cases star : c = '*'
      · rw [star,atomsStar,globItemsCons,globHead,if_pos rfl]
        by_cases double : p.head? = some '*'
        · obtain ⟨rest,rfl⟩ := List.head?_eq_some_iff.mp double
          rw [List.length_cons] at size
          rw [if_pos double,atomsStar]
          exact congrArg (everything :: ·) (ih rest.length (by omega) rest rfl)
        · have alone : (globAtoms p).head? ≠ some none := by
            cases p with
            | nil =>
              rw [atomsNil,List.head?_nil]
              exact (Option.some_ne_none _).symm
            | cons d p =>
              have other : d ≠ '*' := fun same => double (congrArg some same)
              rw [atomsCons other,List.head?_cons]
              exact fun same => Option.some_ne_none _ (Option.some.inj same)
          rw [if_neg double,pairLone _ alone]
          exact congrArg (_ :: ·) (ih p.length (by omega) p rfl)
      · rw [atomsCons star,globItemsCons]
        have short := (globHeadSuffix c p).length_le
        exact congrArg (_ :: ·) (ih _ (by omega) _ rfl)

abbrev ClosedClasses : Str → Prop := Bracketed (· ≠ '[')

theorem closedPlain {t : Str} (plain : '[' ∉ t) : ClosedClasses t := by
  induction t with
  | nil => exact .nil
  | cons c t ih =>
    rw [List.mem_cons,not_or] at plain
    exact .char (Ne.symm plain.1) (ih plain.2)

theorem closedGlob {home : Str} (closed : ClosedClasses home) {p : TextPiece} (plain : PlainText p.text) :
    ClosedClasses (p.glob home) := by
  have stars : ClosedClasses "**".toList := closedPlain (by decide)
  have whole : ClosedClasses (if p.first = true ∧ p.text.head? = some '~' then home ++ p.text.tail else p.text) := by
    split
    · rename_i tilde
      obtain ⟨rest,same⟩ := List.head?_eq_some_iff.mp tilde.2
      rw [same] at plain ⊢
      cases plain with
      | char _ rest => exact bracketedAppend closed (bracketedMore (fun _ plain => plain.1) rest)
    · exact bracketedMore (fun _ plain => plain.1) plain
  unfold TextPiece.glob
  dsimp only
  generalize (if p.first = true ∧ p.text.head? = some '~' then home ++ p.text.tail else p.text) = glob at whole ⊢
  split
  · exact bracketedAppend whole stars
  · exact whole

theorem piecesClosed {home : Str} (closed : ClosedClasses home) {a z : Bool} {k : Level} {s : Str} {ps : List TextPiece}
    (reads : Reads a z k s ps) : ∀ p ∈ ps, ClosedClasses (p.glob home) := by
  induction reads with
  | text plain => exact fun p mem => List.mem_singleton.mp mem ▸ closedGlob closed plain
  | group plain inside behind ih ih' =>
    intro p mem
    rcases List.mem_cons.mp mem with rfl | mem
    · exact closedGlob closed plain
    · rcases List.mem_append.mp mem with mem | mem
      · exact ih p mem
      · exact ih' p mem
  | only here ih => exact ih
  | first here other ih ih' => exact ih
  | later other there ih ih' => exact ih'

theorem classBehind {body : Str} (inside : ']' ∉ body) (t : Str) : ((body ++ ']' :: t).dropWhile (· != ']')).tail = t := by
  induction body with
  | nil => rfl
  | cons c body ih =>
    rw [List.mem_cons,not_or] at inside
    have passes : (c != ']') = true := bne_iff_ne.mpr (Ne.symm inside.1)
    rw [List.cons_append,List.dropWhile_cons,if_pos passes,ih inside.2]

theorem atomsClosed {p : Str} (closed : ClosedClasses p) (q : Str) : globAtoms (p ++ q) = globAtoms p ++ globAtoms q := by
  induction closed with
  | nil => rw [atomsNil]; rfl
  | @char c t plain rest ih =>
    rw [List.cons_append]
    by_cases star : c = '*'
    · rw [star,atomsStar,atomsStar,ih,List.cons_append]
    · have behind : (globHead c t).2 = t := by
        rw [globHead,if_neg star]
        by_cases question : c = '?'
        · rw [if_pos question]
        · rw [if_neg question,if_neg fun both => plain both.1]
      rw [atomsCons star,atomsCons star,globHeadAppend (fun same => absurd same star) fun same => absurd same plain]
      dsimp only
      rw [behind,ih,List.cons_append]
  | @cls body t inside rest ih =>
    have star : '[' ≠ '*' := by decide
    have mem : ']' ∈ body ++ ']' :: t := List.mem_append_right body List.mem_cons_self
    have behind : (globHead '[' (body ++ ']' :: t)).2 = t := by
      rw [globHead,if_neg star,if_neg (by decide),if_pos ⟨rfl,mem⟩]
      exact classBehind inside t
    rw [List.cons_append,atomsCons star,atomsCons star,globHeadAppend (fun same => absurd same star) fun _ => .inl mem]
    dsimp only
    rw [behind,ih,List.cons_append]

theorem atomsOpen {q : Str} (bracket : ']' ∉ q) (p : Str) : globAtoms (p ++ q) = globAtoms p ++ globAtoms q := by
  fun_induction globAtoms p with
  | case1 => rfl
  | case2 p ih => rw [List.cons_append,atomsStar,ih,List.cons_append]
  | case3 c p star ih =>
    rw [List.cons_append,atomsCons star,globHeadAppend (fun same => absurd same star) fun _ => .inr bracket,
      List.cons_append]
    exact congrArg (_ :: ·) ih

/-! Choices. -/

/-- The alternative of a choice, read as a whole, is its pieces one behind the other: no tilde comes to its beginning
and no slash to its end that did not stand there, and no class that a piece leaves open is closed behind it. -/
structure InLine (home : Str) (ps : List TextPiece) : Prop where
  ends : TextPiece.glob home ⟨choiceText ps,true,true⟩ = ps.flatMap (TextPiece.glob home)
  closed : ∀ front p back, ps = front ++ p :: back → ']' ∈ back.flatMap (TextPiece.glob home) → ClosedClasses (p.glob home)

def choiceTokens (home : Str) (ps : List TextPiece) : List (Token Char) :=
  ps.flatMap fun p => tokens (globAtoms (p.glob home))

theorem piecesAtoms {home : Str} {ps : List TextPiece}
    (closed : ∀ front p back, ps = front ++ p :: back → ']' ∈ back.flatMap (TextPiece.glob home) →
      ClosedClasses (p.glob home)) :
    globAtoms (ps.flatMap (TextPiece.glob home)) = ps.flatMap fun p => globAtoms (p.glob home) := by
  induction ps with
  | nil => exact atomsNil
  | cons p ps ih =>
    have rest := ih fun front q back split => closed (p :: front) q back (congrArg (p :: ·) split)
    rw [List.flatMap_cons,List.flatMap_cons,← rest]
    by_cases bracket : ']' ∈ ps.flatMap (TextPiece.glob home)
    · exact atomsClosed (closed [] p ps rfl bracket) _
    · exact atomsOpen bracket _

theorem choiceRead (home : Str) (ps : List TextPiece) :
    (choiceTokens home ps).map (Token.read (· != '/')) = ps.flatMap (TextPiece.items home) := by
  rw [choiceTokens,List.map_flatMap]
  exact List.flatMap_congr fun p _ => (tokensRead _ _).trans (atomsItems _)

theorem choiceStars {home : Str} {ps : List TextPiece} (settled : InLine home ps) :
    (choiceTokens home ps).flatMap Token.stars = globAtoms (TextPiece.glob home ⟨choiceText ps,true,true⟩) := by
  rw [settled.ends,piecesAtoms settled.closed,choiceTokens,List.flatMap_assoc]
  exact List.flatMap_congr fun p _ => tokensStars _

theorem globMatchPathPiece (alt path home : Str) :
    globMatchPath alt path home = true ↔ Matches (TextPiece.items home ⟨alt,true,true⟩) path := by
  have whole : glued home alt = if alt.head? = some '~' then home ++ alt.tail else alt := by
    unfold glued patternParts
    split
    · rfl
    · rename_i other
      rw [if_neg]
      · rfl
      · intro tilde
        obtain ⟨rest,same⟩ := List.head?_eq_some_iff.mp tilde
        exact other rest same
  have glob : TextPiece.glob home ⟨alt,true,true⟩ =
      if (glued home alt).getLast? = some '/' then glued home alt ++ "**".toList else glued home alt := by
    simp only [TextPiece.glob,whole,true_and]
  rw [globMatchPathGlued,TextPiece.items,glob]
  split <;> rfl

theorem choiceKeeps {home path : Str} {ps : List TextPiece} (settled : InLine home ps)
    (hit : Matches (ps.flatMap (TextPiece.items home)) path) : globMatchPath (choiceText ps) path home = true := by
  rw [globMatchPathPiece,TextPiece.items,← atomsItems,← choiceStars settled]
  rw [← choiceRead] at hit
  exact joinedKeeps _ hit

theorem choiceAdds {home path : Str} {ps : List TextPiece} (settled : InLine home ps) (apart : Apart (choiceTokens home ps))
    (hit : globMatchPath (choiceText ps) path home = true) : Matches (ps.flatMap (TextPiece.items home)) path := by
  rw [globMatchPathPiece,TextPiece.items,← atomsItems,← choiceStars settled] at hit
  rw [← choiceRead]
  exact joinedAdds _ apart hit

/-! Which choices mean the same when they are put together. -/

/-- Two single stars do not meet, or some class of the choice takes no character. -/
def Seamless (home : Str) (ps : List TextPiece) : Prop :=
  Apart (choiceTokens home ps) ∨ ∃ p, .item (.one p) ∈ choiceTokens home ps ∧ ∀ c, p c = false

def SameLanguage (home s : Str) : Prop := ∀ path,
  (∃ alt ∈ patternAlternatives s, globMatchPath alt path home = true) ↔ Means home true true .pattern s path

theorem choiceJoined {home : Str} {ps : List TextPiece} (settled : InLine home ps) :
    TextPiece.items home ⟨choiceText ps,true,true⟩ = pairStars (· != '/') ((choiceTokens home ps).flatMap Token.stars) := by
  rw [TextPiece.items,← atomsItems,← choiceStars settled]

theorem seamlessAdds {home path : Str} {ps : List TextPiece} (settled : InLine home ps) (seamless : Seamless home ps)
    (hit : globMatchPath (choiceText ps) path home = true) : Matches (ps.flatMap (TextPiece.items home)) path := by
  rcases seamless with apart | ⟨p,mem,barren⟩
  · exact choiceAdds settled apart hit
  · rw [globMatchPathPiece,choiceJoined settled] at hit
    obtain ⟨c,taken⟩ := matchesHit hit ((oneJoined _).mpr mem)
    rw [barren c] at taken
    cases taken

/-- An alternative in which two single stars met matches paths of any depth. -/
theorem seamDeep {home : Str} {ps : List TextPiece} (settled : InLine home ps) (lone : .double ∉ choiceTokens home ps)
    (seam : ¬ Seamless home ps) (n : Nat) : ∃ path, globMatchPath (choiceText ps) path home = true ∧ n ≤ path.count '/' := by
  rw [Seamless,not_or] at seam
  have wide := (apartOrEverything (· != '/') lone).resolve_left seam.1
  obtain ⟨s,whole⟩ := matchesSome fun p mem => by
    by_contra never
    exact seam.2 ⟨p,(oneJoined (· != '/')).mp mem,fun c => Bool.eq_false_iff.mpr fun taken => never ⟨c,taken⟩⟩
  obtain ⟨a,b,deep⟩ := everythingTakes wide whole (List.replicate n '/')
  refine ⟨_,(globMatchPathPiece _ _ _).mpr (choiceJoined settled ▸ deep),?_⟩
  rw [List.count_append,List.count_append,List.count_replicate_self]
  omega

theorem atomsOne {p : Str} {i : Item Char} (mem : some i ∈ globAtoms p) : ∃ q, i = .one q := by
  fun_induction globAtoms p with
  | case1 => cases mem
  | case2 p ih => exact ih ((List.mem_cons.mp mem).resolve_left nofun)
  | case3 c p star ih =>
    rcases List.mem_cons.mp mem with same | mem
    · rw [Option.some.inj same,globHead,if_neg star]
      split
      · exact ⟨_,rfl⟩
      · split
        · exact ⟨_,rfl⟩
        · exact ⟨_,rfl⟩
    · exact ih mem

/-- Without double stars, what the pieces match is no deeper than they have items. -/
theorem piecesShallow {home path : Str} {ps : List TextPiece} (lone : .double ∉ choiceTokens home ps)
    (hit : Matches (ps.flatMap (TextPiece.items home)) path) : path.count '/' ≤ (choiceTokens home ps).length := by
  rw [← choiceRead] at hit
  have shallow := matchesCount (c := '/') hit fun p mem => by
    obtain ⟨t,token,read⟩ := List.mem_map.mp mem
    cases t with
    | lone =>
      cases read
      rfl
    | double => exact absurd token lone
    | item i =>
      obtain ⟨piece,_,token⟩ := List.mem_flatMap.mp token
      have atom : some i ∈ globAtoms (piece.glob home) := by
        rw [← tokensStars (globAtoms (piece.glob home))]
        exact List.mem_flatMap.mpr ⟨_,token,List.mem_cons_self⟩
      obtain ⟨q,rfl⟩ := atomsOne atom
      cases read
  rwa [List.length_map] at shallow

theorem tokensShort (ts : List (Token Char)) : ts.length ≤ (ts.flatMap Token.stars).length := by
  induction ts with
  | nil => exact le_rfl
  | cons t ts ih =>
    rw [List.flatMap_cons,List.length_append,List.length_cons]
    have one : 1 ≤ t.stars.length := by
      cases t with
      | lone => exact le_rfl
      | double => exact Nat.le_succ 1
      | item i => exact le_rfl
    omega

theorem starlessTokens {home : Str} {ps : List TextPiece} (stars : ∀ p ∈ ps, '*' ∉ p.glob home) :
    ∀ t ∈ choiceTokens home ps, ∃ i, t = .item i := by
  have atoms : ∀ {q : Str}, '*' ∉ q → none ∉ globAtoms q := by
    intro q none'
    fun_induction globAtoms q with
    | case1 => exact List.not_mem_nil
    | case2 q ih => exact absurd List.mem_cons_self none'
    | case3 c q star ih =>
      rw [List.mem_cons,not_or] at none' ⊢
      exact ⟨nofun,ih fun mem => none'.2 ((globHeadSuffix c q).subset mem)⟩
  intro t mem
  obtain ⟨p,piece,token⟩ := List.mem_flatMap.mp mem
  exact tokensItems (atoms (stars p piece)) t token

/-- The alternatives mean at least what the pattern means, and no more where no choice has a seam. -/
theorem alternativesMean {home s : Str} (balanced : Balanced s)
    (settled : ∀ ps, Reads true true .pattern s ps → InLine home ps) :
    (∀ path, Means home true true .pattern s path → ∃ alt ∈ patternAlternatives s, globMatchPath alt path home = true) ∧
    ((∀ ps, Reads true true .pattern s ps → Seamless home ps) → SameLanguage home s) := by
  obtain ⟨qs,reads⟩ := balancedReads true true balanced
  have keeps : ∀ path, Means home true true .pattern s path →
      ∃ alt ∈ patternAlternatives s, globMatchPath alt path home = true := by
    intro path means
    obtain ⟨ps,choice,hit⟩ := meansChosen.mp means
    exact ⟨_,(alternativesRead reads _).mpr ⟨ps,choice,rfl⟩,choiceKeeps (settled ps choice) hit⟩
  refine ⟨keeps,fun seamless path => ⟨?_,keeps path⟩⟩
  rintro ⟨alt,mem,hit⟩
  obtain ⟨ps,choice,rfl⟩ := (alternativesRead reads alt).mp mem
  exact meansChosen.mpr ⟨ps,choice,seamlessAdds (settled ps choice) (seamless ps choice) hit⟩

theorem seamSeen {home s : Str} (settled : ∀ ps, Reads true true .pattern s ps → InLine home ps)
    (lone : ∀ ps, Reads true true .pattern s ps → .double ∉ choiceTokens home ps) (same : SameLanguage home s)
    {ps : List TextPiece} (choice : Reads true true .pattern s ps) : Seamless home ps := by
  by_contra seam
  let depth (alt : Str) : Nat := (globAtoms (TextPiece.glob home ⟨alt,true,true⟩)).length
  obtain ⟨path,hit,deep⟩ := seamDeep (settled ps choice) (lone ps choice) seam
    (((patternAlternatives s).map depth).sum + 1)
  have mem := (alternativesRead choice _).mpr ⟨ps,choice,rfl⟩
  obtain ⟨qs,choice',hit'⟩ := meansChosen.mp ((same path).mp ⟨_,mem,hit⟩)
  have mem' := (alternativesRead choice _).mpr ⟨qs,choice',rfl⟩
  have shallow := piecesShallow (lone qs choice') hit'
  have short := tokensShort (choiceTokens home qs)
  rw [choiceStars (settled qs choice')] at short
  have bound : depth (choiceText qs) ≤ ((patternAlternatives s).map depth).sum :=
    List.le_sum_of_mem (List.mem_map_of_mem mem')
  have := short.trans bound
  omega

/-- Writing out ends, and where no choice has a seam the alternatives mean what the pattern means. Without double
stars there is no other way to it. -/
theorem alternativesLanguage (home s : Str) :
    (∀ fuel, s.count '(' ≤ fuel → patternAlternativesWith fuel s = some (patternAlternatives s)) ∧
    (Balanced s → (∀ ps, Reads true true .pattern s ps → InLine home ps) →
      (∀ path, Means home true true .pattern s path →
        ∃ alt ∈ patternAlternatives s, globMatchPath alt path home = true) ∧
      ((∀ ps, Reads true true .pattern s ps → Seamless home ps) → SameLanguage home s) ∧
      ((∀ ps, Reads true true .pattern s ps → .double ∉ choiceTokens home ps) →
        (SameLanguage home s ↔ ∀ ps, Reads true true .pattern s ps → Seamless home ps))) := by
  refine ⟨fun fuel enough => alternativesEnd enough,fun balanced settled => ?_⟩
  obtain ⟨keeps,same⟩ := alternativesMean balanced settled
  exact ⟨keeps,same,fun lone => ⟨fun same ps choice => seamSeen settled lone same choice,same⟩⟩

theorem groupChoices {a z : Bool} {s t inner u v r : Str} (branch : splitTopLevel s '|' = [s])
    (found : firstGroup s = some (t,inner,r)) (branches : splitTopLevel inner '|' = [u,v])
    (plain : firstGroup u = none ∧ firstGroup v = none ∧ firstGroup r = none) {ps : List TextPiece}
    (choice : Reads a z .pattern s ps) :
    ps = [⟨t,a,false⟩,⟨u,a && t.isEmpty,z && r.isEmpty⟩,⟨r,false,z⟩] ∨
      ps = [⟨t,a,false⟩,⟨v,a && t.isEmpty,z && r.isEmpty⟩,⟨r,false,z⟩] := by
  obtain ⟨b,mem,reads⟩ := readsSplit choice
  rw [branch,List.mem_singleton] at mem
  rw [mem] at reads
  obtain ⟨_,is,rs,rfl,inside,behind⟩ := readsGroup found reads
  obtain ⟨c,mem,reads⟩ := readsSplit inside
  rw [readsPlain plain.2.2 behind]
  rw [branches] at mem
  rcases List.mem_cons.mp mem with rfl | mem
  · rw [readsPlain plain.1 reads]
    exact .inl rfl
  · rw [List.mem_singleton] at mem
    rw [mem] at reads
    rw [readsPlain plain.2.1 reads]
    exact .inr rfl

theorem alternativesLanguageFoo : patternAlternativesWith 1 "~(|/foo)".toList = some ["~".toList,"~/foo".toList] ∧
    SameLanguage "/home/u".toList "~(|/foo)".toList := by
  obtain ⟨ends,language⟩ := alternativesLanguage "/home/u".toList "~(|/foo)".toList
  have choices : ∀ ps, Reads true true .pattern "~(|/foo)".toList ps →
      ps = [⟨"~".toList,true,false⟩,⟨[],false,true⟩,⟨[],false,true⟩] ∨
        ps = [⟨"~".toList,true,false⟩,⟨"/foo".toList,false,true⟩,⟨[],false,true⟩] :=
    fun ps choice => @groupChoices true true _ "~".toList "|/foo".toList [] "/foo".toList [] (by decide) (by decide)
      (by decide) (by decide) ps choice
  have pieces : ∀ ps, Reads true true .pattern "~(|/foo)".toList ps →
      ∀ p ∈ ps, '*' ∉ p.glob "/home/u".toList := by
    intro ps choice
    rcases choices ps choice with rfl | rfl <;> decide
  have settled : ∀ ps, Reads true true .pattern "~(|/foo)".toList ps → InLine "/home/u".toList ps := by
    intro ps choice
    refine ⟨?_,fun front p back split _ => ?_⟩
    · rcases choices ps choice with rfl | rfl <;> decide
    · exact piecesClosed (closedPlain (by decide)) choice p (split ▸ List.mem_append_right front List.mem_cons_self)
  have items := fun ps choice => starlessTokens (pieces ps choice)
  obtain ⟨_,_,exactly⟩ := language (by unfold Balanced; decide) settled
  refine ⟨?_,(exactly fun ps choice mem => ?_).mpr fun ps choice => .inl (itemsApart (items ps choice))⟩
  · rw [ends 1 (by decide)]
    decide
  · obtain ⟨i,other⟩ := items ps choice _ mem
    cases other

/-- The stars of `a*(|*)b` come together, and the alternative `a**b` crosses slashes. -/
theorem starsMeet : ¬ ∀ home s, Balanced s → SameLanguage home s := by
  intro law
  have pattern := law [] "a*(|*)b".toList (by unfold Balanced; decide) "a/b".toList
  have matched : ∃ alt ∈ patternAlternatives "a*(|*)b".toList, globMatchPath alt "a/b".toList [] = true :=
    ⟨"a**b".toList,by decide +kernel,by decide +kernel⟩
  obtain ⟨ps,choice,hit⟩ := meansChosen.mp (pattern.mp matched)
  have choices := @groupChoices true true _ "a*".toList "|*".toList [] "*".toList "b".toList (by decide) (by decide)
    (by decide) (by decide) ps choice
  have a : globHead 'a' ['*'] = (.one ('a' == ·),['*']) := rfl
  have star : globHead '*' [] = (.many fun d => d != '/',[]) := rfl
  have b : globHead 'b' [] = (.one ('b' == ·),[]) := rfl
  have front : TextPiece.items [] ⟨"a*".toList,true,false⟩ = [.one ('a' == ·),.many fun d => d != '/'] := by
    show globItems ['a','*'] = _
    rw [globItemsCons,a,globItemsCons,star,globItemsNil]
  have single : TextPiece.items [] ⟨"*".toList,false,false⟩ = [.many fun d => d != '/'] := by
    show globItems ['*'] = _
    rw [globItemsCons,star,globItemsNil]
  have empty : TextPiece.items [] ⟨[],false,false⟩ = [] := globItemsNil
  have back : TextPiece.items [] ⟨"b".toList,false,true⟩ = [.one ('b' == ·)] := by
    show globItems ['b'] = _
    rw [globItemsCons,b,globItemsNil]
  have narrow : ps.flatMap (TextPiece.items []) = [.one ('a' == ·),.many fun d => d != '/',.one ('b' == ·)] ∨
      ps.flatMap (TextPiece.items []) =
        [.one ('a' == ·),.many fun d => d != '/',.many fun d => d != '/',.one ('b' == ·)] := by
    rcases choices with rfl | rfl
    · left
      show TextPiece.items [] ⟨"a*".toList,true,false⟩ ++ (TextPiece.items [] ⟨[],false,false⟩ ++
        (TextPiece.items [] ⟨"b".toList,false,true⟩ ++ [])) = _
      rw [front,empty,back]
      rfl
    · right
      show TextPiece.items [] ⟨"a*".toList,true,false⟩ ++ (TextPiece.items [] ⟨"*".toList,false,false⟩ ++
        (TextPiece.items [] ⟨"b".toList,false,true⟩ ++ [])) = _
      rw [front,single,back]
      rfl
  refine matchesAvoids hit ?_ (show '/' ∈ "a/b".toList by decide)
  rcases narrow with same | same
  · rw [same]
    simp
  · rw [same]
    simp

end P11k.Render
