import Mathlib.Data.List.Basic

/-! Wildcard patterns over any alphabet: an item takes one matching character or a run of them, and a
pattern is a list of items. -/
namespace P11k.Wildcard
variable {α : Type}

inductive Item (α : Type) where
  | one (p : α → Bool)
  | many (p : α → Bool)

inductive Matches : List (Item α) → List α → Prop where
  | nil : Matches [] []
  | one {p c items s} (hit : p c = true) (rest : Matches items s) : Matches (.one p :: items) (c :: s)
  | stop {p items s} (rest : Matches items s) : Matches (.many p :: items) s
  | more {p c items s} (hit : p c = true) (rest : Matches (.many p :: items) s) :
      Matches (.many p :: items) (c :: s)

theorem matchesNil {s : List α} : Matches [] s ↔ s = [] := by
  constructor
  · rintro ⟨⟩
    rfl
  · rintro rfl
    exact .nil

theorem matchesOne {p : α → Bool} {items : List (Item α)} {s : List α} :
    Matches (.one p :: items) s ↔ ∃ c t, s = c :: t ∧ p c = true ∧ Matches items t := by
  constructor
  · rintro (_ | ⟨hit,rest⟩)
    exact ⟨_,_,rfl,hit,rest⟩
  · rintro ⟨c,t,rfl,hit,rest⟩
    exact .one hit rest

theorem matchesOneCons {p : α → Bool} {items : List (Item α)} {c : α} {s : List α} :
    Matches (.one p :: items) (c :: s) ↔ p c = true ∧ Matches items s := by
  simp [matchesOne]

theorem notOneNil {p : α → Bool} {items : List (Item α)} : ¬ Matches (.one p :: items) [] := by
  simp [matchesOne]

theorem matchesManyCons {p : α → Bool} {items : List (Item α)} {c : α} {s : List α} :
    Matches (.many p :: items) (c :: s) ↔
      Matches items (c :: s) ∨ p c = true ∧ Matches (.many p :: items) s := by
  constructor
  · rintro (_ | _ | rest | ⟨hit,rest⟩)
    · exact .inl rest
    · exact .inr ⟨hit,rest⟩
  · rintro (rest | ⟨hit,rest⟩)
    · exact .stop rest
    · exact .more hit rest

theorem matchesManyNil {p : α → Bool} {items : List (Item α)} :
    Matches (.many p :: items) [] ↔ Matches items [] := by
  constructor
  · rintro (_ | _ | rest)
    exact rest
  · exact .stop

theorem matchesMany {p : α → Bool} {items : List (Item α)} {s : List α} :
    Matches (.many p :: items) s ↔ ∃ a b, s = a ++ b ∧ (∀ c ∈ a, p c = true) ∧ Matches items b := by
  induction s with
  | nil =>
    rw [matchesManyNil]
    constructor
    · exact fun rest => ⟨[],[],rfl,by simp,rest⟩
    · rintro ⟨a,b,split,_,rest⟩
      obtain ⟨rfl,rfl⟩ := List.append_eq_nil_iff.mp split.symm
      exact rest
  | cons c s ih =>
    rw [matchesManyCons,ih]
    constructor
    · rintro (rest | ⟨hit,a,b,rfl,run,rest⟩)
      · exact ⟨[],c :: s,rfl,by simp,rest⟩
      · exact ⟨c :: a,b,rfl,by simpa [hit] using run,rest⟩
    · rintro ⟨a,b,split,run,rest⟩
      cases a with
      | nil =>
        rw [List.nil_append] at split
        exact .inl (split ▸ rest)
      | cons d a =>
        obtain ⟨rfl,rfl⟩ := List.cons.inj split
        rw [List.forall_mem_cons] at run
        exact .inr ⟨run.1,a,b,rfl,run.2,rest⟩

theorem matchesAppend {xs ys : List (Item α)} {s : List α} :
    Matches (xs ++ ys) s ↔ ∃ a b, s = a ++ b ∧ Matches xs a ∧ Matches ys b := by
  constructor
  · intro whole
    induction xs generalizing s with
    | nil => exact ⟨[],s,rfl,.nil,whole⟩
    | cons x xs ih =>
      cases x with
      | one p =>
        rw [List.cons_append,matchesOne] at whole
        obtain ⟨c,t,rfl,hit,rest⟩ := whole
        obtain ⟨a,b,rfl,front,back⟩ := ih rest
        exact ⟨c :: a,b,rfl,.one hit front,back⟩
      | many p =>
        rw [List.cons_append,matchesMany] at whole
        obtain ⟨r,t,rfl,run,rest⟩ := whole
        obtain ⟨a,b,rfl,front,back⟩ := ih rest
        refine ⟨r ++ a,b,(List.append_assoc r a b).symm,?_,back⟩
        rw [matchesMany]
        exact ⟨r,a,rfl,run,front⟩
  · rintro ⟨a,b,rfl,front,back⟩
    induction front with
    | nil => exact back
    | one hit _ ih => exact .one hit ih
    | stop _ ih => exact .stop ih
    | more hit _ ih => exact .more hit ih

/-! Texts taken literally. -/

def literal [BEq α] (s : List α) : List (Item α) := s.map fun c => .one (c == ·)

theorem matchesLiteral [BEq α] [LawfulBEq α] {t : List α} {items : List (Item α)} {s : List α} :
    Matches (literal t ++ items) s ↔ ∃ b, s = t ++ b ∧ Matches items b := by
  induction t generalizing s with
  | nil => simp [literal]
  | cons c t ih =>
    have step : literal (c :: t) ++ items = .one (c == ·) :: (literal t ++ items) := rfl
    rw [step,matchesOne]
    constructor
    · rintro ⟨d,u,rfl,hit,rest⟩
      obtain ⟨b,rfl,last⟩ := ih.mp rest
      exact ⟨b,by rw [eq_of_beq hit,List.cons_append],last⟩
    · rintro ⟨b,rfl,last⟩
      exact ⟨c,t ++ b,rfl,beq_self_eq_true c,ih.mpr ⟨b,rfl,last⟩⟩

theorem matchesLiteralOnly [BEq α] [LawfulBEq α] {t s : List α} : Matches (literal t) s ↔ s = t := by
  rw [← List.append_nil (literal t),matchesLiteral]
  simp [matchesNil]

/-! The shortest texts. -/

def least : List (Item α) → Nat
  | [] => 0
  | .one _ :: items => least items + 1
  | .many _ :: items => least items

theorem matchesLeast {items : List (Item α)} {s : List α} (whole : Matches items s) :
    ∃ t, Matches items t ∧ t.length = least items := by
  induction whole with
  | nil => exact ⟨[],.nil,rfl⟩
  | one hit _ ih =>
    obtain ⟨t,rest,size⟩ := ih
    exact ⟨_ :: t,.one hit rest,congrArg (· + 1) size⟩
  | stop _ ih =>
    obtain ⟨t,rest,size⟩ := ih
    exact ⟨t,.stop rest,size⟩
  | more _ _ ih => exact ih

/-! Stars side by side. A star by itself takes a run of narrow characters, and two of them together take anything. -/

section stars
variable (narrow : α → Bool)

def everything : Item α := .many fun _ => true

/-- Reads a pattern in which `none` stands for a star. -/
def pairStars : List (Option (Item α)) → List (Item α)
  | [] => []
  | none :: none :: as => everything :: pairStars as
  | none :: as => .many narrow :: pairStars as
  | some i :: as => i :: pairStars as

theorem pairLone {as : List (Option (Item α))} (alone : as.head? ≠ some none) :
    pairStars narrow (none :: as) = .many narrow :: pairStars narrow as := by
  cases as with
  | nil => rfl
  | cons a as =>
    cases a with
    | none => exact absurd rfl alone
    | some i => rfl

theorem matchesEverything {items : List (Item α)} {s : List α} :
    Matches (everything :: items) s ↔ ∃ a b, s = a ++ b ∧ Matches items b := by
  unfold everything
  rw [matchesMany]
  constructor
  · rintro ⟨a,b,split,_,rest⟩
    exact ⟨a,b,split,rest⟩
  · rintro ⟨a,b,split,rest⟩
    exact ⟨a,b,split,fun _ _ => rfl,rest⟩

theorem starStop {as : List (Option (Item α))} {s : List α} (whole : Matches (pairStars narrow as) s) :
    Matches (pairStars narrow (none :: as)) s := by
  fun_induction pairStars narrow as generalizing s with
  | case1 => exact .stop whole
  | case2 as ih =>
    obtain ⟨a,b,rfl,rest⟩ := matchesEverything.mp whole
    exact matchesEverything.mpr ⟨a,b,rfl,ih rest⟩
  | case3 as alone ih =>
    obtain ⟨a,b,rfl,_,rest⟩ := matchesMany.mp whole
    exact matchesEverything.mpr ⟨a,b,rfl,rest⟩
  | case4 i as ih => exact .stop whole

theorem starTakes {as : List (Option (Item α))} {a s : List α} (run : ∀ c ∈ a, narrow c = true)
    (whole : Matches (pairStars narrow as) s) : Matches (pairStars narrow (none :: as)) (a ++ s) := by
  by_cases double : as.head? = some none
  · obtain ⟨rest,rfl⟩ := List.head?_eq_some_iff.mp double
    obtain ⟨b,t,rfl,behind⟩ := matchesEverything.mp (starStop narrow whole)
    exact matchesEverything.mpr ⟨a ++ b,t,(List.append_assoc a b t).symm,behind⟩
  · rw [pairLone narrow double,matchesMany]
    exact ⟨a,s,rfl,run,whole⟩

theorem starDrops {as : List (Option (Item α))} {s : List α} (whole : Matches (pairStars narrow (none :: as)) s) :
    ∃ a b, s = a ++ b ∧ Matches (pairStars narrow as) b := by
  by_cases double : as.head? = some none
  · obtain ⟨rest,rfl⟩ := List.head?_eq_some_iff.mp double
    obtain ⟨a,b,rfl,behind⟩ := matchesEverything.mp whole
    exact ⟨a,b,rfl,starStop narrow behind⟩
  · rw [pairLone narrow double,matchesMany] at whole
    obtain ⟨a,b,rfl,_,rest⟩ := whole
    exact ⟨a,b,rfl,rest⟩

inductive Token (α : Type) where
  | lone
  | double
  | item (i : Item α)

def Token.stars : Token α → List (Option (Item α))
  | .lone => [none]
  | .double => [none,none]
  | .item i => [some i]

def Token.read : Token α → Item α
  | .lone => .many narrow
  | .double => everything
  | .item i => i

def tokens : List (Option (Item α)) → List (Token α)
  | [] => []
  | none :: none :: as => .double :: tokens as
  | none :: as => .lone :: tokens as
  | some i :: as => .item i :: tokens as

theorem tokensRead (as : List (Option (Item α))) : (tokens as).map (Token.read narrow) = pairStars narrow as := by
  fun_induction pairStars narrow as with
  | case1 => rfl
  | case2 as ih => exact congrArg (everything :: ·) ih
  | case3 as alone ih =>
    rw [tokens,List.map_cons,ih]
    · rfl
    · exact alone
  | case4 i as ih => exact congrArg (i :: ·) ih

theorem tokensStars (as : List (Option (Item α))) : (tokens as).flatMap Token.stars = as := by
  fun_induction tokens as with
  | case1 => rfl
  | case2 as ih => exact congrArg (fun rest => none :: none :: rest) ih
  | case3 as alone ih => exact congrArg (none :: ·) ih
  | case4 i as ih => exact congrArg (some i :: ·) ih

theorem joinedKeeps {ts : List (Token α)} {s : List α} (whole : Matches (ts.map (Token.read narrow)) s) :
    Matches (pairStars narrow (ts.flatMap Token.stars)) s := by
  induction ts generalizing s with
  | nil => exact whole
  | cons t ts ih =>
    rw [List.map_cons] at whole
    rw [List.flatMap_cons]
    cases t with
    | lone =>
      obtain ⟨a,b,rfl,run,rest⟩ := matchesMany.mp whole
      exact starTakes narrow run (ih rest)
    | double =>
      obtain ⟨a,b,rfl,rest⟩ := matchesEverything.mp whole
      exact matchesEverything.mpr ⟨a,b,rfl,ih rest⟩
    | item i =>
      cases i with
      | one p =>
        obtain ⟨c,t,rfl,hit,rest⟩ := matchesOne.mp whole
        exact .one hit (ih rest)
      | many p =>
        obtain ⟨a,b,rfl,run,rest⟩ := matchesMany.mp whole
        exact matchesMany.mpr ⟨a,b,rfl,run,ih rest⟩

/-- No two lone stars meet, except in a run of stars that takes anything as it is. -/
inductive Apart : List (Token α) → Prop where
  | nil : Apart []
  | item {i ts} (rest : Apart ts) : Apart (.item i :: ts)
  | lone {ts} (rest : Apart ts) (alone : ∀ t ∈ ts.head?, ∃ i, t = .item i) : Apart (.lone :: ts)
  | run {r ts} (stars : ∀ t ∈ r, t = .lone ∨ t = .double) (wide : .double ∈ r) (rest : Apart ts) : Apart (r ++ ts)

theorem runDrops {r : List (Token α)} (stars : ∀ t ∈ r, t = .lone ∨ t = .double) {as : List (Option (Item α))}
    {s : List α} (whole : Matches (pairStars narrow (r.flatMap Token.stars ++ as)) s) :
    ∃ a b, s = a ++ b ∧ Matches (pairStars narrow as) b := by
  induction r generalizing s with
  | nil => exact ⟨[],s,rfl,whole⟩
  | cons t r ih =>
    rw [List.forall_mem_cons] at stars
    rw [List.flatMap_cons,List.append_assoc] at whole
    obtain ⟨a,b,rfl,rest⟩ : ∃ a b, s = a ++ b ∧ Matches (pairStars narrow (r.flatMap Token.stars ++ as)) b := by
      rcases stars.1 with rfl | rfl
      · exact starDrops narrow whole
      · exact matchesEverything.mp whole
    obtain ⟨c,d,rfl,last⟩ := ih stars.2 rest
    exact ⟨a ++ c,d,(List.append_assoc a c d).symm,last⟩

theorem runTakes {r : List (Token α)} (stars : ∀ t ∈ r, t = .lone ∨ t = .double) (wide : .double ∈ r)
    {items : List (Item α)} {s : List α} (a : List α) (rest : Matches items s) :
    Matches (r.map (Token.read narrow) ++ items) (a ++ s) := by
  have skip : ∀ {r : List (Token α)}, (∀ t ∈ r, t = .lone ∨ t = .double) →
      Matches (r.map (Token.read narrow) ++ items) s := by
    intro r stars
    induction r with
    | nil => exact rest
    | cons t r ih =>
      rw [List.forall_mem_cons] at stars
      rcases stars.1 with rfl | rfl
      · exact .stop (ih stars.2)
      · exact .stop (ih stars.2)
  induction r with
  | nil => cases wide
  | cons t r ih =>
    rw [List.forall_mem_cons] at stars
    rcases stars.1 with rfl | rfl
    · exact .stop (ih stars.2 ((List.mem_cons.mp wide).resolve_left (nofun)))
    · exact matchesEverything.mpr ⟨a,s,rfl,skip stars.2⟩

theorem joinedAdds {ts : List (Token α)} (apart : Apart ts) {s : List α}
    (whole : Matches (pairStars narrow (ts.flatMap Token.stars)) s) : Matches (ts.map (Token.read narrow)) s := by
  induction apart generalizing s with
  | nil => exact whole
  | @item i ts rest ih =>
    rw [List.flatMap_cons] at whole
    rw [List.map_cons]
    cases i with
    | one p =>
      obtain ⟨c,t,rfl,hit,behind⟩ := matchesOne.mp whole
      exact .one hit (ih behind)
    | many p =>
      obtain ⟨a,b,rfl,run,behind⟩ := matchesMany.mp whole
      exact matchesMany.mpr ⟨a,b,rfl,run,ih behind⟩
  | @lone ts rest alone ih =>
    have single : (ts.flatMap Token.stars).head? ≠ some none := by
      cases ts with
      | nil => exact nofun
      | cons t ts =>
        obtain ⟨i,rfl⟩ := alone t rfl
        exact nofun
    rw [List.flatMap_cons] at whole
    have split : pairStars narrow (Token.stars .lone ++ ts.flatMap Token.stars) =
        .many narrow :: pairStars narrow (ts.flatMap Token.stars) := pairLone narrow single
    rw [split] at whole
    obtain ⟨a,b,rfl,run,behind⟩ := matchesMany.mp whole
    exact matchesMany.mpr ⟨a,b,rfl,run,ih behind⟩
  | @run r ts stars wide rest ih =>
    rw [List.flatMap_append] at whole
    obtain ⟨a,b,rfl,behind⟩ := runDrops narrow stars whole
    rw [List.map_append]
    exact runTakes narrow stars wide a (ih behind)

theorem tokensItems {as : List (Option (Item α))} (stars : none ∉ as) : ∀ t ∈ tokens as, ∃ i, t = .item i := by
  induction as with
  | nil => exact nofun
  | cons a as ih =>
    rw [List.mem_cons,not_or] at stars
    cases a with
    | none => exact absurd rfl stars.1
    | some i => exact List.forall_mem_cons.mpr ⟨⟨i,rfl⟩,ih stars.2⟩

theorem itemsApart {ts : List (Token α)} (items : ∀ t ∈ ts, ∃ i, t = .item i) : Apart ts := by
  induction ts with
  | nil => exact .nil
  | cons t ts ih =>
    rw [List.forall_mem_cons] at items
    obtain ⟨i,rfl⟩ := items.1
    exact .item (ih items.2)

/-- Lone stars that are not apart join to one that takes anything. -/
theorem apartOrEverything {ts : List (Token α)} (lone : .double ∉ ts) :
    Apart ts ∨ everything ∈ pairStars narrow (ts.flatMap Token.stars) := by
  induction ts with
  | nil => exact .inl .nil
  | cons t ts ih =>
    rw [List.mem_cons,not_or] at lone
    rw [List.flatMap_cons]
    cases t with
    | double => exact absurd rfl lone.1
    | item i => exact (ih lone.2).imp .item (List.mem_cons_of_mem i)
    | lone =>
      by_cases alone : ∀ t ∈ ts.head?, ∃ i, t = .item i
      · have single : (ts.flatMap Token.stars).head? ≠ some none := by
          cases ts with
          | nil => exact nofun
          | cons t ts =>
            obtain ⟨i,rfl⟩ := alone t rfl
            exact nofun
        have split : pairStars narrow (Token.stars .lone ++ ts.flatMap Token.stars) =
            .many narrow :: pairStars narrow (ts.flatMap Token.stars) := pairLone narrow single
        rw [split]
        exact (ih lone.2).imp (.lone · alone) (List.mem_cons_of_mem _)
      · right
        cases ts with
        | nil => exact absurd nofun alone
        | cons t ts =>
          cases t with
          | lone => exact List.mem_cons_self
          | double => exact absurd List.mem_cons_self lone.2
          | item i => exact absurd (fun t head => ⟨i,(Option.some.inj head).symm⟩) alone

theorem onePaired {p : α → Bool} {as : List (Option (Item α))} :
    .one p ∈ pairStars narrow as ↔ some (.one p) ∈ as := by
  fun_induction pairStars narrow as with
  | case1 => simp
  | case2 as ih => simp [ih,everything]
  | case3 as alone ih => simp [ih]
  | case4 i as ih => simp [ih]

theorem oneJoined {p : α → Bool} {ts : List (Token α)} :
    .one p ∈ pairStars narrow (ts.flatMap Token.stars) ↔ .item (.one p) ∈ ts := by
  rw [onePaired,List.mem_flatMap]
  constructor
  · rintro ⟨t,mem,star⟩
    cases t with
    | lone => exact absurd (List.mem_singleton.mp star) nofun
    | double => exact absurd star (by simp [Token.stars])
    | item i =>
      cases List.mem_singleton.mp star
      exact mem
  · exact fun mem => ⟨_,mem,List.mem_cons_self⟩

end stars

/-! What can be matched. -/

theorem matchesSome {items : List (Item α)} (each : ∀ p, .one p ∈ items → ∃ c, p c = true) : ∃ s, Matches items s := by
  induction items with
  | nil => exact ⟨[],.nil⟩
  | cons i items ih =>
    obtain ⟨s,rest⟩ := ih fun p mem => each p (List.mem_cons_of_mem i mem)
    cases i with
    | one p =>
      obtain ⟨c,hit⟩ := each p List.mem_cons_self
      exact ⟨c :: s,.one hit rest⟩
    | many p => exact ⟨s,.stop rest⟩

theorem matchesHit {items : List (Item α)} {s : List α} (whole : Matches items s) {p : α → Bool} (mem : .one p ∈ items) :
    ∃ c, p c = true := by
  induction whole with
  | nil => cases mem
  | one hit _ ih =>
    rcases List.mem_cons.mp mem with same | mem
    · cases same
      exact ⟨_,hit⟩
    · exact ih mem
  | stop _ ih => exact ih ((List.mem_cons.mp mem).resolve_left nofun)
  | more _ _ ih => exact ih mem

theorem everythingTakes {items : List (Item α)} {s : List α} (wide : everything ∈ items) (whole : Matches items s)
    (r : List α) : ∃ a b, Matches items (a ++ (r ++ b)) := by
  obtain ⟨xs,ys,rfl⟩ := List.append_of_mem wide
  obtain ⟨a,b,rfl,front,rest⟩ := matchesAppend.mp whole
  obtain ⟨_,c,_,back⟩ := matchesEverything.mp rest
  exact ⟨a,c,matchesAppend.mpr ⟨a,r ++ c,rfl,front,matchesEverything.mpr ⟨r,c,rfl,back⟩⟩⟩

/-- A character that no run takes is taken at most once by each item. -/
theorem matchesCount [BEq α] [LawfulBEq α] {c : α} {items : List (Item α)} {s : List α} (whole : Matches items s)
    (avoids : ∀ p, .many p ∈ items → p c = false) : s.count c ≤ items.length := by
  induction whole with
  | nil => exact Nat.le_refl _
  | @one p d items s _ _ ih =>
    have rest := ih fun q mem => avoids q (List.mem_cons_of_mem _ mem)
    rw [List.count_cons,List.length_cons]
    split <;> omega
  | stop _ ih =>
    have rest := ih fun q mem => avoids q (List.mem_cons_of_mem _ mem)
    rw [List.length_cons]
    omega
  | @more p d items s hit _ ih =>
    have other : d ≠ c := fun same => by
      rw [same,avoids p List.mem_cons_self] at hit
      cases hit
    rw [List.count_cons_of_ne other]
    exact ih avoids

theorem matchesAvoids {c : α} {items : List (Item α)} {s : List α} (whole : Matches items s)
    (avoids : ∀ i ∈ items, match i with | .one p => p c = false | .many p => p c = false) : c ∉ s := by
  induction whole with
  | nil => exact List.not_mem_nil
  | @one p d items s hit rest ih =>
    rw [List.forall_mem_cons] at avoids
    rw [List.mem_cons,not_or]
    refine ⟨fun same => ?_,ih avoids.2⟩
    rw [← same,avoids.1] at hit
    cases hit
  | @stop p items s rest ih =>
    rw [List.forall_mem_cons] at avoids
    exact ih avoids.2
  | @more p d items s hit rest ih =>
    rw [List.mem_cons,not_or]
    refine ⟨fun same => ?_,ih avoids⟩
    rw [List.forall_mem_cons] at avoids
    rw [← same,avoids.1] at hit
    cases hit

end P11k.Wildcard
