import Mathlib.Data.List.Basic
import P11k.Settings.Types

/-! Patterns with alternatives, written out as patterns without. Each group that is written out takes a parenthesis
with it, so writing out ends. -/
namespace P11k.Render
open P11k P11k.Settings

/-! Scanning: whether a class is open, and how many groups are. -/

def scanStep (st : Bool × Nat) (c : Char) : Bool × Nat :=
  if c = '[' ∧ st.1 = false then (true,st.2)
  else if c = ']' ∧ st.1 = true then (false,st.2)
  else if c = '(' ∧ st.1 = false then (st.1,st.2 + 1)
  else if c = ')' ∧ st.1 = false ∧ 0 < st.2 then (st.1,st.2 - 1)
  else st

def splitLoop (delim : Char) (st : Bool × Nat) (cur : Str) : Str → List Str
  | [] => [cur]
  | c :: s =>
      if c = delim ∧ (scanStep st c).2 = 0 ∧ (scanStep st c).1 = false then
        cur :: splitLoop delim (scanStep st c) [] s
      else splitLoop delim (scanStep st c) (cur ++ [c]) s

def splitTopLevel (s : Str) (delim : Char) : List Str := splitLoop delim (false,0) [] s

/-- What stands before the first group, in it and behind it. -/
def groupLoop (st : Bool × Nat) (front inner : Str) : Str → Option (Str × Str × Str)
  | [] => none
  | c :: s =>
      if st.2 = 0 then
        if (scanStep st c).2 = 0 then groupLoop (scanStep st c) (front ++ [c]) inner s
        else groupLoop (scanStep st c) front [] s
      else if (scanStep st c).2 = 0 then some (front,inner,s)
      else groupLoop (scanStep st c) front (inner ++ [c]) s

def firstGroup (s : Str) : Option (Str × Str × Str) := groupLoop (false,0) [] [] s

/-- Writes out the groups of a branch. Each call of itself has a parenthesis less, and `fuel` bounds their number. -/
def expandGroups : Nat → Str → Option (List Str)
  | 0, s => if firstGroup s = none then some [s] else none
  | fuel + 1, s =>
      match firstGroup s with
      | none => some [s]
      | some (front,inner,rest) => do
          let alts ← (splitTopLevel inner '|').mapM (expandGroups fuel)
          let outs ← alts.flatten.mapM fun alt => expandGroups fuel (front ++ (alt ++ rest))
          pure outs.flatten

def patternAlternativesWith (fuel : Nat) (pat : Str) : Option (List Str) :=
  ((splitTopLevel pat '|').mapM (expandGroups fuel)).map List.flatten

def patternAlternatives (pat : Str) : List Str := (patternAlternativesWith (pat.count '(') pat).getD []

/-! Writing out ends. -/

theorem scanDepth {st : Bool × Nat} {c : Char} : (st.2 = 0 → (scanStep st c).2 ≠ 0 → c = '(') ∧
    (st.2 ≠ 0 → (scanStep st c).2 = 0 → c = ')') := by
  unfold scanStep
  constructor
  · intro ground up
    split at up
    · exact absurd ground up
    · split at up
      · exact absurd ground up
      · split at up
        · rename_i opens
          exact opens.1
        · split at up
          · exact absurd (Nat.sub_eq_zero_of_le (ground.le.trans (Nat.zero_le 1))) up
          · exact absurd ground up
  · intro inside down
    split at down
    · exact absurd down inside
    · split at down
      · exact absurd down inside
      · split at down
        · exact absurd down (Nat.succ_ne_zero _)
        · split at down
          · rename_i closes
            exact closes.1
          · exact absurd down inside

theorem groupParts {st : Bool × Nat} {front inner s f i r : Str} (found : groupLoop st front inner s = some (f,i,r)) :
    if st.2 = 0 then front ++ s = f ++ '(' :: (i ++ ')' :: r) else f = front ∧ inner ++ s = i ++ ')' :: r := by
  induction s generalizing st front inner with
  | nil => cases found
  | cons c s ih =>
    rw [groupLoop] at found
    by_cases ground : st.2 = 0
    · rw [if_pos ground] at found ⊢
      by_cases stays : (scanStep st c).2 = 0
      · rw [if_pos stays] at found
        have later := ih found
        rw [if_pos stays,List.append_assoc] at later
        exact later
      · rw [if_neg stays] at found
        have later := ih found
        rw [if_neg stays,List.nil_append] at later
        rw [scanDepth.1 ground stays,later.1,later.2]
    · rw [if_neg ground] at found ⊢
      by_cases closes : (scanStep st c).2 = 0
      · rw [if_pos closes] at found
        cases found
        exact ⟨rfl,by rw [scanDepth.2 ground closes]⟩
      · rw [if_neg closes] at found
        have later := ih found
        rw [if_neg closes,List.append_assoc] at later
        exact later

theorem firstGroupParts {s f i r : Str} (found : firstGroup s = some (f,i,r)) : s = f ++ '(' :: (i ++ ')' :: r) :=
  groupParts found

theorem splitCount {delim : Char} {st : Bool × Nat} {cur s b : Str} (mem : b ∈ splitLoop delim st cur s) (p : Char) :
    b.count p ≤ cur.count p + s.count p := by
  induction s generalizing st cur with
  | nil =>
    rw [splitLoop,List.mem_singleton] at mem
    rw [mem]
    exact Nat.le_add_right _ _
  | cons c s ih =>
    have grows : s.count p ≤ (c :: s).count p := (List.sublist_cons_self c s).count_le p
    rw [splitLoop] at mem
    split at mem
    · rcases List.mem_cons.mp mem with rfl | later
      · exact Nat.le_add_right _ _
      · have := ih later
        rw [List.count_nil] at this
        omega
    · have := ih mem
      rw [List.count_append] at this
      rw [← List.singleton_append,List.count_append]
      omega

/-- What is written out, or nothing where the fuel is too little. -/
def written (fuel : Nat) (s : Str) : List Str := (expandGroups fuel s).getD []

def writtenAlternatives (fuel : Nat) (pat : Str) : List Str := (splitTopLevel pat '|').flatMap (written fuel)

theorem mapMWritten {fuel : Nat} {α : Type} {branch : α → Str} {xs : List α}
    (all : ∀ x ∈ xs, ∃ alts, expandGroups fuel (branch x) = some alts) :
    (xs.mapM fun x => expandGroups fuel (branch x)) = some (xs.map fun x => written fuel (branch x)) := by
  induction xs with
  | nil => rfl
  | cons x xs ih =>
    rw [List.forall_mem_cons] at all
    obtain ⟨alts,here⟩ := all.1
    rw [List.mapM_cons,ih all.2,here,List.map_cons,written,here]
    rfl

theorem expandPlain {s : Str} (plain : firstGroup s = none) (fuel : Nat) : expandGroups fuel s = some [s] := by
  cases fuel with
  | zero => exact if_pos plain
  | succ fuel => rw [expandGroups,plain]

theorem expandStep {fuel : Nat} {s f i r : Str} (found : firstGroup s = some (f,i,r))
    (inside : ∀ b ∈ splitTopLevel i '|', ∃ alts, expandGroups fuel b = some alts)
    (outside : ∀ alt ∈ writtenAlternatives fuel i, ∃ alts, expandGroups fuel (f ++ (alt ++ r)) = some alts) :
    expandGroups (fuel + 1) s = some ((writtenAlternatives fuel i).flatMap fun alt => written fuel (f ++ (alt ++ r))) := by
  have first : (splitTopLevel i '|').mapM (expandGroups fuel) = some ((splitTopLevel i '|').map (written fuel)) :=
    mapMWritten (fun b mem => inside b mem : ∀ b ∈ splitTopLevel i '|', ∃ alts, expandGroups fuel (id b) = some alts)
  have flat : ((splitTopLevel i '|').map (written fuel)).flatten = writtenAlternatives fuel i := List.flatMap_def.symm
  rw [expandGroups,found]
  dsimp only
  rw [first,Option.bind_eq_bind,Option.bind_some,flat,mapMWritten outside,Option.bind_some,List.flatMap_def]
  rfl

theorem groupCount {s f i r : Str} (found : firstGroup s = some (f,i,r)) :
    s.count '(' = f.count '(' + (i.count '(' + r.count '(') + 1 := by
  rw [firstGroupParts found,List.count_append,List.count_cons_self,List.count_append,List.count_cons_of_ne (by decide)]
  omega

theorem branchCount {i b : Str} (mem : b ∈ splitTopLevel i '|') : b.count '(' ≤ i.count '(' := by
  have fewer := splitCount mem '('
  rwa [List.count_nil,Nat.zero_add] at fewer

/-- The rule of writing out: a group is written out with one fuel less for what is in it and what is rebuilt. -/
theorem branchInduction {P : (fuel : Nat) → (s : Str) → s.count '(' ≤ fuel → Prop}
    (plain : ∀ fuel s enough, firstGroup s = none → P fuel s enough)
    (group : ∀ fuel s enough f i r, firstGroup s = some (f,i,r) → (∀ b fewer, P fuel b fewer) → P (fuel + 1) s enough)
    (fuel : Nat) (s : Str) (enough : s.count '(' ≤ fuel) : P fuel s enough := by
  induction fuel generalizing s with
  | zero =>
    cases found : firstGroup s with
    | none => exact plain 0 s enough found
    | some parts =>
      have := groupCount (f := parts.1) (i := parts.2.1) (r := parts.2.2) found
      omega
  | succ fuel ih =>
    cases found : firstGroup s with
    | none => exact plain (fuel + 1) s enough found
    | some parts => exact group fuel s enough _ _ _ found ih

theorem expandEnds (fuel : Nat) {s : Str} (enough : s.count '(' ≤ fuel) :
    (∃ alts, expandGroups fuel s = some alts) ∧ ∀ alt ∈ written fuel s, alt.count '(' ≤ s.count '(' := by
  induction fuel, s, enough using branchInduction with
  | plain fuel s enough found =>
    rw [written,expandPlain found]
    exact ⟨⟨[s],rfl⟩,fun alt mem => List.mem_singleton.mp mem ▸ le_rfl⟩
  | group fuel s enough f i r found ih =>
    have total := groupCount found
    have inside := fun b (mem : b ∈ splitTopLevel i '|') => ih b ((branchCount mem).trans (by omega))
    have few : ∀ alt ∈ writtenAlternatives fuel i, alt.count '(' ≤ i.count '(' := by
      intro alt mem
      obtain ⟨b,branch,there⟩ := List.mem_flatMap.mp mem
      exact ((inside b branch).2 alt there).trans (branchCount branch)
    have rebuilt : ∀ alt ∈ writtenAlternatives fuel i, (f ++ (alt ++ r)).count '(' + 1 ≤ s.count '(' := by
      intro alt mem
      have := few alt mem
      rw [List.count_append,List.count_append]
      omega
    have outside := fun alt mem => ih (f ++ (alt ++ r)) (by have := rebuilt alt mem; omega)
    have whole := expandStep found (fun b mem => (inside b mem).1) fun alt mem => (outside alt mem).1
    refine ⟨⟨_,whole⟩,fun out mem => ?_⟩
    rw [written,whole,Option.getD_some] at mem
    obtain ⟨alt,there,mem⟩ := List.mem_flatMap.mp mem
    have := (outside alt there).2 out mem
    have := rebuilt alt there
    omega

theorem rebuiltCount {fuel : Nat} {s f i r alt : Str} (found : firstGroup s = some (f,i,r))
    (enough : s.count '(' ≤ fuel + 1) (mem : alt ∈ writtenAlternatives fuel i) :
    (f ++ (alt ++ r)).count '(' ≤ fuel := by
  have total := groupCount found
  obtain ⟨b,branch,there⟩ := List.mem_flatMap.mp mem
  have fewer := branchCount branch
  have kept := (expandEnds fuel (fewer.trans (by omega))).2 alt there
  rw [List.count_append,List.count_append]
  omega

theorem expandFound {fuel : Nat} {s f i r : Str} (found : firstGroup s = some (f,i,r)) (enough : s.count '(' ≤ fuel + 1) :
    written (fuel + 1) s = (writtenAlternatives fuel i).flatMap fun alt => written fuel (f ++ (alt ++ r)) := by
  have total := groupCount found
  have whole := expandStep found (fun b mem => (expandEnds fuel ((branchCount mem).trans (by omega))).1)
    fun alt mem => (expandEnds fuel (rebuiltCount found enough mem)).1
  rw [written,whole,Option.getD_some]

theorem writtenMore {fuel : Nat} {s : Str} (enough : s.count '(' ≤ fuel) : written (fuel + 1) s = written fuel s := by
  induction fuel, s, enough using branchInduction with
  | plain fuel s enough found => rw [written,written,expandPlain found,expandPlain found]
  | group fuel s enough f i r found ih =>
    have total := groupCount found
    have inside : writtenAlternatives (fuel + 1) i = writtenAlternatives fuel i :=
      List.flatMap_congr fun b mem => ih b ((branchCount mem).trans (by omega))
    rw [expandFound found (enough.trans (Nat.le_succ _)),expandFound found enough,inside]
    exact List.flatMap_congr fun alt mem => ih _ (rebuiltCount found enough mem)

theorem writtenEnough {fuel : Nat} {s : Str} (enough : s.count '(' ≤ fuel) : written fuel s = written (s.count '(') s := by
  induction fuel, enough using Nat.le_induction with
  | base => rfl
  | succ fuel more ih => rw [writtenMore more,ih]

theorem alternativesWith {fuel : Nat} {pat : Str} (enough : pat.count '(' ≤ fuel) :
    patternAlternativesWith fuel pat = some (writtenAlternatives fuel pat) := by
  have all : ∀ b ∈ splitTopLevel pat '|', ∃ alts, expandGroups fuel (id b) = some alts :=
    fun b mem => (expandEnds fuel ((branchCount mem).trans enough)).1
  have first : (splitTopLevel pat '|').mapM (expandGroups fuel) = some ((splitTopLevel pat '|').map (written fuel)) :=
    mapMWritten all
  rw [patternAlternativesWith,first,Option.map_some]
  exact congrArg some List.flatMap_def.symm

theorem alternativesWritten (pat : Str) : patternAlternatives pat = writtenAlternatives (pat.count '(') pat := by
  rw [patternAlternatives,alternativesWith le_rfl,Option.getD_some]

/-- Writing out ends for every pattern, and any fuel that bounds its parentheses gives the same. -/
theorem alternativesEnd {fuel : Nat} {pat : Str} (enough : pat.count '(' ≤ fuel) :
    patternAlternativesWith fuel pat = some (patternAlternatives pat) := by
  rw [alternativesWith enough,alternativesWritten]
  exact congrArg some (List.flatMap_congr fun b mem => (writtenEnough ((branchCount mem).trans enough)).trans
    (writtenEnough (branchCount mem)).symm)

end P11k.Render
