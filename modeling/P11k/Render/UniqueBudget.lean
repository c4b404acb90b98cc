import P11k.Render.AbsoluteTail
import P11k.Render.Columns

/-! The path shortened to unique prefixes, from the front and only as far as the line has to save columns. What is
counted is characters, less those of a delimiter that is not shown. -/
namespace P11k.Render
open P11k P11k.Settings

/-- A component and its shortest unique prefix; an anchor has none. -/
abbrev Cell := Str × Option Str

section budget
variable (n : Nat) (takes : Cell → Bool) (gain : Cell → Nat)

/-- From the front, until `n` is saved. -/
def budgeted (saved : Nat) : List Cell → List Str
  | [] => []
  | (part,none) :: rest => part :: budgeted saved rest
  | (part,some short) :: rest =>
      if takes (part,some short) ∧ saved < n then short :: budgeted (saved + gain (part,some short)) rest
      else part :: budgeted saved rest

/-- The same, where `sum` goes on behind what is saved. -/
def summed (sum : Nat) : List Cell → List Str
  | [] => []
  | (part,none) :: rest => part :: summed sum rest
  | (part,some short) :: rest =>
      (if takes (part,some short) ∧ sum < n then short else part) :: summed (sum + gain (part,some short)) rest

variable {n takes gain}

theorem budgetedSummed (idle : ∀ cell, takes cell = false → gain cell = 0) {saved sum : Nat}
    (same : saved = sum ∨ (n ≤ saved ∧ n ≤ sum)) (cells : List Cell) :
    budgeted n takes gain saved cells = summed n takes gain sum cells := by
  induction cells generalizing saved sum with
  | nil => rfl
  | cons cell cells ih =>
    obtain ⟨part,short⟩ := cell
    cases short with
    | none => exact congrArg (part :: ·) (ih same)
    | some short =>
      have room : saved < n ↔ sum < n := by omega
      rw [budgeted,summed]
      by_cases here : takes (part,some short) = true ∧ saved < n
      · rw [if_pos here,if_pos ⟨here.1,room.mp here.2⟩]
        refine congrArg (short :: ·) (ih ?_)
        omega
      · rw [if_neg here,if_neg fun both => here ⟨both.1,room.mpr both.2⟩]
        refine congrArg (part :: ·) (ih ?_)
        cases wanted : takes (part,some short) with
        | false =>
          rw [idle _ wanted]
          exact same
        | true =>
          have spent : ¬ saved < n := fun small => here ⟨wanted,small⟩
          omega

theorem choicesAgree {α : Type} {p q : Prop} [Decidable p] [Decidable q] {a b : α} :
    (if p then a else b) = (if q then a else b) ↔ (a ≠ b → (p ↔ q)) := by
  by_cases same : a = b
  · simp [same]
  · by_cases first : p
    · by_cases second : q
      · simp [first,second]
      · rw [if_pos first,if_neg second]
        exact iff_of_false same fun agree => second ((agree same).mp first)
    · by_cases second : q
      · rw [if_neg first,if_pos second]
        exact iff_of_false (Ne.symm same) fun agree => first ((agree same).mpr second)
      · rw [if_neg first,if_neg second]
        exact iff_of_true rfl fun _ => iff_of_false first second

/-- Two ways to count shorten the same components when they agree at each that has something to save. -/
theorem summedAgree {takes' : Cell → Bool} {gain' : Cell → Nat} (anchor : ∀ part, gain (part,none) = 0)
    (anchor' : ∀ part, gain' (part,none) = 0) (sum sum' : Nat) (cells : List Cell) :
    summed n takes gain sum cells = summed n takes' gain' sum' cells ↔
      ∀ front part short behind, cells = front ++ (part,some short) :: behind → short ≠ part →
        ((takes (part,some short) = true ∧ sum + (front.map gain).sum < n) ↔
          (takes' (part,some short) = true ∧ sum' + (front.map gain').sum < n)) := by
  induction cells generalizing sum sum' with
  | nil =>
    refine iff_of_true rfl fun front part short behind split => ?_
    simp at split
  | cons cell cells ih =>
    obtain ⟨part,short⟩ := cell
    cases short with
    | none =>
      rw [summed,summed,List.cons_inj_right,ih]
      constructor
      · intro agree front part' short' behind split
        cases front with
        | nil => simp at split
        | cons first front =>
          obtain ⟨rfl,rest⟩ := List.cons.inj split
          have below := agree front part' short' behind rest
          simpa [anchor,anchor'] using below
      · intro agree front part' short' behind split
        have below := agree ((part,none) :: front) part' short' behind (by rw [split]; rfl)
        simpa [anchor,anchor'] using below
    | some short =>
      rw [summed,summed,List.cons.injEq,choicesAgree,ih]
      constructor
      · rintro ⟨here,agree⟩ front part' short' behind split differ
        cases front with
        | nil =>
          simp only [List.nil_append,List.cons.injEq,Prod.mk.injEq,Option.some.injEq] at split
          obtain ⟨⟨rfl,rfl⟩,-⟩ := split
          simpa using here differ
        | cons first front =>
          obtain ⟨rfl,rest⟩ := List.cons.inj split
          have below := agree front part' short' behind rest differ
          simpa [Nat.add_assoc] using below
      · intro agree
        constructor
        · intro differ
          simpa using agree [] part short cells rfl differ
        · intro front part' short' behind split differ
          have below := agree ((part,some short) :: front) part' short' behind (by rw [split]; rfl) differ
          simpa [Nat.add_assoc] using below

end budget

/-! Columns. -/

section columns
variable (charWidth : Char → Nat)

def columnGain : Cell → Nat
  | (_,none) => 0
  | (part,some short) => textWidth charWidth part - textWidth charWidth short

/-- Apart from the separators, of which there are as many before as after. -/
def pathWidth (shown : List Str) : Nat := (shown.map (textWidth charWidth)).sum

def columnBudgeted (n : Nat) (cells : List Cell) : List Str :=
  budgeted n (fun _ => true) (columnGain charWidth) 0 cells

def Narrower (cells : List Cell) : Prop :=
  ∀ part short, (part,some short) ∈ cells → textWidth charWidth short ≤ textWidth charWidth part

variable {charWidth}

theorem columnsSaved {n saved : Nat} {cells : List Cell} (narrower : Narrower charWidth cells)
    (enough : n ≤ saved + (cells.map (columnGain charWidth)).sum) :
    pathWidth charWidth (budgeted n (fun _ => true) (columnGain charWidth) saved cells) + n ≤
      pathWidth charWidth (cells.map Prod.fst) + saved := by
  induction cells generalizing saved with
  | nil => simpa [budgeted,pathWidth] using enough
  | cons cell cells ih =>
    have rest : Narrower charWidth cells := fun part short mem => narrower part short (List.mem_cons_of_mem _ mem)
    obtain ⟨part,short⟩ := cell
    simp only [pathWidth,List.map_cons,List.sum_cons] at enough ih ⊢
    cases short with
    | none =>
      have below := @ih saved rest (by simpa [columnGain] using enough)
      simp only [budgeted,List.map_cons,List.sum_cons]
      omega
    | some short =>
      have small := narrower part short List.mem_cons_self
      have gain : columnGain charWidth (part,some short) = textWidth charWidth part - textWidth charWidth short := rfl
      rw [budgeted]
      by_cases room : saved < n
      · have below := @ih (saved + columnGain charWidth (part,some short)) rest (by omega)
        rw [if_pos ⟨rfl,room⟩,List.map_cons,List.sum_cons]
        omega
      · have below := @ih saved rest (by omega)
        rw [if_neg fun both => room both.2,List.map_cons,List.sum_cons]
        omega

theorem columnsShort {n saved : Nat} {cells : List Cell}
    (few : saved + (cells.map (columnGain charWidth)).sum < n) :
    budgeted n (fun _ => true) (columnGain charWidth) saved cells = cells.map fun cell => cell.2.getD cell.1 := by
  induction cells generalizing saved with
  | nil => rfl
  | cons cell cells ih =>
    obtain ⟨part,short⟩ := cell
    rw [List.map_cons,List.sum_cons] at few
    cases short with
    | none =>
      rw [budgeted,ih (by omega)]
      rfl
    | some short =>
      rw [budgeted,if_pos ⟨rfl,by omega⟩,ih (by omega)]
      rfl

end columns

/-! The fold. -/

section fold
variable {τ : Type} (o : Outside τ)

def uniqueCells (opts : Opts) (firstAnchor i : Nat) (above : Str) : List Str → List Cell
  | [] => []
  | part :: rest =>
      let path := pushPath above part
      (part,if firstAnchor ≤ i ∨ hasMarkerIn o path opts then none else some (shortenComponent o path part)) ::
        uniqueCells opts firstAnchor (i + 1) path rest

def cellsOf (parts : List Str) (shortenlen : Nat) (base : Str) (opts : Opts) : List Cell :=
  uniqueCells o opts (parts.length - min shortenlen parts.length) 0 base parts

/-- The characters that a component is taken to save. -/
def charGain (delim : Str) : Cell → Nat
  | (_,none) => 0
  | (part,some short) => part.length - (short.length + delim.length)

variable {o} {opts : Opts} {firstAnchor : Nat}

theorem uniqueFirst (i : Nat) (above : Str) (parts : List Str) :
    (uniqueCells o opts firstAnchor i above parts).map Prod.fst = parts := by
  induction parts generalizing i above with
  | nil => rfl
  | cons part parts ih => exact congrArg (part :: ·) (ih _ _)

theorem loopPlain (none' : opts.budget = none) (i saved : Nat) (above : Str) (parts : List Str) :
    texts (foldUniqueLoop o opts firstAnchor i above saved parts) = parts := by
  induction parts generalizing i above with
  | nil => rfl
  | cons part parts ih =>
    rw [foldUniqueLoop]
    dsimp only
    split
    · exact congrArg (part :: ·) (ih _ _)
    · rw [none']
      exact congrArg (part :: ·) (ih _ _)

theorem loopBudgeted {n : Nat} (some' : opts.budget = some n) (i saved : Nat) (above : Str) (parts : List Str) :
    texts (foldUniqueLoop o opts firstAnchor i above saved parts) =
      budgeted n (fun cell => decide (0 < charGain opts.delimiter cell)) (charGain opts.delimiter) saved
        (uniqueCells o opts firstAnchor i above parts) := by
  induction parts generalizing i saved above with
  | nil => rfl
  | cons part parts ih =>
    rw [foldUniqueLoop,uniqueCells]
    dsimp only
    split
    · exact congrArg (part :: ·) (ih _ _ _)
    · rw [some']
      dsimp only
      rw [budgeted]
      by_cases saves : 0 < part.length -
          ((shortenComponent o (pushPath above part) part).length + opts.delimiter.length) ∧ saved < n
      · rw [if_pos saves,if_pos ⟨decide_eq_true saves.1,saves.2⟩]
        exact congrArg (shortenComponent o (pushPath above part) part :: ·) (ih _ _ _)
      · rw [if_neg saves,if_neg fun both => saves ⟨of_decide_eq_true both.1,both.2⟩]
        exact congrArg (part :: ·) (ih _ _ _)

theorem loopAnchors (i saved : Nat) (above : Str) {parts : List Str} {j : Nat} {part : Str}
    (anchor : (uniqueCells o opts firstAnchor i above parts)[j]? = some (part,none)) :
    (foldUniqueLoop o opts firstAnchor i above saved parts)[j]? = some ⟨part,.anchor⟩ := by
  induction parts generalizing i saved above j with
  | nil => simp [uniqueCells] at anchor
  | cons first parts ih =>
    rw [uniqueCells] at anchor
    rw [foldUniqueLoop]
    dsimp only
    cases j with
    | zero =>
      simp only [List.getElem?_cons_zero,Option.some.injEq,Prod.mk.injEq] at anchor
      split at anchor
      · rename_i kept
        rw [if_pos kept,anchor.1]
        rfl
      · cases anchor.2
    | succ j =>
      rw [List.getElem?_cons_succ] at anchor
      split
      · exact ih _ _ _ anchor
      · split
        · exact ih _ _ _ anchor
        · split
          · exact ih _ _ _ anchor
          · exact ih _ _ _ anchor

theorem shortenTake (path name : Str) : ∃ k, shortenComponent o path name = name.take k := by
  unfold shortenComponent
  split
  · exact ⟨name.length,(List.take_length).symm⟩
  · unfold uniquePrefix
    split
    · exact ⟨_,rfl⟩
    · exact ⟨name.length,(List.take_length).symm⟩

theorem uniqueNarrower (charWidth : Char → Nat) (i : Nat) (above : Str) (parts : List Str) :
    Narrower charWidth (uniqueCells o opts firstAnchor i above parts) := by
  induction parts generalizing i above with
  | nil => exact fun _ _ mem => absurd mem List.not_mem_nil
  | cons first parts ih =>
    intro part short mem
    rw [uniqueCells] at mem
    rcases List.mem_cons.mp mem with here | there
    · simp only [Prod.mk.injEq] at here
      obtain ⟨rfl,found⟩ := here
      split at found
      · cases found
      · obtain rfl := Option.some.inj found
        obtain ⟨k,taken⟩ := shortenTake (o := o) (pushPath above part) part
        have whole := congrArg (textWidth charWidth) (List.take_append_drop k part)
        rw [textWidthAppend] at whole
        rw [taken]
        omega
    · exact ih _ _ part short there

variable (o)

/-- Anchors stay, without a budget everything does, and with a budget of `n` the components are shortened from the
front until the columns saved are `n`: then the path is narrower by `n`, or else everything is shortened. -/
structure RespectsBudget (parts : List Str) (shortenlen : Nat) (base : Str) (opts : Opts) : Prop where
  anchors : ∀ (i : Nat) (part : Str), (cellsOf o parts shortenlen base opts)[i]? = some (part,none) →
    (foldUnique o parts shortenlen base opts)[i]? = some ⟨part,.anchor⟩
  unbudgeted : opts.budget = none → texts (foldUnique o parts shortenlen base opts) = parts
  stops : ∀ n, opts.budget = some n → texts (foldUnique o parts shortenlen base opts) =
    columnBudgeted o.charWidth n (cellsOf o parts shortenlen base opts)
  saves : ∀ n, opts.budget = some n → n ≤ ((cellsOf o parts shortenlen base opts).map (columnGain o.charWidth)).sum →
    pathWidth o.charWidth (texts (foldUnique o parts shortenlen base opts)) + n ≤ pathWidth o.charWidth parts
  otherwise : ∀ n, opts.budget = some n →
    ((cellsOf o parts shortenlen base opts).map (columnGain o.charWidth)).sum < n →
    texts (foldUnique o parts shortenlen base opts) =
      (cellsOf o parts shortenlen base opts).map fun cell => cell.2.getD cell.1

/-- At each component with a shorter prefix the code goes on shortening, by what it counts, where it should, by the
columns that those before it save. -/
def CountsAlike (charWidth : Char → Nat) (delim : Str) (n : Nat) (cells : List Cell) : Prop :=
  ∀ front part short behind, cells = front ++ (part,some short) :: behind → short ≠ part →
    ((0 < charGain delim (part,some short) ∧ (front.map (charGain delim)).sum < n) ↔
      (front.map (columnGain charWidth)).sum < n)

end fold

/-- The directory `/ab/c`, where `a` is the shortest unique prefix. -/
def twoNames : Outside Unit :=
  { silent with listDir := fun p => if p = "/".toList then some ["ab".toList,"z".toList] else none }

end P11k.Render
