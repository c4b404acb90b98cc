import P11k.Lib.Machine

/-! How zsh and bash read a prompt string: which characters of it are seen. The escapes that are
not spelled out here show whatever the shell makes of them. -/
namespace P11k.PromptStrings
open P11k.Machine

/-! An escape character shows itself only when another one stands before it. -/

section budget
variable {σ : Type} {step : σ → Char → σ × List Char} {lead : Char} {owed : σ → Nat}

/-- Two escape characters are read for each that is seen. -/
theorem runBudget
    (pays : ∀ s c, 2 * (step s c).2.count lead + owed (step s c).1 ≤ (if c = lead then 1 else 0) + owed s)
    (s : σ) (t : List Char) :
    2 * (run step s t).2.count lead + owed (run step s t).1 ≤ t.count lead + owed s := by
  induction t generalizing s with
  | nil => simp [run]
  | cons c t ih =>
    have first := pays s c
    have rest := ih (step s c).1
    have whole : (c :: t).count lead = t.count lead + if c = lead then 1 else 0 := by
      rw [List.count_cons]
      simp only [beq_iff_eq]
    rw [run,List.count_append,whole]
    dsimp only
    omega

end budget

/-! zsh. -/

namespace Zsh

/-- What an escape with its argument shows, and whether a condition holds, if it is one. -/
structure Shell where
  other : List Char → Char → List Char
  holds : List Char → Char → Option Bool

inductive Mode where
  | text
  | escape (arg : List Char)
  | colour
  | brace
  | test (arg : List Char)
  | separator (holds : Option Bool)
  deriving DecidableEq

/-- A text of a conditional that is being read, up to `stop`; `next` says whether the other text,
still to come, is shown. -/
structure Branch where
  stop : Char
  shown : Bool
  next : Option Bool
  deriving DecidableEq

structure State where
  mode : Mode := .text
  branches : List Branch := []
  deriving DecidableEq

def printing (branches : List Branch) : Bool := branches.all Branch.shown

def literal (s : State) (c : Char) : State × List Char :=
  if c = '%' then ({ s with mode := .escape [] },[])
  else ({ s with mode := .text },if printing s.branches then [c] else [])

def readText (s : State) (c : Char) : State × List Char :=
  match s.branches with
  | [] => literal s c
  | b :: outer =>
      if c = b.stop then
        match b.next with
        | some shown => (⟨.text,⟨')',shown,none⟩ :: outer⟩,[])
        | none => (⟨.text,outer⟩,[])
      else literal s c

def readEscape (sh : Shell) (s : State) (arg : List Char) (c : Char) : State × List Char :=
  if c.isDigit || c == '-' then ({ s with mode := .escape (arg ++ [c]) },[])
  else if c = '(' then ({ s with mode := .test [] },[])
  else if printing s.branches = false then ({ s with mode := .text },[])
  else if c = 'F' then ({ s with mode := .colour },[])
  else if c = 'f' then ({ s with mode := .text },[])
  else if c = '%' ∨ c = ')' then ({ s with mode := .text },[c])
  else ({ s with mode := .text },sh.other arg c)

/-- `%(?` asks for the exit status 0. -/
def condition (sh : Shell) (status : Int) (arg : List Char) (c : Char) : Option Bool :=
  if c = '?' ∧ arg = [] then some (status == 0) else sh.holds arg c

def step (sh : Shell) (status : Int) (s : State) (c : Char) : State × List Char :=
  match s.mode with
  | .text => readText s c
  | .escape arg => readEscape sh s arg c
  | .colour => if c = '{' then ({ s with mode := .brace },[]) else readText { s with mode := .text } c
  | .brace => ({ s with mode := if c = '}' then .text else .brace },[])
  | .test arg =>
      if c.isDigit then ({ s with mode := .test (arg ++ [c]) },[])
      else ({ s with mode := .separator (condition sh status arg c) },[])
  | .separator holds => (⟨.text,⟨c,holds == some true,some (holds == some false)⟩ :: s.branches⟩,[])

def visible (sh : Shell) (status : Int) (prompt : List Char) : List Char :=
  (run (step sh status) {} prompt).2

def State.owed (s : State) : Nat :=
  match s.mode with
  | .escape _ => 1
  | _ => 0

/-- A shell in which no other escape shows anything. -/
def bare : Shell := ⟨fun _ _ => [],fun _ _ => none⟩

/-- The string does not end the text that is being read. -/
def Beside (s : State) (t : List Char) : Prop := s.mode = .text ∧ ∀ b ∈ s.branches.head?, b.stop ∉ t

section reading
variable {sh : Shell} {status : Int} {s : State}

theorem besideOf {t u : List Char} (beside : Beside s t) (sub : ∀ c ∈ u, c ∈ t) : Beside s u :=
  ⟨beside.1,fun b head mem => beside.2 b head (sub b.stop mem)⟩

theorem stepLiteral {c : Char} {t : List Char} (beside : Beside s t) (mem : c ∈ t) :
    step sh status s c = literal s c := by
  obtain ⟨mode,branches⟩ := s
  obtain ⟨textMode,stops⟩ := beside
  cases textMode
  cases branches with
  | nil => rfl
  | cons b outer =>
    have apart : c ≠ b.stop := fun same => stops b rfl (same ▸ mem)
    simp only [step,readText,if_neg apart]

theorem stepShown {c : Char} {t : List Char} (beside : Beside s t) (mem : c ∈ t) (plain : c ≠ '%') :
    step sh status s c = (s,if printing s.branches then [c] else []) := by
  rw [stepLiteral beside mem,literal,if_neg plain]
  obtain ⟨mode,branches⟩ := s
  obtain ⟨textMode,_⟩ := beside
  cases textMode
  rfl

theorem textShown {t : List Char} (beside : Beside s t) (plain : '%' ∉ t) :
    run (step sh status) s t = (s,if printing s.branches then t else []) := by
  induction t with
  | nil => simp [run]
  | cons c t ih =>
    rw [List.mem_cons,not_or] at plain
    rw [run,stepShown beside List.mem_cons_self (Ne.symm plain.1),
      ih (besideOf beside fun d mem => List.mem_cons_of_mem c mem) plain.2]
    cases printing s.branches <;> rfl

theorem stepEscape {t : List Char} (beside : Beside s t) (mem : '%' ∈ t) :
    step sh status s '%' = ({ s with mode := .escape [] },[]) := by
  rw [stepLiteral beside mem,literal,if_pos rfl]

theorem backToText (beside : s.mode = .text) : { s with mode := Mode.text } = s := by
  cases s
  cases beside
  rfl

theorem resetQuiet (beside : Beside s "%f".toList) : run (step sh status) s "%f".toList = (s,[]) := by
  change run (step sh status) s ['%','f'] = _
  rw [run,stepEscape beside (by decide),run,run]
  have back := backToText beside.1
  cases shown : printing s.branches with
  | false => simp [step,readEscape,shown,back]
  | true => simp [step,readEscape,shown,back]

theorem braceQuiet {x : List Char} (plain : '}' ∉ x) :
    run (step sh status) { s with mode := .brace } x = ({ s with mode := .brace },[]) := by
  induction x with
  | nil => rfl
  | cons c x ih =>
    rw [List.mem_cons,not_or] at plain
    rw [run,step,if_neg (Ne.symm plain.1),ih plain.2]
    rfl

theorem colourQuiet {x : List Char} (beside : Beside s ("%F\x7b".toList ++ x ++ "\x7d".toList)) (plain : '%' ∉ x)
    (closed : '}' ∉ x) : run (step sh status) s ("%F\x7b".toList ++ x ++ "\x7d".toList) = (s,[]) := by
  have back := backToText beside.1
  change run (step sh status) s ('%' :: 'F' :: ('{' :: (x ++ ['}']))) = _
  rw [run,stepEscape beside (by simp),run]
  cases shown : printing s.branches with
  | false =>
    have quiet : '%' ∉ '{' :: (x ++ ['}']) := by simpa using plain
    have rest : run (step sh status) s ('{' :: (x ++ ['}'])) = _ := textShown (besideOf beside
      (fun c mem => by simpa using .inr (.inr (by simpa using mem)) : ∀ c ∈ '{' :: (x ++ ['}']),
        c ∈ "%F\x7b".toList ++ x ++ "\x7d".toList)) quiet
    rw [shown] at rest
    simp [step,readEscape,shown,back,rest]
  | true =>
    have rest : run (step sh status) { s with mode := .brace } (x ++ ['}']) = (s,[]) := by
      rw [runAppend,braceQuiet closed]
      simp [run,step,back]
    simp [step,readEscape,shown,run,rest]

end reading

theorem barePays (status : Int) (s : State) (c : Char) :
    2 * (step bare status s c).2.count '%' + (step bare status s c).1.owed ≤
      (if c = '%' then 1 else 0) + s.owed := by
  obtain ⟨mode,branches⟩ := s
  have literally : 2 * (literal ⟨.text,branches⟩ c).2.count '%' + (literal ⟨.text,branches⟩ c).1.owed ≤
      if c = '%' then 1 else 0 := by
    unfold literal
    split
    · simp [State.owed]
    · rename_i other
      cases printing branches <;> simp [State.owed,other]
  have reading : 2 * (readText ⟨.text,branches⟩ c).2.count '%' + (readText ⟨.text,branches⟩ c).1.owed ≤
      if c = '%' then 1 else 0 := by
    unfold readText
    split
    · exact literally
    · split
      · split <;> simp [State.owed]
      · exact literally
  cases mode with
  | text => exact le_trans reading (Nat.le_add_right _ _)
  | escape arg =>
    simp only [step,readEscape]
    split
    · simp [State.owed]
    split
    · simp [State.owed]
    split
    · simp [State.owed]
    split
    · simp [State.owed]
    split
    · simp [State.owed]
    split
    · rename_i twin
      rcases twin with rfl | rfl <;> simp [State.owed]
    · simp [bare,State.owed]
  | colour =>
    simp only [step]
    split
    · simp [State.owed]
    · exact le_trans reading (Nat.le_add_right _ _)
  | brace =>
    simp only [step]
    split <;> simp [State.owed]
  | test arg => simp only [step]; split <;> simp [State.owed]
  | separator holds => simp [step,State.owed]

theorem bareBudget (status : Int) (s : State) (t : List Char) :
    2 * (run (step bare status) s t).2.count '%' + (run (step bare status) s t).1.owed ≤ t.count '%' + s.owed :=
  runBudget (barePays status) s t

theorem owedMost (s : State) : s.owed ≤ 1 := by
  unfold State.owed
  split <;> decide

theorem argument {c : Char} (other : c.isDigit = false ∧ c ≠ '-') : (c.isDigit || c == '-') = false := by
  simp [other.1,other.2]

/-- Only a percent sign and the argument behind it leave an escape open. -/
theorem settles (status : Int) (s : State) {c : Char} (plain : c ≠ '%') (other : c.isDigit = false ∧ c ≠ '-') :
    (step bare status s c).1.owed = 0 := by
  have paid := barePays status s c
  rw [if_neg plain] at paid
  cases owing : s.owed with
  | zero => omega
  | succ n =>
    obtain ⟨mode,branches⟩ := s
    cases mode with
    | escape arg =>
      simp only [step,readEscape,argument other,Bool.false_eq_true,if_false]
      split
      · rfl
      split
      · rfl
      split
      · rfl
      split
      · rfl
      split <;> rfl
    | text => simp [State.owed] at owing
    | colour => simp [State.owed] at owing
    | brace => simp [State.owed] at owing
    | test arg => simp [State.owed] at owing
    | separator holds => simp [State.owed] at owing

theorem settledAfter (status : Int) (s : State) (t : List Char) {c : Char} (plain : c ≠ '%')
    (other : c.isDigit = false ∧ c ≠ '-') : (run (step bare status) s (t ++ [c])).1.owed = 0 := by
  rw [runAppend]
  exact settles status _ plain other

theorem openArgument (status : Int) {t : List Char} (plain : '%' ∉ t) (arg : List Char) (branches : List Branch)
    (owing : (run (step bare status) ⟨.escape arg,branches⟩ t).1.owed = 1) :
    (∀ c ∈ t, (c.isDigit || c == '-') = true) ∧
      run (step bare status) ⟨.escape arg,branches⟩ t = (⟨.escape (arg ++ t),branches⟩,[]) := by
  induction t generalizing arg with
  | nil => exact ⟨by simp,by simp [run]⟩
  | cons c t ih =>
    rw [List.mem_cons,not_or] at plain
    cases digit : c.isDigit || c == '-' with
    | true =>
      have one : step bare status ⟨.escape arg,branches⟩ c = (⟨.escape (arg ++ [c]),branches⟩,[]) := by
        simp only [step,readEscape,digit,if_true]
      rw [run,one] at owing
      obtain ⟨digits,rest⟩ := ih plain.2 (arg ++ [c]) owing
      exact ⟨List.forall_mem_cons.mpr ⟨digit,digits⟩,by rw [run,one,rest]; simp⟩
    | false =>
      -- any other character ends the escape, and nothing behind it opens one
      have settled := settles status ⟨.escape arg,branches⟩ (Ne.symm plain.1) (by simpa using digit)
      have rest := bareBudget status (step bare status ⟨.escape arg,branches⟩ c).1 t
      rw [run] at owing
      rw [List.count_eq_zero_of_not_mem plain.2,settled] at rest
      dsimp only at owing
      omega

theorem escapedReset (sh : Shell) (status : Int) (arg : List Char) :
    run (step sh status) ⟨.escape arg,[]⟩ "%f".toList = ({},"%f".toList) := by
  change run (step sh status) ⟨.escape arg,[]⟩ ['%','f'] = _
  simp [run,step,readEscape,readText,literal,printing]

end Zsh

/-! bash. -/

namespace Bash

abbrev Shell := Char → List Char

structure State where
  escaped : Bool := false
  hidden : Bool := false
  deriving DecidableEq

def step (sh : Shell) (s : State) (c : Char) : State × List Char :=
  if s.escaped then
    if c = '[' then (⟨false,true⟩,[])
    else if c = ']' then (⟨false,false⟩,[])
    else (⟨false,s.hidden⟩,if s.hidden then [] else if c = '\\' then [c] else sh c)
  else if c = '\\' then (⟨true,s.hidden⟩,[])
  else (s,if s.hidden then [] else [c])

/-- What is seen lies outside the markers of what takes no columns. -/
def visible (sh : Shell) (prompt : List Char) : List Char := (run (step sh) {} prompt).2

section reading
variable {sh : Shell}

theorem stepShown (hidden : Bool) {c : Char} (plain : c ≠ '\\') :
    step sh ⟨false,hidden⟩ c = (⟨false,hidden⟩,if hidden then [] else [c]) := by
  rw [step,if_neg Bool.false_ne_true,if_neg plain]

theorem textShown (hidden : Bool) {t : List Char} (plain : '\\' ∉ t) :
    run (step sh) ⟨false,hidden⟩ t = (⟨false,hidden⟩,if hidden then [] else t) := by
  induction t with
  | nil => simp [run]
  | cons c t ih =>
    rw [List.mem_cons,not_or] at plain
    rw [run,stepShown hidden (Ne.symm plain.1),ih plain.2]
    cases hidden <;> rfl

theorem markedQuiet {x : List Char} (plain : '\\' ∉ x) :
    run (step sh) {} ("\\[".toList ++ x ++ "\\]".toList) = ({},[]) := by
  change run (step sh) {} ('\\' :: '[' :: (x ++ ['\\',']'])) = _
  have rest : run (step sh) ⟨false,true⟩ (x ++ ['\\',']']) = ({},[]) := by
    rw [runAppend,textShown true plain]
    simp [run,step]
  simp [run,step,rest]

end reading

def State.owed (s : State) : Nat := if s.escaped then 1 else 0

theorem pays {sh : Shell} (bare : ∀ c, '\\' ∉ sh c) (s : State) (c : Char) :
    2 * (step sh s c).2.count '\\' + (step sh s c).1.owed ≤ (if c = '\\' then 1 else 0) + s.owed := by
  obtain ⟨escaped,hidden⟩ := s
  cases escaped with
  | false =>
    by_cases lead : c = '\\'
    · simp [step,lead,State.owed]
    · cases hidden <;> simp [step,lead,State.owed]
  | true =>
    rw [step,if_pos rfl]
    split
    · simp [State.owed]
    split
    · simp [State.owed]
    cases hidden with
    | true => simp [State.owed]
    | false =>
      rw [if_neg Bool.false_ne_true]
      split
      · rename_i twin
        simp [twin,State.owed]
      · simp [List.count_eq_zero_of_not_mem (bare c),State.owed]

end Bash
end P11k.PromptStrings
