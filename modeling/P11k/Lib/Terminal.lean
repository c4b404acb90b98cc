import Mathlib.Data.List.Basic
import P11k.Lib.Text

/-! What a terminal makes of the characters that are sent to it: which of them are control characters,
where its reader of sequences stands, and whether what it shows next is painted. -/
namespace P11k.Terminal
open P11k.Text (decimal decimalDigits digitRange letterRange)

/-- C0, delete and C1. -/
def control (c : Char) : Bool := c.toNat < 0x20 || (0x7f ≤ c.toNat && c.toNat ≤ 0x9f)

def Plain (s : List Char) : Prop := ∀ c ∈ s, control c = false

instance (s : List Char) : Decidable (Plain s) := List.decidableBAll (fun c => control c = false) s

inductive Mode where
  | ground
  | escape
  | csi (params : List Char)
  | osc
  deriving DecidableEq, Repr

structure Pen where
  mode : Mode := .ground
  painted : Bool := false
  deriving DecidableEq, Repr

def paramChar (c : Char) : Bool := c.isDigit || c == ';'

/-- Only a sequence that is a reset as a whole takes the paint off. -/
def step (p : Pen) (c : Char) : Pen :=
  match p.mode with
  | .ground => if c = '\x1b' then { p with mode := .escape } else p
  | .escape =>
      if c = '[' then { p with mode := .csi [] }
      else if c = ']' then { p with mode := .osc }
      else { p with mode := .ground }
  | .csi params =>
      if paramChar c then { p with mode := .csi (params ++ [c]) }
      else if c = 'm' then { mode := .ground, painted := !(params == [] || params == ['0']) }
      else { p with mode := .ground }
  | .osc =>
      if c = '\x07' then { p with mode := .ground }
      else if c = '\x1b' then { p with mode := .escape }
      else p

def run (p : Pen) (s : List Char) : Pen := s.foldl step p

theorem runAppend (p : Pen) (s t : List Char) : run p (s ++ t) = run (run p s) t := List.foldl_append

/-! Sequences that paint. -/

def sgr (params : List Char) : List Char := '\x1b' :: '[' :: (params ++ ['m'])

/-- Nothing but such sequences. -/
inductive Paints : List Char → Prop where
  | nil : Paints []
  | cons {params s : List Char} (params' : ∀ c ∈ params, paramChar c = true) (rest : Paints s) :
      Paints (sgr params ++ s)

theorem paintsAppend {s t : List Char} (first : Paints s) (rest : Paints t) : Paints (s ++ t) := by
  induction first with
  | nil => exact rest
  | cons params' _ ih =>
    rw [List.append_assoc]
    exact .cons params' ih

theorem paintsOne {params : List Char} (params' : ∀ c ∈ params, paramChar c = true) : Paints (sgr params) := by
  have one := Paints.cons params' .nil
  rwa [List.append_nil] at one

theorem decimalParam {n : Nat} {c : Char} (mem : c ∈ decimal n) : paramChar c = true := by
  rw [paramChar,decimalDigits mem,Bool.true_or]

theorem numberParam {d : Char} (digit : d.isDigit = true) : ∀ c ∈ [d], paramChar c = true := by
  intro c mem
  rw [List.mem_singleton.mp mem,paramChar,digit,Bool.true_or]

theorem alphanumPlain {c : Char} (alphanum : c.isAlphanum = true) : control c = false := by
  have either : (c.isAlpha || c.isDigit) = true := alphanum
  have range : 48 ≤ c.toNat ∧ c.toNat ≤ 122 := by
    rcases Bool.or_eq_true_iff.mp either with letter | digit
    · rcases letterRange letter with ⟨low,high⟩ | ⟨low,high⟩
      · exact ⟨le_trans (by decide) low,le_trans high (by decide)⟩
      · exact ⟨le_trans (by decide) low,high⟩
    · exact ⟨(digitRange digit).1,le_trans (digitRange digit).2 (by decide)⟩
  simp [control]
  omega

theorem paramPlain {c : Char} (param : paramChar c = true) : control c = false ∧ c ≠ 'm' := by
  rw [paramChar,Bool.or_eq_true] at param
  rcases param with digit | semicolon
  · obtain ⟨low,high⟩ := digitRange digit
    constructor
    · simp [control]
      omega
    · intro same
      subst same
      contradiction
  · rw [eq_of_beq semicolon]
    decide

/-- Apart from what opens it, no character of a sequence is a control character. -/
theorem paintsControl {s : List Char} (paints : Paints s) {c : Char} (mem : c ∈ s) (steers : control c = true) :
    c = '\x1b' := by
  induction paints with
  | nil => cases mem
  | @cons params s params' rest ih =>
    rcases List.mem_append.mp mem with here | there
    · rw [sgr,List.mem_cons,List.mem_cons,List.mem_append,List.mem_singleton] at here
      rcases here with escape | rfl | param | rfl
      · exact escape
      · contradiction
      · rw [(paramPlain (params' c param)).1] at steers
        contradiction
      · contradiction
    · exact ih there

theorem runParams {params : List Char} (params' : ∀ c ∈ params, paramChar c = true) (front : List Char) (b : Bool) :
    run ⟨.csi front,b⟩ params = ⟨.csi (front ++ params),b⟩ := by
  induction params generalizing front with
  | nil => rw [List.append_nil]; rfl
  | cons c params ih =>
    have one : step ⟨.csi front,b⟩ c = ⟨.csi (front ++ [c]),b⟩ := if_pos (params' c List.mem_cons_self)
    rw [run,List.foldl_cons,one]
    rw [List.append_cons front c params]
    exact ih (fun x mem => params' x (List.mem_cons_of_mem c mem)) (front ++ [c])

theorem runSgr {params : List Char} (params' : ∀ c ∈ params, paramChar c = true) (b : Bool) :
    run ⟨.ground,b⟩ (sgr params) = ⟨.ground,!(params == [] || params == ['0'])⟩ := by
  have opens : run ⟨.ground,b⟩ ('\x1b' :: '[' :: (params ++ ['m'])) = run ⟨.csi [],b⟩ (params ++ ['m']) := rfl
  rw [sgr,opens,runAppend,runParams params',List.nil_append]
  rfl

theorem runPaints {s : List Char} (paints : Paints s) (b : Bool) : (run ⟨.ground,b⟩ s).mode = .ground := by
  induction paints generalizing b with
  | nil => rfl
  | cons params' rest ih =>
    rw [runAppend,runSgr params']
    exact ih _

/-! Texts. -/

theorem runText {s : List Char} (quiet : '\x1b' ∉ s) (b : Bool) : run ⟨.ground,b⟩ s = ⟨.ground,b⟩ := by
  induction s with
  | nil => rfl
  | cons c s ih =>
    rw [List.mem_cons,not_or] at quiet
    have one : step ⟨.ground,b⟩ c = ⟨.ground,b⟩ := if_neg (Ne.symm quiet.1)
    rw [run,List.foldl_cons,one]
    exact ih quiet.2

theorem stepOsc {c : Char} {s : List Char} (quiet : '\x1b' ∉ c :: s ∧ '\x07' ∉ c :: s) (b : Bool) :
    step ⟨.osc,b⟩ c = ⟨.osc,b⟩ ∧ '\x1b' ∉ s ∧ '\x07' ∉ s := by
  rw [List.mem_cons,not_or,List.mem_cons,not_or] at quiet
  obtain ⟨⟨escape,escapes⟩,bell,bells⟩ := quiet
  exact ⟨(if_neg (Ne.symm bell)).trans (if_neg (Ne.symm escape)),escapes,bells⟩

theorem runOsc {s : List Char} (quiet : '\x1b' ∉ s ∧ '\x07' ∉ s) (b : Bool) : run ⟨.osc,b⟩ s = ⟨.osc,b⟩ := by
  induction s with
  | nil => rfl
  | cons c s ih =>
    obtain ⟨one,rest⟩ := stepOsc quiet b
    rw [run,List.foldl_cons,one]
    exact ih rest

/-- A command to the terminal leaves no trace in what it shows. -/
theorem runCommand {s : List Char} (quiet : '\x1b' ∉ s ∧ '\x07' ∉ s) (b : Bool) :
    run ⟨.ground,b⟩ ('\x1b' :: ']' :: (s ++ ['\x07'])) = ⟨.ground,b⟩ := by
  have opens : run ⟨.ground,b⟩ ('\x1b' :: ']' :: (s ++ ['\x07'])) = run ⟨.osc,b⟩ (s ++ ['\x07']) := rfl
  rw [opens,runAppend,runOsc quiet]
  rfl

theorem plainQuiet {s : List Char} (plain : Plain s) : '\x1b' ∉ s ∧ '\x07' ∉ s := by
  constructor
  · intro mem
    have none' := plain _ mem
    contradiction
  · intro mem
    have none' := plain _ mem
    contradiction

/-! What is shown. -/

/-- The characters that reach the screen: those that are neither part of a sequence nor control characters. -/
def printed (p : Pen) : List Char → List Char
  | [] => []
  | c :: s => (if p.mode = .ground ∧ control c = false then [c] else []) ++ printed (step p c) s

theorem printedCons (p : Pen) (c : Char) (s : List Char) : printed p (c :: s) =
    (if p.mode = .ground ∧ control c = false then [c] else []) ++ printed (step p c) s := rfl

theorem printedAppend (p : Pen) (s t : List Char) : printed p (s ++ t) = printed p s ++ printed (run p s) t := by
  induction s generalizing p with
  | nil => rfl
  | cons c s ih => rw [List.cons_append,printedCons,printedCons,ih,List.append_assoc]; rfl

theorem printedText {s : List Char} (plain : Plain s) (b : Bool) : printed ⟨.ground,b⟩ s = s := by
  induction s with
  | nil => rfl
  | cons c s ih =>
    have clear := plain c List.mem_cons_self
    have one : step ⟨.ground,b⟩ c = ⟨.ground,b⟩ := if_neg fun same => by
      rw [same] at clear
      contradiction
    rw [printedCons,if_pos ⟨rfl,clear⟩,one,ih fun d mem => plain d (List.mem_cons_of_mem c mem)]
    rfl

theorem printedParams {params : List Char} (params' : ∀ c ∈ params, paramChar c = true) (front : List Char) (b : Bool) :
    printed ⟨.csi front,b⟩ params = [] := by
  induction params generalizing front with
  | nil => rfl
  | cons c params ih =>
    have one : step ⟨.csi front,b⟩ c = ⟨.csi (front ++ [c]),b⟩ := if_pos (params' c List.mem_cons_self)
    rw [printedCons,one,ih fun x mem => params' x (List.mem_cons_of_mem c mem)]
    rfl

theorem printedPaints {s : List Char} (paints : Paints s) (b : Bool) : printed ⟨.ground,b⟩ s = [] := by
  induction paints generalizing b with
  | nil => rfl
  | @cons params s params' _ ih =>
    have opens : printed ⟨.ground,b⟩ (sgr params) = printed ⟨.csi [],b⟩ (params ++ ['m']) := rfl
    rw [printedAppend,opens,printedAppend,printedParams params',runParams params',runSgr params',ih]
    rfl

theorem printedOsc {s : List Char} (quiet : '\x1b' ∉ s ∧ '\x07' ∉ s) (b : Bool) : printed ⟨.osc,b⟩ s = [] := by
  induction s with
  | nil => rfl
  | cons c s ih =>
    obtain ⟨one,rest⟩ := stepOsc quiet b
    rw [printedCons,one,ih rest]
    rfl

theorem printedCommand {s : List Char} (quiet : '\x1b' ∉ s ∧ '\x07' ∉ s) (b : Bool) :
    printed ⟨.ground,b⟩ ('\x1b' :: ']' :: (s ++ ['\x07'])) = [] := by
  have opens : printed ⟨.ground,b⟩ ('\x1b' :: ']' :: (s ++ ['\x07'])) = printed ⟨.osc,b⟩ (s ++ ['\x07']) := rfl
  rw [opens,printedAppend,printedOsc quiet,runOsc quiet]
  rfl

end P11k.Terminal
