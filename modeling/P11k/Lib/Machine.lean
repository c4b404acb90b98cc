import Mathlib.Algebra.Order.Ring.Int
import Mathlib.Data.List.Basic

/-! A deterministic machine that consumes events and emits outputs, a monitor that reads the
outputs, and the induction rules for whole runs: what holds when each step meets a condition,
and when that condition is the exact one. -/
namespace P11k.Machine

variable {σ ε ω ν : Type}

def run (step : σ → ε → σ × List ω) : σ → List ε → σ × List ω
  | s, [] => (s,[])
  | s, e :: es =>
      let next := step s e
      let rest := run step next.1 es
      (rest.1,next.2 ++ rest.2)

theorem runAppend (step : σ → ε → σ × List ω) (s : σ) (es fs : List ε) :
    run step s (es ++ fs) =
      ((run step (run step s es).1 fs).1,(run step s es).2 ++ (run step (run step s es).1 fs).2) := by
  induction es generalizing s with
  | nil => rfl
  | cons e es ih => simp only [List.cons_append,run,ih,List.append_assoc]

theorem runThen {step : σ → ε → σ × List ω} {s t u : σ} {es fs : List ε} {os ps : List ω}
    (first : run step s es = (t,os)) (rest : run step t fs = (u,ps)) :
    run step s (es ++ fs) = (u,os ++ ps) := by
  rw [runAppend,first,rest]

/-- Every step of the run is taken in a state and on an event that meet `cond`. -/
def Guarded (step : σ → ε → σ × List ω) (cond : σ → ε → Prop) : σ → List ε → Prop
  | _, [] => True
  | s, e :: es => cond s e ∧ Guarded step cond (step s e).1 es

theorem guardedAppend (step : σ → ε → σ × List ω) (cond : σ → ε → Prop) (s : σ) (es fs : List ε) :
    Guarded step cond s (es ++ fs) ↔ Guarded step cond s es ∧ Guarded step cond (run step s es).1 fs := by
  induction es generalizing s with
  | nil => simp [Guarded,run]
  | cons e es ih => simp only [List.cons_append,Guarded,ih,run,and_assoc]

theorem guardedCongr {step : σ → ε → σ × List ω} {P Q : σ → ε → Prop} (same : ∀ s e, P s e ↔ Q s e)
    (s : σ) (es : List ε) : Guarded step P s es ↔ Guarded step Q s es := by
  induction es generalizing s with
  | nil => exact Iff.rfl
  | cons e es ih => exact and_congr (same s e) (ih _)

theorem guardedAnd {step : σ → ε → σ × List ω} {cond : σ → ε → Prop} {P : ε → Prop} {s : σ} {es : List ε}
    (all : ∀ e ∈ es, P e) (guarded : Guarded step cond s es) : Guarded step (fun s e => P e ∧ cond s e) s es := by
  induction es generalizing s with
  | nil => trivial
  | cons e es ih =>
    exact ⟨⟨all e List.mem_cons_self,guarded.1⟩,ih (fun f mem => all f (List.mem_cons_of_mem e mem)) guarded.2⟩

theorem runKeeps {step : σ → ε → σ × List ω} {cond : σ → ε → Prop} {I : σ → Prop}
    (keeps : ∀ s e, I s → cond s e → I (step s e).1) {s : σ} {es : List ε} (start : I s)
    (guarded : Guarded step cond s es) : I (run step s es).1 := by
  induction es generalizing s with
  | nil => exact start
  | cons e es ih => exact ih (keeps s e start guarded.1) guarded.2

theorem runInvariant {step : σ → ε → σ × List ω} {I : σ → Prop} (keeps : ∀ s e, I s → I (step s e).1) {s : σ}
    (start : I s) (es : List ε) : I (run step s es).1 := by
  induction es generalizing s with
  | nil => exact start
  | cons e es ih => exact ih (keeps s e start)

/-- Two machines that stay related step by step end related. -/
theorem runRelated {τ : Type} {step : σ → ε → σ × List ω} {step' : τ → ε → τ × List ω} {cond : σ → ε → Prop}
    {R : σ → τ → Prop} (each : ∀ s t e, R s t → cond s e → R (step s e).1 (step' t e).1) {s : σ} {t : τ} {es : List ε}
    (start : R s t) (guarded : Guarded step cond s es) : R (run step s es).1 (run step' t es).1 := by
  induction es generalizing s t with
  | nil => exact start
  | cons e es ih => exact ih (each s t e start guarded.1) guarded.2

/-- An invariant under which each condition gives another, over a whole run. -/
theorem guardedStep {step : σ → ε → σ × List ω} {P Q : σ → ε → Prop} {I : σ → Prop}
    (each : ∀ s e, I s → P s e → I (step s e).1 ∧ Q s e) {s : σ} {es : List ε} (start : I s)
    (guarded : Guarded step P s es) : Guarded step Q s es := by
  induction es generalizing s with
  | nil => trivial
  | cons e es ih =>
    obtain ⟨next,good⟩ := each s e start guarded.1
    exact ⟨good,ih next guarded.2⟩

theorem runEmits {step : σ → ε → σ × List ω} {cond : σ → ε → Prop} {I : σ → Prop} {good : ω → Prop}
    (keeps : ∀ s e, I s → cond s e → I (step s e).1) (emits : ∀ s e, I s → ∀ o ∈ (step s e).2, good o)
    {s : σ} {es : List ε} (start : I s) (guarded : Guarded step cond s es) :
    ∀ o ∈ (run step s es).2, good o := by
  induction es generalizing s with
  | nil => simp [run]
  | cons e es ih =>
    intro o mem
    rcases List.mem_append.mp mem with now | later
    · exact emits s e start o now
    · exact ih (keeps s e start guarded.1) guarded.2 o later

/-- A monitor that moves by `watch` finds each output in order. -/
def Watched (watch : ν → ω → ν) (ok : ν → ω → Prop) : ν → List ω → Prop
  | _, [] => True
  | v, o :: os => ok v o ∧ Watched watch ok (watch v o) os

theorem watchedAppend (watch : ν → ω → ν) (ok : ν → ω → Prop) (v : ν) (os ps : List ω) :
    Watched watch ok v (os ++ ps) ↔ Watched watch ok v os ∧ Watched watch ok (os.foldl watch v) ps := by
  induction os generalizing v with
  | nil => simp [Watched]
  | cons o os ih => simp only [List.cons_append,Watched,ih,List.foldl_cons,and_assoc]

theorem watchedAlways {watch : ν → ω → ν} {ok : ν → ω → Prop} {os : List ω}
    (always : ∀ o ∈ os, ∀ v, ok v o) (v : ν) : Watched watch ok v os := by
  induction os generalizing v with
  | nil => trivial
  | cons o os ih =>
    exact ⟨always o List.mem_cons_self v,ih (fun p mem => always p (List.mem_cons_of_mem o mem)) _⟩

theorem watchedStill {watch : ν → ω → ν} {ok : ν → ω → Prop} {v : ν} {os : List ω}
    (still : ∀ o ∈ os, watch v o = v) :
    (Watched watch ok v os ↔ ∀ o ∈ os, ok v o) ∧ os.foldl watch v = v := by
  induction os with
  | nil => exact ⟨by simp [Watched],rfl⟩
  | cons o os ih =>
    have rest := ih (fun p mem => still p (List.mem_cons_of_mem o mem))
    simp only [Watched,List.foldl_cons,still o List.mem_cons_self,rest,List.forall_mem_cons,and_self]

theorem watchedForall (good : ω → Prop) (v : ν) (os : List ω) :
    Watched (fun v _ => v) (fun _ o => good o) v os ↔ ∀ o ∈ os, good o := (watchedStill fun _ _ => rfl).1

theorem runFlat {step : σ → ε → σ × List ω} {P : σ → ε → Prop} {I : σ → Prop}
    {answer : ε → List ω} {es : List ε}
    (keeps : ∀ s, ∀ e ∈ es, I s → P s e → I (step s e).1 ∧ (step s e).2 = answer e)
    {s : σ} (start : I s) (guarded : Guarded step P s es) : (run step s es).2 = es.flatMap answer := by
  induction es generalizing s with
  | nil => rfl
  | cons e es ih =>
    obtain ⟨next,out⟩ := keeps s e List.mem_cons_self start guarded.1
    have rest := ih (fun s e mem => keeps s e (List.mem_cons_of_mem _ mem)) next guarded.2
    simp only [run,out,rest,List.flatMap_cons]

theorem runOutputs {step : σ → ε → σ × List ω} {P : σ → ε → Prop} {I : σ → Prop}
    {answer : ε → ω} {es : List ε}
    (keeps : ∀ s, ∀ e ∈ es, I s → P s e → I (step s e).1 ∧ (step s e).2 = [answer e])
    {s : σ} (start : I s) (guarded : Guarded step P s es) : (run step s es).2 = es.map answer := by
  rw [runFlat keeps start guarded,List.map_eq_flatMap]

/-- When a step in a state of the invariant is accepted exactly under `cond`, a run is accepted
exactly when all of its steps meet `cond`. -/
theorem runWatchedIff {step : σ → ε → σ × List ω} {watch : ν → ω → ν} {ok : ν → ω → Prop}
    {dom cond : σ → ε → Prop} {I : σ → ν → Prop}
    (exact' : ∀ s v e, I s v → dom s e → (Watched watch ok v (step s e).2 ↔ cond s e))
    (keeps : ∀ s v e, I s v → dom s e → I (step s e).1 ((step s e).2.foldl watch v))
    {s : σ} {v : ν} {es : List ε} (start : I s v) (inside : Guarded step dom s es) :
    Watched watch ok v (run step s es).2 ↔ Guarded step cond s es := by
  induction es generalizing s v with
  | nil => exact Iff.rfl
  | cons e es ih =>
    rw [run,Guarded,watchedAppend,exact' s v e start inside.1]
    exact and_congr_right fun _ => ih (keeps s v e start inside.1) inside.2

end P11k.Machine
