import Mathlib.Data.List.Basic

/-! Dialogues: questions in turn, each read from a stream of keys until one of them means something to it. An answer
leads on, a restart or a quit leaves the dialogue at once, and so does the end of the stream. What was replied to
which question is kept. -/
namespace P11k.Dialogue

inductive Step (α : Type) where
  | answer (a : α)
  | restart
  | quit
  deriving DecidableEq, Repr

def Step.kind {α : Type} : Step α → Step Unit
  | .answer _ => .answer ()
  | .restart => .restart
  | .quit => .quit

structure Reply (κ τ : Type) where
  question : τ
  key : κ
  kind : Step Unit
  deriving DecidableEq, Repr

structure Result (κ τ α : Type) where
  step : Step α
  rest : List κ
  replies : List (Reply κ τ)

def Ask (κ τ α : Type) := List κ → Result κ τ α

section dialogue
variable {κ τ α β : Type}

def say (a : α) : Ask κ τ α := fun ks => ⟨.answer a,ks,[]⟩

def andThen (m : Ask κ τ α) (f : α → Ask κ τ β) : Ask κ τ β := fun ks =>
  let r := m ks
  match r.step with
  | .answer a =>
      let next := f a r.rest
      ⟨next.step,next.rest,r.replies ++ next.replies⟩
  | .restart => ⟨.restart,r.rest,r.replies⟩
  | .quit => ⟨.quit,r.rest,r.replies⟩

instance : Monad (Ask κ τ) where
  pure := say
  bind := andThen

def ask (question : τ) (read : κ → Option (Step α)) : Ask κ τ α
  | [] => ⟨.quit,[],[]⟩
  | k :: ks =>
      match read k with
      | some step => ⟨step,ks,[⟨question,k,step.kind⟩]⟩
      | none => ask question read ks

theorem thenEq (m : Ask κ τ α) (f : α → Ask κ τ β) : m >>= f = andThen m f := rfl

theorem thenAnswer {m : Ask κ τ α} {f : α → Ask κ τ β} {ks : List κ} {a : α} (step : (m ks).step = .answer a) :
    (m >>= f) ks = ⟨(f a (m ks).rest).step,(f a (m ks).rest).rest,(m ks).replies ++ (f a (m ks).rest).replies⟩ := by
  rw [thenEq]
  simp only [andThen,step]

theorem thenRestart {m : Ask κ τ α} {f : α → Ask κ τ β} {ks : List κ} (step : (m ks).step = .restart) :
    (m >>= f) ks = ⟨.restart,(m ks).rest,(m ks).replies⟩ := by
  rw [thenEq]
  simp only [andThen,step]

theorem thenQuit {m : Ask κ τ α} {f : α → Ask κ τ β} {ks : List κ} (step : (m ks).step = .quit) :
    (m >>= f) ks = ⟨.quit,(m ks).rest,(m ks).replies⟩ := by
  rw [thenEq]
  simp only [andThen,step]

/-- An answered question: the key, and what was skipped before it. -/
theorem askCases (question : τ) (read : κ → Option (Step α)) (ks : List κ) :
    (ask question read ks = ⟨.quit,[],[]⟩ ∧ ∀ k ∈ ks, read k = none) ∨
    ∃ skipped k rest step, ks = skipped ++ k :: rest ∧ read k = some step ∧ (∀ j ∈ skipped, read j = none) ∧
      ask question read ks = ⟨step,rest,[⟨question,k,step.kind⟩]⟩ := by
  induction ks with
  | nil => exact .inl ⟨rfl,fun _ mem => absurd mem List.not_mem_nil⟩
  | cons k ks ih =>
    cases meaning : read k with
    | some step => exact .inr ⟨[],k,ks,step,rfl,meaning,fun _ mem => absurd mem List.not_mem_nil,by simp only [ask,meaning]⟩
    | none =>
      have skips : ask question read (k :: ks) = ask question read ks := by simp only [ask,meaning]
      rw [skips]
      rcases ih with ⟨ended,none'⟩ | ⟨skipped,j,rest,step,whole,read',none',same⟩
      · exact .inl ⟨ended,List.forall_mem_cons.mpr ⟨meaning,none'⟩⟩
      · exact .inr ⟨k :: skipped,j,rest,step,by rw [whole,List.cons_append],read',
          List.forall_mem_cons.mpr ⟨meaning,none'⟩,same⟩

/-! What an answered dialogue tells. -/

def Tells (m : Ask κ τ α) (R : α → List (Reply κ τ) → Prop) : Prop :=
  ∀ ks a, (m ks).step = .answer a → R a (m ks).replies

theorem tellsPure {a : α} {R : α → List (Reply κ τ) → Prop} (holds : R a []) : Tells (Pure.pure a : Ask κ τ α) R := by
  intro ks b same
  exact Step.answer.inj same ▸ holds

theorem tellsThen {m : Ask κ τ α} {f : α → Ask κ τ β} {R : α → List (Reply κ τ) → Prop}
    {S : β → List (Reply κ τ) → Prop} (first : Tells m R)
    (rest : ∀ a before, R a before → Tells (f a) fun b after => S b (before ++ after)) : Tells (m >>= f) S := by
  intro ks b same
  cases step : (m ks).step with
  | answer a =>
    rw [thenAnswer step] at same ⊢
    exact rest a _ (first ks a step) _ b same
  | restart =>
    rw [thenRestart step] at same
    cases same
  | quit =>
    rw [thenQuit step] at same
    cases same

theorem tellsAsk {question : τ} {read : κ → Option (Step α)} {R : α → List (Reply κ τ) → Prop}
    (holds : ∀ k a, read k = some (.answer a) → R a [⟨question,k,.answer ()⟩]) : Tells (ask question read) R := by
  intro ks a same
  rcases askCases question read ks with ⟨ended,-⟩ | ⟨skipped,k,rest,step,-,meaning,-,result⟩
  · rw [ended] at same
    cases same
  · rw [result] at same ⊢
    cases same
    exact holds k a meaning

theorem tellsMono {m : Ask κ τ α} {R S : α → List (Reply κ τ) → Prop} (told : Tells m R)
    (weaker : ∀ a replies, R a replies → S a replies) : Tells m S :=
  fun ks a same => weaker a _ (told ks a same)

/-- The answers alone. -/
def Yields (m : Ask κ τ α) (P : α → Prop) : Prop := Tells m fun a _ => P a

theorem yieldsThen {m : Ask κ τ α} {f : α → Ask κ τ β} {P : α → Prop} {Q : β → Prop} (first : Yields m P)
    (rest : ∀ a, P a → Yields (f a) Q) : Yields (m >>= f) Q := tellsThen first fun a _ => rest a

/-! What any dialogue leaves behind. -/

def Answered (replies : List (Reply κ τ)) : Prop := ∀ r ∈ replies, r.kind = .answer ()

/-- Each reply but the last is an answer, and the last tells how the dialogue was left; behind the last key it may be
missing. The keys that were replied with are among those that were taken. -/
structure Left (step : Step Unit) (ks rest : List κ) (replies : List (Reply κ τ)) : Prop where
  how : step = .answer () ∧ Answered replies ∨ step = .quit ∧ Answered replies ∨
    ∃ front last, replies = front ++ [last] ∧ Answered front ∧ last.kind = step
  taken : ∃ used, used ++ rest = ks ∧ (replies.map Reply.key).Sublist used

def Lawful (m : Ask κ τ α) : Prop := ∀ ks, Left (m ks).step.kind ks (m ks).rest (m ks).replies

theorem lawfulPure (a : α) : Lawful (Pure.pure a : Ask κ τ α) :=
  fun _ => ⟨.inl ⟨rfl,fun _ mem => absurd mem List.not_mem_nil⟩,[],rfl,.slnil⟩

theorem lawfulAsk (question : τ) (read : κ → Option (Step α)) : Lawful (ask question read) := by
  intro ks
  rcases askCases question read ks with ⟨ended,-⟩ | ⟨skipped,k,rest,step,whole,-,-,result⟩
  · rw [ended]
    exact ⟨.inr (.inl ⟨rfl,fun _ mem => absurd mem List.not_mem_nil⟩),ks,List.append_nil ks,List.nil_sublist ks⟩
  · rw [result]
    refine ⟨.inr (.inr ⟨[],_,rfl,fun _ mem => absurd mem List.not_mem_nil,rfl⟩),skipped ++ [k],?_,?_⟩
    · rw [whole,List.append_assoc]
      rfl
    · exact List.sublist_append_right skipped [k]

theorem lawfulThen {m : Ask κ τ α} {f : α → Ask κ τ β} (first : Lawful m) (rest : ∀ a, Lawful (f a)) :
    Lawful (m >>= f) := by
  intro ks
  obtain ⟨how,used,whole,keys⟩ := first ks
  cases step : (m ks).step with
  | answer a =>
    rw [thenAnswer step]
    have answered : Answered (m ks).replies := by
      rw [step] at how
      rcases how with ⟨-,answered⟩ | ⟨no,-⟩ | ⟨front,last,same,answered,kind⟩
      · exact answered
      · cases no
      · rw [same]
        intro r mem
        rcases List.mem_append.mp mem with before | here
        · exact answered r before
        · rw [List.mem_singleton.mp here]
          exact kind
    obtain ⟨how',used',whole',keys'⟩ := rest a (m ks).rest
    refine ⟨?_,used ++ used',by rw [List.append_assoc,whole',whole],?_⟩
    · rcases how' with ⟨kind,after⟩ | ⟨kind,after⟩ | ⟨front,last,same,after,kind⟩
      · exact .inl ⟨kind,List.forall_mem_append.mpr ⟨answered,after⟩⟩
      · exact .inr (.inl ⟨kind,List.forall_mem_append.mpr ⟨answered,after⟩⟩)
      · refine .inr (.inr ⟨(m ks).replies ++ front,last,?_,List.forall_mem_append.mpr ⟨answered,after⟩,kind⟩)
        rw [same,List.append_assoc]
    · rw [List.map_append]
      exact keys.append keys'
  | restart =>
    rw [thenRestart step]
    rw [step] at how
    exact ⟨how,used,whole,keys⟩
  | quit =>
    rw [thenQuit step]
    rw [step] at how
    exact ⟨how,used,whole,keys⟩

/-! A dialogue that starts again on a restart. -/

def converse (m : Ask κ τ α) : Nat → List κ → Option α × List (Reply κ τ)
  | 0, _ => (none,[])
  | n+1, ks =>
      let r := m ks
      match r.step with
      | .answer a => (some a,r.replies)
      | .quit => (none,r.replies)
      | .restart =>
          let next := converse m n r.rest
          (next.1,r.replies ++ next.2)

/-- A restart takes a key. -/
theorem restartShorter {m : Ask κ τ α} (lawful : Lawful m) {ks : List κ} (again : (m ks).step = .restart) :
    (m ks).rest.length < ks.length := by
  obtain ⟨how,used,whole,keys⟩ := lawful ks
  rw [again] at how
  have some' : 0 < (m ks).replies.length := by
    rcases how with ⟨no,-⟩ | ⟨no,-⟩ | ⟨front,last,same,-⟩
    · cases no
    · cases no
    · rw [same,List.length_append]
      exact Nat.lt_add_left _ Nat.one_pos
  have fewer := keys.length_le
  rw [List.length_map] at fewer
  have size := congrArg List.length whole
  rw [List.length_append] at size
  omega

theorem converseEnough {m : Ask κ τ α} (lawful : Lawful m) {ks : List κ} {n k : Nat} (enough : ks.length < n)
    (more : ks.length < k) : converse m n ks = converse m k ks := by
  induction n generalizing ks k with
  | zero => omega
  | succ n ih =>
    cases k with
    | zero => omega
    | succ k =>
      cases step : (m ks).step with
      | answer a => simp only [converse,step]
      | quit => simp only [converse,step]
      | restart =>
        have shorter := restartShorter lawful step
        have same : converse m n (m ks).rest = converse m k (m ks).rest := ih (by omega) (by omega)
        simp only [converse,step,same]

/-- What came of a conversation came of its last round, and nobody quit before. -/
theorem converseAnswer {m : Ask κ τ α} (lawful : Lawful m) {ks : List κ} {n : Nat} {a : α}
    (answer : (converse m n ks).1 = some a) :
    (∀ r ∈ (converse m n ks).2, r.kind ≠ .quit) ∧ ∃ before last, (converse m n ks).2 = before ++ (m last).replies ∧
      (m last).step = .answer a ∧ ∃ gone, gone ++ last = ks := by
  induction n generalizing ks with
  | zero => cases answer
  | succ n ih =>
    unfold converse at answer ⊢
    obtain ⟨how,used,whole,-⟩ := lawful ks
    cases step : (m ks).step with
    | answer b =>
      simp only [step,Option.some.injEq] at answer ⊢
      subst answer
      refine ⟨fun r mem quit => ?_,[],ks,rfl,step,[],rfl⟩
      rw [step] at how
      rcases how with ⟨-,answered⟩ | ⟨no,-⟩ | ⟨front,last,same,answered,kind⟩
      · cases (answered r mem).symm.trans quit
      · cases no
      · rw [same] at mem
        rcases List.mem_append.mp mem with before | here
        · cases (answered r before).symm.trans quit
        · rw [List.mem_singleton.mp here,kind] at quit
          cases quit
    | quit =>
      simp only [step] at answer
      cases answer
    | restart =>
      simp only [step] at answer ⊢
      obtain ⟨none',before,last,same,answer',gone,whole'⟩ := ih answer
      refine ⟨fun r mem quit => ?_,(m ks).replies ++ before,last,by rw [same,List.append_assoc],answer',used ++ gone,?_⟩
      · rcases List.mem_append.mp mem with now | later
        · rw [step] at how
          rcases how with ⟨no,-⟩ | ⟨no,-⟩ | ⟨front,final,same',answered,kind⟩
          · cases no
          · cases no
          · rw [same'] at now
            rcases List.mem_append.mp now with early | here
            · cases (answered r early).symm.trans quit
            · rw [List.mem_singleton.mp here,kind] at quit
              cases quit
        · exact none' r later quit
      · rw [List.append_assoc,whole',whole]

end dialogue
end P11k.Dialogue
