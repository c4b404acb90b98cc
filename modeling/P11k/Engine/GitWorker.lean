import Mathlib.Data.List.Forall2
import P11k.Engine.Status

/-! The git workers step by step: a worker takes a request off its channel, drains the channel to
the newest one, computes, and sends. The loop starts a new worker at each reload and leaves the old
one to finish. `Session` puts the loop and all workers ever started side by side; which worker sent
a result and which request it answers travel beside the channel, where the code does not see
them. -/
namespace P11k.Engine
open Gitstatus (Bytes)

inductive Phase (δ : Type) where
  | receiving
  | draining (latest : GitRequest)
  | computing (latest : GitRequest)
  | sending (latest : GitRequest) (status : Option (GitStatus δ))
  | exited
  | panicked
  deriving DecidableEq

def Phase.holds {δ : Type} : Phase δ → List GitRequest
  | .draining latest | .computing latest | .sending latest _ => [latest]
  | .receiving | .exited | .panicked => []

/-- The workers are numbered in the order they were started. -/
structure Hand (δ : Type) where
  number : Nat
  phase : Phase δ
  deriving DecidableEq

inductive Turn (δ : Type) where
  | recv
  | tryRecv
  | drained
  | compute (found : Option δ)
  | send
  | exit
  | panic

structure Adoption (δ : Type) where
  worker : Nat
  request : GitRequest
  status : Option (GitStatus δ)
  deriving DecidableEq

structure Session (ρ θ δ : Type) where
  engine : State ρ θ δ
  hands : List (Hand δ)
  origins : List (Nat × GitRequest)
  sent : Option (Nat × GitRequest)
  adopted : Option (Adoption δ)

inductive Act (ε ρ θ δ : Type) where
  | engine (m : Moment ε) (what : Event ρ θ δ)
  | worker (i : Nat) (turn : Turn δ)

section session
variable {ε ρ θ δ : Type} (look : Look ε ρ θ δ)

/-- What a turn does to a worker's phase and queue, and the result it sends. Only the worker that
the loop no longer sends to finds its channel closed. -/
def turnStep (current : Bool) : Turn δ → Phase δ → List GitRequest →
    Option (Phase δ × List GitRequest × Option (GitRequest × Option (GitStatus δ)))
  | .recv, .receiving, req :: queue => some (.draining req,queue,none)
  | .tryRecv, .draining _, newer :: queue => some (.draining newer,queue,none)
  | .drained, .draining latest, [] => some (.computing latest,[],none)
  | .compute found, .computing latest, queue =>
      some (.sending latest (found.map (GitStatus.mk latest.cwd)),queue,none)
  | .send, .sending latest status, queue => some (.receiving,queue,some (latest,status))
  | .exit, .receiving, [] => if current then none else some (.exited,[],none)
  | .panic, .computing _, queue => some (.panicked,queue,none)
  | _, _, _ => none

def workerStep (s : Session ρ θ δ) (i : Nat) (turn : Turn δ) : Session ρ θ δ :=
  match s.hands[i]?, s.engine.workers[i]? with
  | some hand, some queue =>
      match turnStep (i == 0) turn hand.phase queue with
      | none => s
      | some (phase,queue,answer) =>
          { s with
            engine := { s.engine with
              workers := s.engine.workers.set i queue
              results := s.engine.results ++
                (answer.map fun a => (⟨a.1.generation,a.2⟩ : GitResult δ)).toList }
            hands := s.hands.set i { hand with phase := phase }
            origins := s.origins ++ (answer.map fun a => (hand.number,a.1)).toList }
  | _, _ => s

def adoption (s : Session ρ θ δ) : List (Adoption δ) :=
  match s.engine.results, s.origins with
  | res :: _, origin :: _ =>
      if res.generation = s.engine.gitGen then [⟨origin.1,origin.2,res.status⟩] else []
  | _, _ => []

/-- The workers take their turns themselves, so the loop's own event for one is not a step here. -/
def engineStep (s : Session ρ θ δ) (m : Moment ε) (what : Event ρ θ δ) :
    Session ρ θ δ × List (Adoption δ) :=
  let next := (step look s.engine (m,what)).1
  match what with
  | .worked .. => (s,[])
  | .header info =>
      ({ s with
          engine := next
          sent := s.hands.head?.map fun hand => (hand.number,⟨next.gitGen,info.cwd⟩) },[])
  | .gitResult =>
      let adopted := adoption s
      ({ s with engine := next, origins := s.origins.drop 1, adopted := adopted.head?.or s.adopted },adopted)
  | _ =>
      ({ s with
          engine := next
          hands := List.replicate (next.workers.length - s.engine.workers.length)
            ⟨s.hands.length,.receiving⟩ ++ s.hands },[])

def sessionStep (s : Session ρ θ δ) : Act ε ρ θ δ → Session ρ θ δ × List (Adoption δ)
  | .engine m what => engineStep look s m what
  | .worker i turn => (workerStep s i turn,[])

def sessionStart (shell : Shell) (config : Config ρ θ) (configPath : Option Bytes) (size : Size)
    (cwd : Bytes) : Session ρ θ δ :=
  ⟨start look shell config configPath size cwd,[⟨0,.receiving⟩],[],none,none⟩

/-- The channels are empty and no worker is at work; none has panicked. -/
structure Quiet (s : Session ρ θ δ) : Prop where
  queues : ∀ queue ∈ s.engine.workers, queue = []
  results : s.engine.results = []
  idle : ∀ hand ∈ s.hands, hand.phase = .receiving ∨ hand.phase = .exited

/-- What the loop may adopt in the state `s`. -/
structure Current (s : Session ρ θ δ) (a : Adoption δ) : Prop where
  generation : a.request.generation = s.engine.gitGen
  cwd : s.engine.currentInfo.map (·.cwd) = some a.request.cwd
  status : ∀ g ∈ a.status, g.computedFor = a.request.cwd

structure GitProtocol (s : Session ρ θ δ) (acts : List (Act ε ρ θ δ)) : Prop where
  current : ∀ before act after, acts = before ++ act :: after →
    let s := (Machine.run (sessionStep look) s before).1
    ∀ a ∈ (sessionStep look s act).2, Current s a
  renewed : ∀ before m request load between m' info after,
    acts = before ++ .engine m (.reload request load) :: between ++ .engine m' (.header info) :: after →
    let old := (Machine.run (sessionStep look) s before).1
    let new := (sessionStep look old (.engine m (.reload request load))).1
    let header := (Machine.run (sessionStep look) new (between ++ [.engine m' (.header info)])).1
    old.hands.length < new.hands.length →
    ∀ a ∈ (Machine.run (sessionStep look) header after).2, ∀ hand ∈ old.hands, a.worker ≠ hand.number
  settled :
    let last := (Machine.run (sessionStep look) s acts).1
    Quiet last → ∀ worker request, last.sent = some (worker,request) → ∃ status,
      last.adopted = some ⟨worker,request,status⟩ ∧ last.engine.lastVcs = some (request.cwd,status)

/-- The prompt counter does not wrap. -/
def SessionCounts (s : Session ρ θ δ) : Act ε ρ θ δ → Prop
  | .engine m what => Counts s.engine (m,what)
  | .worker .. => True

/-- A request of worker `w`: if it has the newest number, it is the one that was sent last. -/
def Known (gitGen : UInt64) (sent : Option (Nat × GitRequest)) (w : Nat) (r : GitRequest) : Prop :=
  r.generation.toNat ≤ gitGen.toNat ∧ (r.generation = gitGen → sent = some (w,r))

/-- A result as it stands on the channel, beside the worker and the request that it came from. -/
structure Answers (gitGen : UInt64) (sent : Option (Nat × GitRequest)) (res : GitResult δ)
    (origin : Nat × GitRequest) : Prop where
  generation : res.generation = origin.2.generation
  status : ∀ g ∈ res.status, g.computedFor = origin.2.cwd
  known : Known gitGen sent origin.1 origin.2

/-- Worker `i` of the session, its queue, and what of its requests it has not answered yet. -/
def At (s : Session ρ θ δ) (i : Nat) (hand : Hand δ) (queue : List GitRequest) : Prop :=
  s.hands[i]? = some hand ∧ s.engine.workers[i]? = some queue

/-- Where the last request is: with its worker, behind all others; on its way back; adopted; or
lost with a worker that panicked. -/
def Tracked (s : Session ρ θ δ) (w : Nat) (r : GitRequest) : Prop :=
  (∃ hand ∈ s.hands, hand.phase = .panicked) ∨
  (∃ i hand queue, At s i hand queue ∧ hand.number = w ∧ (hand.phase.holds ++ queue).getLast? = some r) ∨
  (w,r) ∈ s.origins ∨
  ∃ status, s.adopted = some ⟨w,r,status⟩ ∧ s.engine.lastVcs = some (r.cwd,status)

structure Sound (s : Session ρ θ δ) : Prop where
  sizes : s.hands.length = s.engine.workers.length
  numbers : ∀ hand ∈ s.hands, hand.number < s.hands.length
  newest : s.hands.head?.map (·.number) = some (s.hands.length - 1)
  waiting : ∀ i hand queue, At s i hand queue → ∀ r ∈ hand.phase.holds ++ queue,
    Known s.engine.gitGen s.sent hand.number r
  computed : ∀ hand ∈ s.hands, ∀ r status, hand.phase = .sending r status →
    ∀ g ∈ status, g.computedFor = r.cwd
  answered : List.Forall₂ (Answers s.engine.gitGen s.sent) s.engine.results s.origins
  last : ∀ w r, s.sent = some (w,r) → r.generation = s.engine.gitGen ∧
    s.engine.currentInfo.map (·.cwd) = some r.cwd
  tracked : ∀ w r, s.sent = some (w,r) → Tracked s w r

theorem turnFacts {current : Bool} {turn : Turn δ} {phase phase' : Phase δ} {queue queue' : List GitRequest}
    {answer : Option (GitRequest × Option (GitStatus δ))}
    (turned : turnStep current turn phase queue = some (phase',queue',answer)) :
    phase'.holds ++ queue' <:+ phase.holds ++ queue ∧
    (∀ r, (phase.holds ++ queue).getLast? = some r → (phase'.holds ++ queue').getLast? = some r ∨
      phase' = .panicked ∨ ∃ status, answer = some (r,status)) ∧
    (∀ a ∈ answer, phase = .sending a.1 a.2) ∧
    ∀ r status, phase' = .sending r status → ∀ g ∈ status, g.computedFor = r.cwd := by
  unfold turnStep at turned
  split at turned
  · cases turned
    exact ⟨List.suffix_rfl,fun r last => .inl last,by simp,by simp⟩
  · cases turned
    refine ⟨List.suffix_cons _ _,fun r last => .inl ?_,by simp,by simp⟩
    simpa [Phase.holds] using last
  · cases turned
    exact ⟨List.suffix_rfl,fun r last => .inl last,by simp,by simp⟩
  · cases turned
    refine ⟨List.suffix_rfl,fun r last => .inl last,by simp,?_⟩
    intro r status same g mem
    cases same
    obtain ⟨fields,_,rfl⟩ := Option.map_eq_some_iff.mp mem
    rfl
  · rename_i latest status
    cases turned
    refine ⟨List.suffix_cons _ _,fun r last => ?_,by simp,by simp⟩
    cases queue with
    | nil =>
      cases (show some latest = some r from last)
      exact .inr (.inr ⟨status,rfl⟩)
    | cons newer queue =>
      refine .inl ?_
      simpa [Phase.holds] using last
  · split at turned
    · contradiction
    · cases turned
      exact ⟨List.suffix_rfl,fun r last => .inl last,by simp,by simp⟩
  · cases turned
    exact ⟨List.suffix_cons _ _,fun r last => .inr (.inl rfl),by simp,by simp⟩
  · contradiction

def answerResult (answer : Option (GitRequest × Option (GitStatus δ))) : List (GitResult δ) :=
  (answer.map fun a => (⟨a.1.generation,a.2⟩ : GitResult δ)).toList

theorem workerCases (s : Session ρ θ δ) (i : Nat) (turn : Turn δ) : workerStep s i turn = s ∨
    ∃ hand queue phase queue' answer, At s i hand queue ∧
      turnStep (i == 0) turn hand.phase queue = some (phase,queue',answer) ∧
      workerStep s i turn = { s with
        engine := { s.engine with
          workers := s.engine.workers.set i queue'
          results := s.engine.results ++ answerResult answer }
        hands := s.hands.set i { hand with phase := phase }
        origins := s.origins ++ (answer.map fun a => (hand.number,a.1)).toList } := by
  unfold workerStep
  split
  · rename_i hand queue there waiting
    split
    · exact .inl rfl
    · rename_i phase queue' answer turned
      exact .inr ⟨hand,queue,phase,queue',answer,⟨there,waiting⟩,turned,rfl⟩
  · exact .inl rfl

theorem atSet {hands : List (Hand δ)} {workers : List (List GitRequest)} {i j : Nat}
    {new hand : Hand δ} {newQueue queue : List GitRequest}
    (there : (hands.set i new)[j]? = some hand) (waiting : (workers.set i newQueue)[j]? = some queue) :
    (i = j ∧ hand = new ∧ queue = newQueue) ∨ (i ≠ j ∧ hands[j]? = some hand ∧ workers[j]? = some queue) := by
  rw [List.getElem?_set] at there waiting
  by_cases same : i = j
  · rw [if_pos same] at there waiting
    split at there <;> cases there
    split at waiting <;> cases waiting
    exact .inl ⟨same,rfl,rfl⟩
  · rw [if_neg same] at there waiting
    exact .inr ⟨same,there,waiting⟩

theorem soundWorker {s : Session ρ θ δ} (sound : Sound s) (i : Nat) (turn : Turn δ) :
    Sound (workerStep s i turn) := by
  rcases workerCases s i turn with same | ⟨hand,queue,phase,queue',answer,at',turned,result⟩
  · rw [same]
    exact sound
  obtain ⟨shorter,last,sends,computes⟩ := turnFacts turned
  have inHands := List.mem_of_getElem? at'.1
  have inside := (List.getElem?_eq_some_iff.mp at'.1).1
  have inside' := (List.getElem?_eq_some_iff.mp at'.2).1
  have own := sound.waiting i hand queue at'
  rw [result]
  refine ⟨by simpa using sound.sizes,?_,?_,?_,?_,?_,sound.last,?_⟩
  · intro hand' mem
    rw [List.length_set]
    rcases List.mem_or_eq_of_mem_set mem with old | rfl
    · exact sound.numbers hand' old
    · exact sound.numbers hand inHands
  · have newest := sound.newest
    rw [List.head?_eq_getElem?] at newest
    dsimp only
    rw [List.head?_eq_getElem?,List.length_set,List.getElem?_set]
    split
    · rename_i first
      subst first
      rw [at'.1] at newest
      exact newest
    · exact newest
  · intro j hand' waiting' atJ r mem
    rcases atSet atJ.1 atJ.2 with ⟨rfl,rfl,rfl⟩ | ⟨_,there,waiting⟩
    · exact own r (shorter.subset mem)
    · exact sound.waiting j hand' waiting' ⟨there,waiting⟩ r mem
  · intro hand' mem r status sending
    rcases List.mem_or_eq_of_mem_set mem with old | rfl
    · exact sound.computed hand' old r status sending
    · exact computes r status sending
  · cases answer with
    | none => simpa [answerResult] using sound.answered
    | some a =>
      have sent := sends a rfl
      refine List.rel_append sound.answered (List.Forall₂.cons ⟨rfl,?_,?_⟩ List.Forall₂.nil)
      · exact sound.computed hand inHands a.1 a.2 sent
      · exact own a.1 (by simp [sent,Phase.holds])
  · intro w r sent
    rcases sound.tracked w r sent with ⟨lost,mem,panicked⟩ | ⟨j,hand',waiting',atJ,number,behind⟩ | back | adopted
    · refine .inl ⟨lost,?_,panicked⟩
      have differs : hand ≠ lost := by
        rintro rfl
        rw [panicked] at turned
        cases turn <;> simp [turnStep] at turned
      obtain ⟨j,at''⟩ := List.mem_iff_getElem?.mp mem
      have other : i ≠ j := by
        rintro rfl
        rw [at'.1] at at''
        exact differs (Option.some.inj at'')
      exact List.mem_iff_getElem?.mpr ⟨j,by rw [List.getElem?_set_ne other]; exact at''⟩
    · by_cases same : i = j
      · subst same
        obtain rfl : hand = hand' := Option.some.inj (at'.1.symm.trans atJ.1)
        obtain rfl : queue = waiting' := Option.some.inj (at'.2.symm.trans atJ.2)
        have set : At { s with
            engine := { s.engine with workers := s.engine.workers.set i queue' }
            hands := s.hands.set i { hand with phase := phase } } i { hand with phase := phase } queue' :=
          ⟨List.getElem?_set_self inside,List.getElem?_set_self inside'⟩
        rcases last r behind with still | rfl | ⟨status,rfl⟩
        · exact .inr (.inl ⟨i,_,queue',set,number,still⟩)
        · exact .inl ⟨_,List.mem_of_getElem? set.1,rfl⟩
        · refine .inr (.inr (.inl (List.mem_append_right _ ?_)))
          subst number
          exact List.mem_singleton_self _
      · refine .inr (.inl ⟨j,hand',waiting',⟨?_,?_⟩,number,behind⟩)
        · exact (List.getElem?_set_ne same).trans atJ.1
        · exact (List.getElem?_set_ne same).trans atJ.2
    · exact .inr (.inr (.inl (List.mem_append_left _ back)))
    · exact .inr (.inr (.inr adopted))

/-- What the git workers and the loop share. -/
def shared (s : State ρ θ δ) : List (List GitRequest) × List (GitResult δ) × UInt64 ×
    Option (Bytes × Option (GitStatus δ)) × Option HeaderInfo :=
  (s.workers,s.results,s.gitGen,s.lastVcs,s.currentInfo)

theorem sharedUntouched {s s' : State ρ θ δ} (same : Untouched s s') : shared s' = shared s := by
  rw [shared,same.workers,same.results,same.gitGen,same.lastVcs,same.currentInfo]
  rfl

theorem stepShared (s : State ρ θ δ) (m : Moment ε) {what : Event ρ θ δ}
    (notHeader : ∀ info, what ≠ .header info) (notResult : what ≠ .gitResult)
    (notWorked : ∀ i k found, what ≠ .worked i k found) :
    shared (step look s (m,what)).1 = shared s ∨
    shared (step look s (m,what)).1 = ([] :: s.workers,(shared s).2) := by
  cases what with
  | reload request load =>
    rcases reloadCases look m s request load with ⟨_,path,result⟩ | ⟨config,path,_,result⟩
    · left
      simp only [step,result]
      rfl
    · right
      simp only [step,result]
      split <;> rfl
  | header info => exact absurd rfl (notHeader info)
  | gitResult => exact absurd rfl notResult
  | worked i k found => exact absurd rfl (notWorked i k found)
  | windowChange | resize | vimMode | input | output | deferredPrompt =>
    exact .inl (sharedUntouched (screenUntouched look s m rfl))

theorem resultShared (m : Moment ε) (s : State ρ θ δ) :
    (s.results = [] ∧ shared (gitResult look m s).1 = shared s) ∨
    ∃ res results, s.results = res :: results ∧
      shared (gitResult look m s).1 = (s.workers,results,s.gitGen,
        if res.generation = s.gitGen then some (s.currentInfo.elim [] (·.cwd),res.status) else s.lastVcs,
        s.currentInfo) := by
  unfold gitResult
  cases queue : s.results with
  | nil => exact .inl ⟨rfl,rfl⟩
  | cons res results =>
    refine .inr ⟨res,results,rfl,?_⟩
    dsimp only
    by_cases current : res.generation = s.gitGen
    · rw [if_neg (not_not.mpr current),if_pos current]
      cases known : s.currentInfo with
      | none => simp [shared]
      | some info =>
        dsimp only
        split <;> simp [shared,redraw]
    · rw [if_pos current,if_neg current]
      rfl

theorem soundSame {s : Session ρ θ δ} (sound : Sound s) {next : State ρ θ δ}
    (same : shared next = shared s.engine) : Sound { s with engine := next } := by
  obtain ⟨engine,hands,origins,sent,adopted⟩ := s
  cases engine
  cases next
  simp only [shared,Prod.mk.injEq] at same
  obtain ⟨rfl,rfl,rfl,rfl,rfl⟩ := same
  exact ⟨sound.sizes,sound.numbers,sound.newest,sound.waiting,sound.computed,sound.answered,sound.last,
    sound.tracked⟩

theorem soundSpawn {s : Session ρ θ δ} (sound : Sound s) :
    Sound { s with
      engine := { s.engine with workers := [] :: s.engine.workers }
      hands := ⟨s.hands.length,.receiving⟩ :: s.hands } := by
  refine ⟨by simpa using sound.sizes,?_,by simp,?_,?_,sound.answered,sound.last,?_⟩
  · intro hand mem
    rcases List.mem_cons.mp mem with rfl | old
    · simp
    · exact Nat.lt_succ_of_lt (sound.numbers hand old)
  · intro i hand queue at' r mem
    cases i with
    | zero =>
      cases at'.1
      cases at'.2
      simp [Phase.holds] at mem
    | succ i => exact sound.waiting i hand queue at' r mem
  · intro hand mem r status sending
    rcases List.mem_cons.mp mem with rfl | old
    · contradiction
    · exact sound.computed hand old r status sending
  · intro w r sent
    rcases sound.tracked w r sent with ⟨lost,mem,panicked⟩ | ⟨i,hand,queue,at',place⟩ | elsewhere
    · exact .inl ⟨lost,List.mem_cons_of_mem _ mem,panicked⟩
    · exact .inr (.inl ⟨i+1,hand,queue,at',place⟩)
    · exact .inr (.inr elsewhere)

theorem soundHeader {s : Session ρ θ δ} (sound : Sound s) (m : Moment ε) (info : HeaderInfo)
    (counts : s.engine.gitGen.toNat + 1 < 2^64) : Sound (engineStep look s m (.header info)).1 := by
  have next : (s.engine.gitGen + 1).toNat = s.engine.gitGen.toNat + 1 := by
    rw [UInt64.toNat_add]
    exact Nat.mod_eq_of_lt counts
  have older : ∀ {sent w r}, Known s.engine.gitGen s.sent w r → Known (s.engine.gitGen + 1) sent w r := by
    intro sent w r known
    refine ⟨by rw [next]; exact Nat.le_succ_of_le known.1,fun same => ?_⟩
    have := known.1
    rw [same,next] at this
    omega
  cases hands : s.hands with
  | nil =>
    have newest := sound.newest
    simp [hands] at newest
  | cons first rest =>
    have sizes := sound.sizes
    cases workers : s.engine.workers with
    | nil => simp [hands,workers] at sizes
    | cons queue queues =>
      simp only [engineStep,step,header,syncSize,hands,workers,List.head?_cons,Option.map_some,
        List.modify_zero_cons]
      refine ⟨?_,?_,?_,?_,?_,?_,?_,?_⟩
      · rw [hands,workers] at sizes
        exact sizes
      · exact hands ▸ sound.numbers
      · exact hands ▸ sound.newest
      · intro i hand queue' at' r mem
        cases i with
        | zero =>
          cases at'.1
          cases at'.2
          rw [← List.append_assoc,List.mem_append,List.mem_singleton] at mem
          rcases mem with old | rfl
          · exact older (sound.waiting 0 first queue ⟨by rw [hands]; rfl,by rw [workers]; rfl⟩ r old)
          · exact ⟨Nat.le_refl _,fun _ => rfl⟩
        | succ i =>
          refine older (sound.waiting (i+1) hand queue' ⟨?_,?_⟩ r mem)
          · rw [hands]
            exact at'.1
          · rw [workers]
            exact at'.2
      · exact hands ▸ sound.computed
      · exact sound.answered.imp fun res origin answers =>
          ⟨answers.generation,answers.status,older answers.known⟩
      · intro w r sent
        cases sent
        exact ⟨rfl,rfl⟩
      · intro w r sent
        cases sent
        refine .inr (.inl ⟨0,first,_,⟨rfl,rfl⟩,rfl,?_⟩)
        rw [← List.append_assoc,List.getLast?_concat]

theorem adoptionHead {s : Session ρ θ δ} {a : Adoption δ} (adopts : a ∈ adoption s) :
    ∃ res results origin origins, s.engine.results = res :: results ∧ s.origins = origin :: origins ∧
      res.generation = s.engine.gitGen ∧ a = ⟨origin.1,origin.2,res.status⟩ := by
  unfold adoption at adopts
  split at adopts
  · rename_i res results origin origins front back
    split at adopts
    · rename_i current
      exact ⟨res,results,origin,origins,front,back,current,List.mem_singleton.mp adopts⟩
    · simp at adopts
  · simp at adopts

theorem adoptionSent {s : Session ρ θ δ} (sound : Sound s) {a : Adoption δ} (adopts : a ∈ adoption s) :
    s.sent = some (a.worker,a.request) ∧ Current s a := by
  obtain ⟨res,results,origin,origins,front,back,current,rfl⟩ := adoptionHead adopts
  have answered := sound.answered
  rw [front,back] at answered
  cases answered with
  | cons answers _ =>
    have generation := answers.generation.symm.trans current
    have sent := answers.known.2 generation
    exact ⟨sent,generation,(sound.last _ _ sent).2,answers.status⟩

theorem soundResult {s : Session ρ θ δ} (sound : Sound s) (m : Moment ε) :
    Sound (engineStep look s m .gitResult).1 := by
  rcases resultShared look m s.engine with ⟨empty,same⟩ | ⟨res,results,front,taken⟩
  · have answered := sound.answered
    rw [empty,List.forall₂_nil_left_iff] at answered
    have none' : adoption s = [] := by rw [adoption,empty]
    have still := soundSame sound same
    simp only [engineStep,step,answered,List.drop_nil,none',List.head?_nil,Option.none_or]
    rw [← answered]
    exact still
  · have answered := sound.answered
    rw [front] at answered
    cases back : s.origins with
    | nil => simp [back] at answered
    | cons origin origins =>
      rw [back] at answered
      cases answered with
      | cons answers later =>
        have arrives : adoption s =
            if res.generation = s.engine.gitGen then [⟨origin.1,origin.2,res.status⟩] else [] := by
          rw [adoption,front,back]
        simp only [engineStep,step,arrives,back,List.drop_one,List.tail_cons]
        generalize (gitResult look m s.engine).1 = next at taken
        cases next
        simp only [shared,Prod.mk.injEq] at taken
        obtain ⟨rfl,rfl,rfl,rfl,rfl⟩ := taken
        refine ⟨sound.sizes,sound.numbers,sound.newest,sound.waiting,sound.computed,later,sound.last,?_⟩
        intro w r sent
        dsimp only [Tracked]
        by_cases current : res.generation = s.engine.gitGen
        · have same := answers.known.2 (answers.generation.symm.trans current)
          cases same.symm.trans sent
          have shown := (sound.last _ _ same).2
          obtain ⟨info,known,cwd⟩ := Option.map_eq_some_iff.mp shown
          refine .inr (.inr (.inr ⟨res.status,?_,?_⟩))
          · rw [if_pos current]
            rfl
          · rw [if_pos current,known,Option.elim_some,cwd]
        · rw [if_neg current,if_neg current,List.head?_nil,Option.none_or]
          rcases sound.tracked w r sent with lost | place | back' | adopted
          · exact .inl lost
          · exact .inr (.inl place)
          · rw [back,List.mem_cons] at back'
            rcases back' with rfl | behind
            · exact absurd (answers.generation.trans (sound.last _ _ sent).1) current
            · exact .inr (.inr (.inl behind))
          · exact .inr (.inr (.inr adopted))

theorem soundOther {s : Session ρ θ δ} (sound : Sound s) (m : Moment ε) {what : Event ρ θ δ}
    (notHeader : ∀ info, what ≠ .header info) (notResult : what ≠ .gitResult)
    (notWorked : ∀ i k found, what ≠ .worked i k found) : Sound (engineStep look s m what).1 := by
  have shape : engineStep look s m what = ({ s with
      engine := (step look s.engine (m,what)).1
      hands := List.replicate ((step look s.engine (m,what)).1.workers.length - s.engine.workers.length)
        ⟨s.hands.length,.receiving⟩ ++ s.hands },[]) := by
    cases what with
    | header info => exact absurd rfl (notHeader info)
    | gitResult => exact absurd rfl notResult
    | worked i k found => exact absurd rfl (notWorked i k found)
    | reload | windowChange | resize | vimMode | input | output | deferredPrompt => rfl
  rw [shape]
  rcases stepShared look s.engine m notHeader notResult notWorked with same | spawned
  · have workers : (step look s.engine (m,what)).1.workers = s.engine.workers := congrArg Prod.fst same
    rw [workers,Nat.sub_self]
    exact soundSame sound same
  · have workers : (step look s.engine (m,what)).1.workers = [] :: s.engine.workers := congrArg Prod.fst spawned
    rw [workers,List.length_cons,Nat.add_sub_cancel_left]
    exact soundSame (soundSpawn sound) spawned

theorem soundStep {s : Session ρ θ δ} (sound : Sound s) {act : Act ε ρ θ δ} (counts : SessionCounts s act) :
    Sound (sessionStep look s act).1 := by
  cases act with
  | worker i turn => exact soundWorker sound i turn
  | engine m what =>
    cases what with
    | header info => exact soundHeader look sound m info counts
    | gitResult => exact soundResult look sound m
    | worked i k found => exact sound
    | reload | windowChange | resize | vimMode | input | output | deferredPrompt =>
      exact soundOther look sound m (by simp) (by simp) (by simp)

theorem soundStart (shell : Shell) (config : Config ρ θ) (configPath : Option Bytes) (size : Size)
    (cwd : Bytes) : Sound (sessionStart look shell config configPath size cwd : Session ρ θ δ) := by
  refine ⟨rfl,by simp [sessionStart],rfl,?_,by simp [sessionStart],.nil,nofun,nofun⟩
  intro i hand queue at' r mem
  cases i with
  | zero =>
    cases at'.1
    cases at'.2
    simp [Phase.holds] at mem
  | succ i => cases at'.1

theorem stepAdopts {s : Session ρ θ δ} {act : Act ε ρ θ δ} {a : Adoption δ}
    (adopts : a ∈ (sessionStep look s act).2) : a ∈ adoption s := by
  cases act with
  | worker i turn => simp [sessionStep] at adopts
  | engine m what =>
    cases what with
    | gitResult => exact adopts
    | header | worked | reload | windowChange | resize | vimMode | input | output | deferredPrompt =>
      simp [sessionStep,engineStep] at adopts

theorem workerKeeps (s : Session ρ θ δ) (i : Nat) (turn : Turn δ) :
    (sessionStep look s (.worker i turn)).1.sent = s.sent ∧
    (sessionStep look s (.worker i turn)).1.hands.length = s.hands.length := by
  simp only [sessionStep]
  rcases workerCases s i turn with same | ⟨hand,queue,phase,queue',answer,_,_,result⟩
  · rw [same]
    exact ⟨rfl,rfl⟩
  · simp [result]

theorem handsGrow (s : Session ρ θ δ) (act : Act ε ρ θ δ) :
    s.hands.length ≤ (sessionStep look s act).1.hands.length := by
  cases act with
  | worker i turn => exact Nat.le_of_eq (workerKeeps look s i turn).2.symm
  | engine m what =>
    cases what with
    | header | gitResult | worked => exact Nat.le_refl _
    | reload | windowChange | resize | vimMode | input | output | deferredPrompt =>
      simp [sessionStep,engineStep]

theorem sentKept (s : Session ρ θ δ) {act : Act ε ρ θ δ} (notHeader : ∀ m info, act ≠ .engine m (.header info)) :
    (sessionStep look s act).1.sent = s.sent := by
  cases act with
  | worker i turn => exact (workerKeeps look s i turn).1
  | engine m what =>
    cases what with
    | header info => exact absurd rfl (notHeader m info)
    | gitResult | worked | reload | windowChange | resize | vimMode | input | output | deferredPrompt => rfl

/-- The last request went to a worker that was started after the first `n`. -/
structure Since (n : Nat) (s : Session ρ θ δ) : Prop where
  sound : Sound s
  more : n < s.hands.length
  sent : ∀ w r, s.sent = some (w,r) → n ≤ w

theorem sinceHeader {n : Nat} {s : Session ρ θ δ} (sound : Sound s) (more : n < s.hands.length)
    (m : Moment ε) (info : HeaderInfo) (counts : s.engine.gitGen.toNat + 1 < 2^64) :
    Since n (sessionStep look s (.engine m (.header info))).1 := by
  refine ⟨soundHeader look sound m info counts,more,fun w r sent => ?_⟩
  obtain ⟨first,there,same⟩ := Option.map_eq_some_iff.mp sent
  have newest := sound.newest
  rw [there,Option.map_some] at newest
  have := congrArg Prod.fst same
  have := Option.some.inj newest
  dsimp only at *
  omega

theorem sinceStep {n : Nat} {s : Session ρ θ δ} {act : Act ε ρ θ δ} (since : Since n s)
    (counts : SessionCounts s act) : Since n (sessionStep look s act).1 := by
  by_cases header : ∃ m info, act = .engine m (.header info)
  · obtain ⟨m,info,rfl⟩ := header
    exact sinceHeader look since.sound since.more m info counts
  · have same := sentKept look s (fun m info same => header ⟨m,info,same⟩)
    exact ⟨soundStep look since.sound counts,Nat.lt_of_lt_of_le since.more (handsGrow look s act),
      fun w r sent => since.sent w r (same ▸ sent)⟩

/-- With a prompt counter that does not wrap, the loop adopts results of the last request only,
never those of a worker that was replaced before it, and in the end the result of that request. -/
theorem gitProtocol (shell : Shell) (config : Config ρ θ) (configPath : Option Bytes) (size : Size)
    (cwd : Bytes) (acts : List (Act ε ρ θ δ))
    (counts : Machine.Guarded (sessionStep look) SessionCounts
      (sessionStart look shell config configPath size cwd) acts) :
    GitProtocol look (sessionStart look shell config configPath size cwd) acts := by
  have start := soundStart (δ := δ) look shell config configPath size cwd
  have keeps : ∀ (s : Session ρ θ δ) (act : Act ε ρ θ δ), Sound s → SessionCounts s act →
      Sound (sessionStep look s act).1 := fun s act sound counts => soundStep look sound counts
  refine ⟨?_,?_,?_⟩
  · intro before act after split s a adopts
    subst split
    have sound := Machine.runKeeps keeps start ((Machine.guardedAppend ..).mp counts).1
    exact (adoptionSent sound (stepAdopts look adopts)).2
  · intro before m request load between m' info after split old new header spawned a adopts hand mem
    subst split
    obtain ⟨front,wraps,last⟩ := (Machine.guardedAppend ..).mp counts
    obtain ⟨early,loads,middle⟩ := (Machine.guardedAppend ..).mp front
    have there : (Machine.run (sessionStep look) (sessionStart look shell config configPath size cwd)
        (before ++ .engine m (.reload request load) :: between)).1 =
        (Machine.run (sessionStep look) new between).1 := by
      rw [Machine.runAppend]
      rfl
    rw [there] at wraps last
    have reached : header = (sessionStep look (Machine.run (sessionStep look) new between).1
        (.engine m' (.header info))).1 := by
      show (Machine.run (sessionStep look) new (between ++ [.engine m' (.header info)])).1 = _
      rw [Machine.runAppend]
      rfl
    have soundOld : Sound old := Machine.runKeeps keeps start early
    have grown : ∀ (s : Session ρ θ δ) (act : Act ε ρ θ δ), Sound s ∧ old.hands.length < s.hands.length →
        SessionCounts s act → Sound (sessionStep look s act).1 ∧
          old.hands.length < (sessionStep look s act).1.hands.length := fun s act both counts =>
      ⟨soundStep look both.1 counts,Nat.lt_of_lt_of_le both.2 (handsGrow look s act)⟩
    have ready := Machine.runKeeps grown ⟨soundStep look soundOld loads,spawned⟩ middle
    have since : Since old.hands.length header := by
      rw [reached]
      exact sinceHeader look ready.1 ready.2 m' info wraps
    rw [reached] at adopts since
    have emits : ∀ (s : Session ρ θ δ) (act : Act ε ρ θ δ), Since old.hands.length s →
        ∀ a ∈ (sessionStep look s act).2, old.hands.length ≤ a.worker := fun s act since a adopts =>
      since.sent _ _ (adoptionSent since.sound (stepAdopts look adopts)).1
    have := Machine.runEmits (fun s act since counts => sinceStep look since counts) emits since last a adopts
    have := soundOld.numbers hand mem
    omega
  · intro last quiet w r sent
    have sound : Sound last := Machine.runKeeps keeps start counts
    rcases sound.tracked w r sent with ⟨hand,mem,panicked⟩ | ⟨i,hand,queue,at',_,place⟩ | back | adopted
    · rcases quiet.idle hand mem with idle | idle <;> rw [panicked] at idle <;> contradiction
    · have empty := quiet.queues queue (List.mem_of_getElem? at'.2)
      rcases quiet.idle hand (List.mem_of_getElem? at'.1) with idle | idle <;>
        simp [idle,empty,Phase.holds] at place
    · have answered := sound.answered
      rw [quiet.results,List.forall₂_nil_left_iff] at answered
      simp [answered] at back
    · exact adopted

theorem headersRun (s : Session ρ θ δ) (m : Moment ε) (info : HeaderInfo) (n : Nat) :
    let last := (Machine.run (sessionStep look) s (List.replicate n (.engine m (.header info)))).1
    last.engine.results = s.engine.results ∧ last.origins = s.origins ∧
    last.engine.gitGen = s.engine.gitGen + UInt64.ofNat n ∧
    (0 < n → last.engine.currentInfo.map (·.cwd) = some info.cwd) := by
  induction n generalizing s with
  | zero => exact ⟨rfl,rfl,(UInt64.add_zero _).symm,fun none' => absurd none' (Nat.lt_irrefl 0)⟩
  | succ n ih =>
    obtain ⟨results,origins,gitGen,shown⟩ := ih (sessionStep look s (.engine m (.header info))).1
    refine ⟨results,origins,?_,fun _ => ?_⟩
    · rw [List.replicate_succ,Machine.run,gitGen,UInt64.ofNat_add,UInt64.add_comm (UInt64.ofNat n),
        ← UInt64.add_assoc]
      rfl
    · cases n with
      | zero => rfl
      | succ n => exact shown (Nat.succ_pos n)

end session

def plainSession : Session Unit Unit Bytes := sessionStart plainLook .zsh oneRow none terminal [104]

def headerIn (cwd : Bytes) : Act Unit Unit Unit Bytes := .engine quietMoment (.header ⟨some 0,cwd,0,0,0,[]⟩)

/-- A worker computes while a reload replaces it and the next header asks the new one. -/
def replacedWorker : List (Act Unit Unit Unit Bytes) :=
  [headerIn [97],.worker 0 .recv,.engine quietMoment (.reload (some (some [116])) (fun _ => some oneRow)),
    .worker 1 .drained,headerIn [98],.worker 0 .recv,.worker 0 .drained,.worker 0 (.compute (some [1])),
    .worker 1 (.compute (some [2])),.worker 0 .send,.worker 1 .send,.worker 1 .exit,
    .engine quietMoment .gitResult,.engine quietMoment .gitResult]

theorem gitProtocolReplaced : GitProtocol plainLook plainSession replacedWorker :=
  gitProtocol plainLook .zsh oneRow none terminal [104] replacedWorker
    ⟨show (0 : UInt64).toNat + 1 < 2^64 by decide,trivial,trivial,trivial,
      show (1 : UInt64).toNat + 1 < 2^64 by decide,trivial,trivial,trivial,trivial,trivial,trivial,trivial,
      trivial,trivial,trivial⟩

def waitingResult : List (Act Unit Unit Unit Bytes) :=
  [headerIn [97],.worker 0 .recv,.worker 0 .drained,.worker 0 (.compute (some [1])),.worker 0 .send]

/-- A result waits while the prompt counter goes once around. -/
def wrapped (headers : Nat) : List (Act Unit Unit Unit Bytes) :=
  waitingResult ++ List.replicate headers (headerIn [98]) ++ [.engine quietMoment .gitResult]

theorem wrappedAdoptsOther {headers : Nat} (some' : 0 < headers) (around : UInt64.ofNat headers = 0) :
    ¬ GitProtocol plainLook plainSession (wrapped headers) := by
  intro protocol
  have adopts := protocol.current _ (.engine quietMoment .gitResult) [] rfl
  have waiting := headersRun plainLook (Machine.run (sessionStep plainLook) plainSession waitingResult).1
    quietMoment ⟨some 0,[98],0,0,0,[]⟩ headers
  rw [show Act.engine quietMoment (.header ⟨some 0,[98],0,0,0,[]⟩) = headerIn [98] from rfl] at waiting
  dsimp only at adopts waiting
  rw [Machine.runAppend] at adopts
  dsimp only at adopts
  obtain ⟨results,origins,gitGen,shown⟩ := waiting
  rw [around,UInt64.add_zero] at gitGen
  generalize (Machine.run (sessionStep plainLook) (Machine.run (sessionStep plainLook) plainSession
    waitingResult).1 (List.replicate headers (headerIn [98]))).1 = s at results origins gitGen shown adopts
  have adopted : (⟨0,⟨1,[97]⟩,some ⟨[97],[1]⟩⟩ : Adoption Bytes) ∈ adoption s := by
    rw [adoption,results,origins,gitGen]
    decide
  have cwd := (adopts _ adopted).cwd
  rw [shown some'] at cwd
  contradiction

theorem wrappedCounterAdoptsOther : ¬ GitProtocol plainLook plainSession (wrapped (2^64)) :=
  wrappedAdoptsOther (by decide) (by decide)

end P11k.Engine
