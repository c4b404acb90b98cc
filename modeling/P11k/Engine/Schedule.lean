import P11k.Engine.AnnounceReads
import P11k.Engine.GitWorker
import P11k.Engine.Handshake
import P11k.Engine.Signal

/-! What wakes the loop. Its thread goes through the blocks in order and blocks in `poll`; signal handlers set a flag
and git workers send a result before they write a byte into the signal pipe. Each write is a step of its own, on any
thread and at any place of the loop. -/
namespace P11k.Engine
open Gitstatus (Bytes)

inductive Caught where
  | winch
  | usr1
  deriving DecidableEq, Repr

/-- Where the loop is. Behind `poll` are the descriptors that it reported. -/
inductive Place where
  /-- The handlers are installed and the pipe is not. -/
  | starting
  | reload
  | resize
  | announce
  | draining (msgs : List AnnMsg)
  | handling (msgs : List AnnMsg)
  | poll
  | woken (stdin pty signal : Bool)
  | stdin (ready pty : Bool)
  | pty (ready : Bool)
  | results
  | deferred
  | left
  deriving DecidableEq, Repr

/-- `own` and `elsewhere` count the handlers that have set their flag and not written their byte, on the thread of the
loop and on other threads; `sent` counts the workers between the result and the byte. `buffered` is what the process
has read of the terminal and not yet taken. -/
structure Schedule (ρ θ δ : Type) where
  loop : State ρ θ δ
  scanner : SignalScanner
  place : Place
  reloadFlag : Bool
  resizeFlag : Bool
  pipe : Nat
  own : Nat
  elsewhere : Nat
  sent : Nat
  /-- A handler has run on the thread of the loop since its last step. -/
  interrupted : Bool
  terminal : Bytes
  buffered : Bytes
  terminalClosed : Bool
  pty : Bytes
  ptyClosed : Bool
  fifo : Bytes
  pending : Bytes

/-- What a step of the loop finds outside: the moment, the reload request, the theme files, and how many bytes a
read gets. -/
structure Found (ε ρ θ : Type) where
  moment : Moment ε
  request : Option (Option Bytes)
  load : Bytes → Option (Config ρ θ)
  granted : Nat

inductive Advance (δ : Type) where
  | loop
  /-- A system call that blocks is broken off after a handler. -/
  | eintr
  | caught (signal : Caught) (onLoop : Bool)
  | handlerWrites (onLoop : Bool)
  | workerWrites
  | worked (i k : Nat) (found : Option δ)
  | typed (bytes : Bytes)
  | hangUp
  | printed (bytes : Bytes)
  | exited
  | announced (bytes : Bytes)

/-- The buffer of the standard input, and what the loop takes of it at once. -/
def stdinBuffer : Nat := 8192
def stdinRead : Nat := 4096
def ptyRead : Nat := 8192
def signalRead : Nat := 64

def atLeastOne (granted most : Nat) : Nat := max 1 (min granted most)

def Caught.setFlag {ρ θ δ : Type} (s : Schedule ρ θ δ) : Caught → Schedule ρ θ δ
  | .winch => { s with resizeFlag := true }
  | .usr1 => { s with reloadFlag := true }

section schedule
variable {ε ρ θ δ : Type} (look : Look ε ρ θ δ) (room : Nat)

def Schedule.take (s : Schedule ρ θ δ) (e : Moment ε × Event ρ θ δ) : Schedule ρ θ δ × List (Output δ) :=
  ({ s with loop := (step look s.loop e).1 },(step look s.loop e).2)

def readyStdin (s : Schedule ρ θ δ) : Bool := s.terminal ≠ [] || s.terminalClosed
def readyPty (s : Schedule ρ θ δ) : Bool := s.pty ≠ [] || s.ptyClosed
def ready (s : Schedule ρ θ δ) : Bool := readyStdin s || readyPty s || s.fifo ≠ [] || 0 < s.pipe

/-- `stdin.read`: an empty buffer is filled first. -/
def readStdin (s : Schedule ρ θ δ) (granted : Nat) : Schedule ρ θ δ × Bytes :=
  let n := atLeastOne granted stdinBuffer
  let s := if s.buffered = [] then { s with buffered := s.terminal.take n, terminal := s.terminal.drop n } else s
  ({ s with buffered := s.buffered.drop stdinRead },s.buffered.take stdinRead)

def loopStep (s : Schedule ρ θ δ) (f : Found ε ρ θ) : Schedule ρ θ δ × List (Output δ) :=
  match s.place with
  | .starting => ({ s with place := .reload },[])
  | .reload =>
      if s.reloadFlag then
        Schedule.take look { s with reloadFlag := false, place := .resize } (f.moment,.reload f.request f.load)
      else ({ s with place := .resize },[])
  | .resize =>
      if s.resizeFlag then Schedule.take look { s with resizeFlag := false, place := .announce } (f.moment,.windowChange)
      else ({ s with place := .announce },[])
  | .announce => ({ s with place := if s.pty ≠ [] then .poll else .draining [] },[])
  | .draining msgs =>
      if s.fifo = [] then ({ s with place := .handling msgs },[]) else
        let pushed := pushAnnounce s.pending (s.fifo.take chunkSize)
        ({ s with place := .draining (msgs ++ pushed.1), pending := pushed.2, fifo := s.fifo.drop chunkSize },[])
  | .handling [] => ({ s with place := .poll },[])
  | .handling (msg :: msgs) => Schedule.take look { s with place := .handling msgs } (f.moment,msg.event)
  | .poll =>
      if ready s then ({ s with place := .woken (readyStdin s) (readyPty s) (0 < s.pipe) },[]) else (s,[])
  | .woken stdin pty signal =>
      ({ s with place := .stdin stdin pty, pipe := if signal then s.pipe - signalRead else s.pipe },[])
  | .stdin ready pty =>
      if ready then
        let r := readStdin s f.granted
        if r.2 = [] then ({ r.1 with place := .left },[])
        else Schedule.take look { r.1 with place := .pty pty } (f.moment,.input r.2)
      else ({ s with place := .pty pty },[])
  | .pty ready =>
      if ready then
        let n := atLeastOne f.granted ptyRead
        let bytes := s.pty.take n
        let r := s.scanner.push bytes
        if bytes = [] then ({ s with place := .left },[])
        else Schedule.take look { s with place := .results, pty := s.pty.drop n, scanner := r.1 }
          (f.moment,.output r.2.signals (bytes.count 10))
      else ({ s with place := .results },[])
  | .results => if s.loop.results = [] then ({ s with place := .deferred },[]) else Schedule.take look s (f.moment,.gitResult)
  | .deferred => Schedule.take look { s with place := .reload } (f.moment,.deferredPrompt)
  | .left => (s,[])

/-- One byte, where there is a pipe; a full one blocks the writer. -/
def wake (s : Schedule ρ θ δ) : Option (Schedule ρ θ δ) :=
  if s.place = .starting then some s
  else if s.pipe < room then some { s with pipe := s.pipe + 1 }
  else none

def blocksIn (s : Schedule ρ θ δ) : Bool :=
  match s.place with
  | .poll => true
  | .stdin ready _ => ready && s.buffered = []
  | .pty ready => ready
  | _ => false

/-- While a handler is on the thread of the loop, the loop stands still. -/
def scheduleStep (s : Schedule ρ θ δ) (t : Found ε ρ θ × Advance δ) : Schedule ρ θ δ × List (Output δ) :=
  match t.2 with
  | .loop => if s.own = 0 then loopStep look { s with interrupted := false } t.1 else (s,[])
  | .eintr =>
      (if s.own = 0 ∧ s.interrupted ∧ blocksIn s then { s with interrupted := false, place := .reload } else s,[])
  | .caught signal true => ({ signal.setFlag s with own := s.own + 1 },[])
  | .caught signal false => ({ signal.setFlag s with elsewhere := s.elsewhere + 1 },[])
  | .handlerWrites true =>
      (match s.own, wake room s with
        | own + 1, some s => { s with own := own, interrupted := s.place ≠ .starting }
        | _, _ => s,[])
  | .handlerWrites false =>
      (match s.elsewhere, wake room s with
        | elsewhere + 1, some s => { s with elsewhere := elsewhere }
        | _, _ => s,[])
  | .workerWrites =>
      (match s.sent, wake room s with
        | sent + 1, some s => { s with sent := sent }
        | _, _ => s,[])
  | .worked i k found =>
      (if (s.loop.workers[i]?).bind (·[k]?) |>.isSome then
        { s with loop := worked s.loop i k found, sent := s.sent + 1 } else s,[])
  | .typed bytes => ({ s with terminal := s.terminal ++ bytes },[])
  | .hangUp => ({ s with terminalClosed := true },[])
  | .printed bytes => ({ s with pty := s.pty ++ bytes },[])
  | .exited => ({ s with ptyClosed := true },[])
  | .announced bytes => ({ s with fifo := s.fifo ++ bytes },[])

def scheduleStart (loop : State ρ θ δ) : Schedule ρ θ δ where
  loop := loop
  scanner := ⟨[]⟩
  place := .starting
  reloadFlag := false
  resizeFlag := false
  pipe := 0
  own := 0
  elsewhere := 0
  sent := 0
  interrupted := false
  terminal := []
  buffered := []
  terminalClosed := false
  pty := []
  ptyClosed := false
  fifo := []
  pending := []

/-! No wakeup is lost. -/

/-- The bytes that are in the pipe or about to be written into it. -/
def owed (s : Schedule ρ θ δ) : Nat := s.pipe + s.own + s.elsewhere + s.sent

/-- From these places the loop gets to the flag, or to the results, before it gets to the pipe. -/
@[simp] def Place.aheadOfReload : Place → Bool
  | .starting | .reload | .stdin _ _ | .pty _ | .results | .deferred | .left => true
  | _ => false

@[simp] def Place.aheadOfResize : Place → Bool
  | .resize => true
  | place => place.aheadOfReload

@[simp] def Place.aheadOfResults : Place → Bool
  | .stdin _ _ | .pty _ | .results | .left => true
  | _ => false

structure Alert (s : Schedule ρ θ δ) : Prop where
  reload : s.reloadFlag = true → 0 < owed s ∨ s.place.aheadOfReload = true
  resize : s.resizeFlag = true → 0 < owed s ∨ s.place.aheadOfResize = true
  results : s.loop.results ≠ [] → 0 < owed s ∨ s.place.aheadOfResults = true
  interrupted : s.interrupted = true → 0 < s.pipe
  /-- Nothing is asked of the workers before the loop starts. -/
  starting : s.place = .starting → s.loop.results = [] ∧ ∀ i k : Nat, (s.loop.workers[i]?).bind (·[k]?) = none

variable {look room}

theorem stepResults (s : State ρ θ δ) (m : Moment ε) {what : Event ρ θ δ} (notResult : what ≠ .gitResult)
    (notWorked : ∀ i k found, what ≠ .worked i k found) : (step look s (m,what)).1.results = s.results := by
  by_cases isHeader : ∃ info, what = .header info
  · obtain ⟨info,rfl⟩ := isHeader
    rfl
  · rcases stepShared look s m (fun info same => isHeader ⟨info,same⟩) notResult notWorked with same | same
    · exact congrArg (·.2.1) same
    · exact congrArg (·.2.1) same

theorem eventResults (msg : AnnMsg) : (msg.event : Event ρ θ δ) ≠ .gitResult ∧
    ∀ i k found, (msg.event : Event ρ θ δ) ≠ .worked i k found := by
  cases msg <;> exact ⟨by simp [AnnMsg.event],by simp [AnnMsg.event]⟩

/-- A byte that is owed stays owed until the loop is ahead of everything again. -/
theorem alertMoved {s t : Schedule ρ θ δ} (alert : Alert s)
    (reload : t.reloadFlag = true → t.place.aheadOfReload = true ∨
      s.reloadFlag = true ∧ s.place.aheadOfReload = false ∧ owed s ≤ owed t)
    (resize : t.resizeFlag = true → t.place.aheadOfResize = true ∨
      s.resizeFlag = true ∧ s.place.aheadOfResize = false ∧ owed s ≤ owed t)
    (results : t.loop.results ≠ [] → t.place.aheadOfResults = true ∨
      s.loop.results ≠ [] ∧ s.place.aheadOfResults = false ∧ owed s ≤ owed t)
    (interrupted : t.interrupted = true → 0 < t.pipe)
    (starting : t.place = .starting → t.loop.results = [] ∧
      ∀ i k : Nat, (t.loop.workers[i]?).bind (·[k]?) = none) : Alert t := by
  refine ⟨fun flag => ?_,fun flag => ?_,fun some' => ?_,interrupted,starting⟩
  · rcases reload flag with ahead | ⟨before,behind,more⟩
    · exact .inr ahead
    · rcases alert.reload before with byte | ahead
      · exact .inl (Nat.lt_of_lt_of_le byte more)
      · rw [ahead] at behind
        cases behind
  · rcases resize flag with ahead | ⟨before,behind,more⟩
    · exact .inr ahead
    · rcases alert.resize before with byte | ahead
      · exact .inl (Nat.lt_of_lt_of_le byte more)
      · rw [ahead] at behind
        cases behind
  · rcases results some' with ahead | ⟨before,behind,more⟩
    · exact .inr ahead
    · rcases alert.results before with byte | ahead
      · exact .inl (Nat.lt_of_lt_of_le byte more)
      · rw [ahead] at behind
        cases behind

theorem takeResults (s : Schedule ρ θ δ) (m : Moment ε) {what : Event ρ θ δ} (notResult : what ≠ .gitResult)
    (notWorked : ∀ i k found, what ≠ .worked i k found) :
    (Schedule.take look s (m,what)).1.loop.results = s.loop.results := stepResults s.loop m notResult notWorked

theorem alertNext {s t : Schedule ρ θ δ} (alert : Alert s) (calm : t.interrupted = false) (same : owed t = owed s)
    (results : t.loop.results = s.loop.results) (begun : t.place ≠ .starting)
    (reload : s.place.aheadOfReload = true → t.place.aheadOfReload = true ∨ t.reloadFlag = false)
    (reload' : t.reloadFlag = true → s.reloadFlag = true)
    (resize : s.place.aheadOfResize = true → t.place.aheadOfResize = true ∨ t.resizeFlag = false)
    (resize' : t.resizeFlag = true → s.resizeFlag = true)
    (ahead : s.place.aheadOfResults = true → t.place.aheadOfResults = true) : Alert t := by
  refine alertMoved alert (fun flag => ?_) (fun flag => ?_) (fun some' => ?_) (fun yes => ?_) (fun no => absurd no begun)
  · cases here : s.place.aheadOfReload with
    | true =>
      rcases reload here with still | cleared
      · exact .inl still
      · rw [cleared] at flag
        cases flag
    | false => exact .inr ⟨reload' flag,rfl,same.ge⟩
  · cases here : s.place.aheadOfResize with
    | true =>
      rcases resize here with still | cleared
      · exact .inl still
      · rw [cleared] at flag
        cases flag
    | false => exact .inr ⟨resize' flag,rfl,same.ge⟩
  · rw [results] at some'
    cases here : s.place.aheadOfResults with
    | true => exact .inl (ahead here)
    | false => exact .inr ⟨some',rfl,same.ge⟩
  · rw [calm] at yes
    cases yes

theorem readStdinSame (s : Schedule ρ θ δ) (n : Nat) :
    ∃ buffered terminal, (readStdin s n).1 = { s with buffered := buffered, terminal := terminal } := by
  unfold readStdin
  split <;> exact ⟨_,_,rfl⟩

theorem alertLoop {s : Schedule ρ θ δ} (alert : Alert s) (calm : s.interrupted = false) (f : Found ε ρ θ) :
    Alert (loopStep look s f).1 := by
  cases place : s.place with
  | starting =>
    simp only [loopStep,place]
    refine alertNext alert calm rfl rfl (by simp) ?_ id ?_ id ?_ <;> simp [place]
  | reload =>
    simp only [loopStep,place]
    split
    · refine alertNext alert calm rfl (takeResults _ _ (by simp) (by simp)) (by simp [Schedule.take]) ?_ ?_ ?_ id ?_ <;>
        simp [place,Schedule.take]
    · rename_i clear
      refine alertNext alert calm rfl rfl (by simp) ?_ id ?_ id ?_ <;> simp [place,clear]
  | resize =>
    simp only [loopStep,place]
    split
    · refine alertNext alert calm rfl (takeResults _ _ (by simp) (by simp)) (by simp [Schedule.take]) ?_ id ?_ ?_ ?_ <;>
        simp [place,Schedule.take]
    · rename_i clear
      refine alertNext alert calm rfl rfl (by simp) ?_ id ?_ id ?_ <;> simp [place,clear]
  | announce =>
    simp only [loopStep,place]
    split <;> refine alertNext alert calm rfl rfl (by simp) ?_ id ?_ id ?_ <;> simp [place]
  | draining msgs =>
    simp only [loopStep,place]
    split <;> refine alertNext alert calm rfl rfl (by simp) ?_ id ?_ id ?_ <;> simp [place]
  | handling msgs =>
    cases msgs with
    | nil =>
      simp only [loopStep,place]
      refine alertNext alert calm rfl rfl (by simp) ?_ id ?_ id ?_ <;> simp [place]
    | cons msg msgs =>
      simp only [loopStep,place]
      obtain ⟨notResult,notWorked⟩ := eventResults (ρ := ρ) (θ := θ) (δ := δ) msg
      refine alertNext alert calm rfl (takeResults _ _ notResult notWorked) (by simp [Schedule.take]) ?_ id ?_ id ?_ <;>
        simp [place]
  | poll =>
    simp only [loopStep,place]
    split
    · refine alertNext alert calm rfl rfl (by simp) ?_ id ?_ id ?_ <;> simp [place]
    · exact alert
  | woken stdin pty signal =>
    -- What is taken from the pipe is paid for by what is ahead.
    simp only [loopStep,place]
    refine alertMoved alert (fun _ => .inl rfl) (fun _ => .inl rfl) (fun _ => .inl rfl) (fun yes => ?_) (by simp)
    exact absurd (calm.symm.trans yes) Bool.false_ne_true
  | stdin ready pty =>
    simp only [loopStep,place]
    obtain ⟨buffered,terminal,same⟩ := readStdinSame s f.granted
    split
    · rw [same]
      split
      · refine alertNext alert calm rfl rfl (by simp) ?_ id ?_ id ?_ <;> simp
      · refine alertNext alert calm rfl (takeResults _ _ (by simp) (by simp)) (by simp [Schedule.take]) ?_ id ?_ id ?_ <;>
          simp [Schedule.take]
    · refine alertNext alert calm rfl rfl (by simp) ?_ id ?_ id ?_ <;> simp
  | pty ready =>
    simp only [loopStep,place]
    split
    · split
      · refine alertNext alert calm rfl rfl (by simp) ?_ id ?_ id ?_ <;> simp
      · refine alertNext alert calm rfl (takeResults _ _ (by simp) (by simp)) (by simp [Schedule.take]) ?_ id ?_ id ?_ <;>
          simp [Schedule.take]
    · refine alertNext alert calm rfl rfl (by simp) ?_ id ?_ id ?_ <;> simp
  | results =>
    simp only [loopStep,place]
    split
    · rename_i none'
      refine alertMoved alert (fun _ => .inl rfl) (fun _ => .inl rfl) (fun some' => absurd none' some') (fun yes => ?_)
        (by simp)
      exact absurd (calm.symm.trans yes) Bool.false_ne_true
    · have here : (Schedule.take look s (f.moment,.gitResult)).1.place = .results := place
      refine alertMoved alert (fun _ => .inl ?_) (fun _ => .inl ?_) (fun _ => .inl ?_) (fun yes => ?_) (by simp [here])
      · simp [here]
      · simp [here]
      · simp [here]
      · exact absurd (calm.symm.trans yes) Bool.false_ne_true
  | deferred =>
    simp only [loopStep,place]
    refine alertNext alert calm rfl (takeResults _ _ (by simp) (by simp)) (by simp [Schedule.take]) ?_ id ?_ id ?_ <;>
      simp [place,Schedule.take]
  | left => simpa only [loopStep,place] using alert

theorem wakeCases {s t : Schedule ρ θ δ} (woke : wake room s = some t) :
    s.place = .starting ∧ t = s ∨ s.place ≠ .starting ∧ t = { s with pipe := s.pipe + 1 } := by
  unfold wake at woke
  split at woke
  · rename_i begun
    exact .inl ⟨begun,(Option.some.inj woke).symm⟩
  · rename_i begun
    split at woke
    · exact .inr ⟨begun,(Option.some.inj woke).symm⟩
    · cases woke

/-- Beside the loop nothing takes a byte that is owed, once there is a pipe. -/
theorem alertBeside {s t : Schedule ρ θ δ} (alert : Alert s) (place : t.place = s.place)
    (reload : t.reloadFlag = s.reloadFlag) (resize : t.resizeFlag = s.resizeFlag) (loop : t.loop = s.loop)
    (same : s.place ≠ .starting → owed s ≤ owed t) (interrupted : t.interrupted = true → 0 < t.pipe) : Alert t := by
  refine ⟨?_,?_,?_,interrupted,?_⟩
  · rw [reload,place]
    intro flag
    by_cases begun : s.place = .starting
    · exact .inr (by simp [begun])
    · exact (alert.reload flag).imp_left fun byte => Nat.lt_of_lt_of_le byte (same begun)
  · rw [resize,place]
    intro flag
    by_cases begun : s.place = .starting
    · exact .inr (by simp [begun])
    · exact (alert.resize flag).imp_left fun byte => Nat.lt_of_lt_of_le byte (same begun)
  · rw [loop,place]
    intro some'
    by_cases begun : s.place = .starting
    · exact absurd (alert.starting begun).1 some'
    · exact (alert.results some').imp_left fun byte => Nat.lt_of_lt_of_le byte (same begun)
  · rw [loop,place]
    exact alert.starting

theorem alertStep {s : Schedule ρ θ δ} (alert : Alert s) (a : Found ε ρ θ × Advance δ) :
    Alert (scheduleStep look room s a).1 := by
  obtain ⟨f,advance⟩ := a
  cases advance with
  | loop =>
    simp only [scheduleStep]
    split
    · have calm : Alert { s with interrupted := false } :=
        alertBeside alert rfl rfl rfl rfl (fun _ => le_refl _) (fun no => by cases no)
      exact alertLoop calm rfl f
    · exact alert
  | eintr =>
    simp only [scheduleStep]
    split
    · rename_i broken
      -- The handler that breaks the call off has written its byte, and nobody has taken it.
      have byte := alert.interrupted broken.2.1
      refine ⟨fun _ => .inr rfl,fun _ => .inr rfl,fun _ => .inl ?_,fun no => (by cases no),fun no => (by cases no)⟩
      simp only [owed]
      omega
    · exact alert
  | caught signal onLoop =>
    have flagged : ∀ t : Schedule ρ θ δ, 0 < owed t → t.loop = s.loop → t.place = s.place → t.pipe = s.pipe →
        t.interrupted = s.interrupted → Alert t := by
      intro t byte loop place pipe interrupted
      refine ⟨fun _ => .inl byte,fun _ => .inl byte,fun _ => .inl byte,?_,?_⟩
      · rw [interrupted,pipe]
        exact alert.interrupted
      · rw [place,loop]
        exact alert.starting
    cases signal <;> cases onLoop <;>
      refine flagged _ ?_ rfl rfl rfl rfl <;> simp only [scheduleStep,Caught.setFlag,owed] <;> omega
  | handlerWrites onLoop =>
    cases onLoop with
    | true =>
      simp only [scheduleStep]
      split
      · rename_i own t waits woke
        rcases wakeCases woke with ⟨begun,rfl⟩ | ⟨begun,rfl⟩
        · refine alertBeside alert rfl rfl rfl rfl (fun no => absurd begun no) (fun yes => ?_)
          simp [begun] at yes
        · refine alertBeside alert rfl rfl rfl rfl (fun _ => ?_) (fun _ => Nat.succ_pos _)
          simp only [owed,waits]
          omega
      · exact alert
    | false =>
      simp only [scheduleStep]
      split
      · rename_i elsewhere t waits woke
        rcases wakeCases woke with ⟨begun,rfl⟩ | ⟨begun,rfl⟩
        · exact alertBeside alert rfl rfl rfl rfl (fun no => absurd begun no) alert.interrupted
        · refine alertBeside alert rfl rfl rfl rfl (fun _ => ?_) (fun _ => Nat.succ_pos _)
          simp only [owed,waits]
          omega
      · exact alert
  | workerWrites =>
    simp only [scheduleStep]
    split
    · rename_i sent t waits woke
      rcases wakeCases woke with ⟨begun,rfl⟩ | ⟨begun,rfl⟩
      · exact alertBeside alert rfl rfl rfl rfl (fun no => absurd begun no) alert.interrupted
      · refine alertBeside alert rfl rfl rfl rfl (fun _ => ?_) (fun _ => Nat.succ_pos _)
        simp only [owed,waits]
        omega
    · exact alert
  | worked i k found =>
    simp only [scheduleStep]
    split
    · rename_i asked
      have byte : 0 < owed { s with loop := worked s.loop i k found, sent := s.sent + 1 } := by
        simp only [owed]
        omega
      refine ⟨fun _ => .inl byte,fun _ => .inl byte,fun _ => .inl byte,alert.interrupted,fun begun => ?_⟩
      rw [(alert.starting begun).2 i k] at asked
      cases asked
    · exact alert
  | typed bytes => exact alertBeside alert rfl rfl rfl rfl (fun _ => le_refl _) alert.interrupted
  | hangUp => exact alertBeside alert rfl rfl rfl rfl (fun _ => le_refl _) alert.interrupted
  | printed bytes => exact alertBeside alert rfl rfl rfl rfl (fun _ => le_refl _) alert.interrupted
  | exited => exact alertBeside alert rfl rfl rfl rfl (fun _ => le_refl _) alert.interrupted
  | announced bytes => exact alertBeside alert rfl rfl rfl rfl (fun _ => le_refl _) alert.interrupted

theorem alertStart (shell : Shell) (config : Config ρ θ) (configPath : Option Bytes) (size : Size) (cwd : Bytes) :
    Alert (scheduleStart (start look shell config configPath size cwd) : Schedule ρ θ δ) := by
  refine ⟨fun no => (by cases no),fun no => (by cases no),fun some' => absurd rfl some',fun no => (by cases no),fun _ => ⟨rfl,?_⟩⟩
  intro i k
  cases i <;> simp [scheduleStart,start]

def Blocked (s : Schedule ρ θ δ) : Prop := s.place = .poll ∧ s.own = 0 ∧ ready s = false

/-- No read of the terminal gets more than the loop takes at once. -/
def Granted (_ : Schedule ρ θ δ) (a : Found ε ρ θ × Advance δ) : Prop := a.1.granted ≤ stdinRead

/-- The reads leave no byte in the buffer of the standard input, and no whole line among the pending bytes. -/
structure Drained (s : Schedule ρ θ δ) : Prop where
  buffered : s.buffered = []
  pending : 10 ∉ s.pending

theorem readStdinFlat {s : Schedule ρ θ δ} (flat : s.buffered = []) {n : Nat} (few : n ≤ stdinRead) :
    (readStdin s n).1.buffered = [] ∧ (readStdin s n).2 = s.terminal.take (atLeastOne n stdinBuffer) ∧
      (readStdin s n).1.terminal = s.terminal.drop (atLeastOne n stdinBuffer) := by
  have most : (s.terminal.take (atLeastOne n stdinBuffer)).length ≤ stdinRead := by
    have : atLeastOne n stdinBuffer ≤ stdinRead := by
      unfold atLeastOne stdinBuffer stdinRead
      unfold stdinRead at few
      omega
    exact (List.length_take_le ..).trans this
  simp only [readStdin,if_pos flat]
  exact ⟨List.drop_of_length_le most,List.take_of_length_le most,trivial⟩

theorem drainedLoop {s : Schedule ρ θ δ} (drained : Drained s) {f : Found ε ρ θ} (few : f.granted ≤ stdinRead) :
    Drained (loopStep look s f).1 := by
  cases place : s.place with
  | draining msgs =>
    simp only [loopStep,place]
    split
    · exact ⟨drained.buffered,drained.pending⟩
    · exact ⟨drained.buffered,(pushShort drained.pending (List.length_take_le ..)).1⟩
  | stdin ready pty =>
    simp only [loopStep,place]
    obtain ⟨buffered,terminal,same⟩ := readStdinSame s f.granted
    have flat := (readStdinFlat drained.buffered few).1
    have pending : 10 ∉ (readStdin s f.granted).1.pending := by
      rw [same]
      exact drained.pending
    split
    · split <;> exact ⟨flat,pending⟩
    · exact ⟨drained.buffered,drained.pending⟩
  | handling msgs =>
    cases msgs <;> simp only [loopStep,place] <;> exact ⟨drained.buffered,drained.pending⟩
  | starting | woken | announce | deferred =>
    simp only [loopStep,place]
    exact ⟨drained.buffered,drained.pending⟩
  | left => simpa only [loopStep,place] using drained
  | reload | resize | poll | results =>
    simp only [loopStep,place]
    split <;> exact ⟨drained.buffered,drained.pending⟩
  | pty ready =>
    simp only [loopStep,place]
    split
    · split <;> exact ⟨drained.buffered,drained.pending⟩
    · exact ⟨drained.buffered,drained.pending⟩

theorem wakeDrained {s t : Schedule ρ θ δ} (drained : Drained s) (woke : wake room s = some t) : Drained t := by
  rcases wakeCases woke with ⟨-,rfl⟩ | ⟨-,rfl⟩
  · exact drained
  · exact ⟨drained.buffered,drained.pending⟩

theorem drainedStep {s : Schedule ρ θ δ} (drained : Drained s) {a : Found ε ρ θ × Advance δ} (few : Granted s a) :
    Drained (scheduleStep look room s a).1 := by
  obtain ⟨f,advance⟩ := a
  cases advance with
  | loop =>
    simp only [scheduleStep]
    split
    · exact drainedLoop (s := { s with interrupted := false }) ⟨drained.buffered,drained.pending⟩ few
    · exact drained
  | caught signal onLoop => cases signal <;> cases onLoop <;> exact ⟨drained.buffered,drained.pending⟩
  | handlerWrites onLoop =>
    cases onLoop <;> simp only [scheduleStep] <;> split
    · rename_i woke
      exact ⟨(wakeDrained drained woke).buffered,(wakeDrained drained woke).pending⟩
    · exact drained
    · rename_i woke
      exact ⟨(wakeDrained drained woke).buffered,(wakeDrained drained woke).pending⟩
    · exact drained
  | workerWrites =>
    simp only [scheduleStep]
    split
    · rename_i woke
      exact ⟨(wakeDrained drained woke).buffered,(wakeDrained drained woke).pending⟩
    · exact drained
  | eintr | worked =>
    simp only [scheduleStep]
    split
    · exact ⟨drained.buffered,drained.pending⟩
    · exact drained
  | typed | hangUp | printed | exited | announced => exact ⟨drained.buffered,drained.pending⟩

theorem blockedEmpty {s : Schedule ρ θ δ} (blocked : Blocked s) : s.terminal = [] ∧ s.terminalClosed = false ∧
    s.pty = [] ∧ s.ptyClosed = false ∧ s.fifo = [] ∧ s.pipe = 0 := by
  have none' := blocked.2.2
  simp only [ready,readyStdin,readyPty,Bool.or_eq_false_iff,decide_eq_false_iff_not,not_not] at none'
  obtain ⟨⟨⟨⟨terminal,open'⟩,pty,open''⟩,fifo⟩,pipe⟩ := none'
  exact ⟨terminal,open',pty,open'',fifo,by omega⟩

theorem blockedQuiet {s : Schedule ρ θ δ} (alert : Alert s) (blocked : Blocked s) (pipe : s.pipe = 0)
    (elsewhere : s.elsewhere = 0) (sent : s.sent = 0) :
    s.reloadFlag = false ∧ s.resizeFlag = false ∧ s.loop.results = [] := by
  have nothing : owed s = 0 := by simp only [owed,pipe,blocked.2.1,elsewhere,sent]
  refine ⟨?_,?_,?_⟩
  · by_contra flag
    rcases alert.reload (Bool.eq_true_of_not_eq_false flag) with byte | ahead
    · omega
    · simp [blocked.1] at ahead
  · by_contra flag
    rcases alert.resize (Bool.eq_true_of_not_eq_false flag) with byte | ahead
    · omega
    · simp [blocked.1] at ahead
  · by_contra results
    rcases alert.results results with byte | ahead
    · omega
    · simp [blocked.1] at ahead

variable (look room) in
/-- Whatever the interleaving, when the loop blocks there is nothing that it has not seen: no byte of the terminal, the
shell or the announcements, no flag and no result, unless its writer has the byte still to write, and the pipe has
room for it. -/
theorem noWakeupLost (shell : Shell) (config : Config ρ θ) (configPath : Option Bytes) (size : Size) (cwd : Bytes)
    (advances : List (Found ε ρ θ × Advance δ))
    (granted : Machine.Guarded (scheduleStep look room) Granted
      (scheduleStart (start look shell config configPath size cwd)) advances) :
    let s := (Machine.run (scheduleStep look room)
      (scheduleStart (start look shell config configPath size cwd)) advances).1
    Blocked s →
      (s.terminal = [] ∧ s.buffered = [] ∧ s.pty = [] ∧ s.fifo = [] ∧ 10 ∉ s.pending) ∧
      (s.elsewhere = 0 → s.sent = 0 → s.reloadFlag = false ∧ s.resizeFlag = false ∧ s.loop.results = []) ∧
      (0 < room → ∃ t, wake room s = some t ∧ ready t = true) := by
  intro s blocked
  have keeps : ∀ (s : Schedule ρ θ δ) a, Alert s ∧ Drained s → Granted s a →
      Alert (scheduleStep look room s a).1 ∧ Drained (scheduleStep look room s a).1 :=
    fun s a ⟨alert,drained⟩ few => ⟨alertStep alert a,drainedStep drained few⟩
  obtain ⟨alert,drained⟩ : Alert s ∧ Drained s := Machine.runKeeps keeps
    ⟨alertStart shell config configPath size cwd,rfl,List.not_mem_nil⟩ granted
  obtain ⟨terminal,-,pty,-,fifo,pipe⟩ := blockedEmpty blocked
  refine ⟨⟨terminal,drained.buffered,pty,fifo,drained.pending⟩,blockedQuiet alert blocked pipe,fun some' => ?_⟩
  refine ⟨{ s with pipe := s.pipe + 1 },?_,?_⟩
  · rw [wake,if_neg (by simp [blocked.1]),if_pos (by omega)]
  · simp [ready]

end schedule

def nothingNew : Found Unit Unit Unit := ⟨quietMoment,none,fun _ => none,1⟩

/-- The window changes before the loop starts, and the handler is slow to write its byte. -/
def slowHandler : List (Found Unit Unit Unit × Advance Bytes) :=
  ((.caught .winch false) :: List.replicate 6 .loop).map (nothingNew,·)

theorem grantedLittle (s : Schedule Unit Unit Bytes) (a : Advance Bytes) : Granted s (nothingNew,a) :=
  show 1 ≤ stdinRead by decide

theorem slowHandlerSeen :
    let s := (Machine.run (scheduleStep plainLook 1) (scheduleStart plainStart) slowHandler).1
    s.resizeFlag = false ∧ s.elsewhere = 1 ∧ s.terminal = [] ∧ ∃ t, wake 1 s = some t ∧ ready t = true := by
  have seen := noWakeupLost plainLook 1 .zsh oneRow none terminal [104] slowHandler
    ⟨grantedLittle _ _,grantedLittle _ _,grantedLittle _ _,grantedLittle _ _,grantedLittle _ _,grantedLittle _ _,
      grantedLittle _ _,trivial⟩ ⟨by decide,by decide,by decide⟩
  exact ⟨by decide,by decide,seen.1.1,seen.2.2 (by decide)⟩

end P11k.Engine
