import P11k.Engine.Schedule

/-! Everything reaches the loop once and in order: whatever the interleaving, the thread of the loop runs as the
machine of its events. -/
namespace P11k.Engine
open Gitstatus (Bytes)

section delivery
variable {ε ρ θ δ : Type} {look : Look ε ρ θ δ} {room : Nat}

def typedIn (es : List (Moment ε × Event ρ θ δ)) : Bytes := es.flatMap fun e => match e.2 with
  | .input bytes => bytes
  | _ => []

def noticesIn (es : List (Moment ε × Event ρ θ δ)) : List AnnMsg := es.filterMap fun e => match e.2 with
  | .header info => some (.header info)
  | .resize => some .resize
  | .vimMode mode => some (.vimMode mode)
  | _ => none

/-- The signals and the newlines of each read of shell output. -/
def outputsIn (es : List (Moment ε × Event ρ θ δ)) : List (Nat × Nat) := es.filterMap fun e => match e.2 with
  | .output signals newlines => some (signals,newlines)
  | _ => none

def workedIn (es : List (Moment ε × Event ρ θ δ)) : List (Nat × Nat × Option δ) := es.filterMap fun e => match e.2 with
  | .worked i k found => some (i,k,found)
  | _ => none

def typedOf (as : List (Found ε ρ θ × Advance δ)) : Bytes := as.flatMap fun a => match a.2 with
  | .typed bytes => bytes
  | _ => []

def printedOf (as : List (Found ε ρ θ × Advance δ)) : Bytes := as.flatMap fun a => match a.2 with
  | .printed bytes => bytes
  | _ => []

def announcedOf (as : List (Found ε ρ θ × Advance δ)) : Bytes := as.flatMap fun a => match a.2 with
  | .announced bytes => bytes
  | _ => []

def workedOf (as : List (Found ε ρ θ × Advance δ)) : List (Nat × Nat × Option δ) := as.filterMap fun a => match a.2 with
  | .worked i k found => some (i,k,found)
  | _ => none

/-- The messages that the loop has read and not handled. -/
@[simp] def Place.inHand : Place → List AnnMsg
  | .draining msgs | .handling msgs => msgs
  | _ => []

/-- The announcements from `s` to `t`: what was read, in which chunks, and which messages it came to. -/
def Told (s t : Schedule ρ θ δ) (announced : Bytes) (notices : List AnnMsg) : Prop :=
  ∃ chunks : List Bytes, chunks.flatten ++ t.fifo = s.fifo ++ announced ∧
    pushAll s.pending chunks = ((pushAll s.pending chunks).1,t.pending) ∧
    notices ++ t.place.inHand = s.place.inHand ++ (pushAll s.pending chunks).1

def Shown (s t : Schedule ρ θ δ) (printed : Bytes) (outputs : List (Nat × Nat)) : Prop :=
  ∃ chunks : List Bytes, chunks.flatten ++ t.pty = s.pty ++ printed ∧ t.scanner = (s.scanner.pushes chunks).1 ∧
    outputs.map (·.1) = (s.scanner.pushes chunks).2.map (·.signals) ∧ outputs.map (·.2) = chunks.map (·.count 10)

variable (look) in
/-- What the schedule did from `s` to `t` is a run of the loop. -/
structure Accounted (s t : Schedule ρ θ δ) (as : List (Found ε ρ θ × Advance δ)) (os : List (Output δ))
    (es : List (Moment ε × Event ρ θ δ)) : Prop where
  loop : Machine.run (step look) s.loop es = (t.loop,os)
  typed : typedIn es ++ (t.buffered ++ t.terminal) = s.buffered ++ s.terminal ++ typedOf as
  told : Told s t (announcedOf as) (noticesIn es)
  shown : Shown s t (printedOf as) (outputsIn es)
  worked : workedIn es = workedOf as

theorem toldThen {s t u : Schedule ρ θ δ} {announced more : Bytes} {notices later : List AnnMsg}
    (first : Told s t announced notices) (rest : Told t u more later) :
    Told s u (announced ++ more) (notices ++ later) := by
  obtain ⟨chunks,bytes,read,hand⟩ := first
  obtain ⟨chunks',bytes',read',hand'⟩ := rest
  have pending : (pushAll s.pending chunks).2 = t.pending := congrArg Prod.snd read
  refine ⟨chunks ++ chunks',?_,?_,?_⟩
  · rw [List.flatten_append,List.append_assoc,bytes',← List.append_assoc,bytes,List.append_assoc]
  · rw [pushAllAppend,pending,read']
  · rw [pushAllAppend,pending,List.append_assoc,hand',← List.append_assoc,hand,List.append_assoc]

theorem pushesAppend (scanner : SignalScanner) (chunks more : List Bytes) :
    scanner.pushes (chunks ++ more) = (((scanner.pushes chunks).1.pushes more).1,
      (scanner.pushes chunks).2 ++ ((scanner.pushes chunks).1.pushes more).2) := by
  induction chunks generalizing scanner with
  | nil => rfl
  | cons chunk chunks ih => simp only [List.cons_append,SignalScanner.pushes,ih]

theorem shownThen {s t u : Schedule ρ θ δ} {printed more : Bytes} {outputs later : List (Nat × Nat)}
    (first : Shown s t printed outputs) (rest : Shown t u more later) :
    Shown s u (printed ++ more) (outputs ++ later) := by
  obtain ⟨chunks,bytes,scanner,signals,newlines⟩ := first
  obtain ⟨chunks',bytes',scanner',signals',newlines'⟩ := rest
  refine ⟨chunks ++ chunks',?_,?_,?_,?_⟩
  · rw [List.flatten_append,List.append_assoc,bytes',← List.append_assoc,bytes,List.append_assoc]
  · rw [pushesAppend,← scanner,scanner']
  · rw [pushesAppend,← scanner,List.map_append,List.map_append,signals,signals']
  · rw [List.map_append,List.map_append,newlines,newlines']

theorem accountedThen {s t u : Schedule ρ θ δ} {as bs : List (Found ε ρ θ × Advance δ)} {os ps : List (Output δ)}
    {es fs : List (Moment ε × Event ρ θ δ)} (first : Accounted look s t as os es)
    (rest : Accounted look t u bs ps fs) : Accounted look s u (as ++ bs) (os ++ ps) (es ++ fs) := by
  refine ⟨Machine.runThen first.loop rest.loop,?_,?_,?_,?_⟩
  · rw [typedIn,List.flatMap_append,List.append_assoc]
    refine (congrArg _ rest.typed).trans ?_
    rw [← List.append_assoc]
    refine (congrArg (· ++ _) first.typed).trans ?_
    rw [typedOf,typedOf,typedOf,List.flatMap_append,List.append_assoc]
  · rw [announcedOf,noticesIn,List.flatMap_append,List.filterMap_append]
    exact toldThen first.told rest.told
  · rw [printedOf,outputsIn,List.flatMap_append,List.filterMap_append]
    exact shownThen first.shown rest.shown
  · rw [workedIn,workedOf,List.filterMap_append,List.filterMap_append]
    exact congrArg₂ _ first.worked rest.worked

theorem accountedNone (s : Schedule ρ θ δ) : Accounted look s s [] [] [] :=
  ⟨rfl,by simp [typedIn,typedOf],⟨[],by simp [announcedOf],rfl,by simp [noticesIn,pushAll]⟩,
    ⟨[],by simp [printedOf],rfl,rfl,rfl⟩,rfl⟩

theorem toldStill {s t : Schedule ρ θ δ} (fifo : t.fifo = s.fifo) (pending : t.pending = s.pending)
    (hand : t.place.inHand = s.place.inHand) : Told s t [] [] :=
  ⟨[],by rw [fifo]; simp,by rw [pending]; rfl,by rw [hand]; simp [pushAll]⟩

theorem shownStill {s t : Schedule ρ θ δ} (pty : t.pty = s.pty) (scanner : t.scanner = s.scanner) : Shown s t [] [] :=
  ⟨[],by rw [pty]; simp,scanner,rfl,rfl⟩

/-- An advance that brings nothing from outside. -/
structure Silent (a : Found ε ρ θ × Advance δ) : Prop where
  typed : typedOf [a] = []
  announced : announcedOf [a] = []
  printed : printedOf [a] = []
  worked : workedOf [a] = []

theorem accountedStill {s t : Schedule ρ θ δ} {a : Found ε ρ θ × Advance δ} (silent : Silent a) (loop : t.loop = s.loop)
    (bytes : t.buffered ++ t.terminal = s.buffered ++ s.terminal) (told : Told s t [] []) (shown : Shown s t [] []) :
    Accounted look s t [a] [] [] := by
  refine ⟨by rw [loop]; rfl,?_,?_,?_,silent.worked.symm⟩
  · rw [silent.typed,bytes,List.append_nil]
    rfl
  · rw [silent.announced]
    exact told
  · rw [silent.printed]
    exact shown

theorem accountedTake {s t : Schedule ρ θ δ} {a : Found ε ρ θ × Advance δ} (silent : Silent a) {m : Moment ε}
    {what : Event ρ θ δ} (loop : t.loop = (step look s.loop (m,what)).1)
    (bytes : typedIn [(m,what)] ++ (t.buffered ++ t.terminal) = s.buffered ++ s.terminal)
    (told : Told s t [] (noticesIn [(m,what)])) (shown : Shown s t [] (outputsIn [(m,what)]))
    (notWorked : workedIn [(m,what)] = []) :
    Accounted look s t [a] (step look s.loop (m,what)).2 [(m,what)] := by
  refine ⟨?_,?_,?_,?_,notWorked.trans silent.worked.symm⟩
  · simp only [Machine.run,List.append_nil,loop]
  · rw [silent.typed,bytes,List.append_nil]
  · rw [silent.announced]
    exact told
  · rw [silent.printed]
    exact shown

theorem readStdinBytes (s : Schedule ρ θ δ) (n : Nat) :
    (readStdin s n).2 ++ ((readStdin s n).1.buffered ++ (readStdin s n).1.terminal) = s.buffered ++ s.terminal := by
  unfold readStdin
  split
  · rename_i flat
    dsimp only
    rw [← List.append_assoc,List.take_append_drop,List.take_append_drop,flat,List.nil_append]
  · dsimp only
    rw [← List.append_assoc,List.take_append_drop]

variable (look) in
theorem accountedLoop (s : Schedule ρ θ δ) (f : Found ε ρ θ) :
    ∃ es, Accounted look s (loopStep look s f).1 [(f,.loop)] (loopStep look s f).2 es := by
  have silent : Silent ((f,.loop) : Found ε ρ θ × Advance δ) := ⟨rfl,rfl,rfl,rfl⟩
  cases place : s.place with
  | starting =>
    simp only [loopStep,place]
    exact ⟨_,accountedStill silent rfl rfl (toldStill rfl rfl (by simp [place])) (shownStill rfl rfl)⟩
  | reload =>
    simp only [loopStep,place]
    split
    · exact ⟨_,accountedTake silent rfl rfl (toldStill rfl rfl (by simp [place,Schedule.take])) (shownStill rfl rfl) rfl⟩
    · exact ⟨_,accountedStill silent rfl rfl (toldStill rfl rfl (by simp [place])) (shownStill rfl rfl)⟩
  | resize =>
    simp only [loopStep,place]
    split
    · exact ⟨_,accountedTake silent rfl rfl (toldStill rfl rfl (by simp [place,Schedule.take])) (shownStill rfl rfl) rfl⟩
    · exact ⟨_,accountedStill silent rfl rfl (toldStill rfl rfl (by simp [place])) (shownStill rfl rfl)⟩
  | announce =>
    simp only [loopStep,place]
    refine ⟨_,accountedStill silent rfl rfl (toldStill rfl rfl ?_) (shownStill rfl rfl)⟩
    split <;> simp [place]
  | draining msgs =>
    simp only [loopStep,place]
    split
    · exact ⟨_,accountedStill silent rfl rfl (toldStill rfl rfl (by simp [place])) (shownStill rfl rfl)⟩
    · refine ⟨_,accountedStill silent rfl rfl ⟨[s.fifo.take chunkSize],?_,?_,?_⟩ (shownStill rfl rfl)⟩
      · rw [List.flatten_singleton,List.take_append_drop,List.append_nil]
      · simp [pushAll]
      · simp [pushAll,place]
  | handling msgs =>
    cases msgs with
    | nil =>
      simp only [loopStep,place]
      exact ⟨_,accountedStill silent rfl rfl (toldStill rfl rfl (by simp [place])) (shownStill rfl rfl)⟩
    | cons msg msgs =>
      simp only [loopStep,place]
      have noticed : noticesIn [(f.moment,(msg.event : Event ρ θ δ))] = [msg] := by cases msg <;> rfl
      refine ⟨_,accountedTake silent rfl ?_ ⟨[],by simp [Schedule.take],rfl,?_⟩ ?_ ?_⟩
      · cases msg <;> rfl
      · rw [noticed]
        simp [place,Schedule.take,pushAll]
      · cases msg <;> exact shownStill rfl rfl
      · cases msg <;> rfl
  | poll =>
    simp only [loopStep,place]
    split
    · exact ⟨_,accountedStill silent rfl rfl (toldStill rfl rfl (by simp [place])) (shownStill rfl rfl)⟩
    · exact ⟨_,accountedStill silent rfl rfl (toldStill rfl rfl rfl) (shownStill rfl rfl)⟩
  | woken stdin pty signal =>
    simp only [loopStep,place]
    exact ⟨_,accountedStill silent rfl rfl (toldStill rfl rfl (by simp [place])) (shownStill rfl rfl)⟩
  | stdin ready pty =>
    simp only [loopStep,place]
    obtain ⟨buffered,terminal,same⟩ := readStdinSame s f.granted
    have bytes := readStdinBytes s f.granted
    split
    · rw [same] at bytes ⊢
      split
      · rename_i none'
        rw [none',List.nil_append] at bytes
        exact ⟨_,accountedStill silent rfl bytes (toldStill rfl rfl (by simp [place])) (shownStill rfl rfl)⟩
      · refine ⟨_,accountedTake silent rfl ?_ (toldStill rfl rfl (by simp [place,Schedule.take])) (shownStill rfl rfl) rfl⟩
        simpa [typedIn,Schedule.take] using bytes
    · exact ⟨_,accountedStill silent rfl rfl (toldStill rfl rfl (by simp [place])) (shownStill rfl rfl)⟩
  | pty ready =>
    simp only [loopStep,place]
    split
    · split
      · exact ⟨_,accountedStill silent rfl rfl (toldStill rfl rfl (by simp [place])) (shownStill rfl rfl)⟩
      · refine ⟨_,accountedTake silent rfl rfl (toldStill rfl rfl (by simp [place,Schedule.take]))
          ⟨[s.pty.take (atLeastOne f.granted ptyRead)],?_,?_,?_,?_⟩ rfl⟩
        · rw [List.flatten_singleton,List.append_nil]
          exact List.take_append_drop ..
        · rfl
        · rfl
        · rfl
    · exact ⟨_,accountedStill silent rfl rfl (toldStill rfl rfl (by simp [place])) (shownStill rfl rfl)⟩
  | results =>
    simp only [loopStep,place]
    split
    · exact ⟨_,accountedStill silent rfl rfl (toldStill rfl rfl (by simp [place])) (shownStill rfl rfl)⟩
    · exact ⟨_,accountedTake silent rfl rfl (toldStill rfl rfl rfl) (shownStill rfl rfl) rfl⟩
  | deferred =>
    simp only [loopStep,place]
    exact ⟨_,accountedTake silent rfl rfl (toldStill rfl rfl (by simp [place,Schedule.take])) (shownStill rfl rfl) rfl⟩
  | left =>
    simp only [loopStep,place]
    exact ⟨_,accountedStill silent rfl rfl (toldStill rfl rfl rfl) (shownStill rfl rfl)⟩

theorem wakeKept {s t : Schedule ρ θ δ} (woke : wake room s = some t) : ∃ pipe, t = { s with pipe := pipe } := by
  rcases wakeCases woke with ⟨-,rfl⟩ | ⟨-,rfl⟩
  · exact ⟨t.pipe,rfl⟩
  · exact ⟨_,rfl⟩

variable (look room) in
theorem accountedStep (s : Schedule ρ θ δ) (a : Found ε ρ θ × Advance δ) :
    ∃ es, Accounted look s (scheduleStep look room s a).1 [a] (scheduleStep look room s a).2 es := by
  obtain ⟨f,advance⟩ := a
  cases advance with
  | loop =>
    simp only [scheduleStep]
    split
    · obtain ⟨es,loop,typed,told,shown,worked⟩ := accountedLoop look { s with interrupted := false } f
      exact ⟨es,loop,typed,told,shown,worked⟩
    · exact ⟨_,accountedStill ⟨rfl,rfl,rfl,rfl⟩ rfl rfl (toldStill rfl rfl rfl) (shownStill rfl rfl)⟩
  | eintr =>
    simp only [scheduleStep]
    split
    · rename_i broken
      have empty : s.place.inHand = [] := by
        have blocks := broken.2.2
        unfold blocksIn at blocks
        split at blocks <;> simp_all
      exact ⟨_,accountedStill ⟨rfl,rfl,rfl,rfl⟩ rfl rfl (toldStill rfl rfl empty.symm) (shownStill rfl rfl)⟩
    · exact ⟨_,accountedStill ⟨rfl,rfl,rfl,rfl⟩ rfl rfl (toldStill rfl rfl rfl) (shownStill rfl rfl)⟩
  | caught signal onLoop =>
    cases signal <;> cases onLoop <;>
      exact ⟨_,accountedStill ⟨rfl,rfl,rfl,rfl⟩ rfl rfl (toldStill rfl rfl rfl) (shownStill rfl rfl)⟩
  | handlerWrites onLoop =>
    cases onLoop <;> simp only [scheduleStep] <;> split
    · rename_i woke
      obtain ⟨pipe,rfl⟩ := wakeKept woke
      exact ⟨_,accountedStill ⟨rfl,rfl,rfl,rfl⟩ rfl rfl (toldStill rfl rfl rfl) (shownStill rfl rfl)⟩
    · exact ⟨_,accountedStill ⟨rfl,rfl,rfl,rfl⟩ rfl rfl (toldStill rfl rfl rfl) (shownStill rfl rfl)⟩
    · rename_i woke
      obtain ⟨pipe,rfl⟩ := wakeKept woke
      exact ⟨_,accountedStill ⟨rfl,rfl,rfl,rfl⟩ rfl rfl (toldStill rfl rfl rfl) (shownStill rfl rfl)⟩
    · exact ⟨_,accountedStill ⟨rfl,rfl,rfl,rfl⟩ rfl rfl (toldStill rfl rfl rfl) (shownStill rfl rfl)⟩
  | workerWrites =>
    simp only [scheduleStep]
    split
    · rename_i woke
      obtain ⟨pipe,rfl⟩ := wakeKept woke
      exact ⟨_,accountedStill ⟨rfl,rfl,rfl,rfl⟩ rfl rfl (toldStill rfl rfl rfl) (shownStill rfl rfl)⟩
    · exact ⟨_,accountedStill ⟨rfl,rfl,rfl,rfl⟩ rfl rfl (toldStill rfl rfl rfl) (shownStill rfl rfl)⟩
  | worked i k found =>
    refine ⟨[(f.moment,.worked i k found)],?_⟩
    simp only [scheduleStep]
    split
    · exact ⟨rfl,by simp [typedIn,typedOf],toldStill rfl rfl rfl,shownStill rfl rfl,rfl⟩
    · rename_i idle
      have same : worked s.loop i k found = s.loop := by
        rw [worked,Option.not_isSome_iff_eq_none.mp idle]
      exact ⟨congrArg (·,[]) same,by simp [typedIn,typedOf],toldStill rfl rfl rfl,shownStill rfl rfl,rfl⟩
  | typed bytes =>
    exact ⟨[],rfl,by simp [scheduleStep,typedIn,typedOf],toldStill rfl rfl rfl,shownStill rfl rfl,rfl⟩
  | hangUp => exact ⟨_,accountedStill ⟨rfl,rfl,rfl,rfl⟩ rfl rfl (toldStill rfl rfl rfl) (shownStill rfl rfl)⟩
  | printed bytes =>
    refine ⟨[],rfl,by simp [scheduleStep,typedIn,typedOf],toldStill rfl rfl rfl,⟨[],?_,rfl,rfl,rfl⟩,rfl⟩
    simp [scheduleStep,printedOf]
  | exited => exact ⟨_,accountedStill ⟨rfl,rfl,rfl,rfl⟩ rfl rfl (toldStill rfl rfl rfl) (shownStill rfl rfl)⟩
  | announced bytes =>
    refine ⟨[],rfl,by simp [scheduleStep,typedIn,typedOf],⟨[],?_,rfl,?_⟩,shownStill rfl rfl,rfl⟩
    · simp [scheduleStep,announcedOf]
    · simp [scheduleStep,noticesIn,pushAll]

variable (look room) in
theorem accountedRun (s : Schedule ρ θ δ) (as : List (Found ε ρ θ × Advance δ)) :
    ∃ es, Accounted look s (Machine.run (scheduleStep look room) s as).1 as
      (Machine.run (scheduleStep look room) s as).2 es := by
  induction as generalizing s with
  | nil => exact ⟨[],accountedNone s⟩
  | cons a as ih =>
    obtain ⟨es,first⟩ := accountedStep look room s a
    obtain ⟨fs,rest⟩ := ih (scheduleStep look room s a).1
    exact ⟨es ++ fs,accountedThen first rest⟩

theorem pushedSignals (chunks : List Bytes) :
    (((⟨[]⟩ : SignalScanner).pushes chunks).2.map (·.signals)).sum = signalsIn chunks.flatten := by
  obtain ⟨reads,after,scans⟩ := pushesNew chunks
  have none' : (((⟨[]⟩ : SignalScanner).pushes chunks).1.pending.map some).count (none : Option UInt8) = 0 := by
    simp [List.count_eq_zero]
  rw [signalsIn,Markers.afterMarks after,List.count_append,scans,List.map_map,List.count_flatten,none',Nat.add_zero]
  refine congrArg List.sum (List.map_congr_left fun ms _ => ?_)
  exact (summaryBytes ms ⟨[],0,[]⟩ fun _ => rfl).2.trans (Nat.zero_add _)

end delivery

/-- A letter is typed and a change of the window announced, in two pieces. -/
def typedAndTold : List (Advance Bytes) :=
  [.typed [97],.announced [114],.loop,.loop,.loop,.loop,.loop,.announced [10],.loop,.loop,.loop,.loop,.loop,.loop,.loop]

end P11k.Engine
