import P11k.Engine.Schedule

/-! The loop catches up: left to itself it works off what is there and stands still, and then nothing is left. -/
namespace P11k.Engine
open Gitstatus (Bytes)

section catchUp
variable {ε ρ θ δ : Type} {look : Look ε ρ θ δ} {room : Nat}

/-- What `poll` reported is there. -/
def Reported (s : Schedule ρ θ δ) : Prop :=
  match s.place with
  | .woken stdin pty signal => (stdin = true → readyStdin s = true) ∧ (pty = true → readyPty s = true) ∧
      (signal = true → 0 < s.pipe)
  | .stdin stdin pty => (stdin = true → readyStdin s = true) ∧ (pty = true → readyPty s = true)
  | .pty pty => pty = true → readyPty s = true
  | .left => s.terminalClosed = true ∨ s.ptyClosed = true
  | _ => True

theorem emptyClosed {α : Type} [DecidableEq α] {bytes : List α} {closed : Bool} (there : (bytes ≠ [] || closed) = true)
    (empty : bytes = []) : closed = true := by simpa [empty] using there

theorem takenSome {α : Type} {bytes : List α} {granted most : Nat} (none' : bytes.take (atLeastOne granted most) = []) :
    bytes = [] := by
  rcases List.take_eq_nil_iff.mp none' with zero | empty
  · unfold atLeastOne at zero
    omega
  · exact empty

theorem reportedLoop {s : Schedule ρ θ δ} (reported : Reported s) (drained : Drained s) {f : Found ε ρ θ}
    (few : f.granted ≤ stdinRead) : Reported (loopStep look s f).1 := by
  cases place : s.place with
  | woken stdin pty signal =>
    simp only [Reported,place] at reported
    simp only [loopStep,place]
    exact ⟨reported.1,reported.2.1⟩
  | stdin ready pty =>
    simp only [Reported,place] at reported
    simp only [loopStep,place]
    obtain ⟨buffered,terminal,same⟩ := readStdinSame s f.granted
    obtain ⟨-,bytes,-⟩ := readStdinFlat drained.buffered few
    split
    · rename_i yes
      rw [bytes,same]
      split
      · rename_i none'
        exact .inl (emptyClosed (reported.1 yes) (takenSome none'))
      · exact reported.2
    · exact reported.2
  | pty ready =>
    simp only [Reported,place] at reported
    simp only [loopStep,place]
    split
    · rename_i yes
      split
      · rename_i none'
        exact .inr (emptyClosed (reported yes) (takenSome none'))
      · trivial
    · trivial
  | poll =>
    simp only [loopStep,place]
    split
    · exact ⟨id,id,fun signal => of_decide_eq_true signal⟩
    · exact reported
  | handling msgs => cases msgs <;> simp only [loopStep,place] <;> trivial
  | left => simpa only [loopStep,place] using reported
  | starting | deferred => simp only [loopStep,place]; trivial
  | reload | resize | draining => simp only [loopStep,place]; split <;> trivial
  | announce =>
    simp only [loopStep,place]
    split <;> trivial
  | results =>
    simp only [loopStep,place]
    split
    · trivial
    · simp only [Reported,Schedule.take,place]

theorem reportedMore {s t : Schedule ρ θ δ} (reported : Reported s) (place : t.place = s.place)
    (stdin : readyStdin s = true → readyStdin t = true) (pty : readyPty s = true → readyPty t = true)
    (pipe : s.pipe ≤ t.pipe) (terminal : s.terminalClosed = true → t.terminalClosed = true)
    (closed : s.ptyClosed = true → t.ptyClosed = true) : Reported t := by
  unfold Reported at reported ⊢
  rw [place]
  split at reported
  · exact ⟨stdin ∘ reported.1,pty ∘ reported.2.1,fun yes => (reported.2.2 yes).trans_le pipe⟩
  · exact ⟨stdin ∘ reported.1,pty ∘ reported.2⟩
  · exact pty ∘ reported
  · exact reported.imp terminal closed
  · trivial

theorem readyMore {α : Type} [DecidableEq α] {bytes : List α} {closed : Bool} (more : List α)
    (there : (bytes ≠ [] || closed) = true) : (bytes ++ more ≠ [] || closed) = true := by
  simp only [Bool.or_eq_true,decide_eq_true_eq] at there ⊢
  exact there.imp_left fun some' => List.append_ne_nil_of_left_ne_nil some' more

theorem reportedWoken {s t : Schedule ρ θ δ} (reported : Reported s) (woke : wake room s = some t) : Reported t := by
  rcases wakeCases woke with ⟨-,rfl⟩ | ⟨-,rfl⟩
  · exact reported
  · exact reportedMore reported rfl id id (Nat.le_succ _) id id

theorem reportedStep {s : Schedule ρ θ δ} (reported : Reported s) (drained : Drained s)
    {a : Found ε ρ θ × Advance δ} (few : Granted s a) : Reported (scheduleStep look room s a).1 := by
  obtain ⟨f,advance⟩ := a
  cases advance with
  | loop =>
    simp only [scheduleStep]
    split
    · exact reportedLoop (s := { s with interrupted := false }) reported ⟨drained.buffered,drained.pending⟩ few
    · exact reported
  | eintr =>
    simp only [scheduleStep]
    split
    · trivial
    · exact reported
  | caught signal onLoop => cases signal <;> cases onLoop <;> exact reported
  | handlerWrites onLoop =>
    cases onLoop <;> simp only [scheduleStep] <;> split
    · rename_i woke
      have told := reportedWoken reported woke
      exact told
    · exact reported
    · rename_i woke
      have told := reportedWoken reported woke
      exact told
    · exact reported
  | workerWrites =>
    simp only [scheduleStep]
    split
    · rename_i woke
      have told := reportedWoken reported woke
      exact told
    · exact reported
  | worked i k found =>
    simp only [scheduleStep]
    split <;> exact reported
  | typed bytes => exact reportedMore reported rfl (readyMore bytes) id (le_refl _) id id
  | hangUp => exact reportedMore reported rfl (fun _ => by simp [scheduleStep,readyStdin]) id (le_refl _) (fun _ => rfl) id
  | printed bytes => exact reportedMore reported rfl id (readyMore bytes) (le_refl _) id id
  | exited => exact reportedMore reported rfl id (fun _ => by simp [scheduleStep,readyPty]) (le_refl _) id (fun _ => rfl)
  | announced bytes => exact reportedMore reported rfl id id (le_refl _) id id

/-- What there is to work off. Announced bytes count twice: they become messages first. -/
def units (s : Schedule ρ θ δ) : Nat :=
  s.terminal.length + s.pty.length + 2 * s.fifo.length + s.pipe + s.loop.results.length

/-- The pass under way works some of it off. -/
def promised (s : Schedule ρ θ δ) : Bool :=
  match s.place with
  | .woken stdin pty signal => stdin || pty || signal || (s.fifo ≠ [] && s.pty = [])
  | .stdin stdin pty => stdin || pty || (s.fifo ≠ [] && s.pty = [])
  | .pty pty => pty || (s.fifo ≠ [] && s.pty = [])
  | .starting | .results | .deferred | .reload | .resize | .announce => s.fifo ≠ [] && s.pty = []
  | .draining _ => s.fifo ≠ []
  | _ => false

def Place.ahead : Place → Nat
  | .woken _ _ _ => 10
  | .stdin _ _ => 9
  | .pty _ => 8
  | .results => 7
  | .deferred | .starting => 6
  | .reload => 5
  | .resize => 4
  | .announce => 3
  | .draining msgs => 2 + msgs.length
  | .handling msgs => 1 + msgs.length
  | .poll => 0
  | .left => 0

/-- How far the loop is from standing still. -/
def distance (s : Schedule ρ θ δ) : Nat :=
  if s.place = .left then 0 else 16 * (units s + if promised s then 0 else 1) + s.place.ahead

theorem pushedFew {pending : Bytes} (clean : 10 ∉ pending) (chunk : Bytes) :
    (pushAnnounce pending chunk).1.length ≤ chunk.length := by
  unfold pushAnnounce
  dsimp only
  cases found : lineEnd (pending ++ chunk) with
  | none => exact Nat.zero_le _
  | some e =>
    have lines : parseAnnounceLines ((pending ++ chunk).take e) =
        (Framing.split 10 ((pending ++ chunk).take e)).1.filterMap messageOf := by
      obtain ⟨front,rest,whole,-,rfl⟩ := lineEndSome found
      have taken : (pending ++ chunk).take (front.length + 1) = front ++ [10] := by
        rw [whole,List.append_cons]
        exact List.take_left' (by simp)
      have complete : Framing.join 10 (Framing.split 10 (front ++ [10])).1 = front ++ [10] := by
        have same := Framing.joinSplit 10 (front ++ [10])
        rwa [congrArg Prod.snd (Framing.splitEnded 10 front),List.append_nil] at same
      rw [taken]
      conv_lhs => rw [← complete]
      exact parseJoin (Framing.splitClean 10 _).1
    have none' : pending.count 10 = 0 := List.count_eq_zero.mpr clean
    dsimp only
    calc (parseAnnounceLines ((pending ++ chunk).take e)).length
      _ ≤ (Framing.split 10 ((pending ++ chunk).take e)).1.length := by
        rw [lines]
        exact List.length_filterMap_le ..
      _ = ((pending ++ chunk).take e).count 10 := Framing.splitLength 10 _
      _ ≤ (pending ++ chunk).count 10 := (List.take_sublist ..).count_le _
      _ = chunk.count 10 := by rw [List.count_append,none',Nat.zero_add]
      _ ≤ chunk.length := List.count_le_length

theorem takenShorter {α : Type} (granted most : Nat) {bytes : List α} (some' : bytes ≠ []) :
    (bytes.drop (atLeastOne granted most)).length + 1 ≤ bytes.length := by
  have := List.length_pos_of_ne_nil some'
  rw [List.length_drop]
  unfold atLeastOne
  omega

theorem stepCloser {s t : Schedule ρ θ δ} (here : s.place ≠ .left) (fewer : units t ≤ units s)
    (kept : promised s = true → promised t = true ∨ units t < units s) (ahead : t.place.ahead < s.place.ahead) :
    distance t < distance s := by
  unfold distance
  rw [if_neg here]
  split
  · omega
  · cases was : promised s with
    | true =>
      rcases kept was with still | less
      · simp only [still,if_true]
        omega
      · split <;> simp only [if_true] <;> omega
    | false => split <;> simp only [Bool.false_eq_true,if_false] <;> omega

theorem leavesCloser {s t : Schedule ρ θ δ} (here : s.place ≠ .left) (ahead : 0 < s.place.ahead) (left : t.place = .left) :
    distance t < distance s := by
  unfold distance
  rw [if_neg here,if_pos left]
  omega

theorem distanceMost (s : Schedule ρ θ δ) : distance s ≤ 16 * (units s + 1) + s.place.ahead := by
  unfold distance
  split
  · exact Nat.zero_le _
  · split <;> omega

theorem distancePromised {s : Schedule ρ θ δ} (going : s.place ≠ .left) (promise : promised s = true) :
    distance s = 16 * units s + s.place.ahead := by
  rw [distance,if_neg going,if_pos promise,Nat.add_zero]

theorem takenUnits {s : Schedule ρ θ δ} {m : Moment ε} {what : Event ρ θ δ} (notResult : what ≠ .gitResult)
    (notWorked : ∀ i k found, what ≠ .worked i k found) : units (Schedule.take look s (m,what)).1 = units s := by
  simp only [units,takeResults s m notResult notWorked]
  rfl

theorem drainingCloser {s : Schedule ρ θ δ} (drained : Drained s) {f : Found ε ρ θ} {msgs : List AnnMsg}
    (place : s.place = .draining msgs) : distance (loopStep look s f).1 < distance s := by
  have going : s.place ≠ .left := by rw [place]; exact nofun
  simp only [loopStep,place]
  split
  · rename_i none'
    refine stepCloser going (le_refl _) (fun was => ?_) (by simp [place,Place.ahead])
    simp [promised,place,none'] at was
  · rename_i some'
    have new := pushedFew drained.pending (s.fifo.take chunkSize)
    have read : (s.fifo.take chunkSize).length + (s.fifo.drop chunkSize).length = s.fifo.length := by
      rw [← List.length_append,List.take_append_drop]
    have one : 0 < (s.fifo.take chunkSize).length := by
      have := List.length_pos_of_ne_nil some'
      rw [List.length_take]
      unfold chunkSize
      omega
    rw [distancePromised going (by simp [promised,place,some'])]
    refine (distanceMost _).trans_lt ?_
    simp only [units,place,Place.ahead,List.length_append]
    omega

theorem pollCloser {s : Schedule ρ θ δ} {f : Found ε ρ θ} (place : s.place = .poll) (there : ready s = true) :
    distance (loopStep look s f).1 < distance s := by
  have going : s.place ≠ .left := by rw [place]; exact nofun
  simp only [loopStep,place,there,if_true]
  have promise : promised { s with place := .woken (readyStdin s) (readyPty s) (decide (0 < s.pipe)) } = true := by
    simp only [ready,Bool.or_eq_true] at there
    cases output : readyPty s with
    | true => simp [promised]
    | false =>
      have none' : s.pty = [] := (by simpa [readyPty] using output : s.pty = [] ∧ _).1
      simp only [output,Bool.false_eq_true,or_false] at there
      rcases there with (input | notice) | byte
      · simp [promised,input]
      · simp [promised,none',of_decide_eq_true notice]
      · simp [promised,of_decide_eq_true byte]
  have still : promised s = false := by simp only [promised,place]
  rw [distancePromised (by simp) promise,distance,if_neg going,still,place]
  simp only [units,Place.ahead,Bool.false_eq_true,if_false]
  omega

theorem wokenCloser {s : Schedule ρ θ δ} (reported : Reported s) {f : Found ε ρ θ} {stdin pty signal : Bool}
    (place : s.place = .woken stdin pty signal) : distance (loopStep look s f).1 < distance s := by
  have going : s.place ≠ .left := by rw [place]; exact nofun
  simp only [loopStep,place]
  simp only [Reported,place] at reported
  refine stepCloser going ?_ (fun was => ?_) (by simp [place,Place.ahead])
  · simp only [units]
    split <;> omega
  · simp only [promised,place] at was
    cases signal with
    | true =>
      have byte := reported.2.2 rfl
      right
      simp only [units,if_true,signalRead]
      omega
    | false =>
      left
      rwa [Bool.or_false] at was

theorem stdinCloser {s : Schedule ρ θ δ} (drained : Drained s) {f : Found ε ρ θ} (few : f.granted ≤ stdinRead)
    {stdin pty : Bool} (place : s.place = .stdin stdin pty) : distance (loopStep look s f).1 < distance s := by
  have going : s.place ≠ .left := by rw [place]; exact nofun
  simp only [loopStep,place]
  obtain ⟨-,bytes,rest⟩ := readStdinFlat drained.buffered few
  obtain ⟨buffered,terminal,same⟩ := readStdinSame s f.granted
  cases stdin with
  | true =>
    rw [if_pos rfl]
    split
    · exact leavesCloser going (by simp [place,Place.ahead]) rfl
    · rename_i some'
      rw [bytes] at some'
      have typed : s.terminal ≠ [] := fun empty => by
        rw [empty] at some'
        exact some' List.take_nil
      have shorter := takenShorter f.granted stdinBuffer typed
      rw [← rest,same] at shorter
      have less : units (Schedule.take look { (readStdin s f.granted).1 with place := .pty pty }
          (f.moment,.input (readStdin s f.granted).2)).1 < units s := by
        rw [takenUnits (by simp) (by simp),same]
        simp only [units] at shorter ⊢
        omega
      exact stepCloser going less.le (fun _ => .inr less) (by simp [place,Place.ahead,Schedule.take])
  | false =>
    simp only [Bool.false_eq_true,if_false]
    refine stepCloser going (le_refl _) (fun was => .inl ?_) (by simp [place,Place.ahead])
    simp only [promised,place,Bool.false_or] at was
    exact was

theorem ptyCloser {s : Schedule ρ θ δ} {f : Found ε ρ θ} {pty : Bool} (place : s.place = .pty pty) :
    distance (loopStep look s f).1 < distance s := by
  have going : s.place ≠ .left := by rw [place]; exact nofun
  simp only [loopStep,place]
  cases pty with
  | true =>
    rw [if_pos rfl]
    split
    · exact leavesCloser going (by simp [place,Place.ahead]) rfl
    · rename_i some'
      have written : s.pty ≠ [] := fun empty => by
        rw [empty] at some'
        exact some' List.take_nil
      have shorter := takenShorter f.granted ptyRead written
      have less : units (Schedule.take look { s with
          place := .results
          pty := s.pty.drop (atLeastOne f.granted ptyRead)
          scanner := (s.scanner.push (s.pty.take (atLeastOne f.granted ptyRead))).1 }
          (f.moment,.output (s.scanner.push (s.pty.take (atLeastOne f.granted ptyRead))).2.signals
            ((s.pty.take (atLeastOne f.granted ptyRead)).count 10))).1 < units s := by
        rw [takenUnits (by simp) (by simp)]
        simp only [units]
        omega
      exact stepCloser going less.le (fun _ => .inr less) (by simp [place,Place.ahead,Schedule.take])
  | false =>
    simp only [Bool.false_eq_true,if_false]
    refine stepCloser going (le_refl _) (fun was => .inl ?_) (by simp [place,Place.ahead])
    simp only [promised,place,Bool.false_or] at was
    exact was

theorem resultsCloser {s : Schedule ρ θ δ} {f : Found ε ρ θ} (place : s.place = .results) :
    distance (loopStep look s f).1 < distance s := by
  have going : s.place ≠ .left := by rw [place]; exact nofun
  simp only [loopStep,place]
  split
  · refine stepCloser going (le_refl _) (fun was => .inl ?_) (by simp [place,Place.ahead])
    simp only [promised,place] at was
    exact was
  · rename_i some'
    -- The block of the results takes them one by one.
    have fewer : (Schedule.take look s (f.moment,.gitResult)).1.loop.results.length + 1 = s.loop.results.length := by
      rcases resultShared look f.moment s.loop with ⟨none',-⟩ | ⟨res,results,front,taken⟩
      · exact absurd none' some'
      · rw [front,List.length_cons]
        exact congrArg (·.2.1.length + 1) taken
    have kept : promised (Schedule.take look s (f.moment,.gitResult)).1 = promised s := rfl
    have here : (Schedule.take look s (f.moment,.gitResult)).1.place = s.place := rfl
    have less : units (Schedule.take look s (f.moment,.gitResult)).1 < units s := by
      simp only [units,← fewer]
      exact Nat.lt_succ_self _
    rw [distance,distance,here,if_neg going,if_neg going,kept]
    omega

/-- Each step of the loop brings it closer to standing still. -/
theorem distanceLoop {s : Schedule ρ θ δ} (reported : Reported s) (drained : Drained s) {f : Found ε ρ θ}
    (few : f.granted ≤ stdinRead) (going : s.place ≠ .left) (busy : ¬ (s.place = .poll ∧ ready s = false)) :
    distance (loopStep look s f).1 < distance s := by
  cases place : s.place with
  | starting =>
    simp only [loopStep,place]
    exact stepCloser going (le_refl _) (fun was => .inl (by simpa [promised,place] using was)) (by simp [place,Place.ahead])
  | reload =>
    simp only [loopStep,place]
    split
    · refine stepCloser going (takenUnits (by simp) (by simp)).le (fun was => .inl ?_) (by simp [place,Place.ahead,Schedule.take])
      simp only [promised,place] at was
      exact was
    · exact stepCloser going (le_refl _) (fun was => .inl (by simpa [promised,place] using was)) (by simp [place,Place.ahead])
  | resize =>
    simp only [loopStep,place]
    split
    · refine stepCloser going (takenUnits (by simp) (by simp)).le (fun was => .inl ?_) (by simp [place,Place.ahead,Schedule.take])
      simp only [promised,place] at was
      exact was
    · exact stepCloser going (le_refl _) (fun was => .inl (by simpa [promised,place] using was)) (by simp [place,Place.ahead])
  | announce =>
    simp only [loopStep,place]
    split
    · rename_i output
      refine stepCloser going (le_refl _) (fun was => ?_) (by simp [place,Place.ahead])
      simp [promised,place,output] at was
    · exact stepCloser going (le_refl _) (fun was => .inl (by simp_all [promised])) (by simp [place,Place.ahead])
  | draining msgs => exact drainingCloser drained place
  | handling msgs =>
    cases msgs with
    | nil =>
      simp only [loopStep,place]
      refine stepCloser going (le_refl _) (fun was => ?_) (by simp [place,Place.ahead])
      simp [promised,place] at was
    | cons msg msgs =>
      simp only [loopStep,place]
      obtain ⟨notResult,notWorked⟩ := eventResults (ρ := ρ) (θ := θ) (δ := δ) msg
      refine stepCloser going (takenUnits notResult notWorked).le (fun was => ?_) (by simp [place,Place.ahead,Schedule.take])
      simp [promised,place] at was
  | poll =>
    refine pollCloser place ?_
    by_contra none'
    exact busy ⟨place,eq_false_of_ne_true none'⟩
  | woken stdin pty signal => exact wokenCloser reported place
  | stdin stdin pty => exact stdinCloser drained few place
  | pty pty => exact ptyCloser place
  | results => exact resultsCloser place
  | deferred =>
    simp only [loopStep,place]
    refine stepCloser going (takenUnits (by simp) (by simp)).le (fun was => .inl ?_) (by simp [place,Place.ahead,Schedule.take])
    simp only [promised,place] at was
    exact was
  | left => exact absurd place going

/-- The loop by itself. -/
def looping (look : Look ε ρ θ δ) (room : Nat) (f : Found ε ρ θ) : Nat → Schedule ρ θ δ → Schedule ρ θ δ
  | 0, s => s
  | n+1, s => looping look room f n (scheduleStep look room s (f,.loop)).1

variable (look) in
theorem loopLeaves (s : Schedule ρ θ δ) (f : Found ε ρ θ) : (loopStep look s f).1.own = s.own ∧
    (loopStep look s f).1.elsewhere = s.elsewhere ∧ (loopStep look s f).1.sent = s.sent := by
  cases place : s.place with
  | handling msgs => cases msgs <;> simp [loopStep,place,Schedule.take]
  | stdin ready pty =>
    obtain ⟨buffered,terminal,same⟩ := readStdinSame s f.granted
    simp only [loopStep,place]
    split
    · rw [same]
      split <;> simp [Schedule.take]
    · simp
  | pty ready =>
    simp only [loopStep,place]
    split
    · split <;> simp [Schedule.take]
    · simp
  | reload | resize | draining | poll | results =>
    simp only [loopStep,place]
    split <;> simp [Schedule.take]
  | _ => simp [loopStep,place,Schedule.take]

variable (look room) in
theorem standsStill {s : Schedule ρ θ δ} (alert : Alert s) (drained : Drained s) (reported : Reported s)
    (calm : s.own = 0) {f : Found ε ρ θ} (few : f.granted ≤ stdinRead) :
    ∃ n ≤ distance s, let t := looping look room f n s
      Alert t ∧ Drained t ∧ Reported t ∧ t.elsewhere = s.elsewhere ∧ t.sent = s.sent ∧
        (t.place = .left ∨ Blocked t) := by
  generalize far : distance s = d
  induction d using Nat.strong_induction_on generalizing s with
  | _ d ih =>
    by_cases done : s.place = .left ∨ s.place = .poll ∧ ready s = false
    · exact ⟨0,Nat.zero_le _,alert,drained,reported,rfl,rfl,done.imp_right fun still => ⟨still.1,calm,still.2⟩⟩
    · obtain ⟨going,busy⟩ := not_or.mp done
      have next : (scheduleStep look room s (f,.loop)).1 = (loopStep look { s with interrupted := false } f).1 := by
        simp only [scheduleStep,calm,if_true]
      have closer : distance (scheduleStep look room s (f,.loop)).1 < d := by
        rw [next,← far]
        exact distanceLoop (s := { s with interrupted := false }) reported ⟨drained.buffered,drained.pending⟩ few going busy
      obtain ⟨own,elsewhere,sent⟩ := loopLeaves look { s with interrupted := false } f
      rw [← next] at own elsewhere sent
      obtain ⟨n,less,alert',drained',reported',elsewhere',sent',still⟩ := ih _ closer
        (alertStep alert (f,.loop)) (drainedStep drained few) (reportedStep reported drained few) (own.trans calm) rfl
      exact ⟨n + 1,by omega,alert',drained',reported',elsewhere'.trans elsewhere,sent'.trans sent,still⟩

variable (look room) in
/-- From wherever a run has come to, the loop by itself either ends, and then the terminal or the shell is gone, or
blocks with everything worked off; where no byte is still to be written, the flags and the results too. -/
theorem catchesUp (shell : Shell) (config : Config ρ θ) (configPath : Option Bytes) (size : Size) (cwd : Bytes)
    (as : List (Found ε ρ θ × Advance δ))
    (granted : Machine.Guarded (scheduleStep look room) Granted
      (scheduleStart (start look shell config configPath size cwd)) as) {f : Found ε ρ θ} (few : f.granted ≤ stdinRead) :
    let s := (Machine.run (scheduleStep look room)
      (scheduleStart (start look shell config configPath size cwd)) as).1
    s.own = 0 → ∃ n ≤ distance s, let t := looping look room f n s
      (t.place = .left ∧ (t.terminalClosed = true ∨ t.ptyClosed = true)) ∨
      (Blocked t ∧ t.terminal = [] ∧ t.buffered = [] ∧ t.pty = [] ∧ t.fifo = [] ∧ 10 ∉ t.pending ∧
        (s.elsewhere = 0 → s.sent = 0 → t.reloadFlag = false ∧ t.resizeFlag = false ∧ t.loop.results = [])) := by
  intro s calm
  have keeps : ∀ (s : Schedule ρ θ δ) a, Alert s ∧ Drained s ∧ Reported s → Granted s a →
      Alert (scheduleStep look room s a).1 ∧ Drained (scheduleStep look room s a).1 ∧
        Reported (scheduleStep look room s a).1 :=
    fun s a ⟨alert,drained,reported⟩ few => ⟨alertStep alert a,drainedStep drained few,reportedStep reported drained few⟩
  obtain ⟨alert,drained,reported⟩ : Alert s ∧ Drained s ∧ Reported s := Machine.runKeeps keeps
    ⟨alertStart shell config configPath size cwd,⟨rfl,List.not_mem_nil⟩,trivial⟩ granted
  obtain ⟨n,less,alert',drained',reported',elsewhere,sent,still⟩ :=
    standsStill look room alert drained reported calm few
  refine ⟨n,less,?_⟩
  rcases still with left | blocked
  · rw [Reported,left] at reported'
    exact .inl ⟨left,reported'⟩
  · obtain ⟨terminal,-,pty,-,fifo,pipe⟩ := blockedEmpty blocked
    refine .inr ⟨blocked,terminal,drained'.buffered,pty,fifo,drained'.pending,fun quiet quiet' => ?_⟩
    exact blockedQuiet alert' blocked pipe (elsewhere.trans quiet) (sent.trans quiet')

end catchUp

/-- A key and a reload before the loop has started. -/
def earlyReload : List (Found Unit Unit Unit × Advance Bytes) :=
  [.typed [97],.caught .usr1 false,.handlerWrites false].map (nothingNew,·)

theorem earlyReloadSeen :
    let s := (Machine.run (scheduleStep plainLook 1) (scheduleStart plainStart) earlyReload).1
    s.reloadFlag = true ∧ ∃ n ≤ distance s, (looping plainLook 1 nothingNew n s).place = .left ∨
      (looping plainLook 1 nothingNew n s).reloadFlag = false ∧ (looping plainLook 1 nothingNew n s).terminal = [] := by
  obtain ⟨n,less,still⟩ := catchesUp plainLook 1 .zsh oneRow none terminal [104] earlyReload
    ⟨grantedLittle _ _,grantedLittle _ _,grantedLittle _ _,trivial⟩ (f := nothingNew) (by decide) rfl
  refine ⟨by decide,n,less,still.imp (·.1) fun blocked => ?_⟩
  exact ⟨(blocked.2.2.2.2.2.2 rfl rfl).1,blocked.2.1⟩

end P11k.Engine
