import Mathlib.Data.List.Basic
import Mathlib.Logic.Function.Basic

/-! The run directories of one user: engines start, sweep up behind the dead, make a directory under their process id,
and end with or without removing it; process ids are used again. -/
namespace P11k.Sessions

/-- `run-<pid>`: the process that made it, and the token in `session`. -/
structure RunDir (τ : Type) where
  maker : Nat
  session : Option τ

inductive Phase where
  | sweeping (found : Option Nat)
  | making
  | replacing
  | remaking
  | made
  | running
  | dropping
  | leaving
  deriving DecidableEq, Repr

def Phase.found : Phase → Option Nat
  | .sweeping found => found
  | _ => none

def Phase.owns : Phase → Bool
  | .made | .running | .dropping => true
  | _ => false

def Phase.past : Phase → Bool
  | .made | .running | .dropping | .leaving => true
  | _ => false

/-- A process; the ones that are no engine have no phase. It is `raced` when a sweep held its process id for dead as it
started. -/
structure Process where
  pid : Nat
  live : Bool
  engine : Option Phase
  raced : Bool
  deriving DecidableEq, Repr

def Process.found (p : Process) : Option Nat := if p.live then p.engine.bind Phase.found else none

def Process.owns (p : Process) : Bool := p.live && p.engine.any Phase.owns

def Process.past (p : Process) : Bool := !p.live || p.engine.any Phase.past

/-- The processes are numbered as they started. -/
structure World (τ : Type) where
  processes : List Process
  dirs : Nat → Option (RunDir τ)

section world
variable {τ : Type}

/-- `kill(pid, 0)` finds a process. -/
def World.alive (w : World τ) (pid : Nat) : Bool := w.processes.any fun p => p.live && p.pid == pid

inductive Move where
  | looks (pid : Nat)
  | unlinks
  | removes (done : Bool)
  | sweeps
  | makes
  | writes
  | drops
  deriving DecidableEq, Repr

def unlinked (dirs : Nat → Option (RunDir τ)) (pid : Nat) : Nat → Option (RunDir τ) :=
  Function.update dirs pid ((dirs pid).map fun dir => { dir with session := none })

def removed (dirs : Nat → Option (RunDir τ)) (pid : Nat) (done : Bool) : Nat → Option (RunDir τ) :=
  if done then Function.update dirs pid none else dirs

/-- `create_dir`, with the phase behind a directory that is there already. -/
def create (b own : Nat) (dirs : Nat → Option (RunDir τ)) (exists' : Phase) : Phase × (Nat → Option (RunDir τ)) :=
  match dirs own with
  | none => (.made,Function.update dirs own (some ⟨b,none⟩))
  | some _ => (exists',dirs)

/-- One operation of the engine with the number `b` and the process id `own`. What `remove_dir_all` leaves when it fails
is open. -/
def move (token : Nat → τ) (b own : Nat) (alive : Nat → Bool) (dirs : Nat → Option (RunDir τ)) :
    Phase → Move → Phase × (Nat → Option (RunDir τ))
  | .sweeping none, .looks pid => (if pid = own ∨ alive pid then .sweeping none else .sweeping (some pid),dirs)
  | .sweeping (some pid), .unlinks => (.sweeping (some pid),unlinked dirs pid)
  | .sweeping (some pid), .removes done => (.sweeping none,removed dirs pid done)
  | .sweeping none, .sweeps => (.making,dirs)
  | .making, .makes => create b own dirs .replacing
  | .replacing, .unlinks => (.replacing,unlinked dirs own)
  | .replacing, .removes done => (if done && (dirs own).isSome then .remaking else .leaving,removed dirs own done)
  | .remaking, .makes => create b own dirs .leaving
  | .made, .writes =>
      match dirs own with
      | none => (.leaving,dirs)
      | some dir => (.running,Function.update dirs own (some { dir with session := some (token b) }))
  | .running, .drops => (.dropping,dirs)
  | .dropping, .unlinks => (.dropping,unlinked dirs own)
  | .dropping, .removes done => (.leaving,removed dirs own done)
  | phase, _ => (phase,dirs)

inductive Event where
  | born (pid : Nat)
  | execs (b : Nat)
  | moves (b : Nat) (m : Move)
  | died (b : Nat)
  deriving DecidableEq, Repr

def World.put (w : World τ) (b : Nat) (p : Process) : World τ := { w with processes := w.processes.set b p }

/-- A new process gets an id that no other has. -/
def step (token : Nat → τ) (w : World τ) : Event → World τ
  | .born pid =>
      if w.alive pid then w
      else { w with processes := w.processes ++ [⟨pid,true,none,w.processes.any fun p => p.found == some pid⟩] }
  | .execs b =>
      match w.processes[b]? with
      | some p => if p.live && p.engine.isNone then w.put b { p with engine := some (.sweeping none) } else w
      | none => w
  | .moves b m =>
      match w.processes[b]? with
      | some p =>
          if p.live then
            match p.engine with
            | some phase =>
                let next := move token b p.pid w.alive w.dirs phase m
                { processes := w.processes.set b { p with engine := some next.1 }, dirs := next.2 }
            | none => w
          else w
      | none => w
  | .died b =>
      match w.processes[b]? with
      | some p => w.put b { p with live := false }
      | none => w

def start : World τ := ⟨[],fun _ => none⟩

def run (token : Nat → τ) (events : List Event) : World τ := events.foldl (step token) start

/-- The process that a signal to the id reaches. -/
def World.receiver (w : World τ) (pid : Nat) : Option Nat := w.processes.findIdx? fun p => p.live && p.pid == pid

/-- `verify_session` in a shell of the engine `b`. -/
def World.verified [DecidableEq τ] (token : Nat → τ) (w : World τ) (b : Nat) : Bool :=
  match w.processes[b]? with
  | some p => (w.dirs p.pid).any fun dir => dir.session == some (token b)
  | none => false

/-! One operation. -/

inductive Moved (token : Nat → τ) (b own : Nat) (alive : Nat → Bool) (dirs : Nat → Option (RunDir τ)) (phase : Phase) :
    Phase → (Nat → Option (RunDir τ)) → Prop where
  | stayed : Moved token b own alive dirs phase phase dirs
  | dropped (running : phase = .running) : Moved token b own alive dirs phase .dropping dirs
  | passed {phase' : Phase} (owns : phase'.owns = false) (dead : ∀ pid, phase'.found = some pid → alive pid = false) :
      Moved token b own alive dirs phase phase' dirs
  | cleared {pid : Nat} (which : phase.found = some pid ∨ pid = own ∧ (phase = .replacing ∨ phase = .dropping)) :
      Moved token b own alive dirs phase phase (unlinked dirs pid)
  | gone {pid : Nat} {phase' : Phase}
      (which : phase.found = some pid ∨ pid = own ∧ (phase = .replacing ∨ phase = .dropping))
      (owns : phase'.owns = false) (found : phase'.found = none) :
      Moved token b own alive dirs phase phase' (Function.update dirs pid none)
  | made (none' : dirs own = none) (before : phase = .making ∨ phase = .remaking) :
      Moved token b own alive dirs phase .made (Function.update dirs own (some ⟨b,none⟩))
  | wrote {dir : RunDir τ} (there : dirs own = some dir) (before : phase = .made) :
      Moved token b own alive dirs phase .running
        (Function.update dirs own (some { dir with session := some (token b) }))

section moved
variable {token : Nat → τ} {b own : Nat} {alive : Nat → Bool} {dirs : Nat → Option (RunDir τ)} {phase : Phase}

theorem unfound {phase' : Phase} (found : phase'.found = none) (pid : Nat) (some' : phase'.found = some pid) :
    alive pid = false := by
  rw [found] at some'
  cases some'

theorem createMoved {exists' : Phase} (owns : exists'.owns = false) (found : exists'.found = none)
    (before : phase = .making ∨ phase = .remaking) :
    Moved token b own alive dirs phase (create b own dirs exists').1 (create b own dirs exists').2 := by
  unfold create
  split
  · rename_i none'
    exact .made none' before
  · exact .passed owns (unfound found)

theorem removedMoved {pid : Nat} {phase' : Phase}
    (which : phase.found = some pid ∨ pid = own ∧ (phase = .replacing ∨ phase = .dropping))
    (owns : phase'.owns = false) (found : phase'.found = none) (done : Bool) :
    Moved token b own alive dirs phase phase' (removed dirs pid done) := by
  unfold removed
  split
  · exact .gone which owns found
  · exact .passed owns (unfound found)

variable (token b own alive dirs phase) in
theorem moveCases (m : Move) :
    Moved token b own alive dirs phase (move token b own alive dirs phase m).1 (move token b own alive dirs phase m).2 := by
  unfold move
  split
  case h_1 pid =>
    dsimp only
    split
    · exact .passed rfl (unfound rfl)
    · rename_i dead
      refine .passed rfl fun other same => ?_
      obtain rfl := Option.some.inj same
      exact Bool.eq_false_iff.mpr fun living => dead (.inr living)
  case h_2 pid => exact .cleared (.inl rfl)
  case h_3 pid done => exact removedMoved (.inl rfl) rfl rfl done
  case h_4 => exact .passed rfl (unfound rfl)
  case h_5 => exact createMoved rfl rfl (.inl rfl)
  case h_6 => exact .cleared (.inr ⟨rfl,.inl rfl⟩)
  case h_7 done =>
    dsimp only
    split
    · exact removedMoved (.inr ⟨rfl,.inl rfl⟩) rfl rfl done
    · exact removedMoved (.inr ⟨rfl,.inl rfl⟩) rfl rfl done
  case h_8 => exact createMoved rfl rfl (.inr rfl)
  case h_9 =>
    split
    · exact .passed rfl (unfound rfl)
    · rename_i dir there
      exact .wrote there rfl
  case h_10 => exact .dropped rfl
  case h_11 => exact .cleared (.inr ⟨rfl,.inr rfl⟩)
  case h_12 done => exact removedMoved (.inr ⟨rfl,.inr rfl⟩) rfl rfl done
  case h_13 => exact .stayed

end moved

/-! What holds in every world that is reached. -/

structure Sound (token : Nat → τ) (w : World τ) : Prop where
  unique : ∀ (b c : Nat) (p q : Process), w.processes[b]? = some p → w.processes[c]? = some q → p.live = true → q.live = true →
    p.pid = q.pid → b = c
  makers : ∀ pid dir, w.dirs pid = some dir → ∃ p : Process, w.processes[dir.maker]? = some p ∧ p.pid = pid ∧
    ∀ t, dir.session = some t → t = token dir.maker
  own : ∀ (b : Nat) (p : Process), w.processes[b]? = some p → p.owns = true → ∀ dir, w.dirs p.pid = some dir → dir.maker = b
  spared : ∀ (b : Nat) (p : Process), w.processes[b]? = some p → p.live = true → p.raced = false →
    ∀ (c : Nat) (q : Process), w.processes[c]? = some q → q.found ≠ some p.pid
  kept : ∀ (b : Nat) (p : Process), w.processes[b]? = some p → p.live = true → p.raced = false →
    (p.engine = some .made → (w.dirs p.pid).isSome = true) ∧
    (p.engine = some .running → ∃ dir, w.dirs p.pid = some dir ∧ dir.session = some (token b))

/-- What a process may change in the directories: those that it found dead, and its own. -/
structure Change (token : Nat → τ) (b : Nat) (p : Process) (dirs dirs' : Nat → Option (RunDir τ)) : Prop where
  from' : ∀ pid dir, dirs' pid = some dir →
    (∃ old, dirs pid = some old ∧ old.maker = dir.maker ∧ ∀ t, dir.session = some t → old.session = some t) ∨
    p.live = true ∧ pid = p.pid ∧ dir.maker = b ∧ ∀ t, dir.session = some t → t = token b
  touched : ∀ pid, dirs' pid ≠ dirs pid → p.live = true ∧ pid = p.pid ∨ p.found = some pid

theorem changeNone (token : Nat → τ) (b : Nat) (p : Process) (dirs : Nat → Option (RunDir τ)) :
    Change token b p dirs dirs :=
  ⟨fun _ dir there => .inl ⟨dir,there,rfl,fun _ same => same⟩,fun _ other => absurd rfl other⟩

theorem aliveLive {w : World τ} {pid c : Nat} (dead : w.alive pid = false) {r : Process}
    (there : w.processes[c]? = some r) (live : r.live = true) : r.pid ≠ pid := by
  intro same
  have living : w.alive pid = true :=
    List.any_eq_true.mpr ⟨r,List.mem_of_getElem? there,by rw [live,same]; exact beq_self_eq_true pid⟩
  rw [living] at dead
  cases dead

theorem setCases {ps : List Process} {b c : Nat} {q r : Process} (there : (ps.set b q)[c]? = some r) :
    (c = b ∧ r = q) ∨ c ≠ b ∧ ps[c]? = some r := by
  rw [List.getElem?_set] at there
  split at there
  · rename_i same
    split at there
    · exact .inl ⟨same.symm,(Option.some.inj there).symm⟩
    · cases there
  · rename_i other
    exact .inr ⟨fun same => other same.symm,there⟩

theorem soundChange {token : Nat → τ} {w : World τ} (sound : Sound token w) {b : Nat} {p q : Process}
    {dirs' : Nat → Option (RunDir τ)} (there : w.processes[b]? = some p) (pid : q.pid = p.pid) (raced : q.raced = p.raced)
    (live : q.live = true → p.live = true) (change : Change token b p w.dirs dirs')
    (found : ∀ pid, q.found = some pid → p.found = some pid ∨ w.alive pid = false)
    (owned : q.owns = true → ∀ dir, dirs' p.pid = some dir → dir.maker = b)
    (keeps : q.live = true → q.raced = false → (q.engine = some .made → (dirs' p.pid).isSome = true) ∧
      (q.engine = some .running → ∃ dir, dirs' p.pid = some dir ∧ dir.session = some (token b))) :
    Sound token ⟨w.processes.set b q,dirs'⟩ := by
  have before : ∀ (c : Nat) (r : Process), (w.processes.set b q)[c]? = some r → ∃ r₀ : Process, w.processes[c]? = some r₀ ∧ r₀.pid = r.pid ∧
      r₀.raced = r.raced ∧ (r.live = true → r₀.live = true) := by
    intro c r now
    rcases setCases now with ⟨rfl,rfl⟩ | ⟨-,old⟩
    · exact ⟨p,there,pid.symm,raced.symm,live⟩
    · exact ⟨r,old,rfl,rfl,id⟩
  refine ⟨?_,?_,?_,?_,?_⟩
  · intro c d r t first second liveFirst liveSecond same
    obtain ⟨r₀,old,pids,-,lives⟩ := before c r first
    obtain ⟨t₀,old',pids',-,lives'⟩ := before d t second
    exact sound.unique c d r₀ t₀ old old' (lives liveFirst) (lives' liveSecond) (pids.trans (same.trans pids'.symm))
  · intro own dir here
    have after : ∀ (c : Nat) (r : Process), w.processes[c]? = some r → ∃ r', (w.processes.set b q)[c]? = some r' ∧ r'.pid = r.pid := by
      intro c r old
      by_cases same : c = b
      · subst same
        obtain rfl := Option.some.inj (there.symm.trans old)
        exact ⟨q,List.getElem?_set_self (List.getElem?_eq_some_iff.mp there).1,pid⟩
      · exact ⟨r,by rw [List.getElem?_set_ne fun other => same other.symm,old],rfl⟩
    rcases change.from' own dir here with ⟨old,was,maker,session⟩ | ⟨-,rfl,rfl,session⟩
    · obtain ⟨r,process,pids,tokens⟩ := sound.makers own old was
      rw [maker] at process
      obtain ⟨r',now,pids'⟩ := after _ r process
      exact ⟨r',now,pids'.trans pids,fun t same => maker ▸ tokens t (session t same)⟩
    · obtain ⟨r',now,pids'⟩ := after _ p there
      exact ⟨r',now,pids',session⟩
  · intro c r now owns dir here
    rcases setCases now with ⟨rfl,rfl⟩ | ⟨other,old⟩
    · rw [pid] at here
      exact owned owns dir here
    · rcases change.from' _ dir here with ⟨before',was,maker,-⟩ | ⟨liveHere,same,-,-⟩
      · exact maker ▸ sound.own c r old owns before' was
      · have liveThere : r.live = true := (Bool.and_eq_true _ _ ▸ owns).1
        exact absurd (sound.unique c b r p old there liveThere liveHere same) other
  · intro c r now liveHere unraced d t other same
    obtain ⟨r₀,old,pids,races,lives⟩ := before c r now
    have spared := sound.spared c r₀ old (lives liveHere) (races.trans unraced)
    rcases setCases other with ⟨rfl,rfl⟩ | ⟨-,old'⟩
    · rcases found r.pid same with earlier | dead
      · exact spared _ p there (pids ▸ earlier)
      · exact aliveLive dead old (lives liveHere) pids
    · exact spared d t old' (pids ▸ same)
  · intro c r now liveHere unraced
    rcases setCases now with ⟨rfl,rfl⟩ | ⟨other,old⟩
    · rw [pid]
      exact keeps liveHere unraced
    · have untouched : dirs' r.pid = w.dirs r.pid := by
        by_contra changed
        rcases change.touched _ changed with ⟨liveThere,same⟩ | dead
        · exact other (sound.unique c b r p old there liveHere liveThere same)
        · exact sound.spared c r old liveHere unraced b p there dead
      dsimp only
      rw [untouched]
      exact sound.kept c r old liveHere unraced

theorem soundBorn {token : Nat → τ} {w : World τ} (sound : Sound token w) {pid : Nat} (free : w.alive pid = false) :
    Sound token { w with processes := w.processes ++ [⟨pid,true,none,w.processes.any fun p => p.found == some pid⟩] } := by
  have cases' : ∀ {c : Nat} {r : Process}, (w.processes ++ [⟨pid,true,none,w.processes.any fun p => p.found == some pid⟩])[c]? = some r →
      w.processes[c]? = some r ∨ c = w.processes.length ∧
        r = ⟨pid,true,none,w.processes.any fun p => p.found == some pid⟩ := by
    intro c r there
    rw [List.getElem?_append] at there
    split at there
    · exact .inl there
    · rename_i behind
      obtain ⟨small,same⟩ := List.getElem?_eq_some_iff.mp there
      rw [List.length_singleton] at small
      have zero : c - w.processes.length = 0 := by omega
      exact .inr ⟨by omega,by simpa [zero] using same.symm⟩
  have older : ∀ {c : Nat} {r : Process}, w.processes[c]? = some r →
      (w.processes ++ [⟨pid,true,none,w.processes.any fun p => p.found == some pid⟩])[c]? = some r := by
    intro c r there
    rw [List.getElem?_append_left (List.getElem?_eq_some_iff.mp there).1]
    exact there
  refine ⟨?_,?_,?_,?_,?_⟩
  · intro b c p q first second liveFirst liveSecond same
    rcases cases' first with old | ⟨rfl,rfl⟩ <;> rcases cases' second with old' | ⟨rfl,rfl⟩
    · exact sound.unique b c p q old old' liveFirst liveSecond same
    · exact absurd same (aliveLive free old liveFirst)
    · exact absurd same.symm (aliveLive free old' liveSecond)
    · rfl
  · intro own dir here
    obtain ⟨p,process,rest⟩ := sound.makers own dir here
    exact ⟨p,older process,rest⟩
  · intro b p there owns
    rcases cases' there with old | ⟨rfl,rfl⟩
    · exact sound.own b p old owns
    · cases owns
  · intro b p there live unraced c q other same
    rcases cases' other with old' | ⟨rfl,rfl⟩
    · rcases cases' there with old | ⟨rfl,rfl⟩
      · exact sound.spared b p old live unraced c q old' same
      · have none' := List.any_eq_false.mp unraced q (List.mem_of_getElem? old')
        exact none' (by rw [same]; exact beq_self_eq_true _)
    · cases same
  · intro b p there live unraced
    rcases cases' there with old | ⟨rfl,rfl⟩
    · exact sound.kept b p old live unraced
    · exact ⟨fun none' => absurd none' (by simp),fun none' => absurd none' (by simp)⟩

theorem updateCases {dirs : Nat → Option (RunDir τ)} {x y : Nat} {v : Option (RunDir τ)} {dir : RunDir τ}
    (there : Function.update dirs x v y = some dir) : y = x ∧ v = some dir ∨ y ≠ x ∧ dirs y = some dir := by
  by_cases same : y = x
  · rw [same,Function.update_self] at there
    exact .inl ⟨same,there⟩
  · rw [Function.update_of_ne same] at there
    exact .inr ⟨same,there⟩

theorem updateTouched {dirs : Nat → Option (RunDir τ)} {x y : Nat} {v : Option (RunDir τ)}
    (changed : Function.update dirs x v y ≠ dirs y) : y = x := by
  by_contra other
  exact changed (Function.update_of_ne other v dirs)

theorem changeCleared (token : Nat → τ) {b : Nat} {p : Process} {dirs dirs' : Nat → Option (RunDir τ)} {pid : Nat}
    (which : p.live = true ∧ pid = p.pid ∨ p.found = some pid)
    (cleared : dirs' = unlinked dirs pid ∨ dirs' = Function.update dirs pid none) : Change token b p dirs dirs' := by
  rcases cleared with rfl | rfl
  · refine ⟨fun x dir there => .inl ?_,fun x changed => updateTouched changed ▸ which⟩
    rcases updateCases there with ⟨rfl,same⟩ | ⟨-,old⟩
    · obtain ⟨old,was,rfl⟩ := Option.map_eq_some_iff.mp same
      exact ⟨old,was,rfl,fun t none' => absurd none' (by simp)⟩
    · exact ⟨dir,old,rfl,fun _ same => same⟩
  · refine ⟨fun x dir there => .inl ?_,fun x changed => updateTouched changed ▸ which⟩
    rcases updateCases there with ⟨-,none'⟩ | ⟨-,old⟩
    · cases none'
    · exact ⟨dir,old,rfl,fun _ same => same⟩

theorem moveChange {token : Nat → τ} {b : Nat} {p : Process} {alive : Nat → Bool} {dirs dirs' : Nat → Option (RunDir τ)}
    (live : p.live = true) {phase phase' : Phase} (at' : p.engine = some phase)
    (own : phase.owns = true → ∀ dir, dirs p.pid = some dir → dir.maker = b)
    (moved : Moved token b p.pid alive dirs phase phase' dirs') : Change token b p dirs dirs' := by
  have whose : ∀ {pid}, (phase.found = some pid ∨ pid = p.pid ∧ (phase = .replacing ∨ phase = .dropping)) →
      p.live = true ∧ pid = p.pid ∨ p.found = some pid := by
    rintro pid (found | ⟨same,-⟩)
    · exact .inr (by rw [Process.found,live,at']; exact found)
    · exact .inl ⟨live,same⟩
  cases moved with
  | stayed | dropped | passed => exact changeNone ..
  | cleared which => exact changeCleared token (whose which) (.inl rfl)
  | gone which => exact changeCleared token (whose which) (.inr rfl)
  | made none' before =>
    refine ⟨fun x dir here => ?_,fun x changed => .inl ⟨live,updateTouched changed⟩⟩
    rcases updateCases here with ⟨same,new⟩ | ⟨-,before⟩
    · obtain rfl := Option.some.inj new
      exact .inr ⟨live,same,rfl,fun t none' => absurd none' (by simp)⟩
    · exact .inl ⟨dir,before,rfl,fun _ same => same⟩
  | @wrote dir old before =>
    refine ⟨fun x dir' here => ?_,fun x changed => .inl ⟨live,updateTouched changed⟩⟩
    rcases updateCases here with ⟨same,new⟩ | ⟨-,was⟩
    · obtain rfl := Option.some.inj new
      exact .inr ⟨live,same,own (before ▸ rfl) dir old,fun t same => (Option.some.inj same).symm⟩
    · exact .inl ⟨dir',was,rfl,fun _ same => same⟩

theorem soundMove {token : Nat → τ} {w : World τ} (sound : Sound token w) {b : Nat} {p : Process}
    (there : w.processes[b]? = some p) (live : p.live = true) {phase phase' : Phase} (at' : p.engine = some phase)
    {dirs' : Nat → Option (RunDir τ)} (moved : Moved token b p.pid w.alive w.dirs phase phase' dirs') :
    Sound token ⟨w.processes.set b { p with engine := some phase' },dirs'⟩ := by
  have foundOld : p.found = phase.found := by rw [Process.found,live,at']; rfl
  have foundNew : ({ p with engine := some phase' } : Process).found = phase'.found := by rw [Process.found,live]; rfl
  have ownsOld : p.owns = phase.owns := by rw [Process.owns,live,at']; rfl
  have ownsNew : ({ p with engine := some phase' } : Process).owns = phase'.owns := by rw [Process.owns,live]; rfl
  have own := sound.own b p there
  rw [ownsOld] at own
  have change := soundChange sound (q := { p with engine := some phase' }) there rfl rfl id (moveChange live at' own moved)
  rw [foundNew,foundOld,ownsNew] at change
  have kept := sound.kept b p there live
  rw [at'] at kept
  dsimp only at change
  -- Where the directory is not owned, nothing has to be kept.
  have unowned : phase'.owns = false → (phase'.owns = true → ∀ dir, dirs' p.pid = some dir → dir.maker = b) ∧
      (p.live = true → p.raced = false → (some phase' = some .made → (dirs' p.pid).isSome = true) ∧
        (some phase' = some .running → ∃ dir, dirs' p.pid = some dir ∧ dir.session = some (token b))) := by
    intro no
    refine ⟨fun yes => absurd (no.symm.trans yes) (by simp),fun _ _ => ⟨?_,?_⟩⟩ <;>
    · intro same
      obtain rfl := Option.some.inj same
      cases no
  cases moved with
  | stayed => exact change (fun _ => .inl) own fun _ => kept
  | dropped running =>
    exact change (fun _ none' => absurd none' (by simp [Phase.found])) (fun _ => own (running ▸ rfl))
      fun _ _ => ⟨fun no => absurd no (by simp),fun no => absurd no (by simp)⟩
  | passed owns dead => exact change (fun pid found => .inr (dead pid found)) (unowned owns).1 (unowned owns).2
  | cleared which =>
    have neither : phase ≠ .made ∧ phase ≠ .running := by
      rcases which with found | ⟨-,rfl | rfl⟩
      · constructor <;> rintro rfl <;> cases found
      · exact ⟨by simp,by simp⟩
      · exact ⟨by simp,by simp⟩
    refine change (fun _ => .inl) (fun yes dir here => ?_) fun _ _ =>
      ⟨fun same => absurd (Option.some.inj same) neither.1,fun same => absurd (Option.some.inj same) neither.2⟩
    rcases updateCases here with ⟨same,new⟩ | ⟨-,before⟩
    · obtain ⟨old,was,rfl⟩ := Option.map_eq_some_iff.mp new
      exact own yes old (same ▸ was)
    · exact own yes dir before
  | gone which owns found =>
    exact change (fun pid' some' => absurd (found.symm.trans some') (by simp)) (unowned owns).1 (unowned owns).2
  | made none' before =>
    refine change (fun _ none' => absurd none' (by simp [Phase.found])) (fun _ dir here => ?_) fun _ _ => ⟨fun _ => ?_,?_⟩
    · rw [Function.update_self] at here
      exact (Option.some.inj here) ▸ rfl
    · rw [Function.update_self]
      rfl
    · exact fun no => absurd no (by simp)
  | @wrote dir old before =>
    refine change (fun _ none' => absurd none' (by simp [Phase.found])) (fun _ dir' here => ?_) fun _ _ => ⟨?_,fun _ => ?_⟩
    · rw [Function.update_self] at here
      exact (Option.some.inj here) ▸ own (before ▸ rfl) dir old
    · exact fun no => absurd no (by simp)
    · exact ⟨_,Function.update_self ..,rfl⟩

theorem soundStep {token : Nat → τ} {w : World τ} (sound : Sound token w) (e : Event) : Sound token (step token w e) := by
  cases e with
  | born pid =>
    simp only [step]
    split
    · exact sound
    · rename_i free
      exact soundBorn sound (Bool.eq_false_iff.mpr free)
  | execs b =>
    simp only [step]
    split
    · rename_i p there
      split
      · rename_i fresh
        obtain ⟨live,-⟩ := Bool.and_eq_true_iff.mp fresh
        refine soundChange sound there rfl rfl id (changeNone ..) (fun pid none' => ?_) (fun no => ?_) fun _ _ => ?_
        · rw [Process.found,live] at none'
          cases none'
        · rw [Process.owns,live] at no
          cases no
        · exact ⟨fun no => absurd no (by simp),fun no => absurd no (by simp)⟩
      · exact sound
    · exact sound
  | moves b m =>
    simp only [step]
    split
    · rename_i p there
      split
      · rename_i live
        split
        · rename_i phase at'
          exact soundMove sound there live at' (moveCases token b p.pid w.alive w.dirs phase m)
        · exact sound
      · exact sound
    · exact sound
  | died b =>
    simp only [step]
    split
    · rename_i p there
      exact soundChange sound there rfl rfl (fun no => absurd no (by simp)) (changeNone ..)
        (fun _ none' => absurd none' (by simp [Process.found])) (fun no => absurd no (by simp [Process.owns]))
        fun no => absurd no (by simp)
    · exact sound

theorem soundRun (token : Nat → τ) (events : List Event) : Sound token (run token events) := by
  refine List.foldlRecOn events (step token) ?_ fun w sound e _ => soundStep sound e
  refine ⟨?_,?_,?_,?_,?_⟩
  · exact fun b c p q none' => absurd none' (by simp [start])
  · exact fun pid dir none' => absurd none' (by simp [start])
  · exact fun b p none' => absurd none' (by simp [start])
  · exact fun b p none' => absurd none' (by simp [start])
  · exact fun b p none' => absurd none' (by simp [start])

/-- An engine finds its own directory under its process id as long as it runs, with its own token in it, unless a sweep
held the id for dead as the process started. -/
theorem directoryKept (token : Nat → τ) (events : List Event) {b : Nat} {p : Process}
    (there : (run token events).processes[b]? = some p) (live : p.live = true) (unraced : p.raced = false)
    (past : p.engine = some .made ∨ p.engine = some .running) : ∃ dir, (run token events).dirs p.pid = some dir ∧
      dir.maker = b ∧ (p.engine = some .running → dir.session = some (token b)) := by
  have sound := soundRun token events
  obtain ⟨made,running⟩ := sound.kept b p there live unraced
  have owns : p.owns = true := by
    rcases past with same | same <;>
    · rw [Process.owns,live,same]
      rfl
  rcases past with same | same
  · obtain ⟨dir,here⟩ := Option.isSome_iff_exists.mp (made same)
    exact ⟨dir,here,sound.own b p there owns dir here,fun other => absurd (same.symm.trans other) (by simp)⟩
  · obtain ⟨dir,here,session⟩ := running same
    exact ⟨dir,here,sound.own b p there owns dir here,fun _ => session⟩

def runningSeven : List Event := [.born 7,.execs 0,.moves 0 .sweeps,.moves 0 .makes,.moves 0 .writes]

def sweptAround : List Event := runningSeven ++ [.born 8,.execs 1,.moves 1 (.looks 7),.moves 1 .unlinks]

theorem sweptAroundKept : ∃ dir, (run id sweptAround).dirs 7 = some dir ∧ dir.maker = 0 ∧ dir.session = some 0 := by
  obtain ⟨dir,here,maker,session⟩ :=
    directoryKept id sweptAround (b := 0) (p := ⟨7,true,some .running,false⟩) rfl rfl rfl (.inr rfl)
  exact ⟨dir,here,maker,session rfl⟩

-- The sweep of process 1 finds the id 7 dead, and removes the directory that process 2 has made under it since.
example : (run id (runningSeven ++ [.died 0,.born 8,.execs 1,.moves 1 (.looks 7),.born 7,.execs 2,.moves 2 .sweeps,
    .moves 2 .makes,.moves 2 (.removes true),.moves 2 .makes,.moves 1 (.removes true)])).dirs 7 |>.isNone := by decide

theorem receiverCases {w : World τ} {pid c : Nat} (reached : w.receiver pid = some c) :
    ∃ q, w.processes[c]? = some q ∧ q.live = true ∧ q.pid = pid := by
  obtain ⟨small,holds,-⟩ := List.findIdx?_eq_some_iff_getElem.mp reached
  obtain ⟨live,same⟩ := Bool.and_eq_true_iff.mp holds
  exact ⟨_,List.getElem?_eq_getElem small,live,beq_iff_eq.mp same⟩

/-! A directory that is gone. -/

theorem movePast {token : Nat → τ} {b own : Nat} {alive : Nat → Bool} {dirs : Nat → Option (RunDir τ)} {phase : Phase}
    (past : phase.past = true) (m : Move) : (move token b own alive dirs phase m).1.past = true := by
  cases phase with
  | sweeping | making | replacing | remaking => cases past
  | made =>
    cases m with
    | writes => simp only [move]; split <;> rfl
    | looks | unlinks | removes | sweeps | makes | drops => rfl
  | running => cases m <;> rfl
  | dropping => cases m <;> rfl
  | leaving => cases m <;> rfl

/-- The process `b` has its making behind it, and its directory is not there. -/
structure Lost (w : World τ) (b pid : Nat) : Prop where
  past : ∃ p, w.processes[b]? = some p ∧ p.pid = pid ∧ p.past = true
  gone : ∀ dir, w.dirs pid = some dir → dir.maker ≠ b

theorem lostPut {w : World τ} {b pid : Nat} (lost : Lost w b pid) {c : Nat} {p q : Process}
    (there : w.processes[c]? = some p) (same : q.pid = p.pid) (past : p.past = true → q.past = true)
    {dirs' : Nat → Option (RunDir τ)} (gone : ∀ dir, dirs' pid = some dir → dir.maker ≠ b) :
    Lost ⟨w.processes.set c q,dirs'⟩ b pid := by
  obtain ⟨⟨r,process,pids,behind⟩,-⟩ := lost
  refine ⟨?_,gone⟩
  by_cases mine : c = b
  · subst mine
    obtain rfl := Option.some.inj (there.symm.trans process)
    exact ⟨q,List.getElem?_set_self (List.getElem?_eq_some_iff.mp there).1,same.trans pids,past behind⟩
  · exact ⟨r,by rw [List.getElem?_set_ne mine,process],pids,behind⟩

theorem lostMove {token : Nat → τ} {w : World τ} (sound : Sound token w) {b pid : Nat} (lost : Lost w b pid) {c : Nat}
    {p : Process} (there : w.processes[c]? = some p) (live : p.live = true) {phase : Phase} (at' : p.engine = some phase)
    (m : Move) : Lost ⟨w.processes.set c { p with engine := some (move token c p.pid w.alive w.dirs phase m).1 },
      (move token c p.pid w.alive w.dirs phase m).2⟩ b pid := by
  have owns : p.owns = phase.owns := by rw [Process.owns,live,at']; rfl
  have pasts : p.past = phase.past := by rw [Process.past,live,at']; rfl
  have change : Change token c p w.dirs (move token c p.pid w.alive w.dirs phase m).2 :=
    moveChange live at' (fun yes => sound.own c p there (owns.trans yes))
      (moveCases token c p.pid w.alive w.dirs phase m)
  refine lostPut lost there (q := { p with engine := some (move token c p.pid w.alive w.dirs phase m).1 }) rfl
    (fun behind => ?_) fun dir here maker => ?_
  · rw [pasts] at behind
    rw [Process.past,live]
    exact movePast behind m
  · rcases change.from' pid dir here with ⟨old,was,same,-⟩ | ⟨-,-,same,-⟩
    · exact lost.gone old was (same.trans maker)
    · -- Its own operations make no directory any more.
      obtain ⟨r,process,pids,behind⟩ := lost.past
      have mine : c = b := same.symm.trans maker
      subst mine
      obtain rfl := Option.some.inj (there.symm.trans process)
      rw [pasts] at behind
      have moved := moveCases token c p.pid w.alive w.dirs phase m
      generalize (move token c p.pid w.alive w.dirs phase m).1 = phase' at moved
      generalize (move token c p.pid w.alive w.dirs phase m).2 = dirs' at moved here
      cases moved with
      | stayed | dropped | passed => exact lost.gone dir here maker
      | cleared =>
        rcases updateCases here with ⟨rfl,new⟩ | ⟨-,before⟩
        · obtain ⟨old,was,rfl⟩ := Option.map_eq_some_iff.mp new
          exact lost.gone old was maker
        · exact lost.gone dir before maker
      | gone =>
        rcases updateCases here with ⟨-,none'⟩ | ⟨-,before⟩
        · cases none'
        · exact lost.gone dir before maker
      | made none' before => rcases before with rfl | rfl <;> cases behind
      | @wrote dir' old before =>
        exact lost.gone dir' (pids ▸ old) (sound.own _ p there (owns.trans (before ▸ rfl)) dir' old)

theorem lostStep {token : Nat → τ} {w : World τ} (sound : Sound token w) {b pid : Nat} (lost : Lost w b pid) (e : Event) :
    Lost (step token w e) b pid := by
  cases e with
  | born own =>
    simp only [step]
    split
    · exact lost
    · obtain ⟨⟨r,process,rest⟩,gone⟩ := lost
      exact ⟨⟨r,by rw [List.getElem?_append_left (List.getElem?_eq_some_iff.mp process).1,process],rest⟩,gone⟩
  | execs c =>
    simp only [step]
    split
    · rename_i p there
      split
      · rename_i fresh
        obtain ⟨live,none'⟩ := Bool.and_eq_true_iff.mp fresh
        refine lostPut lost there (q := { p with engine := some (.sweeping none) }) rfl (fun behind => ?_) lost.gone
        rw [Process.past,live,Option.isNone_iff_eq_none.mp none'] at behind
        cases behind
      · exact lost
    · exact lost
  | moves c m =>
    simp only [step]
    split
    · rename_i p there
      split
      · rename_i live
        split
        · rename_i phase at'
          exact lostMove sound lost there live at' m
        · exact lost
      · exact lost
    · exact lost
  | died c =>
    simp only [step]
    split
    · rename_i p there
      exact lostPut lost there (q := { p with live := false }) rfl (fun _ => rfl) lost.gone
    · exact lost

/-! The token check of `p11k reload`. -/

section reload
variable [DecidableEq τ]

def Distinct (token : Nat → τ) (w : World τ) : Prop :=
  ∀ b < w.processes.length, ∀ c < w.processes.length, token b = token c → b = c

theorem verifiedCases {token : Nat → τ} {w : World τ} (sound : Sound token w) (distinct : Distinct token w) {b : Nat}
    (verified : w.verified token b = true) : ∃ p dir, w.processes[b]? = some p ∧ w.dirs p.pid = some dir ∧ dir.maker = b := by
  unfold World.verified at verified
  split at verified
  · rename_i p there
    obtain ⟨dir,here,holds⟩ := (Option.any_eq_true _ _).mp verified
    have session : dir.session = some (token b) := beq_iff_eq.mp holds
    obtain ⟨q,process,-,tokens⟩ := sound.makers _ dir here
    have small := (List.getElem?_eq_some_iff.mp there).1
    have small' := (List.getElem?_eq_some_iff.mp process).1
    exact ⟨p,dir,there,here,(distinct _ small _ small' (tokens _ session)).symm⟩
  · cases verified

/-- While the token of a session is read in its directory, a signal to its process id reaches that session, or the
session is dead and the signal reaches a process that has no directory of its own. -/
theorem signalMeetsOwner (token : Nat → τ) (events : List Event) (distinct : Distinct token (run token events)) {b : Nat}
    {p : Process} (there : (run token events).processes[b]? = some p)
    (verified : (run token events).verified token b = true) {c : Nat} (reached : (run token events).receiver p.pid = some c) :
    c = b ∨ p.live = false ∧ ∃ q, (run token events).processes[c]? = some q ∧ q.owns = false := by
  have sound := soundRun token events
  obtain ⟨p',dir,there',here,maker⟩ := verifiedCases sound distinct verified
  obtain rfl := Option.some.inj (there.symm.trans there')
  obtain ⟨q,process,live,pid⟩ := receiverCases reached
  by_cases same : c = b
  · exact .inl same
  · refine .inr ⟨Bool.eq_false_iff.mpr fun living => ?_,q,process,Bool.eq_false_iff.mpr fun owns => ?_⟩
    · exact same (sound.unique c b q p process there live living pid)
    · exact same ((sound.own c q process owns dir (pid.symm ▸ here)).symm.trans maker)

/-- A session whose directory is gone, or is another's, is never verified again, whatever happens. -/
theorem goneForGood (token : Nat → τ) (events more : List Event) (distinct : Distinct token (run token (events ++ more)))
    {b : Nat} {p : Process} (there : (run token events).processes[b]? = some p) (past : p.past = true)
    (gone : ∀ dir, (run token events).dirs p.pid = some dir → dir.maker ≠ b) :
    (run token (events ++ more)).verified token b = false := by
  have split' : run token (events ++ more) = more.foldl (step token) (run token events) := List.foldl_append
  have both : Sound token (run token (events ++ more)) ∧ Lost (run token (events ++ more)) b p.pid := by
    rw [split']
    refine List.foldlRecOn (motive := fun w => Sound token w ∧ Lost w b p.pid) more (step token) ?_ ?_
    · exact ⟨soundRun token events,⟨p,there,rfl,past⟩,gone⟩
    · exact fun w holds e _ => ⟨soundStep holds.1 e,lostStep holds.1 holds.2 e⟩
  obtain ⟨sound,⟨q,process,pid,-⟩,nowhere⟩ := both
  refine Bool.eq_false_iff.mpr fun verified => ?_
  obtain ⟨q',dir,process',here,maker⟩ := verifiedCases sound distinct verified
  obtain rfl := Option.some.inj (process.symm.trans process')
  exact nowhere dir (pid ▸ here) maker

end reload

end world

/-- The id of an engine that crashed goes to a program that is none. -/
def reusedSeven : List Event := runningSeven ++ [.died 0,.born 7]

theorem reusedMeetsNone : (run id reusedSeven).receiver 7 = some 1 ∧
    ∃ q, (run id reusedSeven).processes[1]? = some q ∧ q.owns = false := by
  have reached : (run id reusedSeven).receiver 7 = some 1 := by decide
  rcases signalMeetsOwner id reusedSeven (fun _ _ _ _ same => same) (b := 0) (p := ⟨7,false,some .running,false⟩) rfl
    (by decide) reached with no | ⟨-,other⟩
  · cases no
  · exact ⟨reached,other⟩

def endedSeven : List Event := runningSeven ++ [.moves 0 .drops,.moves 0 (.removes true)]

/-- Another engine starts under the id of one that ended. -/
theorem endedGoneForGood : (run id (endedSeven ++
    [.died 0,.born 7,.execs 1,.moves 1 .sweeps,.moves 1 .makes,.moves 1 .writes])).verified id 0 = false := by
  have nothing : (run id endedSeven).dirs 7 = none := rfl
  exact goneForGood id endedSeven _ (fun _ _ _ _ same => same) (p := ⟨7,true,some .leaving,false⟩) rfl rfl
    fun _ here => absurd (nothing.symm.trans here) (by simp)

end P11k.Sessions
