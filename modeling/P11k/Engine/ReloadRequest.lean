import P11k.Engine.Repaint

/-! The request file of `p11k reload`: any number of commands that open, write and signal, and the
engine that notices, reads, removes and loads, in any order of steps. The last write that the
engine has not read travels beside the file, where neither side sees it. -/
namespace P11k.Engine
open Gitstatus (Bytes)

/-- What a command asks for. `load_config_file` has read a theme at this path, so the path is not
empty. -/
structure Target where
  path : Bytes
  named : path ≠ []

inductive CommandPhase where
  | starting
  | opened (fd : Nat)
  | written
  | signalled
  deriving DecidableEq, Repr

structure Command where
  target : Target
  phase : CommandPhase

inductive Handling where
  | idle
  | reading
  | removing (bytes : Bytes)
  | loading (request : Option Bytes)
  deriving DecidableEq, Repr

/-- `entry` is the file that the name `reload-request` stands for; a file that was removed keeps
its place in `files` for those who opened it before. -/
structure Reloading (ρ θ δ : Type) where
  engine : State ρ θ δ
  handling : Handling
  flag : Bool
  entry : Option Nat
  files : List Bytes
  commands : List Command
  lastWritten : Option Bytes
  unread : Option Bytes

inductive ReloadAct (ε ρ θ δ : Type) where
  | openRequest (c : Nat)
  | writeRequest (c : Nat)
  | signal (c : Nat)
  | notice
  | read
  | remove
  | load (m : Moment ε) (load : Bytes → Option (Config ρ θ))
  | other (m : Moment ε) (what : Event ρ θ δ)

/-- A write at the start of a file leaves what is behind it. -/
def overwrite (bytes old : Bytes) : Bytes := bytes ++ old.drop bytes.length

def requested (bytes : Bytes) : Option Bytes := if bytes.isEmpty then none else some bytes

section reloading
variable {ε ρ θ δ : Type} (look : Look ε ρ θ δ)

def Reloading.become (s : Reloading ρ θ δ) (c : Nat) (phase : CommandPhase) : List Command :=
  s.commands.modify c ({ · with phase := phase })

def openStep (s : Reloading ρ θ δ) (c : Nat) : Reloading ρ θ δ :=
  match s.commands[c]? with
  | some ⟨_,.starting⟩ =>
      match s.entry with
      | some fd => { s with files := s.files.set fd [], commands := s.become c (.opened fd) }
      | none =>
          { s with
            entry := some s.files.length
            files := s.files ++ [[]]
            commands := s.become c (.opened s.files.length) }
  | _ => s

def writeStep (s : Reloading ρ θ δ) (c : Nat) : Reloading ρ θ δ :=
  match s.commands[c]? with
  | some ⟨target,.opened fd⟩ =>
      { s with
        files := s.files.modify fd (overwrite target.path)
        commands := s.become c .written
        lastWritten := some target.path
        unread := some target.path }
  | _ => s

def signalStep (s : Reloading ρ θ δ) (c : Nat) : Reloading ρ θ δ :=
  match s.commands[c]? with
  | some ⟨_,.written⟩ => { s with flag := true, commands := s.become c .signalled }
  | _ => s

def noticeStep (s : Reloading ρ θ δ) : Reloading ρ θ δ :=
  if s.handling = .idle ∧ s.flag = true then { s with flag := false, handling := .reading } else s

/-- A request file that is missing asks for a plain reload and is not removed. -/
def takeStep (s : Reloading ρ θ δ) : Reloading ρ θ δ :=
  if s.handling = .reading then
    match s.entry with
    | none => { s with handling := .loading none }
    | some fd => { s with handling := .removing (s.files[fd]?.getD []), unread := none }
  else s

def removeStep (s : Reloading ρ θ δ) : Reloading ρ θ δ :=
  match s.handling with
  | .removing bytes =>
      match s.entry with
      | none => { s with handling := .idle }
      | some _ => { s with entry := none, handling := .loading (requested bytes) }
  | _ => s

def loadStep (s : Reloading ρ θ δ) (m : Moment ε) (load : Bytes → Option (Config ρ θ)) :
    Reloading ρ θ δ × List (Output δ) :=
  match s.handling with
  | .loading request =>
      let r := reload look m s.engine (some request) load
      ({ s with engine := r.1, handling := .idle },r.2)
  | _ => (s,[])

/-- The engine is one thread: its other events come between two reloads. -/
def otherStep (s : Reloading ρ θ δ) (m : Moment ε) (what : Event ρ θ δ) :
    Reloading ρ θ δ × List (Output δ) :=
  match s.handling, what with
  | _, .reload .. => (s,[])
  | .idle, what =>
      let r := step look s.engine (m,what)
      ({ s with engine := r.1 },r.2)
  | _, _ => (s,[])

def reloadStep (s : Reloading ρ θ δ) : ReloadAct ε ρ θ δ → Reloading ρ θ δ × List (Output δ)
  | .openRequest c => (openStep s c,[])
  | .writeRequest c => (writeStep s c,[])
  | .signal c => (signalStep s c,[])
  | .notice => (noticeStep s,[])
  | .read => (takeStep s,[])
  | .remove => (removeStep s,[])
  | .load m load => loadStep look s m load
  | .other m what => otherStep look s m what

def reloadStart (engine : State ρ θ δ) (targets : List Target) : Reloading ρ θ δ :=
  ⟨engine,.idle,false,none,[],targets.map (⟨·,.starting⟩),none,none⟩

/-- Nothing is in flight: each command that wrote has signalled, and each signal was handled. -/
structure Settled (s : Reloading ρ θ δ) : Prop where
  handled : s.flag = false
  idle : s.handling = .idle
  signalled : ∀ c ∈ s.commands, c.phase ≠ .written

/-- The step meets no race: a write lands in the file that is still there and holds nothing longer,
a read finds the last write as it was written, and no newer write is removed. -/
def Intact (s : Reloading ρ θ δ) : ReloadAct ε ρ θ δ → Prop
  | .writeRequest c => ∀ target fd, s.commands[c]? = some ⟨target,.opened fd⟩ → s.entry = some fd ∧
      ∀ old, s.files[fd]? = some old → old.length ≤ target.path.length
  | .read => s.handling = .reading → ∀ path, s.unread = some path → s.entry.bind (s.files[·]?) = some path
  | .remove => ∀ bytes, s.handling = .removing bytes → s.unread = none
  | _ => True

/-- The path that the engine has or is about to have. -/
def heading (s : Reloading ρ θ δ) : Option Bytes :=
  match s.handling with
  | .idle | .reading => s.engine.configPath
  | .removing bytes => (requested bytes).or s.engine.configPath
  | .loading request => request.or s.engine.configPath

structure Kept (s : Reloading ρ θ δ) : Prop where
  unread : ∀ path, s.unread = some path → s.lastWritten = some path ∧ path ≠ [] ∧
    (s.flag = true ∨ s.handling = .reading ∨ ∃ c ∈ s.commands, c.phase = .written)
  content : ∀ fd bytes, s.entry = some fd → s.files[fd]? = some bytes →
    bytes = [] ∨ s.unread = some bytes ∨ ∃ read, s.handling = .removing read
  held : ∀ bytes, s.handling = .removing bytes → ∃ fd, s.entry = some fd
  heading : s.unread = none → ∀ path, s.lastWritten = some path → heading s = some path

theorem reloadPath (m : Moment ε) (s : State ρ θ δ) (request : Option Bytes)
    (load : Bytes → Option (Config ρ θ)) :
    (reload look m s (some request) load).1.configPath = request.or s.configPath := by
  unfold reload
  dsimp only
  split
  · rfl
  · split <;> rfl

theorem stepPath (s : State ρ θ δ) (m : Moment ε) {what : Event ρ θ δ}
    (other : ∀ request load, what ≠ .reload request load) :
    (step look s (m,what)).1.configPath = s.configPath := by
  cases what with
  | reload request load => exact absurd rfl (other request load)
  | header info => rfl
  | gitResult =>
    simp only [step,gitResult]
    repeat' split
    all_goals rfl
  | worked i k found =>
    simp only [step,worked]
    split <;> rfl
  | windowChange | resize | vimMode | input | output | deferredPrompt =>
    exact (screenUntouched look s m rfl).configPath

theorem becomeSelf {s : Reloading ρ θ δ} {c : Nat} {command : Command} (there : s.commands[c]? = some command)
    (phase : CommandPhase) : ∃ d ∈ s.become c phase, d.phase = phase :=
  ⟨{ command with phase := phase },
    List.mem_of_getElem? (i := c) (by simp [Reloading.become,there]),rfl⟩

theorem becomeOthers {s : Reloading ρ θ δ} {c : Nat} {command : Command}
    (there : s.commands[c]? = some command) (other : command.phase ≠ .written) (phase : CommandPhase)
    (written : ∃ d ∈ s.commands, d.phase = .written) : ∃ d ∈ s.become c phase, d.phase = .written := by
  obtain ⟨d,mem,wrote⟩ := written
  obtain ⟨i,at'⟩ := List.mem_iff_getElem?.mp mem
  have apart : c ≠ i := by
    rintro rfl
    rw [there] at at'
    cases at'
    exact other wrote
  refine ⟨d,List.mem_of_getElem? (i := i) ?_,wrote⟩
  simp [Reloading.become,apart,at']

theorem keptOpen {s : Reloading ρ θ δ} (kept : Kept s) (c : Nat) : Kept (openStep s c) := by
  unfold openStep
  split
  · rename_i target there
    have still : ∀ phase path, s.unread = some path → s.lastWritten = some path ∧ path ≠ [] ∧
        (s.flag = true ∨ s.handling = .reading ∨ ∃ d ∈ s.become c phase, d.phase = .written) := by
      intro phase path unread
      obtain ⟨last,named,awaited⟩ := kept.unread path unread
      exact ⟨last,named,awaited.imp_right (.imp_right (becomeOthers there (by simp) phase))⟩
    split
    · rename_i fd entry
      refine ⟨still _,?_,fun bytes removing => ⟨fd,entry⟩,kept.heading⟩
      intro fd' bytes same content
      rw [entry] at same
      cases same
      dsimp only at content
      rw [List.getElem?_set_self'] at content
      obtain ⟨_,_,rfl⟩ := Option.map_eq_some_iff.mp content
      exact .inl rfl
    · rename_i entry
      refine ⟨still _,?_,fun bytes removing => ⟨_,rfl⟩,kept.heading⟩
      intro fd' bytes same content
      cases same
      dsimp only at content
      rw [List.getElem?_concat_length] at content
      exact .inl (Option.some.inj content).symm
  · exact kept

theorem keptWrite {s : Reloading ρ θ δ} (kept : Kept s) {c : Nat}
    (intact : ∀ target fd, s.commands[c]? = some ⟨target,.opened fd⟩ → s.entry = some fd ∧
      ∀ old, s.files[fd]? = some old → old.length ≤ target.path.length) : Kept (writeStep s c) := by
  unfold writeStep
  split
  · rename_i target fd there
    obtain ⟨linked,fits⟩ := intact target fd there
    refine ⟨?_,?_,kept.held,nofun⟩
    · intro path unread
      cases unread
      exact ⟨rfl,target.named,.inr (.inr (becomeSelf there .written))⟩
    · intro fd' bytes same content
      rw [linked] at same
      cases same
      dsimp only at content
      rw [List.getElem?_modify_eq] at content
      obtain ⟨old,stood,rfl⟩ := Option.map_eq_some_iff.mp content
      refine .inr (.inl ?_)
      rw [overwrite,List.drop_eq_nil_of_le (fits old stood),List.append_nil]
  · exact kept

theorem keptSignal {s : Reloading ρ θ δ} (kept : Kept s) (c : Nat) : Kept (signalStep s c) := by
  unfold signalStep
  split
  · refine ⟨?_,kept.content,kept.held,kept.heading⟩
    intro path unread
    obtain ⟨last,named,_⟩ := kept.unread path unread
    exact ⟨last,named,.inl rfl⟩
  · exact kept

theorem keptNotice {s : Reloading ρ θ δ} (kept : Kept s) : Kept (noticeStep s) := by
  unfold noticeStep
  split
  · rename_i both
    refine ⟨?_,?_,nofun,?_⟩
    · intro path unread
      obtain ⟨last,named,_⟩ := kept.unread path unread
      exact ⟨last,named,.inr (.inl rfl)⟩
    · intro fd bytes entry stood
      rcases kept.content fd bytes entry stood with empty | same | ⟨read,removing⟩
      · exact .inl empty
      · exact .inr (.inl same)
      · rw [both.1] at removing
        contradiction
    · intro read path last
      have before := kept.heading read path last
      rw [heading,both.1] at before
      exact before
  · exact kept

theorem keptTake {s : Reloading ρ θ δ} (kept : Kept s)
    (intact : s.handling = .reading → ∀ path, s.unread = some path →
      s.entry.bind (s.files[·]?) = some path) : Kept (takeStep s) := by
  unfold takeStep
  split
  · rename_i reading
    have found := intact reading
    have ahead : s.unread = none → ∀ path, s.lastWritten = some path → s.engine.configPath = some path := by
      intro read path last
      have before := kept.heading read path last
      rw [heading,reading] at before
      exact before
    split
    · rename_i entry
      have none' : s.unread = none := by
        cases unread : s.unread with
        | none => rfl
        | some path =>
          have := found path unread
          rw [entry] at this
          contradiction
      refine ⟨fun path unread => ?_,fun fd bytes same => ?_,nofun,ahead⟩
      · rw [none'] at unread
        contradiction
      · rw [entry] at same
        contradiction
    · rename_i fd entry
      refine ⟨nofun,fun _ _ _ _ => .inr (.inr ⟨_,rfl⟩),fun _ _ => ⟨fd,entry⟩,fun _ path last => ?_⟩
      show (requested (s.files[fd]?.getD [])).or s.engine.configPath = some path
      cases unread : s.unread with
      | none =>
        have empty : s.files[fd]?.getD [] = [] := by
          cases stood : s.files[fd]? with
          | none => rfl
          | some bytes =>
            rcases kept.content fd bytes entry stood with empty | same | ⟨read,removing⟩
            · exact empty
            · rw [unread] at same
              contradiction
            · rw [reading] at removing
              contradiction
        rw [empty]
        exact ahead unread path last
      | some newest =>
        obtain ⟨same,named,_⟩ := kept.unread newest unread
        have stood := found newest unread
        rw [entry,Option.bind_some] at stood
        rw [stood,Option.getD_some,requested,if_neg (by simpa using named),Option.some_or]
        exact same.symm.trans last
  · exact kept

theorem keptRemove {s : Reloading ρ θ δ} (kept : Kept s)
    (intact : ∀ bytes, s.handling = .removing bytes → s.unread = none) : Kept (removeStep s) := by
  unfold removeStep
  split
  · rename_i bytes removing
    have none' := intact bytes removing
    split
    · rename_i entry
      obtain ⟨fd,some'⟩ := kept.held bytes removing
      rw [entry] at some'
      contradiction
    · refine ⟨fun path unread => ?_,nofun,nofun,fun read path last => ?_⟩
      · rw [none'] at unread
        contradiction
      · have before := kept.heading read path last
        rw [heading,removing] at before
        exact before
  · exact kept

theorem keptLoad {s : Reloading ρ θ δ} (kept : Kept s) (m : Moment ε)
    (load : Bytes → Option (Config ρ θ)) : Kept (loadStep look s m load).1 := by
  unfold loadStep
  split
  · rename_i request loading
    refine ⟨?_,?_,nofun,fun read path last => ?_⟩
    · intro path unread
      obtain ⟨last,named,awaited⟩ := kept.unread path unread
      rw [loading] at awaited
      exact ⟨last,named,by simpa using awaited⟩
    · intro fd bytes entry stood
      rcases kept.content fd bytes entry stood with empty | same | ⟨read,removing⟩
      · exact .inl empty
      · exact .inr (.inl same)
      · rw [loading] at removing
        contradiction
    · have before := kept.heading read path last
      rw [heading,loading] at before
      exact (reloadPath look m s.engine request load).trans before
  · exact kept

theorem keptOther {s : Reloading ρ θ δ} (kept : Kept s) (m : Moment ε) (what : Event ρ θ δ) :
    Kept (otherStep look s m what).1 := by
  unfold otherStep
  split
  · exact kept
  · rename_i what idle other
    refine ⟨kept.unread,kept.content,kept.held,fun read path last => ?_⟩
    have before := kept.heading read path last
    rw [heading,idle] at before ⊢
    exact (stepPath look s.engine m other).trans before
  · exact kept

theorem keptStep (s : Reloading ρ θ δ) (act : ReloadAct ε ρ θ δ) (kept : Kept s) (intact : Intact s act) :
    Kept (reloadStep look s act).1 := by
  cases act with
  | openRequest c => exact keptOpen kept c
  | writeRequest c => exact keptWrite kept intact
  | signal c => exact keptSignal kept c
  | notice => exact keptNotice kept
  | read => exact keptTake kept intact
  | remove => exact keptRemove kept intact
  | load m load => exact keptLoad look kept m load
  | other m what => exact keptOther look kept m what

/-- In a run that meets no race, the engine ends up with the path of the last completed write. -/
theorem reloadsKept (engine : State ρ θ δ) (targets : List Target) (acts : List (ReloadAct ε ρ θ δ))
    (intact : Machine.Guarded (reloadStep look) Intact (reloadStart engine targets) acts) :
    let last := (Machine.run (reloadStep look) (reloadStart engine targets) acts).1
    Settled last → ∀ path, last.lastWritten = some path → last.engine.configPath = some path := by
  intro last settled path written
  have start : Kept (reloadStart engine targets) := ⟨nofun,nofun,nofun,nofun⟩
  have kept : Kept last := Machine.runKeeps (keptStep look) start intact
  have read : last.unread = none := by
    cases unread : last.unread with
    | none => rfl
    | some newest =>
      obtain ⟨_,_,awaited⟩ := kept.unread newest unread
      rw [settled.handled,settled.idle] at awaited
      rcases awaited with flag | reading | ⟨command,mem,wrote⟩
      · contradiction
      · contradiction
      · exact absurd wrote (settled.signalled command mem)
  have ahead := kept.heading read path written
  rw [heading,settled.idle] at ahead
  exact ahead

end reloading

/-! A command opens the file between the signal of the one before and the engine's read: the
engine finds it empty and removes it, and the write goes to the removed file. -/

def oneLook : Look Unit Unit Unit Unit where
  ruler _ _ := []
  row _ _ _ _ _ _ _ := []
  displayWidth := List.length
  promptState _ _ _ := none
  prefixText _ _ := []
  prefixTextBash _ _ := []
  prefixTextZsh _ _ := []

def oneTheme : Config Unit Unit := ⟨⟨[()],[],false,0,.off⟩,()⟩

def twoCommands : Reloading Unit Unit Unit :=
  reloadStart (start oneLook .zsh oneTheme none ⟨24,80,0,0⟩ [104]) [⟨[97],by decide⟩,⟨[98],by decide⟩]

def reloadPass : List (ReloadAct Unit Unit Unit Unit) :=
  [.notice,.read,.remove,.load ⟨0,none,()⟩ (fun _ => some oneTheme)]

def coalesced : List (ReloadAct Unit Unit Unit Unit) :=
  [.openRequest 0,.writeRequest 0,.signal 0,.openRequest 1,.writeRequest 1,.signal 1] ++ reloadPass

theorem coalescedKept :
    let last := (Machine.run (reloadStep oneLook) twoCommands coalesced).1
    Settled last ∧ last.lastWritten = some [98] ∧ last.engine.configPath = some [98] := by
  have settled : Settled (Machine.run (reloadStep oneLook) twoCommands coalesced).1 :=
    ⟨by decide,by decide,by decide⟩
  have written : (Machine.run (reloadStep oneLook) twoCommands coalesced).1.lastWritten = some [98] := by decide
  refine ⟨settled,written,reloadsKept oneLook _ [⟨[97],by decide⟩,⟨[98],by decide⟩] coalesced ?_ settled _ written⟩
  refine ⟨trivial,fun target fd there => ?_,trivial,trivial,fun target fd there => ?_,trivial,trivial,
    fun _ path unread => ?_,fun _ _ => rfl,trivial,trivial⟩
  · cases there
    exact ⟨rfl,fun old none' => by cases none'; decide⟩
  · cases there
    exact ⟨rfl,fun old none' => by cases none'; decide⟩
  · cases unread
    rfl

def openedBeforeRead : List (ReloadAct Unit Unit Unit Unit) :=
  [.openRequest 0,.writeRequest 0,.signal 0,.openRequest 1] ++ reloadPass ++
    [.writeRequest 1,.signal 1] ++ reloadPass

theorem openedBeforeReadLost :
    ¬ ∀ (targets : List Target) (acts : List (ReloadAct Unit Unit Unit Unit)),
      let last := (Machine.run (reloadStep oneLook)
        (reloadStart (start oneLook .zsh oneTheme none ⟨24,80,0,0⟩ [104]) targets) acts).1
      Settled last → ∀ path, last.lastWritten = some path → last.engine.configPath = some path := by
  intro kept
  have lost := kept [⟨[97],by decide⟩,⟨[98],by decide⟩] openedBeforeRead
    ⟨by decide,by decide,by decide⟩ [98] (by decide)
  have none' : (Machine.run (reloadStep oneLook) twoCommands openedBeforeRead).1.engine.configPath = none := by
    decide
  rw [show (Machine.run (reloadStep oneLook) (reloadStart (start oneLook .zsh oneTheme none ⟨24,80,0,0⟩ [104])
    [⟨[97],_⟩,⟨[98],_⟩]) openedBeforeRead).1.engine.configPath = none from none'] at lost
  contradiction

end P11k.Engine
