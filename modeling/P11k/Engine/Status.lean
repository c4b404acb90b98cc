import P11k.Engine.Repaint

/-! Whose git status is on screen. A result is accepted for the last request only, so the last
status is that of the directory it is stored under; whether that directory is still the one
shown is what the repaints would have to ask. -/
namespace P11k.Engine
open Gitstatus (Bytes)

section status
variable {ε ρ θ δ : Type} (look : Look ε ρ θ δ)

def Belongs (s : State ρ θ δ) : Prop :=
  ∀ v ∈ s.lastVcs, v.2.isSome = true → v.1 = (shownInfo s).cwd

def OwnPaint (p : Paint δ) : Prop := ∀ g ∈ p.vcs, g.computedFor = p.info.cwd

def ShowsOwn (o : Output δ) : Prop := ∀ p, o = .paint p → OwnPaint p

/-- A request of generation `gen` for `cwd`: if it is the last one, its directory is shown. -/
def Issued (gitGen : UInt64) (currentInfo : Option HeaderInfo) (gen : UInt64) (cwd : Bytes) : Prop :=
  gen.toNat ≤ gitGen.toNat ∧ (gen = gitGen → currentInfo.map (·.cwd) = some cwd)

structure Wired (workers : List (List GitRequest)) (results : List (GitResult δ)) (gitGen : UInt64)
    (lastVcs : Option (Bytes × Option (GitStatus δ))) (currentInfo : Option HeaderInfo) : Prop where
  queued : ∀ q ∈ workers, ∀ req ∈ q, Issued gitGen currentInfo req.generation req.cwd
  answered : ∀ res ∈ results, ∃ cwd, Issued gitGen currentInfo res.generation cwd ∧
    ∀ g ∈ res.status, g.computedFor = cwd
  kept : ∀ v ∈ lastVcs, ∀ g ∈ v.2, g.computedFor = v.1

def WiredState (s : State ρ θ δ) : Prop :=
  Wired s.workers s.results s.gitGen s.lastVcs s.currentInfo

/-- The prompt counter does not wrap. -/
def Counts (s : State ρ θ δ) (e : Moment ε × Event ρ θ δ) : Prop :=
  match e.2 with
  | .header _ => s.gitGen.toNat + 1 < 2^64
  | _ => True

theorem wiredStart (shell : Shell) (config : Config ρ θ) (configPath : Option Bytes) (size : Size)
    (cwd : Bytes) : WiredState (start look shell config configPath size cwd) :=
  ⟨by simp [start],by simp [start],by simp [start]⟩

theorem wiredReload (m : Moment ε) {s : State ρ θ δ} (wired : WiredState s)
    (request : Option (Option Bytes)) (load : Bytes → Option (Config ρ θ)) :
    WiredState (reload look m s request load).1 := by
  have respawned : Wired ([] :: s.workers) s.results s.gitGen s.lastVcs s.currentInfo :=
    ⟨by simpa using wired.queued,wired.answered,wired.kept⟩
  rcases reloadCases look m s request load with ⟨_,path,result⟩ | ⟨config,path,_,result⟩
  · rw [result]
    exact wired
  · rw [result]
    dsimp only
    split <;> exact respawned

theorem wiredHeader (m : Moment ε) {s : State ρ θ δ} (wired : WiredState s)
    (counts : s.gitGen.toNat + 1 < 2^64) (info : HeaderInfo) : WiredState (header look m s info).1 := by
  have next : (s.gitGen + 1).toNat = s.gitGen.toNat + 1 := by
    rw [UInt64.toNat_add]
    exact Nat.mod_eq_of_lt counts
  have older : ∀ {gen cwd shown}, Issued s.gitGen s.currentInfo gen cwd →
      Issued (s.gitGen + 1) shown gen cwd := by
    intro gen cwd shown issued
    refine ⟨by rw [next]; exact Nat.le_succ_of_le issued.1,fun same => ?_⟩
    have := issued.1
    rw [same,next] at this
    omega
  refine ⟨?_,?_,wired.kept⟩
  · intro q mem req inside
    obtain ⟨i,at'⟩ := List.mem_iff_getElem?.mp mem
    rw [header,List.getElem?_modify] at at'
    obtain ⟨old,there,rfl⟩ := Option.map_eq_some_iff.mp at'
    have before := wired.queued old (List.mem_of_getElem? there)
    split at inside
    · rcases List.mem_append.mp inside with waiting | new
      · exact older (before req waiting)
      · cases List.mem_singleton.mp new
        exact ⟨Nat.le_refl _,fun _ => rfl⟩
    · exact older (before req inside)
  · intro res mem
    obtain ⟨cwd,issued,own⟩ := wired.answered res mem
    exact ⟨cwd,older issued,own⟩

theorem wiredUntouched {s s' : State ρ θ δ} (wired : WiredState s) (same : Untouched s s') : WiredState s' := by
  rw [WiredState,same.workers,same.results,same.gitGen,same.lastVcs,same.currentInfo]
  exact wired

theorem wiredWorked {s : State ρ θ δ} (wired : WiredState s) (i k : Nat) (found : Option δ) :
    WiredState (worked s i k found) := by
  unfold worked
  cases taken : (s.workers[i]?).bind (fun queue => queue[k]?) with
  | none => exact wired
  | some latest =>
    obtain ⟨queue,there,inside⟩ := Option.bind_eq_some_iff.mp taken
    have issued := wired.queued queue (List.mem_of_getElem? there) latest (List.mem_of_getElem? inside)
    refine ⟨?_,?_,wired.kept⟩
    · intro q mem req inQ
      obtain ⟨j,at'⟩ := List.mem_iff_getElem?.mp mem
      rw [List.getElem?_modify] at at'
      obtain ⟨old,thereOld,rfl⟩ := Option.map_eq_some_iff.mp at'
      have before := wired.queued old (List.mem_of_getElem? thereOld) req
      split at inQ
      · exact before (List.mem_of_mem_drop inQ)
      · exact before inQ
    · intro res mem
      rcases List.mem_append.mp mem with old | new
      · exact wired.answered res old
      · cases List.mem_singleton.mp new
        refine ⟨latest.cwd,issued,?_⟩
        intro g status
        obtain ⟨fields,_,rfl⟩ := Option.map_eq_some_iff.mp status
        rfl

theorem wiredResult (m : Moment ε) {s : State ρ θ δ} (wired : WiredState s) :
    WiredState (gitResult look m s).1 := by
  unfold gitResult
  cases queue : s.results with
  | nil => exact wired
  | cons res results =>
    have later : ∀ r ∈ results, r ∈ s.results := fun r mem => by rw [queue]; exact List.mem_cons_of_mem res mem
    have dropped : Wired s.workers results s.gitGen s.lastVcs s.currentInfo :=
      ⟨wired.queued,fun r mem => wired.answered r (later r mem),wired.kept⟩
    dsimp only
    split
    · exact dropped
    · rename_i current
      obtain ⟨cwd,issued,own⟩ := wired.answered res (by rw [queue]; exact List.mem_cons_self)
      have shown := issued.2 (by simpa using current)
      have stored : Wired s.workers results s.gitGen (some (s.currentInfo.elim [] (·.cwd),res.status))
          s.currentInfo := by
        refine ⟨dropped.queued,dropped.answered,?_⟩
        intro v mem g status
        cases mem
        obtain ⟨info,known,rfl⟩ := Option.map_eq_some_iff.mp shown
        rw [known]
        exact own g status
      cases known : s.currentInfo with
      | none => rw [known] at stored; exact stored
      | some info =>
        rw [known] at stored
        dsimp only
        split <;> exact stored

theorem wiredStep {s : State ρ θ δ} {e : Moment ε × Event ρ θ δ} (wired : WiredState s)
    (counts : Counts s e) : WiredState (step look s e).1 := by
  obtain ⟨m,what⟩ := e
  have sync : WiredState (syncSize m s) := wired
  cases what with
  | reload request load => exact wiredReload look m wired request load
  | header info => exact wiredHeader look m sync counts info
  | gitResult => exact wiredResult look m wired
  | worked i k found => exact wiredWorked wired i k found
  | windowChange | resize | vimMode | input | output | deferredPrompt =>
    exact wiredUntouched wired (screenUntouched look s m rfl)

theorem belongsIff {s : State ρ θ δ} (wired : WiredState s) :
    Belongs s ↔ ∀ g ∈ lastStatus s, g.computedFor = (shownInfo s).cwd := by
  constructor
  · intro belongs g last
    obtain ⟨v,there,status⟩ := Option.bind_eq_some_iff.mp last
    rw [wired.kept v there g status]
    exact belongs v there (by rw [status]; rfl)
  · intro own v there isSome
    obtain ⟨g,status⟩ := Option.isSome_iff_exists.mp isSome
    rw [← own g (Option.bind_eq_some_iff.mpr ⟨v,there,status⟩)]
    exact (wired.kept v there g status).symm

theorem filledOwn {s : State ρ θ δ} (wired : WiredState s) {p : Paint δ} (filled : FilledIn s p) :
    OwnPaint p := by
  intro g shows
  rcases filled with ⟨info,vcs⟩ | ⟨res,front,current,known,status⟩
  · rw [vcs] at shows
    obtain ⟨v,own,there⟩ := Option.bind_eq_some_iff.mp shows
    obtain ⟨last,same⟩ := Option.filter_eq_some_iff.mp own
    rw [info,← of_decide_eq_true same]
    exact wired.kept v last g there
  · obtain ⟨cwd,issued,own⟩ := wired.answered res (List.mem_of_mem_head? front)
    have shown := issued.2 current
    rw [known] at shown
    rw [status] at shows
    cases shown
    exact own g shows

theorem stepShowsOwn {s : State ρ θ δ} {e : Moment ε × Event ρ θ δ} (wired : WiredState s) :
    (∀ o ∈ (step look s e).2, ShowsOwn o) ↔ (Repaints look s e → Belongs s) := by
  constructor
  · intro own repaints
    obtain ⟨p,only,info,vcs,_⟩ := repaintStep look repaints
    rw [belongsIff wired,← info,← vcs]
    exact own (.paint p) (by rw [only]; exact List.mem_singleton_self _) p rfl
  · intro belongs o mem p paint
    subst paint
    rcases (stepPaints look s e).1 _ mem with quiet | ⟨q,same,_,_,repaint | filled⟩
    · contradiction
    · cases same
      have own := (belongsIff wired).mp (belongs repaint.1)
      rwa [OwnPaint,repaint.2.1,repaint.2.2]
    · cases same
      exact filledOwn wired filled

/-- In a run whose prompt counter does not wrap, every paint shows a status of its own directory
exactly when no repaint meets the status of another one. -/
theorem paintsOwnIff (shell : Shell) (config : Config ρ θ) (configPath : Option Bytes) (size : Size)
    (cwd : Bytes) (events : List (Moment ε × Event ρ θ δ))
    (counts : Machine.Guarded (step look) Counts (start look shell config configPath size cwd) events) :
    (∀ o ∈ (Machine.run (step look) (start look shell config configPath size cwd) events).2, ShowsOwn o) ↔
      Machine.Guarded (step look) (fun s e => Repaints look s e → Belongs s)
        (start look shell config configPath size cwd) events := by
  rw [← Machine.watchedForall ShowsOwn ()]
  refine Machine.runWatchedIff (I := fun s _ => WiredState s) (fun s v e wired _ => ?_)
    (fun s v e wired fits => ?_) (wiredStart ..) counts
  · rw [Machine.watchedForall]
    exact stepShowsOwn look wired
  · exact wiredStep look wired fits

end status

def plainLook : Look Unit Unit Unit Bytes where
  ruler _ _ := []
  row _ _ _ info vcs _ _ := info.cwd ++ vcs.getD []
  displayWidth := List.length
  promptState _ _ _ := none
  prefixText _ _ := []
  prefixTextBash _ _ := []
  prefixTextZsh _ _ := []

def oneRow : Config Unit Unit := ⟨⟨[()],[],false,0,.off⟩,()⟩

def terminal : Size := ⟨24,80,0,0⟩

def plainStart : State Unit Unit Bytes := start plainLook .zsh oneRow none terminal [104]

def quietMoment : Moment Unit := ⟨0,none,()⟩

def promptIn (cwd : Bytes) : List (Moment Unit × Event Unit Unit Bytes) :=
  [(quietMoment,.header ⟨some 0,cwd,0,0,0,[]⟩),(quietMoment,.output 1 0)]

theorem paintsOwnAtPrompt :
    .paint ⟨1,[[97]],⟨some 0,[97],0,0,0,[]⟩,none⟩ ∈
      (Machine.run (step plainLook) plainStart (promptIn [97])).2 ∧
    ∀ o ∈ (Machine.run (step plainLook) plainStart (promptIn [97])).2, ShowsOwn o :=
  ⟨by decide,(paintsOwnIff plainLook .zsh oneRow none terminal [104] (promptIn [97])
    ⟨show (0 : UInt64).toNat + 1 < 2^64 by decide,trivial,trivial⟩).mpr
    ⟨fun repaints => repaints.2.elim,fun repaints => repaints.2.elim,trivial⟩⟩

/-- A prompt in `a` gets its status, then a prompt in `b` is up and the editing mode changes. -/
def changedDirectory : List (Moment Unit × Event Unit Unit Bytes) :=
  promptIn [97] ++ [(quietMoment,.worked 0 0 (some [109])),(quietMoment,.gitResult),
    (quietMoment,.input [13])] ++ promptIn [98] ++ [(quietMoment,.vimMode [118])]

theorem changedDirectoryShowsOther : ¬ ∀ o ∈ (Machine.run (step plainLook) plainStart changedDirectory).2,
    ShowsOwn o := by
  have painted : .paint ⟨1,[[98,109]],⟨some 0,[98],0,0,0,[]⟩,some ⟨[97],[109]⟩⟩ ∈
      (Machine.run (step plainLook) plainStart changedDirectory).2 := by decide
  intro own
  have same := own _ painted _ rfl ⟨[97],[109]⟩ rfl
  simp at same

end P11k.Engine
