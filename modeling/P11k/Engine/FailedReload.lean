import P11k.Engine.ReloadRequest

/-! A reload whose theme file cannot be read or parsed. The loop takes the requested path before it
reads the file, so what survives a failure depends on the path that was asked for. -/
namespace P11k.Engine
open Gitstatus (Bytes)

/-- The loop and the file `current-config` of the session directory. -/
structure Configured (ρ θ δ : Type) where
  engine : State ρ θ δ
  currentConfig : Option Bytes

section configured
variable {ε ρ θ δ : Type} (look : Look ε ρ θ δ)

/-- `write_current_config` after a theme was loaded. A write that fails ends the engine. -/
def writeCurrentConfig (s : Configured ρ θ δ) : Event ρ θ δ → Option Bytes
  | .reload (some path) load =>
      let configPath := path.or s.engine.configPath
      if (configPath.bind load).isSome then configPath else s.currentConfig
  | _ => s.currentConfig

def configuredStep (s : Configured ρ θ δ) (e : Moment ε × Event ρ θ δ) : Configured ρ θ δ × List (Output δ) :=
  let r := step look s.engine e
  (⟨r.1,writeCurrentConfig s e.2⟩,r.2)

def configuredStart (shell : Shell) (config : Config ρ θ) (configPath : Option Bytes) (size : Size)
    (cwd : Bytes) : Configured ρ θ δ :=
  ⟨start look shell config configPath size cwd,configPath⟩

/-- The request leads to a theme file, and that file does not load. -/
def Fails (s : Configured ρ θ δ) (what : Event ρ θ δ) : Prop :=
  ∃ path load file, what = .reload (some path) load ∧ path.or s.engine.configPath = some file ∧ load file = none

/-- The session is as it was. -/
structure Unmoved (s s' : Configured ρ θ δ) : Prop where
  config : s'.engine.config = s.engine.config
  configPath : s'.engine.configPath = s.engine.configPath
  geometry : s'.engine.geometry = s.engine.geometry
  workers : s'.engine.workers = s.engine.workers
  currentConfig : s'.currentConfig = s.currentConfig

def FailureUnmoved (s : Configured ρ θ δ) (e : Moment ε × Event ρ θ δ) : Prop :=
  Fails s e.2 → Unmoved s (configuredStep look s e).1

/-- A request that names a file which does not load names the file in use. -/
def NamesInUse (s : Configured ρ θ δ) (e : Moment ε × Event ρ θ δ) : Prop :=
  ∀ path load, e.2 = .reload (some (some path)) load → load path = none → s.engine.configPath = some path

theorem failedStep {s : Configured ρ θ δ} (m : Moment ε) {path : Option Bytes} {load : Bytes → Option (Config ρ θ)}
    (failed : (path.or s.engine.configPath).bind load = none) :
    configuredStep look s (m,.reload (some path) load) =
      (⟨{ s.engine with configPath := path.or s.engine.configPath },s.currentConfig⟩,[]) := by
  simp only [configuredStep,writeCurrentConfig,step,reload,failed,Option.isSome_none,Bool.false_eq_true,if_false]

theorem failureUnmovedIff (s : Configured ρ θ δ) (e : Moment ε × Event ρ θ δ) :
    FailureUnmoved look s e ↔ NamesInUse s e := by
  obtain ⟨m,what⟩ := e
  constructor
  · intro unmoved path load same broken
    cases same
    have failed : ((some path).or s.engine.configPath).bind load = none := broken
    have kept := (unmoved ⟨some path,load,path,rfl,rfl,broken⟩).configPath
    rw [failedStep look m failed] at kept
    exact kept.symm
  · rintro inUse ⟨path,load,file,same,leads,broken⟩
    cases same
    have failed : (path.or s.engine.configPath).bind load = none := by
      rw [leads]
      exact broken
    have here : path.or s.engine.configPath = s.engine.configPath := by
      cases path with
      | none => rfl
      | some path =>
        cases Option.some.inj leads
        exact (inUse _ load rfl broken).symm
    rw [failedStep look m failed]
    exact ⟨rfl,here,rfl,rfl,rfl⟩

theorem recordedStep (s : Configured ρ θ δ) (e : Moment ε × Event ρ θ δ)
    (recorded : s.currentConfig = s.engine.configPath) (inUse : NamesInUse s e) :
    (configuredStep look s e).1.currentConfig = (configuredStep look s e).1.engine.configPath := by
  obtain ⟨m,what⟩ := e
  cases what with
  | reload request load =>
    cases request with
    | none => exact recorded
    | some path =>
      cases found : (path.or s.engine.configPath).bind load with
      | none =>
        rw [failedStep look m found]
        refine recorded.trans ?_
        cases path with
        | none => rfl
        | some path => exact inUse path load rfl found
      | some config =>
        refine Eq.trans ?_ (reloadPath look m s.engine path load).symm
        simp only [configuredStep,writeCurrentConfig,found,Option.isSome_some,if_true]
  | windowChange | header | resize | vimMode | input | output | gitResult | worked | deferredPrompt =>
    exact recorded.trans (stepPath look s.engine m (by simp)).symm

/-- Each failed reload of a run leaves the session as it was exactly when each request that fails
names the file in use; the record then names the path of every state that is reached. -/
theorem failedReloadsUnmoved (shell : Shell) (config : Config ρ θ) (configPath : Option Bytes) (size : Size)
    (cwd : Bytes) (es : List (Moment ε × Event ρ θ δ)) :
    let s := configuredStart look shell config configPath size cwd
    (Machine.Guarded (configuredStep look) (FailureUnmoved look) s es ↔
      Machine.Guarded (configuredStep look) NamesInUse s es) ∧
    (Machine.Guarded (configuredStep look) NamesInUse s es →
      let last := (Machine.run (configuredStep look) s es).1
      last.currentConfig = last.engine.configPath) := by
  refine ⟨Machine.guardedCongr (failureUnmovedIff look) _ _,fun inUse => ?_⟩
  exact Machine.runKeeps (I := fun s => s.currentConfig = s.engine.configPath)
    (recordedStep look) rfl inUse

end configured

/-! A session with the theme `a`, a reload that asks for the missing file `b`, and a plain reload. -/

def onlyA (path : Bytes) : Option (Config Unit Unit) := if path = [97] then some oneTheme else none

def plainFailures : List (Moment Unit × Event Unit Unit Unit) :=
  [(⟨0,none,()⟩,.reload (some none) (fun _ => none)),(⟨1,none,()⟩,.reload (some (some [97])) onlyA)]

theorem plainFailuresUnmoved :
    let s := configuredStart oneLook .zsh oneTheme (some [97]) ⟨24,80,0,0⟩ [104]
    Machine.Guarded (configuredStep oneLook) (FailureUnmoved oneLook) s plainFailures ∧
    (Machine.run (configuredStep oneLook) s plainFailures).1.currentConfig = some [97] ∧
    (Machine.run (configuredStep oneLook) s plainFailures).1.engine.configPath = some [97] := by
  have inUse : Machine.Guarded (configuredStep oneLook) NamesInUse
      (configuredStart oneLook .zsh oneTheme (some [97]) ⟨24,80,0,0⟩ [104]) plainFailures := by
    refine ⟨fun path load same broken => ?_,fun path load same broken => ?_,trivial⟩ <;> cases same
    rfl
  obtain ⟨unmoved,recorded⟩ :=
    failedReloadsUnmoved oneLook .zsh oneTheme (some [97]) ⟨24,80,0,0⟩ [104] plainFailures
  have path : (Machine.run (configuredStep oneLook)
      (configuredStart oneLook .zsh oneTheme (some [97]) ⟨24,80,0,0⟩ [104]) plainFailures).1.engine.configPath =
      some [97] := by decide
  exact ⟨unmoved.mpr inUse,(recorded inUse).trans path,path⟩

theorem missingFileMovesPath :
    ¬ ∀ es : List (Moment Unit × Event Unit Unit Unit),
      Machine.Guarded (configuredStep oneLook) (FailureUnmoved oneLook)
        (configuredStart oneLook .zsh oneTheme (some [97]) ⟨24,80,0,0⟩ [104]) es := by
  intro unmoved
  have kept := (unmoved [(⟨0,none,()⟩,.reload (some (some [98])) onlyA)]).1
    ⟨some [98],onlyA,[98],rfl,rfl,rfl⟩
  exact absurd kept.configPath (by decide)

end P11k.Engine
