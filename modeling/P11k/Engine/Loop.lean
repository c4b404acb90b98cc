import P11k.Engine.Theme
import P11k.Lib.Machine

/-! The event loop. One event is one pass through one block of the loop: a reload, a window
change, one announce message, one read from the terminal or the pty, one git result, the
deferred prompt, or one turn of a git worker on the other side of the channels. -/
namespace P11k.Engine
open Gitstatus (Bytes)

inductive PromptState where
  | running
  | prompt
  | typing
  deriving DecidableEq, Repr

def PromptState.atPrompt : PromptState → Bool
  | .running => false
  | .prompt | .typing => true

structure GitRequest where
  generation : UInt64
  cwd : Bytes
  deriving DecidableEq, Repr

structure GitResult (δ : Type) where
  generation : UInt64
  status : Option (GitStatus δ)
  deriving DecidableEq

structure Size where
  rows : UInt16
  cols : UInt16
  xpix : UInt16
  ypix : UInt16
  deriving DecidableEq, Repr

structure Moment (ε : Type) where
  now : Nat
  ttySize : Option Size
  env : ε

/-- The state of the loop. The requests of each git worker wait in a queue of its own, the
current worker in front; a worker that a reload has replaced still works off its queue.
`reserved` is not a variable of the engine: it is what the last ack told the shell. -/
structure State (ρ θ δ : Type) where
  shell : Shell
  config : Config ρ θ
  configPath : Option Bytes
  inputPrefix : Bytes
  geometry : Geometry
  lastSize : Size
  workers : List (List GitRequest)
  results : List (GitResult δ)
  gitGen : UInt64
  lastVcs : Option (Bytes × Option (GitStatus δ))
  currentInfo : Option HeaderInfo
  instantInfo : HeaderInfo
  prompt : PromptState
  lastEnter : Option Nat
  lastPromptCwd : Option Bytes
  lastHeader : Option (List Bytes)
  resizePromptAt : Option Nat
  lastPwshNudge : Option Nat
  resizeExtraRows : Nat
  instantDrawn : Bool
  instantNewlines : Nat
  viMode : Bytes
  reserved : Option Nat

inductive Event (ρ θ δ : Type) where
  /-- The reload request as read from the session directory, and what each theme file parses to. -/
  | reload (request : Option (Option Bytes)) (load : Bytes → Option (Config ρ θ))
  | windowChange
  | header (info : HeaderInfo)
  | resize
  | vimMode (mode : Bytes)
  | input (bytes : Bytes)
  /-- One read of shell output: the prompt signals and the newlines in it. -/
  | output (signals newlines : Nat)
  | gitResult
  /-- Worker `i` takes requests up to number `k` off its queue and answers the last of them. -/
  | worked (i k : Nat) (found : Option δ)
  | deferredPrompt

inductive Output (δ : Type) where
  | paint (p : Paint δ)
  | ack (rows : Nat) (inputPrefix : Bytes) (fold : Bool)
  | promptStart
  | blankRow
  | instantHeader (lines : List Bytes) (inputPrefix : Bytes)
  | clearReflowed (up rows : Nat)
  | stepUp
  | nudge
  | promptPrefix (text : Bytes)
  deriving DecidableEq

def isTerminalReply : Bytes → Bool
  | 27 :: 91 :: rest => match rest.getLast? with
    | none => false
    | some last => (last == 82 || last == 99 || last == 73 || last == 79) &&
        rest.dropLast.all (fun b => (48 ≤ b && b ≤ 57) || b == 59 || b == 63)
  | _ => false

def transientFolds : TransientPrompt → Option Bytes → Bytes → Bool
  | .off, _, _ => false
  | .always, _, _ => true
  | .sameDir, lastCwd, cwd => lastCwd == some cwd

section loop
variable {ε ρ θ δ : Type} (look : Look ε ρ θ δ) (m : Moment ε) (s : State ρ θ δ)

def shownInfo : HeaderInfo := s.currentInfo.getD s.instantInfo

def lastStatus : Option (GitStatus δ) := s.lastVcs.bind Prod.snd

def ownStatus : Option (GitStatus δ) :=
  (s.lastVcs.filter (fun v => v.1 = (shownInfo s).cwd)).bind Prod.snd

def redraw (info : HeaderInfo) (vcs : Option (GitStatus δ)) : State ρ θ δ × List (Output δ) :=
  let r := redrawHeaderCfg look m.env s.viMode s.config info vcs s.lastSize.cols.toNat s.lastHeader
  ({ s with lastHeader := r.1 },(r.2.map Output.paint).toList)

def paintPrompt : State ρ θ δ × List (Output δ) := redraw look m s (shownInfo s) (ownStatus s)

def newTheme (config : Config ρ θ) : State ρ θ δ :=
  { s with
    config := config
    inputPrefix := inputPrefix look config s.viMode none
    geometry := newGeometry look config s.shell
    workers := [] :: s.workers }

def reload (request : Option (Option Bytes)) (load : Bytes → Option (Config ρ θ)) :
    State ρ θ δ × List (Output δ) :=
  match request with
  | none => (s,[])
  | some path =>
      let s := { s with configPath := path.or s.configPath }
      match s.configPath.bind load with
      | none => (s,[])
      | some config =>
          let next := newTheme look s config
          if s.prompt.atPrompt && next.geometry.headerRows == s.geometry.headerRows then
            redraw look m { next with lastHeader := none } (shownInfo s) (lastStatus s)
          else (next,[])

def reflowExtraRows (lines : Option (List Bytes)) (cols : Nat) : Nat :=
  match lines with
  | none => 0
  | some lines =>
      let cols := max cols 1
      let rows := (lines.map (fun line =>
        if look.displayWidth line = 0 then 1 else (look.displayWidth line + cols - 1) / cols)).sum
      rows - lines.length

def windowChange : State ρ θ δ × List (Output δ) :=
  let size := m.ttySize.getD s.lastSize
  if size = s.lastSize then (s,[]) else
    let s := { s with
      lastSize := size
      resizeExtraRows :=
        if s.prompt.atPrompt then reflowExtraRows look s.lastHeader size.cols.toNat
        else s.resizeExtraRows }
    let instant :=
      if s.instantDrawn && s.instantNewlines == 0 then
        [.instantHeader (renderHeaderLines look m.env s.viMode s.config s.instantInfo none
          size.cols.toNat) s.inputPrefix]
      else []
    if s.shell = .pwsh ∧ s.prompt = .prompt ∧ s.lastPwshNudge.all (fun t => 150 < m.now - t) then
      ({ s with lastPwshNudge := some m.now },instant ++ [.nudge])
    else (s,instant)

def syncSize : State ρ θ δ := { s with lastSize := m.ttySize.getD s.lastSize }

def header (info : HeaderInfo) : State ρ θ δ × List (Output δ) :=
  let info := { info with execMillis := s.lastEnter.elim 0 (fun t => m.now - t) }
  let blanks :=
    if s.instantDrawn then [] else List.replicate s.config.layout.promptAddNewline .blankRow
  let state := look.promptState s.config s.viMode (some info)
  let fold := transientFolds s.config.layout.transientPrompt s.lastPromptCwd info.cwd
  let gitGen := s.gitGen + 1
  let request := ⟨gitGen,info.cwd⟩
  ({ s with
      lastEnter := none
      prompt := .running
      lastPromptCwd := some info.cwd
      gitGen := gitGen
      workers := s.workers.modify 0 (· ++ [request])
      currentInfo := some info
      reserved := some s.geometry.headerRows },
    blanks ++ [.promptStart,.ack s.geometry.headerRows (prefixFor look s.config s.shell state) fold])

def resize : State ρ θ δ × List (Output δ) :=
  if s.prompt.atPrompt && s.shell == .zsh then
    let r := redraw look m { s with lastHeader := none } (shownInfo s) (lastStatus s)
    ({ r.1 with resizePromptAt := some (m.now + 60) },r.2)
  else (s,[])

def vimMode (mode : Bytes) : State ρ θ δ × List (Output δ) :=
  let s := { s with viMode := mode }
  if s.prompt.atPrompt then redraw look m s (shownInfo s) (lastStatus s) else (s,[])

def input (bytes : Bytes) : State ρ θ δ :=
  if bytes.any (fun b => b == 13 || b == 10) then
    { s with prompt := .running, lastEnter := some m.now }
  else if !isTerminalReply bytes && s.prompt.atPrompt then { s with prompt := .typing }
  else s

def beforePaint : List (Output δ) :=
  (if 0 < s.resizeExtraRows then
    [.clearReflowed (max s.geometry.headerRows 1 + s.resizeExtraRows) s.resizeExtraRows] else []) ++
  (if s.instantDrawn && s.shell.promptStartsOnANewRow then [.stepUp] else [])

def signal : State ρ θ δ × List (Output δ) :=
  let r := paintPrompt look m { s with resizeExtraRows := 0, lastHeader := none }
  ({ r.1 with instantDrawn := false, prompt := .prompt },beforePaint s ++ r.2)

def signals : Nat → State ρ θ δ → State ρ θ δ × List (Output δ)
  | 0, s => (s,[])
  | n+1, s =>
      let first := signal look m s
      let rest := signals n first.1
      (rest.1,first.2 ++ rest.2)

def output (count newlines : Nat) : State ρ θ δ × List (Output δ) :=
  let r := signals look m count s
  (if r.1.instantDrawn then { r.1 with instantNewlines := r.1.instantNewlines + newlines } else r.1,r.2)

def gitResult : State ρ θ δ × List (Output δ) :=
  match s.results with
  | [] => (s,[])
  | res :: results =>
      let s := { s with results := results }
      if res.generation ≠ s.gitGen then (s,[]) else
        let cwd := s.currentInfo.elim [] (·.cwd)
        let s := { s with lastVcs := some (cwd,res.status) }
        match s.currentInfo with
        | some info => if s.prompt.atPrompt then redraw look m s info res.status else (s,[])
        | none => (s,[])

def worked (i k : Nat) (found : Option δ) : State ρ θ δ :=
  match (s.workers[i]?).bind (fun queue => queue[k]?) with
  | none => s
  | some latest =>
      { s with
        workers := s.workers.modify i (·.drop (k+1))
        results := s.results ++ [⟨latest.generation,found.map (GitStatus.mk latest.cwd)⟩] }

def deferredPrompt : State ρ θ δ × List (Output δ) :=
  match s.resizePromptAt with
  | none => (s,[])
  | some deadline =>
      if deadline ≤ m.now then
        ({ s with resizePromptAt := none },
          [.promptPrefix (inputPrefix look s.config s.viMode s.currentInfo)])
      else (s,[])

def step (s : State ρ θ δ) (e : Moment ε × Event ρ θ δ) : State ρ θ δ × List (Output δ) :=
  match e.2 with
  | .reload request load => reload look e.1 s request load
  | .windowChange => windowChange look e.1 s
  | .header info => header look e.1 (syncSize e.1 s) info
  | .resize => resize look e.1 (syncSize e.1 s)
  | .vimMode mode => vimMode look e.1 (syncSize e.1 s) mode
  | .input bytes => (input e.1 s bytes,[])
  | .output count newlines => output look e.1 s count newlines
  | .gitResult => gitResult look e.1 s
  | .worked i k found => (worked s i k found,[])
  | .deferredPrompt => deferredPrompt look e.1 s

def start (shell : Shell) (config : Config ρ θ) (configPath : Option Bytes) (size : Size)
    (cwd : Bytes) : State ρ θ δ where
  shell := shell
  config := config
  configPath := configPath
  inputPrefix := inputPrefix look config [] none
  geometry := newGeometry look config shell
  lastSize := size
  workers := [[]]
  results := []
  gitGen := 0
  lastVcs := none
  currentInfo := none
  instantInfo := ⟨none,cwd,0,0,0,[]⟩
  prompt := .running
  lastEnter := none
  lastPromptCwd := none
  lastHeader := none
  resizePromptAt := none
  lastPwshNudge := none
  resizeExtraRows := 0
  instantDrawn := true
  instantNewlines := 0
  viMode := []
  reserved := none

end loop
end P11k.Engine
