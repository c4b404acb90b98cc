import P11k.Gitstatus.Entry

/-! What the engine paints: the header lines of a theme, the geometry that the shell is told,
and the redraw that steps up over the header and writes it again. What a row shows and how a
prefix is styled are the theme's and stay parameters; texts are their bytes. -/
namespace P11k.Engine
open Gitstatus (Bytes)

inductive Shell where
  | zsh
  | bash
  | fish
  | pwsh
  deriving DecidableEq, Repr

def Shell.promptStartsOnANewRow : Shell → Bool
  | .zsh | .pwsh => true
  | .bash | .fish => false

inductive TransientPrompt where
  | off
  | always
  | sameDir
  deriving DecidableEq, Repr

/-- `ρ` is what a theme configures for one row of a column. -/
structure Layout (ρ : Type) where
  left : List ρ
  right : List ρ
  showRuler : Bool
  promptAddNewline : Nat
  transientPrompt : TransientPrompt
  deriving DecidableEq

/-- `θ` is the rest of a theme. -/
structure Config (ρ θ : Type) where
  layout : Layout ρ
  theme : θ
  deriving DecidableEq

structure HeaderInfo where
  exitCode : Option Int
  cwd : Bytes
  execMillis : Nat
  jobs : Nat
  history : Nat
  pipestatus : List Int
  deriving DecidableEq, Repr

/-- A git status is tagged with the directory that it was computed for; the fields `δ` do not
show it. -/
structure GitStatus (δ : Type) where
  computedFor : Bytes
  fields : δ
  deriving DecidableEq

/-- How a theme looks. A row may show anything of its surroundings `ε` (the clock, the file
system) and the editing mode. -/
structure Look (ε ρ θ δ : Type) where
  ruler : Config ρ θ → Nat → Bytes
  row : ε → Bytes → Config ρ θ → HeaderInfo → Option δ → Nat → Nat → Bytes
  displayWidth : Bytes → Nat
  promptState : Config ρ θ → Bytes → Option HeaderInfo → Option Bytes
  prefixText : Config ρ θ → Option Bytes → Bytes
  prefixTextBash : Config ρ θ → Option Bytes → Bytes
  prefixTextZsh : Config ρ θ → Option Bytes → Bytes

section look
variable {ε ρ θ δ : Type} (look : Look ε ρ θ δ)

def renderHeaderLines (env : ε) (viMode : Bytes) (config : Config ρ θ) (info : HeaderInfo)
    (vcs : Option (GitStatus δ)) (cols : Nat) : List Bytes :=
  let lines := max config.layout.left.length config.layout.right.length
  (if config.layout.showRuler then [look.ruler config cols] else []) ++
    (List.range lines).map (look.row env viMode config info (vcs.map (·.fields)) cols)

structure Geometry where
  headerRows : Nat
  prefixOk : Bytes
  prefixErr : Bytes
  deriving DecidableEq, Repr

def prefixFor (config : Config ρ θ) (shell : Shell) (state : Option Bytes) : Bytes :=
  match shell with
  | .zsh => look.prefixTextZsh config state
  | .bash => look.prefixTextBash config state
  | .fish | .pwsh => look.prefixText config state

def headerRows (config : Config ρ θ) : Nat :=
  max config.layout.left.length config.layout.right.length + if config.layout.showRuler then 1 else 0

def errorState : Bytes := [69,82,82,79,82]

def newGeometry (config : Config ρ θ) (shell : Shell) : Geometry :=
  ⟨headerRows config,prefixFor look config shell none,prefixFor look config shell (some errorState)⟩

def inputPrefix (config : Config ρ θ) (viMode : Bytes) (info : Option HeaderInfo) : Bytes :=
  look.prefixText config (look.promptState config viMode info)

theorem headerLines (env : ε) (viMode : Bytes) (config : Config ρ θ) (info : HeaderInfo)
    (vcs : Option (GitStatus δ)) (cols : Nat) :
    (renderHeaderLines look env viMode config info vcs cols).length = headerRows config := by
  unfold renderHeaderLines headerRows
  cases config.layout.showRuler <;> simp

/-- One paint of the header: the rows that the cursor moves up, the lines that are written from
there on, and what they were rendered from. -/
structure Paint (δ : Type) where
  up : Nat
  lines : List Bytes
  info : HeaderInfo
  vcs : Option (GitStatus δ)
  deriving DecidableEq

def redrawHeaderCfg (env : ε) (viMode : Bytes) (config : Config ρ θ) (info : HeaderInfo)
    (vcs : Option (GitStatus δ)) (cols : Nat) (last : Option (List Bytes)) :
    Option (List Bytes) × Option (Paint δ) :=
  let lines := renderHeaderLines look env viMode config info vcs cols
  if last = some lines then (last,none)
  else (some lines,some ⟨max lines.length 1,lines,info,vcs⟩)

theorem redrawSame {env : ε} {viMode : Bytes} {config : Config ρ θ} {info : HeaderInfo}
    {vcs : Option (GitStatus δ)} {cols : Nat} {last : Option (List Bytes)}
    (same : last = some (renderHeaderLines look env viMode config info vcs cols)) :
    redrawHeaderCfg look env viMode config info vcs cols last = (last,none) := if_pos same

theorem redrawNew {env : ε} {viMode : Bytes} {config : Config ρ θ} {info : HeaderInfo}
    {vcs : Option (GitStatus δ)} {cols : Nat} {last : Option (List Bytes)}
    (new : last ≠ some (renderHeaderLines look env viMode config info vcs cols)) :
    redrawHeaderCfg look env viMode config info vcs cols last =
      (some (renderHeaderLines look env viMode config info vcs cols),
        some ⟨max (headerRows config) 1,renderHeaderLines look env viMode config info vcs cols,info,vcs⟩) := by
  rw [← headerLines look env viMode config info vcs cols]
  exact if_neg new

end look
end P11k.Engine
