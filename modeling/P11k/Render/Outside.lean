import P11k.Settings.Types

/-! What the renderer is told by the shell and by git, and what it asks elsewhere: the environment,
files, commands, the clock, the terminal's table of character widths and the floating-point unit. -/
namespace P11k.Render
open P11k.Settings

/-- `τ` holds a duration in seconds. -/
structure HeaderInfo (τ : Type) where
  exitCode : Option Int
  cwd : Str
  execSeconds : τ
  jobs : Nat := 0
  history : Nat := 0
  pipestatus : List Int := []

structure GitStatus where
  branch : Str := []
  commit : Str := []
  staged : Nat := 0
  unstaged : Nat := 0
  conflicted : Nat := 0
  untracked : Nat := 0
  ahead : Nat := 0
  behind : Nat := 0
  pushAhead : Nat := 0
  pushBehind : Nat := 0
  stashes : Nat := 0
  action : Str := []
  tag : Str := []
  remoteBranch : Str := []
  commitSummary : Str := []
  indexSize : Nat := 0
  remoteUrl : Str := []

structure Output where
  success : Bool
  stdout : Str
  stderr : Str

structure Outside (τ : Type) where
  env : Str → Option Str
  readFile : Str → Option Str
  command : Str → List Str → Option Output
  there : Str → Bool
  isDir : Str → Bool
  isFile : Str → Bool
  /-- Whether some write bit is set. -/
  writeBit : Str → Option Bool
  /-- Whether this process may write. -/
  mayWrite : Str → Bool
  listDir : Str → Option (List Str)
  canonicalize : Str → Option Str
  rubyFiles : Str → Nat
  /-- All PHP files, and those with `Tests` in their path. -/
  phpFiles : Str → Nat × Nat
  currentDir : Str
  root : Bool
  os : Str
  viMode : Str
  hour : Nat
  minute : Nat
  second : Nat
  strftime : Str → Str
  charWidth : Char → Nat
  alphanumeric : Char → Bool
  humanBytes : Nat → Str
  /-- Two decimals of the percentage. -/
  percent : Nat → Nat → Str
  /-- Whether a text is a number not below the bound, or 0 is if it is no number. -/
  parsesTo : Str → Nat → Bool
  reaches : τ → Int → Bool
  underMinute : τ → Bool
  rounded : τ → Nat
  fixed : Nat → τ → Str

/-- A host without environment, files and commands, at noon. -/
def silent : Outside Unit where
  env _ := none
  readFile _ := none
  command _ _ := none
  there _ := false
  isDir _ := false
  isFile _ := false
  writeBit _ := none
  mayWrite _ := true
  listDir _ := none
  canonicalize _ := none
  rubyFiles _ := 0
  phpFiles _ := (0,0)
  currentDir := []
  root := false
  os := "linux".toList
  viMode := []
  hour := 12
  minute := 0
  second := 0
  strftime _ := []
  charWidth c := if c.toNat < 0x20 then 0 else if 0x4e00 ≤ c.toNat ∧ c.toNat < 0xa000 then 2 else 1
  alphanumeric c := c.isAlphanum
  humanBytes _ := []
  percent _ _ := []
  parsesTo _ _ := false
  reaches _ least := decide (least ≤ 0)
  underMinute _ := true
  rounded _ := 0
  fixed _ _ := ['0']

end P11k.Render
