import P11k.Gitstatus.Dirty
import P11k.Gitstatus.Fnmatch
import P11k.Lib.Text
import P11k.Lib.Utf8

/-! The command line of the daemon: the loop over the arguments, a table of short and a table of long names. -/
namespace P11k.Gitstatus

abbrev Arg := List Char

inductive LogLevel where
  | debug
  | info
  | warn
  | error
  | fatal
  deriving DecidableEq, Repr

/-- The fields that the scan reads stand in `Options`. -/
structure CliOptions extends Options where
  lockFd : Int
  parentPid : Int
  logLevel : LogLevel
  repoTtlSeconds : Int
  maxCommitSummaryLength : Nat
  versionGlob : Option Arg
  deriving DecidableEq, Repr

def defaultOptions : CliOptions where
  numThreads := 1
  maxNumStaged := 1
  maxNumUnstaged := 1
  maxNumConflicted := 1
  maxNumUntracked := 1
  dirtyMaxIndexSize := -1
  recurseUntrackedDirs := false
  ignoreStatusShowUntrackedFiles := false
  ignoreBashShowUntrackedFiles := false
  ignoreBashShowDirtyState := false
  lockFd := -1
  parentPid := -1
  logLevel := .info
  repoTtlSeconds := 3600
  maxCommitSummaryLength := 256
  versionGlob := none

inductive ParseOutcome where
  | help
  | version
  | run (options : CliOptions)
  deriving DecidableEq, Repr

inductive ParseError where
  | badArgs (text : Arg)
  | versionMismatch (pattern : Arg)
  deriving DecidableEq, Repr

def usizeMax : Nat := 2 ^ 64 - 1

def i32 : Arg → Option Int := Text.parseInt (-2 ^ 31) (2 ^ 31 - 1)

def i64 : Arg → Option Int := Text.parseInt (-2 ^ 63) (2 ^ 63 - 1)

def usize : Arg → Option Nat := Text.parseNat usizeMax

def takeValue (value : Option Arg) (opt : Arg) : Except ParseError Arg :=
  match value with
  | some v => .ok v
  | none => .error (.badArgs ("option ".toList ++ opt ++ " requires an argument".toList))

/-- The type that is asked for is given by its reader. -/
def parseInt {ι : Type} (read : Arg → Option ι) (value : Option Arg) (opt : Arg) : Except ParseError ι := do
  let v ← takeValue value opt
  match read (Text.trim v) with
  | some n => .ok n
  | none => .error (.badArgs ("not an integer: ".toList ++ v))

def parseLimit (value : Option Arg) (opt : Arg) : Except ParseError Int :=
  (parseInt i64 value opt).map fun n => if n < 0 then -1 else n

def parseSize (value : Option Arg) (opt : Arg) : Except ParseError Nat :=
  (parseInt i64 value opt).map fun n => if n < 0 then usizeMax else n.toNat

def rejectValue (value : Option Arg) (opt : Arg) : Except ParseError Unit :=
  match value with
  | some _ => .error (.badArgs ("option ".toList ++ opt ++ " does not take an argument".toList))
  | none => .ok ()

def parseLogLevel (value : Option Arg) (opt : Arg) : Except ParseError LogLevel := do
  let v ← takeValue value opt
  let lower := v.map Char.toLower
  if lower = "debug".toList then .ok .debug
  else if lower = "info".toList then .ok .info
  else if lower = "warn".toList then .ok .warn
  else if lower = "error".toList then .ok .error
  else if lower = "fatal".toList then .ok .fatal
  else .error (.badArgs ("invalid log level: ".toList ++ v))

def protocolVersion : Arg := "v1.5.5".toList

def versionMatches (version glob : Arg) : Bool := fnmatch (Utf8.encode glob) (Utf8.encode version)

/-- Both tables read the number of threads alike. -/
def parseThreads (value : Option Arg) (opt : Arg) : Except ParseError UInt64 := do
  let n ← parseInt usize value opt
  if n = 0 then .error (.badArgs "invalid number of threads: 0".toList) else .ok (UInt64.ofNat n)

/-- Both tables check the version while they read. -/
def parseGlob (value : Option Arg) (opt : Arg) : Except ParseError Arg := do
  let pattern ← takeValue value opt
  if versionMatches protocolVersion pattern then .ok pattern else .error (.versionMismatch pattern)

def shortOptTakesValue (name : Char) : Bool := "lptvrzsucdmG".toList.contains name

def longValueNames : List Arg :=
  ["version-glob".toList,"lock-fd".toList,"parent-pid".toList,"num-threads".toList,"log-level".toList,
    "repo-ttl-seconds".toList,"max-commit-summary-length".toList,"max-num-staged".toList,
    "max-num-unstaged".toList,"max-num-conflicted".toList,"max-num-untracked".toList,
    "dirty-max-index-size".toList]

def longOptTakesValue (name : Arg) : Bool := longValueNames.contains name

def parseShortOpt (o : CliOptions) (name : Char) (value : Option Arg) : Except ParseError CliOptions :=
  let opt := ['-',name]
  match name with
  | 'l' => (parseInt i32 value opt).map fun n => { o with lockFd := n }
  | 'p' => (parseInt i32 value opt).map fun n => { o with parentPid := n }
  | 't' => (parseThreads value opt).map fun n => { o with numThreads := n }
  | 'v' => (parseLogLevel value opt).map fun n => { o with logLevel := n }
  | 'r' => (parseInt i64 value opt).map fun n => { o with repoTtlSeconds := n }
  | 'z' => (parseSize value opt).map fun n => { o with maxCommitSummaryLength := n }
  | 's' => (parseLimit value opt).map fun n => { o with maxNumStaged := n }
  | 'u' => (parseLimit value opt).map fun n => { o with maxNumUnstaged := n }
  | 'c' => (parseLimit value opt).map fun n => { o with maxNumConflicted := n }
  | 'd' => (parseLimit value opt).map fun n => { o with maxNumUntracked := n }
  | 'm' => (parseLimit value opt).map fun n => { o with dirtyMaxIndexSize := n }
  | 'G' => (parseGlob value opt).map fun pattern => { o with versionGlob := some pattern }
  | 'e' => (rejectValue value opt).map fun _ => { o with recurseUntrackedDirs := true }
  | 'U' => (rejectValue value opt).map fun _ => { o with ignoreStatusShowUntrackedFiles := true }
  | 'W' => (rejectValue value opt).map fun _ => { o with ignoreBashShowUntrackedFiles := true }
  | 'D' => (rejectValue value opt).map fun _ => { o with ignoreBashShowDirtyState := true }
  | _ => .error (.badArgs ("unrecognized option: -".toList ++ [name]))

def parseLongOpt (o : CliOptions) (name : Arg) (value : Option Arg) : Except ParseError CliOptions :=
  let opt := "--".toList ++ name
  if name = "lock-fd".toList then (parseInt i32 value opt).map fun n => { o with lockFd := n }
  else if name = "parent-pid".toList then (parseInt i32 value opt).map fun n => { o with parentPid := n }
  else if name = "num-threads".toList then (parseThreads value opt).map fun n => { o with numThreads := n }
  else if name = "log-level".toList then (parseLogLevel value opt).map fun n => { o with logLevel := n }
  else if name = "repo-ttl-seconds".toList then
    (parseInt i64 value opt).map fun n => { o with repoTtlSeconds := n }
  else if name = "max-commit-summary-length".toList then
    (parseSize value opt).map fun n => { o with maxCommitSummaryLength := n }
  else if name = "max-num-staged".toList then (parseLimit value opt).map fun n => { o with maxNumStaged := n }
  else if name = "max-num-unstaged".toList then (parseLimit value opt).map fun n => { o with maxNumUnstaged := n }
  else if name = "max-num-conflicted".toList then
    (parseLimit value opt).map fun n => { o with maxNumConflicted := n }
  else if name = "max-num-untracked".toList then
    (parseLimit value opt).map fun n => { o with maxNumUntracked := n }
  else if name = "dirty-max-index-size".toList then
    (parseLimit value opt).map fun n => { o with dirtyMaxIndexSize := n }
  else if name = "version-glob".toList then
    (parseGlob value opt).map fun pattern => { o with versionGlob := some pattern }
  else if name = "recurse-untracked-dirs".toList then
    (rejectValue value opt).map fun _ => { o with recurseUntrackedDirs := true }
  else if name = "ignore-status-show-untracked-files".toList then
    (rejectValue value opt).map fun _ => { o with ignoreStatusShowUntrackedFiles := true }
  else if name = "ignore-bash-show-untracked-files".toList then
    (rejectValue value opt).map fun _ => { o with ignoreBashShowUntrackedFiles := true }
  else if name = "ignore-bash-show-dirty-state".toList then
    (rejectValue value opt).map fun _ => { o with ignoreBashShowDirtyState := true }
  else .error (.badArgs ("unrecognized option: --".toList ++ name))

/-- `none` is a panic: the name of a short option is sliced off as one byte. -/
def parseLoop (o : CliOptions) : List Arg → Option (Except ParseError ParseOutcome)
  | [] => some (.ok (.run o))
  | arg :: rest =>
      if arg = "-h".toList ∨ arg = "--help".toList then some (.ok .help)
      else if arg = "-V".toList ∨ arg = "--version".toList then some (.ok .version)
      else
        match Text.stripPrefix "--".toList arg with
        | some long =>
          match Text.splitOnce ['='] long with
          | some (name,value) =>
            if longOptTakesValue name then
              match parseLongOpt o name (some value) with
              | .ok o => parseLoop o rest
              | .error e => some (.error e)
            else some (.error (.badArgs ("option --".toList ++ name ++ " does not take an argument".toList)))
          | none =>
            if longOptTakesValue long then
              some (.error (.badArgs ("option --".toList ++ long ++ " requires an argument".toList)))
            else
              match parseLongOpt o long none with
              | .ok o => parseLoop o rest
              | .error e => some (.error e)
        | none =>
          match arg with
          | '-' :: name :: value =>
            if name.utf8Size ≠ 1 then none
            else if value ≠ [] then
              match parseShortOpt o name (some value) with
              | .ok o => parseLoop o rest
              | .error e => some (.error e)
            else if shortOptTakesValue name then
              match rest with
              | [] => some (.error (.badArgs ("option -".toList ++ [name] ++ " requires an argument".toList)))
              | value :: rest =>
                match parseShortOpt o name (some value) with
                | .ok o => parseLoop o rest
                | .error e => some (.error e)
            else
              match parseShortOpt o name none with
              | .ok o => parseLoop o rest
              | .error e => some (.error e)
          | _ => some (.error (.badArgs ("unexpected positional argument: ".toList ++ arg)))

def parseArgs (args : List Arg) : Option (Except ParseError ParseOutcome) := parseLoop defaultOptions args

end P11k.Gitstatus
