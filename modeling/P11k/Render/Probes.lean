import P11k.Lib.Text
import P11k.Settings.Lookup
import P11k.Render.Glob
import P11k.Render.Shorten

/-! The texts of the segments that ask the environment, a file, a command or the clock. -/
namespace P11k.Render
open P11k.Settings P11k.Text

section probes
variable {φ τ : Type} (o : Outside τ)

def runCmd (cmd : String) (args : List Str) : Option Str :=
  ((o.command cmd.toList args).filter Output.success).map fun out =>
    if trim out.stdout = [] then trim out.stderr else trim out.stdout

def envVar (name : String) : Option Str := (o.env name.toList).filter (· ≠ [])

def basename (p : Str) : Str := afterLast '/' p

/-! The user and the host. -/

def firstEnv (names : List String) : Str := (names.findSome? fun name => o.env name.toList).getD []

def userName : Str := firstEnv o ["USER","LOGNAME"]

def hostName : Str := firstEnv o ["HOSTNAME","HOST"]

def overSsh : Bool := ["SSH_CONNECTION","SSH_TTY","SSH_CLIENT"].any fun name => (envVar o name).isSome

def contextText : Str :=
  if overSsh o then userName o ++ '@' :: hostName o
  else if o.root then userName o
  else []

def hostText : Str := if overSsh o || o.root then hostName o else []

def rootIndicatorText : Str := if o.root then "#".toList else []

/-! Environment indicators. -/

def levelText (name : String) : Str := ((envVar o name).filter (· ≠ "0".toList)).getD []

def proxyNames : List String :=
  ["all_proxy","http_proxy","https_proxy","ftp_proxy","ALL_PROXY","HTTP_PROXY","HTTPS_PROXY","FTP_PROXY"]

def envHasProxy : Bool := proxyNames.any fun name => (envVar o name).isSome

/-- Without scheme, user and path. -/
def proxyHost (v : Str) : Str :=
  let rest := ((splitOnce "://".toList v).map Prod.snd).getD v
  (afterLast '@' rest).takeWhile fun c => c != '/' && c != '?'

def proxyText : Str :=
  (proxyNames.findSome? fun name => ((envVar o name).map proxyHost).filter (· ≠ [])).getD []

def openfoamText : Str := ((envVar o "WM_PROJECT_VERSION").map ("OF: ".toList ++ ·)).getD []

def nixShell : Option Str := (envVar o "IN_NIX_SHELL").filter fun v => v = "pure".toList ∨ v = "impure".toList

def nixShellText : Str := (nixShell o).getD []

/-! The system. -/

/-- A field of the memory table, an unsigned 64-bit number of kilobytes. -/
def meminfoKb (name : String) : Option Nat :=
  (o.readFile "/proc/meminfo".toList).bind fun s => (lines s).findSome? fun l =>
    ((stripPrefix (name.toList ++ [':']) l).bind fun rest => (words rest).head?).bind (parseNat (2^64 - 1))

def load : Str := ((o.readFile "/proc/loadavg".toList).bind fun s => (words s).head?).getD []

def ram : Str := ((meminfoKb o "MemAvailable").map fun kb => o.humanBytes (kb * 1024)).getD []

def swap : Str :=
  let used := (meminfoKb o "SwapTotal").getD 0 - (meminfoKb o "SwapFree").getD 0
  if used = 0 then [] else o.humanBytes (used * 1024)

def diskUsage (cwd : Str) : Str :=
  ((runCmd o "df" ["-P".toList,cwd]).bind fun s => (lines s)[1]?.bind fun l =>
    (words l)[4]?.map (trimEndChar '%')).getD []

def battery : Str :=
  let found := (o.listDir "/sys/class/power_supply".toList).bind fun names =>
    names.find? fun name => "BAT".toList.isPrefixOf name
  match found with
  | none => []
  | some name =>
    let field (file : String) : Option Str :=
      (o.readFile (pushPath (pushPath "/sys/class/power_supply".toList name) file.toList)).map trim
    match field "capacity", field "status" with
    | some c, some s => s ++ ' ' :: (c ++ "%".toList)
    | some c, none => c ++ "%".toList
    | none, _ => []

def cpuArch : Str := (((o.readFile "/proc/sys/kernel/arch".toList).or (runCmd o "uname" ["-m".toList])).map trim).getD []

/-! Clouds. -/

def awsText : Str := ((envVar o "AWS_PROFILE").or (envVar o "AWS_DEFAULT_PROFILE")).getD []

def gcloudText : Str :=
  let dir := (envVar o "CLOUDSDK_CONFIG").getD (homeText o ++ "/.config/gcloud".toList)
  ((o.readFile (dir ++ "/active_config".toList)).map trim).getD []

/-- The name before a default subscription; `seen` is the text before `s`. -/
def azureLoop (seen : Str) : Str → Option Str
  | [] => none
  | c :: s =>
      let hit := match stripPrefix "\"isDefault\":".toList (c :: s) with
        | none => none
        | some rest =>
          if "true".toList.isPrefixOf (trimStart rest) then
            (behindLast "\"name\"".toList seen).bind (Text.second "\"".toList)
          else none
      match hit with
      | some name => some name
      -- after a hit the search starts anew behind its first character
      | none => azureLoop (if "\"isDefault\":".toList.isPrefixOf (c :: s) then [] else seen ++ [c]) s

def azureText : Str :=
  let dir := (envVar o "AZURE_CONFIG_DIR").getD (homeText o ++ "/.azure".toList)
  ((o.readFile (dir ++ "/azureProfile.json".toList)).bind (azureLoop [])).getD []

def kubecontextText : Str :=
  let path := (envVar o "KUBECONFIG").getD (homeText o ++ "/.kube/config".toList)
  ((o.readFile path).bind fun s => (lines s).findSome? fun l =>
    (stripPrefix "current-context:".toList (trim l)).map trim).getD []

def terraformText (cwd : Str) : Str :=
  let dir := (envVar o "TF_DATA_DIR").getD ".terraform".toList
  ((o.readFile (pushPath (pushPath cwd dir) "environment".toList)).map trim).getD []

def jsonStrField (content : Str) (key : String) : Option Str :=
  (splitOnce key.toList content).bind fun (_,rest) =>
    let rest := trimStart rest
    let rest := trimStart ((stripPrefix ":".toList rest).getD rest)
    (stripPrefix "\"".toList rest).map (before "\"".toList)

def googleAppCredText : Str :=
  (((envVar o "GOOGLE_APPLICATION_CREDENTIALS").bind o.readFile).bind (jsonStrField · "\"project_id\"")).getD []

def awsEbEnvText : Str :=
  (((lines ((runCmd o "eb" ["list".toList]).getD [])).find? fun l => "* ".toList.isPrefixOf (trimStart l)).map
    fun l => trim (trimStartMatches "* ".toList l)).getD []

/-! The network. -/

def ipText : Str :=
  ((lines ((runCmd o "ip" ["-4".toList,"addr".toList,"show".toList]).getD [])).findSome? fun l =>
    if contains "inet ".toList l && !contains "127.0.0.1".toList l then
      (Text.second "inet ".toList l).map (before "/".toList)
    else none).getD []

def isVpnIf (name : Str) : Bool := ["tailscale","wg","tun","zt"].any fun p => p.toList.isPrefixOf name

def vpnLoop (ifname : Str) : List Str → Str
  | [] => []
  | line :: rest =>
      match stripPrefix "inet ".toList (trimStart line) with
      | some addr =>
        if isVpnIf ifname ∧ before "/".toList addr ≠ [] then before "/".toList addr else vpnLoop ifname rest
      | none =>
        match Text.second ": ".toList line with
        | some name => vpnLoop (before ":".toList name) rest
        | none => vpnLoop ifname rest

def vpnIpText : Str := vpnLoop [] (lines ((runCmd o "ip" ["addr".toList,"show".toList]).getD []))

def wifiText : Str :=
  (((o.readFile "/proc/net/wireless".toList).bind fun s => (lines s).find? fun l => ':' ∈ l).bind fun l =>
    match words l with
    | ifn :: _ :: q :: _ => some (trimEndChar ':' ifn ++ ' ' :: trimEndChar '.' q)
    | _ => none).getD []

def publicIpText : Str :=
  (runCmd o "curl" ["-s".toList,"--max-time".toList,"4".toList,"https://v4.ident.me/".toList]).getD []

/-! Containers, histories, todos. -/

def detectVirt : Str := ((runCmd o "systemd-detect-virt" []).filter (· ≠ "none".toList)).getD []

def toolboxText : Str :=
  ((envVar o "P9K_TOOLBOX_NAME").or ((o.readFile "/run/.containerenv".toList).bind fun s =>
    (lines s).findSome? fun l => (stripPrefix "name=".toList l).map trim)).getD []

def dirWritableText (cwd : Str) : Str := if (o.writeBit cwd).getD true then [] else "!".toList

def perDirectoryHistoryText : Str :=
  match envVar o "PER_DIRECTORY_HISTORY_TOGGLE" with
  | some v => if v = "global".toList then "global".toList else "local".toList
  | none => []

def todoText : Str := ((runCmd o "todo.sh" ["-p".toList,"ls".toList]).bind fun s => (lines s).getLast?).getD []

def taskwarriorText : Str := (runCmd o "task" ["+PENDING".toList,"count".toList]).getD []

def dropboxText : Str :=
  ((runCmd o "dropbox-cli" ["filestatus".toList,".".toList]).bind fun s => (lines s).head?).getD []

/-! Versions that a command prints. -/

/-- The word at a position of what a command prints. -/
def wordOf (cmd : String) (args : List Str) (n : Nat) : Option Str := (runCmd o cmd args).bind fun s => (words s)[n]?

def version : List Str := ["--version".toList]

def goVersion : Str := ((wordOf o "go" ["version".toList] 2).map (before "-".toList)).getD []

def rustVersion : Str := (wordOf o "rustc" version 1).getD []

def nodeVersion : Str := ((runCmd o "node" version).map (trimStartMatches "v".toList)).getD []

def phpVersion : Str := (wordOf o "php" version 1).getD []

def javaVersion : Str :=
  (((runCmd o "java" ["-fullversion".toList]).bind (Text.second "\"".toList)).map (before "-".toList)).getD []

def dotnetVersion : Str := (runCmd o "dotnet" version).getD []

def swiftVersion : Str :=
  ((runCmd o "swift" version).bind fun s => ((words s).find? fun w => (w.head?.map Char.isDigit).getD false).map
    fun w => trimEndChar '.' (w.dropWhile (· == '.'))).getD []

def terraformVersion : Str :=
  ((runCmd o "terraform" version).bind fun s => (lines s).head?.map (trimStartMatches "Terraform v".toList)).getD []

def haskellStackText : Str := ((wordOf o "stack" version 1).map (trimEndChar ',')).getD []

/-! Files in the directory and above it. -/

/-- The directory and those above it; `fuel` is the number of its components. -/
def ancestors : Nat → Str → List Str
  | 0, dir => [dir]
  | fuel + 1, dir => if dir = "/".toList ∨ dir = [] then [dir] else dir :: ancestors fuel (parentPath dir)

def dirsUp (cwd : Str) : List Str := ancestors cwd.length cwd

def findUpVersion (cwd : Str) (filename : String) : Option Str :=
  (dirsUp cwd).findSome? fun dir => (o.readFile (pushPath dir filename.toList)).bind fun c =>
    some (trim ((lines c).headD [])) |>.filter (· ≠ [])

def findUpContent (cwd : Str) (filename : String) : Option Str :=
  (dirsUp cwd).findSome? fun dir => o.readFile (pushPath dir filename.toList)

def findUpDir (cwd : Str) (filename : String) : Option Str :=
  (dirsUp cwd).find? fun dir => o.there (pushPath dir filename.toList)

def envOrFile (env file : String) (cwd : Str) : Option Str := (envVar o env).or (findUpVersion o cwd file)

def packageText (cwd : Str) : Str :=
  match findUpContent o cwd "package.json" with
  | none => []
  | some content =>
    match jsonStrField content "\"name\":", jsonStrField content "\"version\":" with
    | some n, some v => n ++ '@' :: trimStartMatches "v".toList v
    | some n, none => n
    | none, _ => []

def asdfText (cwd : Str) : Str := (findUpVersion o cwd ".tool-versions").getD []

def fvmText (cwd : Str) : Str :=
  match (dirsUp cwd).find? fun dir => o.there (pushPath (pushPath dir ".fvm".toList) "flutter_sdk".toList) with
  | none => []
  | some dir =>
    let sdk := pushPath (pushPath dir ".fvm".toList) "flutter_sdk".toList
    match Text.second "/versions/".toList ((o.canonicalize sdk).getD sdk) with
    | some v => before "/".toList v
    | none => "fvm".toList

def laravelVersionText (cwd : Str) : Str :=
  match findUpDir o cwd "artisan" with
  | none => []
  | some dir => (wordOf o "php" [dir ++ "/artisan".toList,"--version".toList] 2).getD []

def rspecStatsText (cwd : Str) : Str :=
  let app := o.rubyFiles (pushPath cwd "app".toList)
  let spec := o.rubyFiles (pushPath cwd "spec".toList)
  if app + spec = 0 then [] else "RSpec: ".toList ++ decimal (app * 100 / (app + spec)) ++ "%".toList

def symfony2VersionText (cwd : Str) : Str :=
  (((o.readFile (pushPath cwd "app/bootstrap.php.cache".toList)).bind fun src =>
    (lines src).find? (contains " VERSION ".toList)).map fun line =>
      line.filter fun c => c.isDigit || c == '.').getD []

def symfony2TestsText (cwd : Str) : Str :=
  let (all,tests) := o.phpFiles (pushPath cwd "src".toList)
  if o.isDir (pushPath cwd "src".toList) ∧ o.isDir (pushPath cwd "app".toList) ∧
      o.isFile (pushPath cwd "app/AppKernel.php".toList) ∧ all ≠ 0 ∧ all - tests ≠ 0 then
    "SF2: ".toList ++ o.percent tests (all - tests) ++ "%".toList
  else []

/-! Environment managers. -/

def bracketed (left right : Char) (value : Option Str) : Str :=
  (value.map fun v => left :: (basename v ++ [right])).getD []

def virtualenvText : Str := bracketed '(' ')' (envVar o "VIRTUAL_ENV")

def anacondaText : Str := bracketed '(' ')' ((envVar o "CONDA_PREFIX").or (envVar o "CONDA_ENV_PATH"))

def nodeenvText : Str := bracketed '[' ']' (envVar o "NODE_VIRTUAL_ENV")

def pyenvText (cwd : Str) : Str :=
  ((envOrFile o "PYENV_VERSION" ".python-version" cwd).map (trimStartMatches "python-".toList)).getD []

def nodenvText (cwd : Str) : Str := (envOrFile o "NODENV_VERSION" ".node-version" cwd).getD []

def nvmText : Str := ((envVar o "NVM_DIR").map fun _ => nodeVersion o).getD []

def rbenvText (cwd : Str) : Str :=
  ((envOrFile o "RBENV_VERSION" ".ruby-version" cwd).map (trimStartMatches "ruby-".toList)).getD []

def chrubyText : Str := (envVar o "RUBY_ENGINE").getD []

def rvmText : Str := (((envVar o "GEM_HOME").filter fun g => contains "rvm".toList g).map basename).getD []

def goenvText (cwd : Str) : Str :=
  ((envOrFile o "GOENV_VERSION" ".go-version" cwd).map (trimStartMatches "go-".toList)).getD []

def jenvText (cwd : Str) : Str := (envOrFile o "JENV_VERSION" ".java-version" cwd).getD []

def phpenvText (cwd : Str) : Str := (envOrFile o "PHPENV_VERSION" ".php-version" cwd).getD []

def luaenvText (cwd : Str) : Str := (envOrFile o "LUAENV_VERSION" ".lua-version" cwd).getD []

def plenvText (cwd : Str) : Str := (envOrFile o "PLENV_VERSION" ".perl-version" cwd).getD []

def scalaenvText (cwd : Str) : Str := (envOrFile o "SCALAENV_VERSION" ".scala-version" cwd).getD []

def perlbrewText : Str := ((envVar o "PERLBREW_PERL").map (trimStartMatches "perl-".toList)).getD []

/-! The clock and durations. -/

/-- At least two digits. -/
def twoDigits (n : Nat) : Str := if n < 10 then '0' :: decimal n else decimal n

def nowHhmmss : Str := twoDigits o.hour ++ ':' :: (twoDigits o.minute ++ ':' :: twoDigits o.second)

def nowHhmmss12h : Str :=
  let hour12 := if o.hour % 12 = 0 then 12 else o.hour % 12
  twoDigits hour12 ++ ':' :: (twoDigits o.minute ++ ':' :: (twoDigits o.second ++
    ' ' :: if o.hour < 12 then "AM".toList else "PM".toList))

def timeText (seg : Segment φ) : Str :=
  match seg.prop "time-format".toList with
  | some (.str s) => if s = "12h".toList then nowHhmmss12h o else nowHhmmss o
  | _ => nowHhmmss o

def dateText (seg : Segment φ) : Str :=
  let fmt := match seg.prop "date-format".toList with
    | some (.str s) => s
    | _ => "%d.%m.%y".toList
  if '\x00' ∈ fmt then [] else o.strftime fmt

def formatDuration (secs : τ) (precision : Nat) (hms : Bool) : Str :=
  let d := o.rounded secs
  if o.underMinute secs then
    if precision = 0 then decimal d ++ "s".toList else o.fixed precision secs ++ "s".toList
  else if hms then
    let rest := twoDigits (d / 60 % 60) ++ ':' :: twoDigits (d % 60)
    if 36000 ≤ d then decimal (d / 3600) ++ ':' :: rest
    else if 3600 ≤ d then '0' :: decimal (d / 3600) ++ ':' :: rest
    else rest
  else
    (if 86400 ≤ d then decimal (d / 86400) ++ "d ".toList else []) ++
      ((if 3600 ≤ d then decimal (d / 3600 % 24) ++ "h ".toList else []) ++
        ((if 60 ≤ d then decimal (d / 60 % 60) ++ "m ".toList else []) ++ (decimal (d % 60) ++ "s".toList)))

def commandExecutionTimeText (info : HeaderInfo τ) (seg : Segment φ) : Str :=
  let threshold := match seg.prop "threshold-seconds".toList with
    | some (.int n) => max n.toInt 0
    | _ => 3
  if o.reaches info.execSeconds threshold then
    let precision := match seg.prop "precision".toList with
      | some (.int n) => (min (max n.toInt 0) 6).toNat
      | _ => 2
    let hms := match seg.prop "format".toList with
      | some (.str s) => s = "H:M:S".toList
      | _ => false
    formatDuration o info.execSeconds precision hms
  else []

def viModeText (seg : Segment φ) : Str :=
  let sym (name default : String) : Str := match seg.prop name.toList with
    | some (.str s) => s
    | _ => default.toList
  if o.viMode = "vicmd".toList then sym "normal" "NORMAL"
  else if o.viMode = "viins".toList then sym "insert" "INSERT"
  else if o.viMode = "vis".toList ∨ o.viMode = "viopp".toList then sym "visual" "VISUAL"
  else if o.viMode = "viowr".toList then sym "overwrite" "OVERWRITE"
  else if o.viMode = [] ∨ o.viMode = "main".toList then []
  else o.viMode

/-- What a segment shows that is painted in the segment's own style. -/
def plainTexts (info : HeaderInfo τ) (seg : Segment φ) : List (Str × Str) :=
  [("time".toList,timeText o seg),
    ("command_execution_time".toList,commandExecutionTimeText o info seg),
    ("background_jobs".toList,if 0 < info.jobs then decimal info.jobs else []),
    ("context".toList,contextText o),
    ("user".toList,userName o),
    ("host".toList,hostText o),
    ("root_indicator".toList,rootIndicatorText o),
    ("date".toList,dateText o seg),
    ("symfony2_version".toList,symfony2VersionText o info.cwd),
    ("go_version".toList,goVersion o),
    ("rust_version".toList,rustVersion o),
    ("node_version".toList,nodeVersion o),
    ("php_version".toList,phpVersion o),
    ("java_version".toList,javaVersion o),
    ("dotnet_version".toList,dotnetVersion o),
    ("swift_version".toList,swiftVersion o),
    ("terraform_version".toList,terraformVersion o),
    ("cpu_arch".toList,cpuArch o),
    ("virtualenv".toList,virtualenvText o),
    ("anaconda".toList,anacondaText o),
    ("pyenv".toList,pyenvText o info.cwd),
    ("nodeenv".toList,nodeenvText o),
    ("nodenv".toList,nodenvText o info.cwd),
    ("nvm".toList,nvmText o),
    ("rbenv".toList,rbenvText o info.cwd),
    ("chruby".toList,chrubyText o),
    ("rvm".toList,rvmText o),
    ("goenv".toList,goenvText o info.cwd),
    ("jenv".toList,jenvText o info.cwd),
    ("phpenv".toList,phpenvText o info.cwd),
    ("luaenv".toList,luaenvText o info.cwd),
    ("plenv".toList,plenvText o info.cwd),
    ("scalaenv".toList,scalaenvText o info.cwd),
    ("perlbrew".toList,perlbrewText o),
    ("load".toList,load o),
    ("ram".toList,ram o),
    ("swap".toList,swap o),
    ("disk_usage".toList,diskUsage o info.cwd),
    ("battery".toList,battery o),
    ("aws".toList,awsText o),
    ("azure".toList,azureText o),
    ("gcloud".toList,gcloudText o),
    ("kubecontext".toList,kubecontextText o),
    ("terraform".toList,terraformText o info.cwd),
    ("ip".toList,ipText o),
    ("vpn_ip".toList,vpnIpText o),
    ("wifi".toList,wifiText o),
    ("public_ip".toList,publicIpText o),
    ("detect_virt".toList,detectVirt o),
    ("toolbox".toList,toolboxText o),
    ("dir_writable".toList,dirWritableText o info.cwd),
    ("per_directory_history".toList,perDirectoryHistoryText o),
    ("haskell_stack".toList,haskellStackText o),
    ("package".toList,packageText o info.cwd),
    ("asdf".toList,asdfText o info.cwd),
    ("fvm".toList,fvmText o info.cwd),
    ("google_app_cred".toList,googleAppCredText o),
    ("aws_eb_env".toList,awsEbEnvText o),
    ("laravel_version".toList,laravelVersionText o info.cwd),
    ("rspec_stats".toList,rspecStatsText o info.cwd),
    ("todo".toList,todoText o),
    ("taskwarrior".toList,taskwarriorText o),
    ("dropbox".toList,dropboxText o),
    ("ssh".toList,[]),
    ("xplr".toList,[]),
    ("midnight_commander".toList,[]),
    ("vim_shell".toList,[]),
    ("direnv".toList,[]),
    ("chezmoi_shell".toList,[]),
    ("proxy".toList,proxyText o),
    ("docker_machine".toList,(envVar o "DOCKER_MACHINE_NAME").getD []),
    ("openfoam".toList,openfoamText o),
    ("ranger".toList,levelText o "RANGER_LEVEL"),
    ("yazi".toList,levelText o "YAZI_LEVEL"),
    ("nnn".toList,levelText o "NNNLVL"),
    ("lf".toList,levelText o "LF_LEVEL"),
    ("nix_shell".toList,nixShellText o),
    ("history".toList,decimal info.history),
    ("vi_mode".toList,viModeText o seg)]

end probes
end P11k.Render
