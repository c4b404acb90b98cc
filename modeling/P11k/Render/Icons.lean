import P11k.Render.Probes

/-! Icons: the built-in ones for each kind of font, those of the configuration, and which of them a
segment draws. -/
namespace P11k.Render
open P11k.Settings P11k.Text

structure IconEntry where
  nerdfont : Str
  compatible : Str
  ascii : Str

def iconByMode (e : IconEntry) : IconMode → Str
  | .nerdfontComplete => e.nerdfont
  | .nerdfontFontconfig => e.nerdfont
  | .compatible => e.compatible
  | .ascii => e.ascii

def icon (n c a : String) : IconEntry := ⟨n.toList,c.toList,a.toList⟩

def iconTable : List (String × String × String × String) :=
  [("folder","\uf115","",""),
    ("home","\uf015","",""),
    ("home-sub","\uf07c","",""),
    ("etc","\uf013","\u2699",""),
    ("git","\uf1d3","",""),
    ("commit","\ue729","","@"),
    ("time","\uf017","",""),
    ("date","\uf073","",""),
    ("execution-time","\uf252","",""),
    ("ruler","\u2500","\u2500","-"),
    ("background-jobs","\uf013","\u2699","%%"),
    ("go","\ue626","Go","go"),
    ("rust","\ue7a8","R","rust"),
    ("node","\ue617","Node","node"),
    ("php","\ue608","php","php"),
    ("java","\ue738","\u2615","java"),
    ("dotnet","\ue77f",".NET",".net"),
    ("terraform","\uf1bb","tf","tf"),
    ("cpu-arch","\ue266","arch","arch"),
    ("python","\ue73c","Py","py"),
    ("ruby","\uf219","Ruby","rb"),
    ("lua","\ue620","lua","lua"),
    ("perl","\ue769","perl","perl"),
    ("scala","\ue737","scala","scala"),
    ("load","\uf080","L","cpu"),
    ("ram","\uf0e4","RAM","ram"),
    ("swap","\uf464","SWP","swap"),
    ("battery","\uf240","🔋","battery"),
    ("disk","\uf0a0","hdd","disk"),
    ("aws","\uf270","AWS","aws"),
    ("azure","\ufd03","\u2601","az"),
    ("gcloud","\uf7b7","G","gcloud"),
    ("kube","\u2388","\u2388","kube"),
    ("network","\uf50d","IP","ip"),
    ("vpn","\uf023","vpn","vpn"),
    ("wifi","\uf1eb","WiFi","wifi"),
    ("public-ip","\uf0ac","IP","ip"),
    ("toolbox","\ue20f","\u2b22","toolbox"),
    ("lock","\uf023","\ue0a2","!w"),
    ("history","\uf1da","hist","hist"),
    ("haskell","\ue61f","hs","hs"),
    ("package","\uf8d6","pkg","pkg"),
    ("flutter","F","F","flutter"),
    ("aws-eb","\uf1bd","🌱","eb"),
    ("laravel","\ue73f","",""),
    ("test","\uf188","",""),
    ("symfony","\ue757","SF","SF"),
    ("todo","\u2611","\u2206","todo"),
    ("taskwarrior","\uf4a0","task","task"),
    ("dropbox","\uf16b","Dropbox","dropbox"),
    ("ssh","\uf489","ssh","ssh"),
    ("proxy","\u2194","\u2194","proxy"),
    ("server","\uf0ae","",""),
    ("ranger","\uf00b","\u2b50","ranger"),
    ("yazi","\uf00b","\u2b50","yazi"),
    ("nnn","nnn","nnn","nnn"),
    ("lf","lf","lf","lf"),
    ("nix","\uf313","nix","nix"),
    ("xplr","xplr","xplr","xplr"),
    ("mc","mc","mc","mc"),
    ("vim","\ue62b","vim","vim"),
    ("direnv","\u25bc","\u25bc","direnv"),
    ("chezmoi","\uf015","Chez","chezmoi"),
    ("ok","\uf00c","\u2714","ok"),
    ("error","\uf00d","\u2718","err"),
    ("branch","\uf126","@","")]

def iconDefault (key : Str) : Option IconEntry :=
  (iconTable.find? fun row => row.1.toList = key).map fun (_,n,c,a) => icon n c a

/-- The first name that occurs in the identifier of the distribution counts. -/
def distributions : List (String × String × String × String) :=
  [("arch","\uf303","Arc","arch"),
    ("ubuntu","\uf31b","Ubu","ubuntu"),
    ("debian","\uf306","Deb","debian"),
    ("fedora","\uf30a","Fed","fedora"),
    ("gentoo","\uf30d","Gen","gentoo"),
    ("nixos","\uf313","Nix","nixos"),
    ("manjaro","\uf312","Man","manjaro"),
    ("mint","\uf30e","LMi","mint"),
    ("alpine","\uf300","Alp","alpine"),
    ("void","\uf32e","Vo","void"),
    ("artix","\uf31f","Art","artix"),
    ("suse","\uf314","OSu","suse")]

/-- Quotes at both ends are taken off. -/
def trimQuotes (s : Str) : Str := trimEndChar '"' (s.dropWhile (· == '"'))

section icons
variable {φ τ : Type} (o : Outside τ)

def detectOsIcon : IconEntry :=
  if o.os ≠ "linux".toList then
    if o.os = "macos".toList then icon "\uf179" "OSX" "mac"
    else if o.os = "windows".toList then icon "\uf17a" "WIN" "win"
    else icon "\uf17c" "Lx" "linux"
  else
    let id := ((o.readFile "/etc/os-release".toList).bind fun s =>
      ((lines s).find? fun l => "ID=".toList.isPrefixOf l).map fun l =>
        trimQuotes (trim (trimStartMatches "ID=".toList l))).getD []
    match distributions.find? fun row => contains row.1.toList id with
    | some (_,n,c,a) => icon n c a
    | none => icon "\uf17c" "Lx" "linux"

def osIcon (mode : IconMode) : Str := iconByMode (detectOsIcon o) mode

/-- The icons that segments always have. -/
def fixedIconKeys : List (String × String) :=
  [("dir","folder"),("vcs","git"),("time","time"),("date","date"),("command_execution_time","execution-time"),
    ("symfony2_version","symfony"),("symfony2_tests","test"),("background_jobs","background-jobs"),
    ("go_version","go"),("goenv","go"),("rust_version","rust"),("node_version","node"),("nodeenv","node"),
    ("nodenv","node"),("nvm","node"),("php_version","php"),("phpenv","php"),("java_version","java"),
    ("jenv","java"),("dotnet_version","dotnet"),("terraform_version","terraform"),("terraform","terraform"),
    ("cpu_arch","cpu-arch"),("virtualenv","python"),("anaconda","python"),("pyenv","python"),("rbenv","ruby"),
    ("chruby","ruby"),("rvm","ruby"),("luaenv","lua"),("plenv","perl"),("perlbrew","perl"),
    ("scalaenv","scala"),("load","load"),("ram","ram"),("swap","swap"),("battery","battery"),
    ("disk_usage","disk"),("aws","aws"),("azure","azure"),("gcloud","gcloud"),("google_app_cred","gcloud"),
    ("kubecontext","kube"),("ip","network"),("vpn_ip","vpn"),("wifi","wifi"),("public_ip","public-ip")]

/-- The icons that stand under a condition. -/
def conditionalIconKeys : List (String × Bool × String) :=
  [("toolbox",toolboxText o != [],"toolbox"),
    ("dir_writable",dirWritableText o o.currentDir != [],"lock"),
    ("per_directory_history",perDirectoryHistoryText o != [],"history"),
    ("haskell_stack",haskellStackText o != [],"haskell"),
    ("package",packageText o o.currentDir != [],"package"),
    ("fvm",fvmText o o.currentDir != [],"flutter"),
    ("aws_eb_env",awsEbEnvText o != [],"aws-eb"),
    ("laravel_version",laravelVersionText o o.currentDir != [],"laravel"),
    ("rspec_stats",rspecStatsText o o.currentDir != [],"test"),
    ("todo",todoText o != [],"todo"),
    ("taskwarrior",taskwarriorText o != [],"taskwarrior"),
    ("dropbox",dropboxText o != [],"dropbox"),
    ("ssh",overSsh o,"ssh"),
    ("proxy",envHasProxy o,"proxy"),
    ("docker_machine",(envVar o "DOCKER_MACHINE_NAME").isSome,"server"),
    ("ranger",levelText o "RANGER_LEVEL" != [],"ranger"),
    ("yazi",levelText o "YAZI_LEVEL" != [],"yazi"),
    ("nnn",levelText o "NNNLVL" != [],"nnn"),
    ("lf",levelText o "LF_LEVEL" != [],"lf"),
    ("nix_shell",(nixShell o).isSome,"nix"),
    ("xplr",(envVar o "XPLR_PID").isSome,"xplr"),
    ("midnight_commander",(envVar o "MC_TMPDIR").isSome,"mc"),
    ("vim_shell",(envVar o "VIMRUNTIME").isSome,"vim"),
    ("direnv",(envVar o "DIRENV_DIR").isSome,"direnv"),
    ("chezmoi_shell",(envVar o "CHEZMOI").isSome,"chezmoi")]

def segmentIconKey (name : Str) : Option Str :=
  match fixedIconKeys.find? fun row => row.1.toList = name with
  | some (_,key) => some key.toList
  | none =>
    match (conditionalIconKeys o).find? fun row => row.1.toList = name with
    | some (_,holds,key) => if holds then some key.toList else none
    | none => none

def allCovers (s : Str) : IconMode → Bool
  | .nerdfontComplete => true
  | .nerdfontFontconfig => true
  | .compatible => s.all fun c => !(0xE000 ≤ c.toNat && c.toNat ≤ 0xF8FF)
  | .ascii => s.all fun c => c.toNat < 128

def IconOverride.exact (ov : IconOverride) : IconMode → Option Str
  | .nerdfontComplete => ov.nf
  | .nerdfontFontconfig => ov.nf
  | .compatible => ov.compat
  | .ascii => ov.ascii

def iconStr (config : Config φ) (key : Str) : Option Str :=
  let overridden := (config.iconOverrides.get? key).bind fun ov =>
    (IconOverride.exact ov config.mode).or (ov.all.filter (allCovers · config.mode))
  overridden.or ((iconDefault key).map fun e => iconByMode e config.mode)

def dirShowWritable (seg : Segment φ) : Int :=
  match seg.prop "show-writable".toList with
  | some (.bool true) => 1
  | some (.int n) => min (max n.toInt 0) 3
  | some (.str s) =>
    if s = "true".toList then 1 else if s = "v2".toList then 2 else if s = "v3".toList then 3 else 0
  | _ => 0

def dirWritableState (seg : Segment φ) (cwd : Str) : Option Str :=
  let mode := dirShowWritable seg
  if mode ≤ 0 ∨ '\x00' ∈ cwd ∨ o.mayWrite cwd = true then none
  else if 2 < mode ∧ o.there cwd = false then some "NON_EXISTENT".toList
  else some "NOT_WRITABLE".toList

/-- The segments whose icon is what they show. -/
def iconIsContent (name : Str) : Bool :=
  ["ssh","xplr","midnight_commander","vim_shell","direnv","chezmoi_shell","os","os_icon","status"].any
    fun other => other.toList = name

def resolveIcon (config : Config φ) (name : Str) (vcs : Option GitStatus) (cwd : Str) : Option Str :=
  if name = "os".toList ∨ name = "os_icon".toList then some (osIcon o config.mode)
  else if name = "vcs".toList then
    match vcs.bind fun v => config.vcsRemoteIcons.find? fun entry => entry.1 ≠ [] ∧ contains entry.1 v.remoteUrl with
    | some (_,ic) => some ic
    | none => iconStr config "git".toList
  else if name = "dir".toList ∧ (dirWritableState o (config.segment "dir".toList) cwd).isSome then
    iconStr config "lock".toList
  else if name = "dir".toList ∧ config.dirClasses = [] then iconStr config (defaultDirIconKey o cwd)
  else
    match if name = "dir".toList then dirClassMatch o config cwd else none with
    | some c => if c.icon = [] then none else some c.icon
    | none => (segmentIconKey o name).bind (iconStr config)

end icons
end P11k.Render
