import P11k.Lib.Utf8
import P11k.Render.Icons
import P11k.Render.Paint

/-! One segment of a row: its text, its icon, and what is attached to them. -/
namespace P11k.Render
open P11k P11k.Settings P11k.Text

section segments
variable {φ τ : Type} (o : Outside τ)

def propStyle (seg : Segment φ) (style : Style) (prop : Str) : Style :=
  match seg.prop prop with
  | some (.int n) => { style with fg := .xterm (UInt8.ofNat (min (max n.toInt 0) 255).toNat) }
  | _ => style

/-- A text that the configuration may replace. -/
def strProp (seg : Segment φ) (name : String) (default : Str) : Str :=
  match seg.prop name.toList with
  | some (.str s) => s
  | _ => default

def boolProp (seg : Segment φ) (name : String) : Bool :=
  match seg.prop name.toList with
  | some (.bool b) => b
  | _ => false

/-- A number above zero. -/
def countProp (seg : Segment φ) (name : String) : Option Nat :=
  match seg.prop name.toList with
  | some (.int n) => if 0 < n.toInt then some n.toInt.toNat else none
  | _ => none

/-! The repository. -/

def shortenBranch (branch : Str) (seg : Segment φ) : Str :=
  match countProp seg "shorten-length", countProp seg "shorten-min-length" with
  | some len, some least =>
    if branch.length ≤ least ∨ branch.length ≤ len then branch
    else
      let delim := strProp seg "shorten-delimiter" ['\u2026']
      if strProp seg "shorten-strategy" [] = "truncate_middle".toList then
        branch.take len ++ (delim ++ branch.drop (branch.length - len))
      else branch.take len ++ delim
  | _, _ => branch

def wipLoop (wordBefore : Bool) : Str → Bool
  | [] => false
  | c :: s =>
      (!wordBefore && ("wip".toList.isPrefixOf (c :: s) || "WIP".toList.isPrefixOf (c :: s)) &&
        !(((c :: s).drop 3).head?.map o.alphanumeric).getD false) || wipLoop (o.alphanumeric c) s

def hasWipWord (summary : Str) : Bool := wipLoop o false summary

/-- A sign and a number, when there is something to count. -/
def counted (sign : Str) (n : Nat) : Str := if 0 < n then sign ++ decimal n else []

def hashLen (seg : Segment φ) : Nat := (countProp seg "changeset-hash-length").getD 8

def showChangeset (seg : Segment φ) (v : GitStatus) : Bool := boolProp seg "show-changeset" && v.commit != []

/-- Icon and name stand apart by a space. -/
def marked (mark name : Str) : Str := if mark ≠ [] then mark ++ ' ' :: name else name

/-- Commit, branch or what stands for it, and the branch that is tracked. -/
def vcsHead (v : GitStatus) (branchIcon commitIcon : Str) (seg : Segment φ) (clean meta' : Style) : List Ink :=
  let hash := v.commit.take (hashLen seg)
  (if showChangeset seg v then paint (marked commitIcon hash) clean else []) ++
    ((if v.branch ≠ [] then
        paint ((if showChangeset seg v then " ".toList else []) ++ marked branchIcon (shortenBranch v.branch seg)) clean
      else if v.tag ≠ [] then paint "#".toList meta' ++ paint (shortenBranch v.tag seg) clean
      else if v.commit ≠ [] then paint "@".toList meta' ++ paint hash clean
      else []) ++
      if v.remoteBranch ≠ [] ∧ v.remoteBranch ≠ v.branch then
        paint ":".toList meta' ++ paint v.remoteBranch clean
      else [])

/-- The counts in their order; what there is nothing to say about is empty. -/
def vcsCounts (v : GitStatus) (seg : Segment φ) (style clean modified conflicted : Style) : List (Str × Style) :=
  let untracked := propStyle seg style "untracked-foreground".toList
  let cut := match seg.prop "max-index-size-dirty".toList with
    | some (.int cap) => decide (0 ≤ cap.toInt ∧ cap.toInt < v.indexSize)
    | _ => false
  [(if hasWipWord o v.commitSummary then "wip".toList else [],modified),
    (counted (strProp seg "behind-symbol" ['⇣']) v.behind ++ counted (strProp seg "ahead-symbol" ['⇡']) v.ahead,clean),
    (counted (strProp seg "push-behind-symbol" ['⇠']) v.pushBehind ++
      counted (strProp seg "push-ahead-symbol" ['⇢']) v.pushAhead,clean),
    (counted (strProp seg "stash-symbol" ['*']) v.stashes,clean),
    (v.action,conflicted),
    (counted (strProp seg "conflicted-symbol" ['~']) v.conflicted,conflicted),
    (counted (strProp seg "staged-symbol" ['+']) v.staged,modified),
    (counted (strProp seg "unstaged-symbol" ['!']) v.unstaged,modified),
    (counted (strProp seg "untracked-symbol" ['?']) v.untracked,untracked),
    (if cut then ['─'] else [],modified)]

def vcsText (vcs : Option GitStatus) (branchIcon commitIcon : Str) (seg : Segment φ) (style : Style) : List Ink :=
  match vcs with
  | none => []
  | some v =>
    let clean := propStyle seg style "clean-foreground".toList
    let modified := propStyle seg style "modified-foreground".toList
    let conflicted := propStyle seg modified "conflicted-foreground".toList
    let meta' := propStyle seg style "meta-foreground".toList
    vcsHead v branchIcon commitIcon seg clean meta' ++
      ((vcsCounts o v seg style clean modified conflicted).filter (·.1 ≠ [])).flatMap fun part =>
        paint " ".toList style ++ paint part.1 part.2

/-! The directory. -/

/-- Two upper-case hexadecimal digits. -/
def upperHex (b : UInt8) : Str :=
  let digit (n : Nat) : Char := if n < 10 then Char.ofNat (n + 48) else Char.ofNat (n + 55)
  [digit (b.toNat / 16),digit (b.toNat % 16)]

def urlKeeps (c : Char) : Bool := c.isAlphanum || c ∈ "\"/:_.-!'()~".toList

def urlEscape (s : Str) : Str :=
  (Utf8.encode s).flatMap fun b =>
    if b.toNat < 128 && urlKeeps (Char.ofNat b.toNat) then [Char.ofNat b.toNat] else '%' :: upperHex b

def linkOpens (cwd : Str) : Str := esc :: ("]8;;file://".toList ++ urlEscape cwd ++ ['\x07'])

def linkCloses : Str := esc :: ("]8;;".toList ++ ['\x07'])

def shortenLen (seg : Segment φ) : Nat :=
  match seg.prop "shorten-dir-length".toList with
  | some (.int n) => (min (max n.toInt 1) 20).toNat
  | _ => 1

def dirShortenOpts (seg : Segment φ) (length : Nat) (budget : Option Nat) : Opts where
  strategy := Strategy.parse (strProp seg "shorten-strategy" [])
  length := length
  delimiter := strProp seg "shorten-delimiter" ['\u2026']
  marker := strProp seg "shorten-folder-marker" []
  budget := budget

def classState : Class → Option Str
  | .anchor => some "ANCHOR".toList
  | .shortened => some "SHORTENED".toList
  | .normal => none

/-- That nothing may be written here outranks the class of the directory, and that the part's own. -/
def partStyle (config : Config φ) (seg : Segment φ) (cwd : Str) (cls : Class) : Style :=
  match dirWritableState o seg cwd with
  | some s =>
    let named := ((dirClassMatch o config cwd).map fun c => c.state ++ '_' :: s).filter fun n =>
      (seg.states.get? n).isSome
    seg.effectiveStyle (some (named.getD s)) config.defaults
  | none =>
    match (dirClassMatch o config cwd).filter (·.state ≠ []) with
    | some c => seg.effectiveStyle (some c.state) config.defaults
    | none => seg.effectiveStyle (classState cls) config.defaults

def highlighted (seg : Segment φ) (style : Style) : Style :=
  let st := propStyle seg style "path-highlight-foreground".toList
  { st with bold := st.bold || boolProp seg "path-highlight-bold" }

def dirParts (config : Config φ) (seg : Segment φ) (cwd : Str) (sepStyle : Style) (n i : Nat) :
    List DirPart → List Ink
  | [] => []
  | part :: rest =>
      let st := partStyle o config seg cwd part.cls
      (if 0 < i then paint "/".toList sepStyle else []) ++
        (paint part.text (if i = n - 1 then highlighted seg st else st) ++
          dirParts config seg cwd sepStyle n (i + 1) rest)

def homeOf (seg : Segment φ) : Option Str := if boolProp seg "path-absolute" then none else o.env "HOME".toList

def shownParts (seg : Segment φ) (cwd : Str) (budget : Option Nat) : List DirPart :=
  shorten o cwd (homeOf o seg) (dirShortenOpts seg (shortenLen seg) budget)

def dirSegText (config : Config φ) (info : HeaderInfo τ) (seg : Segment φ) (default : Style)
    (budget : Option Nat) : List Ink :=
  let parts := shownParts o seg info.cwd budget
  let isHome := ((homeOf o seg).map (startsWith info.cwd)).getD false
  let sepStyle := propStyle seg default "path-separator-foreground".toList
  let front :=
    if info.cwd = "/".toList then paint "/".toList sepStyle
    else if isHome then
      paint (strProp seg "home-abbreviation" "~".toList) (seg.effectiveStyle (some "ANCHOR".toList) config.defaults) ++
        if parts ≠ [] then paint "/".toList sepStyle else []
    else if parts ≠ [] ∧ boolProp seg "omit-first-character" = false then paint "/".toList sepStyle
    else []
  let s := match seg.content with
    | some content => text content
    | none => front ++ dirParts o config seg info.cwd sepStyle parts.length 0 parts
  if boolProp seg "hyperlink" ∧ info.cwd.head? = some '/' then
    code (linkOpens info.cwd) ++ (s ++ code linkCloses)
  else s

/-! The last command. -/

def failed (info : HeaderInfo τ) : Option Int := info.exitCode.filter (· ≠ 0)

def statusIconKey (info : HeaderInfo τ) (seg : Segment φ) : Option Str :=
  match info.exitCode with
  | none => none
  | some 0 => if boolProp seg "verbose" then some "ok".toList else none
  | some _ => some "error".toList

def statusForeground (info : HeaderInfo τ) : Str :=
  if (failed info).isSome then "error-foreground".toList else "ok-foreground".toList

def statusText (info : HeaderInfo τ) (seg : Segment φ) (style : Style) : List Ink :=
  match failed info with
  | some n => paint (signed n) (propStyle seg style (statusForeground info))
  | none => []

def viState : Option Str :=
  if o.viMode = "viins".toList then some "VIINS".toList
  else if o.viMode = "vicmd".toList then some "VICMD".toList
  else if o.viMode = "vis".toList ∨ o.viMode = "viopp".toList then some "VIVIS".toList
  else if o.viMode = "viowr".toList then some "VIOWR".toList
  else none

/-- The state that the exit codes ask for. -/
def exitState (info : HeaderInfo τ) : Option Str :=
  match info.exitCode with
  | none => none
  | some code =>
    let piped := decide (1 < info.pipestatus.length)
    if code = 0 then
      if piped && info.pipestatus.any (· ≠ 0) then some "OK_PIPE".toList else none
    else if piped then some "ERROR_PIPE".toList
    else if 128 < code then some "ERROR_SIGNAL".toList
    else some "ERROR".toList

def promptState (config : Config φ) (info : Option (HeaderInfo τ)) : Option Str :=
  let states := (config.segment "prompt_char".toList).states
  match (viState o).filter fun st => ((states.get? st).bind StateSpec.char).isSome with
  | some st => some st
  | none =>
    match info.bind exitState with
    | none => none
    | some state =>
      if (states.get? state).isSome then some state
      else if "ERROR".toList.isPrefixOf state then some "ERROR".toList
      else none

/-! Texts of the layout. -/

def nameChar (c : Char) : Bool := c.isAlphanum || c == '_'

/-- Each step takes at least one character, and `fuel` is their number. -/
def expandGo : Nat → Str → Str
  | 0, _ => []
  | _ + 1, [] => []
  | fuel + 1, c :: rest =>
      if c = '$' ∧ rest.head? = some '{' ∧ '}' ∈ rest then
        (o.env (rest.tail.takeWhile (· != '}'))).getD [] ++ expandGo fuel (rest.dropWhile (· != '}')).tail
      else if c = '$' ∧ (rest.head?.map nameChar).getD false then
        (o.env (rest.takeWhile nameChar)).getD [] ++ expandGo fuel (rest.dropWhile nameChar)
      else c :: expandGo fuel rest

def expandEnv (s : Str) : Str := expandGo o s.length s

/-! The segment. -/

structure SegmentText where
  text : List Ink := []
  style : Style
  padded : Bool := false
  joinedLeft : Bool := false

def symfony2TestsStyle (config : Config φ) (seg : Segment φ) (style : Style) (t : Str) : Style :=
  let pct := trimEndChar '%' (trimStartMatches "SF2: ".toList t)
  let (state,fg) := if o.parsesTo pct 75 then ("GOOD".toList,6)
    else if o.parsesTo pct 50 then ("AVG".toList,3) else ("BAD".toList,1)
  if (seg.states.get? state).isSome then seg.effectiveStyle (some state) config.defaults
  else { style with fg := .xterm fg }

/-- The text of a segment and the style it leaves; there is none for a name that means nothing. -/
def contentText (config : Config φ) (name : Str) (info : HeaderInfo τ) (vcs : Option GitStatus)
    (budget : Option Nat) : Option (List Ink × Style) :=
  let seg := config.segment name
  let style := seg.effectiveStyle none config.defaults
  if name = "dir".toList then some (dirSegText o config info seg style budget,style)
  else if name = "vcs".toList then
    match seg.content with
    | some content => some (paint content style,style)
    | none => some (vcsText o vcs ((iconStr config "branch".toList).getD []) ((iconStr config "commit".toList).getD [])
        seg style,style)
  else if name = "status".toList then some (statusText info seg style,style)
  else if name = "prompt_char".toList then
    let state := promptState o config (some info)
    some (paint (seg.charFor state "❯".toList) (seg.effectiveStyle state config.defaults),
      seg.effectiveStyle state config.defaults)
  else if name = "symfony2_tests".toList then
    let t := symfony2TestsText o info.cwd
    some (paint t (symfony2TestsStyle o config seg style t),style)
  else
    match (plainTexts o info seg).lookup name with
    | some t => some (paint t style,style)
    | none => if iconIsContent name then some ([],style) else none

def iconStyle (name : Str) (info : HeaderInfo τ) (seg : Segment φ) (style : Style) : Style :=
  if (seg.prop "visual-identifier-color".toList).isSome then propStyle seg style "visual-identifier-color".toList
  else if name = "vcs".toList then propStyle seg style "clean-foreground".toList
  else if name = "status".toList then propStyle seg style (statusForeground info)
  else style

def iconFirst (seg : Segment φ) (right : Bool) : Bool :=
  match seg.prop "icon-before-content".toList with
  | some (.bool b) => b
  | _ => !right

def spaces : IconPadding → Str
  | .none => " ".toList
  | .moderate => "  ".toList

def segmentIcon (config : Config φ) (name : Str) (info : HeaderInfo τ) (vcs : Option GitStatus) : Option Str :=
  if name = "status".toList then (statusIconKey info (config.segment name)).bind (iconStr config)
  else resolveIcon o config name vcs info.cwd

def iconText (config : Config φ) (name : Str) (icon : Option Str) (style : Style) (empty first : Bool) : List Ink :=
  match icon with
  | none => []
  | some ic =>
    if empty then if iconIsContent name then paint ic style else []
    else
      let pad := spaces config.iconPadding
      if first then paint (ic ++ pad) style
      else paint (' ' :: ic ++ if 1 < pad.length then " ".toList else []) style

def paintAttach (style : Style) (a : AttachText) : List Ink := paint a.text { style with fg := a.fg.getD style.fg }

/-- A text around the segment, painted if there is one. -/
def paintOption (style : Style) (t : Option Str) : List Ink := paint (t.getD []) style

def attachOption (style : Style) (a : Option AttachText) : List Ink := (a.map (paintAttach style)).getD []

def segmentBody (seg : Segment φ) (style : Style) (content icon : List Ink) (first : Bool) : List Ink :=
  let middle := if icon ≠ [] ∧ content ≠ [] then attachOption style seg.textMiddle else []
  paintOption style seg.pre ++ (attachOption style seg.textLeft ++
    ((if first then icon ++ (middle ++ content) else content ++ (middle ++ icon)) ++
      (attachOption style seg.textRight ++ paintOption style seg.suf)))

def renderSegment (config : Config φ) (name : Str) (info : HeaderInfo τ) (vcs : Option GitStatus) (right : Bool)
    (budget : Option Nat) (joinedLeft : Bool) : SegmentText :=
  let seg := config.segment name
  let own := seg.effectiveStyle none config.defaults
  match contentText o config name info vcs budget with
  | none => { style := own, joinedLeft := joinedLeft }
  | some (content,style) =>
    let first := iconFirst seg right
    let icon := iconText config name (segmentIcon o config name info vcs) (iconStyle name info seg style)
      (decide (content = [])) first
    let body := segmentBody seg style content icon first
    if body = [] then { style := style, joinedLeft := joinedLeft }
    else
      { text := (if (own.bg ≠ .default ∨ right) ∧ joinedLeft = false then paint " ".toList style else []) ++
          (body ++ paint " ".toList style),
        style := style, padded := true, joinedLeft := joinedLeft }

def renderElement (config : Config φ) (info : HeaderInfo τ) (vcs : Option GitStatus) (right : Bool)
    (budget : Option Nat) : Element → SegmentText
  | .seg name => renderSegment o config name info vcs right budget false
  | .joined name => renderSegment o config name info vcs right budget true
  | .text t =>
      let seg := config.segment "text".toList
      let style := seg.effectiveStyle none config.defaults
      let style := if seg.style.bg = .default then { style with bg := .default } else style
      { text := paint (expandEnv o t) style, style := style }

def renderRow (config : Config φ) (elements : List Element) (info : HeaderInfo τ) (vcs : Option GitStatus)
    (right : Bool) (budget : Option Nat) : List SegmentText :=
  elements.map (renderElement o config info vcs right budget)

end segments
end P11k.Render
