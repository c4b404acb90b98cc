import P11k.Engine.Reserved
import P11k.Engine.ScreenOutput
import P11k.Engine.TerminalReplies

/-! The loop together with the screen that it draws on. The lines of the last paint are remembered, and while
nothing but the loop and the line editor wrote since, the rows above the cursor still show them: a redraw that
is left out would have changed nothing. -/
namespace P11k.Engine
open Gitstatus (Bytes)
open Screen (feed fill drawn span Shows Holds)
open Utf8 (encode decode)

structure Window (ρ θ δ : Type) where
  loop : State ρ θ δ
  screen : Screen
  /-- The terminal has wrapped its rows anew, and nothing was painted since. -/
  reflowed : Bool

inductive Happening (ρ θ δ : Type) where
  | loop (e : Event ρ θ δ)
  | shell (text : List Char)
  | reflow (screen : Screen)

section steps
variable {ε ρ θ δ : Type} (look : Look ε ρ θ δ)

/-! What a step that leaves the loop at the prompt has written. -/

/-- The outputs end with a paint of the lines that are remembered now. -/
def EndsPainted (r : State ρ θ δ × List (Output δ)) : Prop :=
  ∃ before p, r.2 = before ++ [.paint p] ∧ r.1.lastHeader = some p.lines ∧ p.up = max p.lines.length 1

/-- Neither the header nor the cursor is touched. -/
def leavesHeader : Output δ → Bool
  | .nudge | .promptPrefix _ => true
  | _ => false

theorem redrawEnds (m : Moment ε) (s : State ρ θ δ) (info : HeaderInfo) (vcs : Option (GitStatus δ)) :
    EndsPainted (redraw look m s info vcs) ∨
    s.lastHeader = some (freshLines look m s s.viMode info vcs) ∧ redraw look m s info vcs = (s,[]) := by
  by_cases same : s.lastHeader = some (freshLines look m s s.viMode info vcs)
  · right
    have skipped := redrawSame look same
    refine ⟨same,?_⟩
    simp only [redraw,skipped]
    rfl
  · left
    have painted := redrawNew look same
    simp only [EndsPainted,redraw,painted]
    exact ⟨[],_,rfl,rfl,by rw [headerLines]⟩

theorem redrawForced (m : Moment ε) {s : State ρ θ δ} (none' : s.lastHeader = none) (info : HeaderInfo)
    (vcs : Option (GitStatus δ)) : EndsPainted (redraw look m s info vcs) := by
  rcases redrawEnds look m s info vcs with painted | ⟨same,_⟩
  · exact painted
  · rw [none'] at same
    contradiction

theorem signalEnds (m : Moment ε) (s : State ρ θ δ) : EndsPainted (signal look m s) := by
  obtain ⟨before,p,outputs,lines,up⟩ := redrawForced look m
    (s := { s with resizeExtraRows := 0, lastHeader := none }) rfl (shownInfo s) (ownStatus s)
  refine ⟨beforePaint s ++ before,p,?_,lines,up⟩
  rw [List.append_assoc]
  exact congrArg (beforePaint s ++ ·) outputs

theorem signalsEnd (m : Moment ε) (n : Nat) (s : State ρ θ δ) : EndsPainted (signals look m (n + 1) s) := by
  induction n generalizing s with
  | zero =>
    obtain ⟨before,p,outputs,lines,up⟩ := signalEnds look m s
    exact ⟨before,p,(List.append_nil _).trans outputs,lines,up⟩
  | succ n ih =>
    obtain ⟨before,p,outputs,lines,up⟩ := ih (signal look m s).1
    refine ⟨(signal look m s).2 ++ before,p,?_,lines,up⟩
    rw [List.append_assoc]
    exact congrArg ((signal look m s).2 ++ ·) outputs

theorem signalsDrawn (m : Moment ε) (n : Nat) (s : State ρ θ δ) :
    (signals look m (n + 1) s).1.instantDrawn = false := by
  induction n generalizing s with
  | zero => rfl
  | succ n ih => exact ih (signal look m s).1

/-- The instant header is replaced by the first signal, and only a signal leads to the prompt. -/
def InstantRuns (s : State ρ θ δ) : Prop := s.instantDrawn = true → s.prompt = .running

theorem instantStart (shell : Shell) (config : Config ρ θ) (configPath : Option Bytes) (size : Size) (cwd : Bytes) :
    InstantRuns (start look shell config configPath size cwd) := fun _ => rfl

theorem outputNone (m : Moment ε) (s : State ρ θ δ) (newlines : Nat) : ∃ k,
    step look s (m,.output 0 newlines) = ({ s with instantNewlines := k },[]) := by
  by_cases drawn : s.instantDrawn = true
  · exact ⟨s.instantNewlines + newlines,Prod.ext (if_pos drawn) rfl⟩
  · exact ⟨s.instantNewlines,Prod.ext (if_neg drawn) rfl⟩

theorem instantStep {s : State ρ θ δ} (instant : InstantRuns s) (e : Moment ε × Event ρ θ δ) :
    InstantRuns (step look s e).1 := by
  obtain ⟨m,what⟩ := e
  cases what with
  | reload request load =>
    rcases reloadCases look m s request load with ⟨_,path,result⟩ | ⟨config,path,_,result⟩
    · simp only [step,result]
      exact instant
    · simp only [step,result]
      split <;> exact instant
  | windowChange =>
    simp only [step,windowChange]
    repeat' split
    all_goals exact instant
  | header info => exact fun _ => rfl
  | resize =>
    simp only [step,resize]
    split <;> exact instant
  | vimMode mode =>
    simp only [step,vimMode]
    split <;> exact instant
  | input bytes =>
    simp only [step,input]
    split
    · exact fun _ => rfl
    · split
      · rename_i typed
        intro drawn
        rw [Bool.and_eq_true] at typed
        rw [instant drawn] at typed
        exact absurd typed.2 (by decide)
      · exact instant
  | output count newlines =>
    cases count with
    | zero =>
      obtain ⟨k,same⟩ := outputNone look m s newlines
      rw [same]
      exact instant
    | succ n =>
      have drawn := signalsDrawn look m n s
      intro still
      simp only [step,output,drawn,Bool.false_eq_true,if_false] at still
  | gitResult =>
    simp only [step,gitResult]
    repeat' split
    all_goals exact instant
  | worked i k found =>
    simp only [step,worked]
    split <;> exact instant
  | deferredPrompt =>
    simp only [step,deferredPrompt]
    repeat' split
    all_goals exact instant

/-- Only a signal leads to the prompt. -/
theorem startsAtPrompt {s : State ρ θ δ} (m : Moment ε) {what : Event ρ θ δ}
    (other : ¬ ∃ n newlines, what = .output (n + 1) newlines)
    (later : (step look s (m,what)).1.prompt.atPrompt = true) : s.prompt.atPrompt = true := by
  cases what with
  | header info => cases later
  | input bytes =>
    simp only [step,input] at later
    split at later
    · cases later
    · split at later
      · rename_i typed
        exact (Bool.and_eq_true_iff.mp typed).2
      · exact later
  | output count newlines =>
    cases count with
    | zero => rwa [step,outputPhase,if_pos rfl] at later
    | succ n => exact absurd ⟨n,newlines,rfl⟩ other
  | reload | windowChange | resize | vimMode | gitResult | worked | deferredPrompt =>
    rwa [(stepTimed look s m rfl).prompt] at later

theorem redrawWindow (m : Moment ε) {s t : State ρ θ δ} (same : t.lastHeader = s.lastHeader) (info : HeaderInfo)
    (vcs : Option (GitStatus δ)) : EndsPainted (redraw look m t info vcs) ∨
      (redraw look m t info vcs).1.lastHeader = s.lastHeader ∧ ∀ o ∈ (redraw look m t info vcs).2, leavesHeader o = true := by
  rcases redrawEnds look m t info vcs with painted | ⟨_,skipped⟩
  · exact .inl painted
  · rw [skipped]
    exact .inr ⟨same,fun o mem => absurd mem List.not_mem_nil⟩

/-- A step that ends at the prompt either painted what is remembered, or it started there, and neither the header
nor what is remembered of it has changed. -/
theorem stepWindow {s : State ρ θ δ} (instant : InstantRuns s) (e : Moment ε × Event ρ θ δ)
    (atPrompt : (step look s e).1.prompt.atPrompt = true) :
    EndsPainted (step look s e) ∨
    s.prompt.atPrompt = true ∧ (step look s e).1.lastHeader = s.lastHeader ∧
      ∀ o ∈ (step look s e).2, leavesHeader o = true := by
  obtain ⟨m,what⟩ := e
  by_cases signal : ∃ n newlines, what = .output (n + 1) newlines
  · obtain ⟨n,newlines,rfl⟩ := signal
    obtain ⟨before,p,outputs,lines,up⟩ := signalsEnd look m n s
    refine .inl ⟨before,p,outputs,?_,up⟩
    simp only [step,output]
    split <;> exact lines
  have here : s.prompt.atPrompt = true := startsAtPrompt look m signal atPrompt
  suffices EndsPainted (step look s (m,what)) ∨ (step look s (m,what)).1.lastHeader = s.lastHeader ∧
      ∀ o ∈ (step look s (m,what)).2, leavesHeader o = true from this.imp_right (⟨here,·⟩)
  cases what with
  | reload request load =>
    rcases reloadCases look m s request load with ⟨_,path,result⟩ | ⟨config,path,_,result⟩
    · rw [show step look s (m,.reload request load) = _ from result]
      exact .inr ⟨rfl,by simp⟩
    · simp only [step,result]
      split
      · exact .inl (redrawForced look m rfl _ _)
      · exact .inr ⟨rfl,by simp⟩
  | windowChange =>
    have gone : s.instantDrawn = false := by
      cases drawn : s.instantDrawn with
      | false => rfl
      | true =>
        rw [instant drawn] at here
        contradiction
    simp only [step,windowChange,gone,Bool.false_and,Bool.false_eq_true,if_false,List.nil_append]
    repeat' split
    all_goals exact .inr ⟨rfl,by simp [leavesHeader]⟩
  | header info => cases atPrompt
  | resize =>
    simp only [step,resize]
    split
    · exact .inl (redrawForced look m (s := { syncSize m s with lastHeader := none }) rfl
        (shownInfo (syncSize m s)) (lastStatus (syncSize m s)))
    · exact .inr ⟨rfl,by simp⟩
  | vimMode mode =>
    simp only [step,vimMode]
    split
    · exact redrawWindow look m rfl _ _
    · exact .inr ⟨rfl,by simp⟩
  | input bytes =>
    simp only [step,input]
    repeat' split
    all_goals exact .inr ⟨rfl,by simp⟩
  | output count newlines =>
    cases count with
    | zero =>
      obtain ⟨k,same⟩ := outputNone look m s newlines
      rw [same]
      exact .inr ⟨rfl,by simp⟩
    | succ n => exact absurd ⟨n,newlines,rfl⟩ signal
  | gitResult =>
    simp only [step,gitResult]
    repeat' split
    all_goals first | exact redrawWindow look m rfl _ _ | exact .inr ⟨rfl,by simp⟩
  | worked i k found =>
    simp only [step,worked]
    split <;> exact .inr ⟨rfl,by simp⟩
  | deferredPrompt =>
    simp only [step,deferredPrompt]
    repeat' split
    all_goals exact .inr ⟨rfl,by simp [leavesHeader]⟩

/-! The engine that paints whenever it could, and remembers what it painted. -/

def plainStep (s : State ρ θ δ) (e : Moment ε × Event ρ θ δ) : State ρ θ δ × List (Output δ) :=
  match e.2 with
  | .vimMode _ | .gitResult =>
      let r := step look { s with lastHeader := none } e
      ({ r.1 with lastHeader := r.1.lastHeader.or s.lastHeader },r.2)
  | _ => step look s e

def LeftOut (s : State ρ θ δ) (plain cached : List (Output δ)) : Prop :=
  cached = [] ∧ ∃ p, plain = [.paint p] ∧ s.lastHeader = some p.lines ∧ p.up = max p.lines.length 1

theorem redrawPlain (m : Moment ε) (s : State ρ θ δ) (info : HeaderInfo) (vcs : Option (GitStatus δ)) :
    let plain := redraw look m { s with lastHeader := none } info vcs
    let cached := redraw look m s info vcs
    plain.1 = cached.1 ∧ (∃ lines, plain.1.lastHeader = some lines) ∧
      (plain.2 = cached.2 ∨ LeftOut s plain.2 cached.2) := by
  let fresh := freshLines look m s s.viMode info vcs
  let painted : State ρ θ δ × List (Output δ) :=
    ({ s with lastHeader := some fresh },[.paint ⟨max (headerRows s.config) 1,fresh,info,vcs⟩])
  have plain : redraw look m { s with lastHeader := none } info vcs = painted := by
    have new : redrawHeaderCfg look m.env s.viMode s.config info vcs s.lastSize.cols.toNat none =
        (some fresh,some ⟨max (headerRows s.config) 1,fresh,info,vcs⟩) := redrawNew look (by simp)
    simp only [redraw,new]
    rfl
  by_cases same : s.lastHeader = some fresh
  · have skipped := redrawSame look same
    have cached : redraw look m s info vcs = (s,[]) := by
      simp only [redraw,skipped]
      rfl
    have whole : painted.1 = s := by
      simp only [painted,← same]
    rw [plain,cached]
    exact ⟨whole,⟨fresh,rfl⟩,.inr ⟨rfl,_,rfl,same,by simp only [fresh,freshLines,headerLines]⟩⟩
  · have new := redrawNew look same
    have cached : redraw look m s info vcs = painted := by
      simp only [redraw,new]
      rfl
    rw [plain,cached]
    exact ⟨rfl,⟨fresh,rfl⟩,.inl rfl⟩

theorem rememberedAlready {s : State ρ θ δ} {lines : List Bytes} (known : s.lastHeader = some lines)
    (last : Option (List Bytes)) : { s with lastHeader := s.lastHeader.or last } = s := by
  rw [known,Option.some_or,← known]

/-- What is remembered matters to the event in its redraw only, if there is one. -/
def AsksRedraw (e : Moment ε × Event ρ θ δ) : Prop :=
  ∀ s : State ρ θ δ, ∃ t : State ρ θ δ,
    (∀ last, step look { s with lastHeader := last } e = ({ t with lastHeader := last },[])) ∨
    s.prompt.atPrompt = true ∧ ∃ info vcs, ∀ last, step look { s with lastHeader := last } e =
      redraw look e.1 { t with lastHeader := last } info vcs

theorem vimAsks (m : Moment ε) (mode : Bytes) : AsksRedraw look (ρ := ρ) (θ := θ) (δ := δ) (m,.vimMode mode) := by
  intro s
  refine ⟨{ syncSize m s with viMode := mode },?_⟩
  by_cases atPrompt : s.prompt.atPrompt = true
  · exact .inr ⟨atPrompt,shownInfo s,lastStatus s,fun last => if_pos atPrompt⟩
  · exact .inl fun last => if_neg atPrompt

theorem gitAsks (m : Moment ε) : AsksRedraw look (ρ := ρ) (θ := θ) (δ := δ) (m,.gitResult) := by
  intro s
  cases front : s.results with
  | nil =>
    refine ⟨s,.inl fun last => ?_⟩
    simp only [step,gitResult,front]
  | cons res results =>
    by_cases stale : res.generation ≠ s.gitGen
    · refine ⟨{ s with results := results },.inl fun last => ?_⟩
      simp only [step,gitResult,if_pos stale]
    · cases known : s.currentInfo with
      | none =>
        refine ⟨{ s with results := results, lastVcs := some ([],res.status) },.inl fun last => ?_⟩
        simp only [step,gitResult,if_neg stale,known,Option.elim_none]
      | some info =>
        refine ⟨{ s with results := results, lastVcs := some (info.cwd,res.status) },?_⟩
        by_cases atPrompt : s.prompt.atPrompt = true
        · refine .inr ⟨atPrompt,info,res.status,fun last => ?_⟩
          simp only [step,gitResult,if_neg stale,known,Option.elim_some,if_pos atPrompt]
        · refine .inl fun last => ?_
          simp only [step,gitResult,if_neg stale,known,Option.elim_some,if_neg atPrompt]

theorem plainStepSame (s : State ρ θ δ) (e : Moment ε × Event ρ θ δ) :
    (plainStep look s e).1 = (step look s e).1 ∧
      ((plainStep look s e).2 = (step look s e).2 ∨
        s.prompt.atPrompt = true ∧ LeftOut s (plainStep look s e).2 (step look s e).2) := by
  obtain ⟨m,what⟩ := e
  have asked : AsksRedraw look (m,what) → plainStep look s (m,what) =
      ({ (step look { s with lastHeader := none } (m,what)).1 with
        lastHeader := (step look { s with lastHeader := none } (m,what)).1.lastHeader.or s.lastHeader },
        (step look { s with lastHeader := none } (m,what)).2) →
      (plainStep look s (m,what)).1 = (step look s (m,what)).1 ∧
        ((plainStep look s (m,what)).2 = (step look s (m,what)).2 ∨
          s.prompt.atPrompt = true ∧ LeftOut s (plainStep look s (m,what)).2 (step look s (m,what)).2) := by
    intro asks plain
    obtain ⟨t,quiet | ⟨atPrompt,info,vcs,redraws⟩⟩ := asks s
    · have cached := quiet s.lastHeader
      rw [plain,quiet none,cached]
      exact ⟨rfl,.inl rfl⟩
    · have cached := redraws s.lastHeader
      obtain ⟨same,⟨lines,known⟩,outputs⟩ := redrawPlain look m { t with lastHeader := s.lastHeader } info vcs
      rw [plain,redraws none,cached,rememberedAlready known]
      exact ⟨same,outputs.imp_right fun left => ⟨atPrompt,left⟩⟩
  cases what with
  | vimMode mode => exact asked (vimAsks look m mode) rfl
  | gitResult => exact asked (gitAsks look m) rfl
  | _ => exact ⟨rfl,.inl rfl⟩

end steps

section window
variable {ε ρ θ δ : Type} (charWidth : Char → Nat) (look : Look ε ρ θ δ)

def windowStep (loopStep : State ρ θ δ → Moment ε × Event ρ θ δ → State ρ θ δ × List (Output δ)) (w : Window ρ θ δ)
    (h : Moment ε × Happening ρ θ δ) : Window ρ θ δ × List (Output δ) :=
  match h.2 with
  | .loop e =>
      let r := loopStep w.loop (h.1,e)
      (⟨r.1,r.2.foldl (emit charWidth) w.screen,w.reflowed && !r.2.any isPaint⟩,r.2)
  | .shell text => ({ w with screen := feed charWidth w.screen text },[])
  | .reflow screen => ({ w with screen := screen, reflowed := true },[])

def Fitting (cols : Nat) (text : Bytes) : Prop :=
  ∃ t shown, text = encode t ∧ Shows charWidth t shown ∧ span charWidth shown ≤ cols

/-- What an output finds: no sequence is open, a header has its rows, and each text fits into its row. -/
def Drawable (s : Screen) (o : Output δ) : Prop :=
  s.mode = .ground ∧ s.row < s.height ∧ match o with
    | .paint p => p.lines.length ≤ s.row ∧ ∃ shown, Legible charWidth s.width p.lines shown
    | .promptPrefix text => Fitting charWidth s.width text
    | .instantHeader lines text => lines.length < s.height ∧ (∃ shown, Legible charWidth s.width lines shown) ∧
        Fitting charWidth s.width text
    | .clearReflowed up rows => 1 ≤ up ∧ 1 ≤ rows ∧ s.row - up + rows ≤ s.height
    | _ => True

/-- At the prompt the line editor comes back to its row, and what is above that stays. -/
def Orderly (w : Window ρ θ δ) (h : Moment ε × Happening ρ θ δ) : Prop :=
  match h.2 with
  | .loop e => Machine.Watched (emit charWidth) (Drawable charWidth) w.screen (step look w.loop (h.1,e)).2
  | .shell text => w.loop.prompt.atPrompt = true → Screen.StaysInRow w.screen (feed charWidth w.screen text)
  | .reflow _ => True

/-- The rows above the cursor show what the last paint is remembered to have written. -/
def Remembered (w : Window ρ θ δ) : Prop :=
  w.screen.mode = .ground ∧ w.screen.row < w.screen.height ∧ ∃ lines shown, w.loop.lastHeader = some lines ∧
    Legible charWidth w.screen.width lines shown ∧ Holds charWidth w.screen shown

structure HeaderKept (w : Window ρ θ δ) : Prop where
  instant : InstantRuns w.loop
  header : w.loop.prompt.atPrompt = true → w.reflowed = false → Remembered charWidth w

variable {charWidth}

theorem paintHolds {s : Screen} {p : Paint δ} (drawable : Drawable charWidth s (.paint p))
    (up : p.up = max p.lines.length 1) : ∃ shown, Legible charWidth s.width p.lines shown ∧
      emit charWidth s (.paint p) =
        { s with cells := fill charWidth (s.row - shown.length) shown s.cells, saved := (s.row,s.col) } ∧
      Holds charWidth (emit charWidth s (.paint p)) shown := by
  obtain ⟨ground,inside,room,shown,legible⟩ := drawable
  have painted := emitPaint ground inside legible room up
  refine ⟨shown,legible,painted,?_⟩
  rw [painted]
  exact Screen.fillHolds (legibleRows legible ▸ room) s.cells rfl

theorem leavesStill {s : Screen} {o : Output δ} (drawable : Drawable charWidth s o) (leaves : leavesHeader o = true) :
    Screen.StaysInRow s (emit charWidth s o) ∧ (emit charWidth s o).height = s.height ∧
      (emit charWidth s o).width = s.width := by
  obtain ⟨ground,_,drawable⟩ := drawable
  cases o with
  | nudge => exact ⟨⟨ground,rfl,fun _ _ => rfl⟩,rfl,rfl⟩
  | promptPrefix text =>
    obtain ⟨t,shown,same,shows,fits⟩ := drawable
    rw [emitPrefix ground same shows fits]
    refine ⟨⟨ground,rfl,fun r above => ?_⟩,rfl,rfl⟩
    exact Function.update_of_ne (Nat.ne_of_lt above) _ _
  | _ => cases leaves

theorem staysTrans {s t u : Screen} (first : Screen.StaysInRow s t) (rest : Screen.StaysInRow t u) :
    Screen.StaysInRow s u :=
  ⟨rest.ground,rest.row.trans first.row,
    fun r above => (rest.above r (first.row ▸ above)).trans (first.above r above)⟩

theorem allStill {s : Screen} (ground : s.mode = .ground) {os : List (Output δ)}
    (drawable : Machine.Watched (emit charWidth) (Drawable charWidth) s os) (leaves : ∀ o ∈ os, leavesHeader o = true) :
    Screen.StaysInRow s (os.foldl (emit charWidth) s) ∧ (os.foldl (emit charWidth) s).height = s.height ∧
      (os.foldl (emit charWidth) s).width = s.width := by
  induction os generalizing s with
  | nil => exact ⟨⟨ground,rfl,fun _ _ => rfl⟩,rfl,rfl⟩
  | cons o os ih =>
    obtain ⟨stays,height,width⟩ := leavesStill drawable.1 (leaves o List.mem_cons_self)
    obtain ⟨stays',height',width'⟩ := ih stays.ground drawable.2 fun p mem => leaves p (List.mem_cons_of_mem o mem)
    exact ⟨staysTrans stays stays',height'.trans height,width'.trans width⟩

theorem rememberedStill {w v : Window ρ θ δ} (remembered : Remembered charWidth w) (same : v.loop.lastHeader = w.loop.lastHeader)
    (stays : Screen.StaysInRow w.screen v.screen) (height : v.screen.height = w.screen.height)
    (width : v.screen.width = w.screen.width) : Remembered charWidth v := by
  obtain ⟨_,inside,lines,shown,known,legible,holds⟩ := remembered
  refine ⟨stays.ground,?_,lines,shown,same.trans known,?_,Screen.holdsStill stays holds⟩
  · rw [stays.row,height]
    exact inside
  · rw [width]
    exact legible

theorem headerKeptStep {w : Window ρ θ δ} (kept : HeaderKept charWidth w) {h : Moment ε × Happening ρ θ δ}
    (orderly : Orderly charWidth look w h) : HeaderKept charWidth (windowStep charWidth (step look) w h).1 := by
  obtain ⟨m,what⟩ := h
  cases what with
  | loop e =>
    refine ⟨instantStep look kept.instant (m,e),fun atPrompt current => ?_⟩
    rcases stepWindow look kept.instant (m,e) atPrompt with ⟨before,p,outputs,known,up⟩ | ⟨here,same,leaves⟩
    · have drawable : Machine.Watched (emit charWidth) (Drawable charWidth) w.screen (step look w.loop (m,e)).2 := orderly
      rw [outputs,Machine.watchedAppend] at drawable
      obtain ⟨shown,legible,painted,holds⟩ := paintHolds drawable.2.1 up
      have final : (windowStep charWidth (step look) w (m,.loop e)).1.screen =
          emit charWidth (before.foldl (emit charWidth) w.screen) (.paint p) := by
        simp only [windowStep,outputs,List.foldl_append,List.foldl_cons,List.foldl_nil]
      unfold Remembered
      rw [final]
      refine ⟨?_,?_,p.lines,shown,known,?_,holds⟩
      · rw [painted]
        exact drawable.2.1.1
      · rw [painted]
        exact drawable.2.1.2.1
      · rw [painted]
        exact legible
    · have none' : (step look w.loop (m,e)).2.any isPaint = false := by
        rw [List.any_eq_false]
        intro o mem paints
        have leaves' := leaves o mem
        cases o with
        | paint p => cases leaves'
        | _ => cases paints
      have current' : w.reflowed = false := by
        simpa only [windowStep,none',Bool.not_false,Bool.and_true] using current
      have remembered := kept.header here current'
      obtain ⟨stays,height,width⟩ := allStill remembered.1 orderly leaves
      exact rememberedStill remembered same stays height width
  | shell text =>
    refine ⟨kept.instant,fun atPrompt current => ?_⟩
    obtain ⟨height,width⟩ := Screen.feedSize charWidth w.screen text
    exact rememberedStill (kept.header atPrompt current) rfl (orderly atPrompt) height width
  | reflow screen => exact ⟨kept.instant,fun _ current => by cases current⟩

theorem stepUps (s : State ρ θ δ) (e : Moment ε × Event ρ θ δ) :
    ∀ p, .paint p ∈ (step look s e).2 → p.up = max p.lines.length 1 := by
  intro p mem
  rcases (stepPaints look s e).1 _ mem with quiet | ⟨q,same,rows,up,_⟩
  · cases quiet
  · cases same
    rw [up,rows]

/-- What an output draws does not depend on the cursor that was saved before. -/
theorem emitApart {s : Screen} {o : Output δ} (drawable : Drawable charWidth s o)
    (up : ∀ p, o = .paint p → p.up = max p.lines.length 1) (saved : Nat × Nat) : ∃ saved',
    emit charWidth { s with saved := saved } o = { emit charWidth s o with saved := saved' } := by
  obtain ⟨ground,inside,drawable⟩ := drawable
  cases o with
  | paint p =>
    obtain ⟨room,shown,legible⟩ := drawable
    rw [emitPaint ground inside legible room (up p rfl),
      emitPaint (s := { s with saved := saved }) ground inside legible room (up p rfl)]
    exact ⟨_,rfl⟩
  | ack rows told fold => exact ⟨saved,rfl⟩
  | promptStart =>
    refine ⟨saved,(feedPromptStart (s := { s with saved := saved }) ground).trans ?_⟩
    exact congrArg (fun t : Screen => { t with saved := saved }) (feedPromptStart ground).symm
  | blankRow =>
    rw [emitBlank ground,emitBlank (s := { s with saved := saved }) ground]
    exact ⟨saved,Screen.lineFeedSaved (Screen.carriageReturn s) saved⟩
  | instantHeader lines text =>
    obtain ⟨room,⟨shown,legible⟩,t,shownPrefix,same,shows,fits⟩ := drawable
    rw [emitInstant ground legible room same shows fits,
      emitInstant (s := { s with saved := saved }) ground legible room same shows fits]
    exact ⟨saved,rfl⟩
  | clearReflowed up' rows =>
    obtain ⟨above,some',room⟩ := drawable
    rw [emitClear ground some' room above,emitClear (s := { s with saved := saved }) ground some' room above]
    exact ⟨_,rfl⟩
  | stepUp =>
    rw [emitStepUp ground,emitStepUp (s := { s with saved := saved }) ground]
    exact ⟨saved,rfl⟩
  | nudge => exact ⟨saved,rfl⟩
  | promptPrefix text =>
    obtain ⟨t,shown,same,shows,fits⟩ := drawable
    rw [emitPrefix ground same shows fits,emitPrefix (s := { s with saved := saved }) ground same shows fits]
    exact ⟨_,rfl⟩

theorem allApart {s : Screen} {os : List (Output δ)}
    (drawable : Machine.Watched (emit charWidth) (Drawable charWidth) s os)
    (up : ∀ p, .paint p ∈ os → p.up = max p.lines.length 1) (saved : Nat × Nat) : ∃ saved',
    os.foldl (emit charWidth) { s with saved := saved } = { os.foldl (emit charWidth) s with saved := saved' } := by
  induction os generalizing s saved with
  | nil => exact ⟨saved,rfl⟩
  | cons o os ih =>
    obtain ⟨saved',first⟩ := emitApart drawable.1 (fun p same => up p (by rw [same]; exact List.mem_cons_self)) saved
    rw [List.foldl_cons,first,List.foldl_cons]
    exact ih drawable.2 (fun p mem => up p (List.mem_cons_of_mem o mem)) saved'

variable (charWidth) in
/-- Nothing asks for a redraw between a reflow and the paint that follows it, and what the shell writes restores no
cursor but its own. -/
def Steady (w : Window ρ θ δ) (h : Moment ε × Happening ρ θ δ) : Prop :=
  match h.2 with
  | .loop (.vimMode _) | .loop .gitResult => w.reflowed = false
  | .shell text => ∀ saved, ∃ saved', feed charWidth { w.screen with saved := saved } text =
      { feed charWidth w.screen text with saved := saved' }
  | _ => True

def SameSeen (w v : Window ρ θ δ) : Prop :=
  v.loop = w.loop ∧ v.reflowed = w.reflowed ∧ ∃ saved, v.screen = { w.screen with saved := saved }

theorem sameStep {w v : Window ρ θ δ} (kept : HeaderKept charWidth w) (same : SameSeen w v) {h : Moment ε × Happening ρ θ δ}
    (orderly : Orderly charWidth look w h) (steady : Steady charWidth w h) :
    SameSeen (windowStep charWidth (step look) w h).1 (windowStep charWidth (plainStep look) v h).1 := by
  obtain ⟨m,what⟩ := h
  obtain ⟨loop,reflowed,saved,screen⟩ := same
  cases what with
  | loop e =>
    obtain ⟨state,outputs⟩ := plainStepSame look w.loop (m,e)
    rcases outputs with equal | ⟨atPrompt,none',p,plain,known,up⟩
    · obtain ⟨saved',drawn⟩ := allApart orderly (stepUps look w.loop (m,e)) saved
      refine ⟨?_,?_,saved',?_⟩
      · simp only [windowStep,loop,state]
      · simp only [windowStep,loop,equal,reflowed]
      · simp only [windowStep,loop,equal,screen,drawn]
    · have current : w.reflowed = false := by
        cases e with
        | vimMode mode => exact steady
        | gitResult => exact steady
        | _ => cases none'.symm.trans plain
      obtain ⟨ground,inside,lines,shown,known',legible,holds⟩ := kept.header atPrompt current
      obtain rfl : lines = p.lines := Option.some.inj (known'.symm.trans known)
      have again : emit charWidth v.screen (.paint p) =
          { w.screen with saved := (w.screen.row,w.screen.col) } := by
        rw [screen]
        exact emitAgain (s := { w.screen with saved := saved }) ground inside legible holds up
      refine ⟨?_,?_,(w.screen.row,w.screen.col),?_⟩
      · simp only [windowStep,loop,state]
      · simp only [windowStep,loop,plain,none',current,reflowed,Bool.false_and]
      · simp only [windowStep,loop,plain,none',List.foldl_cons,List.foldl_nil,again]
  | shell text =>
    obtain ⟨saved',drawn⟩ := steady saved
    refine ⟨loop,reflowed,saved',?_⟩
    simp only [windowStep,screen,drawn]
  | reflow screen' => exact ⟨loop,rfl,screen'.saved,rfl⟩

def windowStart (shell : Shell) (config : Config ρ θ) (configPath : Option Bytes) (size : Size) (cwd : Bytes)
    (screen : Screen) : Window ρ θ δ := ⟨start look shell config configPath size cwd,screen,false⟩

theorem headerKeptStart (shell : Shell) (config : Config ρ θ) (configPath : Option Bytes) (size : Size) (cwd : Bytes)
    (screen : Screen) :
    HeaderKept charWidth (windowStart look shell config configPath size cwd screen : Window ρ θ δ) :=
  ⟨instantStart look shell config configPath size cwd,fun atPrompt => by cases atPrompt⟩

/-- In every run, at the prompt and unless the terminal has wrapped its rows since, the rows above the cursor show
the lines of the last paint. -/
theorem headerRemembered (shell : Shell) (config : Config ρ θ) (configPath : Option Bytes) (size : Size) (cwd : Bytes)
    (screen : Screen) (happenings : List (Moment ε × Happening ρ θ δ))
    (orderly : Machine.Guarded (windowStep charWidth (step look)) (Orderly charWidth look)
      (windowStart look shell config configPath size cwd screen) happenings) :
    let w := (Machine.run (windowStep charWidth (step look))
      (windowStart look shell config configPath size cwd screen) happenings).1
    w.loop.prompt.atPrompt = true → w.reflowed = false → Remembered charWidth w :=
  (Machine.runKeeps (I := HeaderKept charWidth) (fun _ _ kept orderly => headerKeptStep look kept orderly)
    (headerKeptStart look shell config configPath size cwd screen) orderly).header

/-- The engine that leaves out the paints of what it has painted already shows what the engine shows that makes
all of them. -/
theorem leftOutUnseen (shell : Shell) (config : Config ρ θ) (configPath : Option Bytes) (size : Size) (cwd : Bytes)
    (screen : Screen) (happenings : List (Moment ε × Happening ρ θ δ))
    (orderly : Machine.Guarded (windowStep charWidth (step look))
      (fun w h => Orderly charWidth look w h ∧ Steady charWidth w h)
      (windowStart look shell config configPath size cwd screen) happenings) :
    SameSeen
      (Machine.run (windowStep charWidth (step look))
        (windowStart look shell config configPath size cwd screen) happenings).1
      (Machine.run (windowStep charWidth (plainStep look))
        (windowStart look shell config configPath size cwd screen) happenings).1 := by
  have each : ∀ w v h, HeaderKept charWidth w ∧ SameSeen w v →
      Orderly charWidth look w h ∧ Steady charWidth w h →
      HeaderKept charWidth (windowStep charWidth (step look) w h).1 ∧
        SameSeen (windowStep charWidth (step look) w h).1 (windowStep charWidth (plainStep look) v h).1 :=
    fun w v h ⟨kept,same⟩ ⟨orderly,steady⟩ => ⟨headerKeptStep look kept orderly,sameStep look kept same orderly steady⟩
  exact (Machine.runRelated each
    ⟨headerKeptStart look shell config configPath size cwd screen,rfl,rfl,screen.saved,rfl⟩ orderly).2

end window

def oneCell : Char → Nat := fun _ => 1

def emptyScreen : Screen := ⟨24,80,fun _ => Screen.blank,2,0,(0,0),.ground⟩

/-- A prompt, a change of the editing mode that shows nothing new, and a command that is typed. -/
def typedPrompt : List (Moment Unit × Happening Unit Unit Bytes) :=
  [(quietMoment,.loop (.header ⟨some 0,[97],0,0,0,[]⟩)),(quietMoment,.loop (.output 1 0)),
    (quietMoment,.loop (.vimMode [118])),(quietMoment,.shell ['l','s'])]

theorem typedOrderly : Machine.Guarded (windowStep oneCell (step plainLook))
    (fun w h => Orderly oneCell plainLook w h ∧ Steady oneCell w h)
    (windowStart plainLook .zsh oneRow none terminal [104] emptyScreen) typedPrompt := by
  have legible : Legible oneCell 80 [[97]] [['a']] :=
    ⟨[['a']],by decide,.cons (Screen.showsText (by decide)) .nil,by decide⟩
  have typed : Shows oneCell ['l','s'] ['l','s'] := Screen.showsText (by decide)
  refine ⟨⟨?_,trivial⟩,⟨?_,trivial⟩,⟨trivial,rfl⟩,⟨fun _ => ?_,fun saved => ⟨saved,?_⟩⟩,trivial⟩
  · exact ⟨⟨by decide,by decide,trivial⟩,⟨by decide,by decide,trivial⟩,trivial⟩
  · exact ⟨⟨by decide,by decide,trivial⟩,⟨by decide,by decide,by decide,_,legible⟩,trivial⟩
  · exact Screen.showsStays typed (by decide) (by decide)
  · exact Screen.showsSaved typed (by decide) (by decide) saved

theorem typedPromptRemembered :
    let w := (Machine.run (windowStep oneCell (step plainLook))
      (windowStart plainLook .zsh oneRow none terminal [104] emptyScreen) typedPrompt).1
    w.loop.prompt.atPrompt = true ∧ w.reflowed = false ∧ Remembered oneCell w :=
  ⟨by decide,by decide,headerRemembered plainLook .zsh oneRow none terminal [104] emptyScreen typedPrompt
    (Machine.guardedStep (I := fun _ => True) (fun _ _ _ both => ⟨trivial,both.1⟩) trivial typedOrderly)
    (by decide) (by decide)⟩

theorem typedPromptUnseen :
    SameSeen
      (Machine.run (windowStep oneCell (step plainLook))
        (windowStart plainLook .zsh oneRow none terminal [104] emptyScreen) typedPrompt).1
      (Machine.run (windowStep oneCell (plainStep plainLook))
        (windowStart plainLook .zsh oneRow none terminal [104] emptyScreen) typedPrompt).1 :=
  leftOutUnseen plainLook .zsh oneRow none terminal [104] emptyScreen typedPrompt typedOrderly

end P11k.Engine
