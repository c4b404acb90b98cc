import P11k.Engine.GitWorker
import P11k.Engine.PromptWindow

/-! The loop, its git workers and the screen side by side. Once all that was sent is worked off, the header on the
screen is the one that the theme makes of the current directory and of its own git status. -/
namespace P11k.Engine
open Gitstatus (Bytes)
open Screen (Holds)

structure View (ρ θ δ : Type) where
  session : Session ρ θ δ
  screen : Screen
  reflowed : Bool
  /-- The theme or the size has changed since the header was rendered. -/
  outdated : Bool

def View.window {ρ θ δ : Type} (v : View ρ θ δ) : Window ρ θ δ := ⟨v.session.engine,v.screen,v.reflowed⟩

inductive Affair (ε ρ θ δ : Type) where
  | worker (i : Nat) (turn : Turn δ)
  | window (m : Moment ε) (h : Happening ρ θ δ)

section rendering
variable {ε ρ θ δ : Type} (look : Look ε ρ θ δ)

/-- The event has the header rendered anew, be it painted then or not. -/
def renders (s : State ρ θ δ) : Event ρ θ δ → Bool
  | .reload request load =>
      s.prompt.atPrompt && (loaded s request load).any (headerRows · == s.geometry.headerRows)
  | .resize => s.prompt.atPrompt && s.shell == .zsh
  | .vimMode _ => s.prompt.atPrompt
  | .output count _ => 0 < count
  | .gitResult => s.prompt.atPrompt && s.currentInfo.isSome && s.results.head?.any (·.generation == s.gitGen)
  | _ => false

def alters (s : State ρ θ δ) (e : Moment ε × Event ρ θ δ) : Bool :=
  (match e.2 with
    | .reload request load => (loaded s request load).isSome
    | _ => false) || (step look s e).1.lastSize != s.lastSize

/-- The remembered lines are those of the present theme, size and editing mode for the present directory. -/
def UpToDate (s : State ρ θ δ) : Prop :=
  ∀ info, s.currentInfo = some info → ∃ env vcs, (vcs = lastStatus s ∨ vcs = ownStatus s) ∧
    s.lastHeader = some (renderHeaderLines look env s.viMode s.config info vcs s.lastSize.cols.toNat)

theorem redrawRemembers (m : Moment ε) (s : State ρ θ δ) (info : HeaderInfo) (vcs : Option (GitStatus δ)) :
    (redraw look m s info vcs).1 = { s with lastHeader := some (freshLines look m s s.viMode info vcs) } := by
  by_cases same : s.lastHeader = some (freshLines look m s s.viMode info vcs)
  · have skipped := redrawSame look same
    simp only [redraw,skipped]
    rw [← same]
  · have painted := redrawNew look same
    simp only [redraw,painted]
    rfl

theorem redrawUpToDate (m : Moment ε) {s : State ρ θ δ} {vcs : Option (GitStatus δ)}
    (own : vcs = lastStatus s ∨ vcs = ownStatus s) : UpToDate look (redraw look m s (shownInfo s) vcs).1 := by
  rw [redrawRemembers]
  intro info known
  have shown : shownInfo s = info := by
    rw [shownInfo,show s.currentInfo = some info from known]
    rfl
  exact ⟨m.env,vcs,own,by rw [shown]; rfl⟩

theorem signalsUpToDate (m : Moment ε) (n : Nat) (s : State ρ θ δ) : UpToDate look (signals look m (n + 1) s).1 := by
  induction n generalizing s with
  | zero =>
    exact redrawUpToDate look m (s := { s with resizeExtraRows := 0, lastHeader := none }) (.inr rfl)
  | succ n ih => exact ih (signal look m s).1

theorem rendered {s : State ρ θ δ} (m : Moment ε) {what : Event ρ θ δ} (renders' : renders s what = true) :
    UpToDate look (step look s (m,what)).1 := by
  cases what with
  | reload request load =>
    simp only [renders,Bool.and_eq_true,Option.any_eq_true] at renders'
    obtain ⟨atPrompt,config,found,rows⟩ := renders'
    rcases reloadCases look m s request load with ⟨none',_⟩ | ⟨config',path,found',result⟩
    · rw [none'] at found
      contradiction
    · cases found.symm.trans found'
      simp only [step,result,atPrompt,rows,Bool.and_self,if_true]
      exact redrawUpToDate look m (.inl rfl)
  | resize =>
    simp only [renders] at renders'
    have fresh := redrawUpToDate look m (s := { syncSize m s with lastHeader := none }) (.inl rfl)
    simp only [step,resize,syncSize,renders',if_true]
    exact fresh
  | vimMode mode =>
    simp only [renders] at renders'
    simp only [step,vimMode,syncSize,renders',if_true]
    exact redrawUpToDate look m (.inl rfl)
  | output count newlines =>
    simp only [renders,decide_eq_true_eq] at renders'
    obtain ⟨n,rfl⟩ := Nat.exists_eq_succ_of_ne_zero (Nat.ne_of_gt renders')
    have drawn := signalsDrawn look m n s
    simp only [step,output,drawn,Bool.false_eq_true,if_false]
    exact signalsUpToDate look m n s
  | gitResult =>
    simp only [renders,Bool.and_eq_true,Option.any_eq_true,beq_iff_eq] at renders'
    obtain ⟨⟨atPrompt,known⟩,res,front,current⟩ := renders'
    obtain ⟨info,known⟩ := Option.isSome_iff_exists.mp known
    obtain ⟨results,queue⟩ : ∃ results, s.results = res :: results := by
      cases all : s.results with
      | nil => rw [all] at front; contradiction
      | cons first results => rw [all] at front; cases front; exact ⟨results,rfl⟩
    have own : (redraw look m { s with results := results, lastVcs := some (info.cwd,res.status) } info
        res.status).1 = (step look s (m,.gitResult)).1 := by
      simp only [step,gitResult,queue,current,ne_eq,not_true_eq_false,if_false,known,Option.elim_some,atPrompt,if_true]
    have shown : shownInfo { s with results := results, lastVcs := some (info.cwd,res.status) } = info := by
      rw [shownInfo,known,Option.getD_some]
    rw [← own,← shown]
    exact redrawUpToDate look m (.inl rfl)
  | windowChange | header | input | worked | deferredPrompt => cases renders'

/-- What neither renders nor alters anything leaves an up-to-date header up to date. -/
theorem stillUpToDate {s : State ρ θ δ} (m : Moment ε) {what : Event ρ θ δ} (still : renders s what = false)
    (same : alters look s (m,what) = false) (atPrompt : (step look s (m,what)).1.prompt.atPrompt = true) :
    s.prompt.atPrompt = true ∧ (UpToDate look s → UpToDate look (step look s (m,what)).1) := by
  obtain ⟨unloaded,size⟩ := Bool.or_eq_false_iff.mp same
  rw [bne_eq_false_iff_eq] at size
  have noSignal : ¬ ∃ n newlines, what = .output (n + 1) newlines := by
    rintro ⟨n,newlines,rfl⟩
    simp [renders] at still
  have here : s.prompt.atPrompt = true := startsAtPrompt look m noSignal atPrompt
  refine ⟨here,?_⟩
  cases what with
  | reload request load =>
    rcases reloadCases look m s request load with ⟨_,path,result⟩ | ⟨config,path,found,_⟩
    · simp only [step,result]
      exact id
    · simp only [found,Option.isSome_some] at unloaded
      contradiction
  | windowChange =>
    have unchanged : step look s (m,.windowChange) = (s,[]) := by
      simp only [step,windowChange] at size ⊢
      split
      · rfl
      · rename_i differs
        rw [if_neg differs] at size
        split at size <;> exact absurd size differs
    rw [unchanged]
    exact id
  | header info => cases atPrompt
  | resize =>
    simp only [renders] at still
    simp only [step,resize,syncSize,still,Bool.false_eq_true,if_false] at size ⊢
    intro fresh info known
    rw [size]
    exact fresh info known
  | vimMode mode => cases here.symm.trans still
  | input bytes =>
    simp only [step,input]
    repeat' split
    all_goals exact id
  | output count newlines =>
    simp only [renders,decide_eq_false_iff_not,Nat.not_lt,Nat.le_zero] at still
    subst still
    obtain ⟨k,quiet⟩ := outputNone look m s newlines
    rw [quiet]
    exact id
  | gitResult =>
    simp only [step,gitResult]
    cases front : s.results with
    | nil => exact id
    | cons res results =>
      dsimp only
      split
      · exact id
      · rename_i current
        cases known : s.currentInfo with
        | none => exact fun _ info known' => by cases known'
        | some info =>
          -- The result is that of the last request, so at the prompt it is rendered.
          simp [renders,front,known,here,not_not.mp current] at still
  | worked i k found =>
    simp only [step,worked]
    split <;> exact id
  | deferredPrompt =>
    simp only [step,deferredPrompt]
    repeat' split
    all_goals exact id

end rendering

section view
variable {ε ρ θ δ : Type} (charWidth : Char → Nat) (look : Look ε ρ θ δ)

/-- The workers take their turns themselves, so the loop's own event for one is not a step here. -/
def viewStep (v : View ρ θ δ) : Affair ε ρ θ δ → View ρ θ δ × List (Output δ)
  | .worker i turn => ({ v with session := workerStep v.session i turn },[])
  | .window m h =>
      let next := windowStep charWidth (step look) v.window (m,h)
      match h with
      | .loop what =>
          let s := v.session.engine
          (⟨(engineStep look v.session m what).1,next.1.screen,next.1.reflowed,
            (v.outdated || alters look s (m,what)) && !renders s what⟩,next.2)
      | .shell _ | .reflow _ => ({ v with screen := next.1.screen, reflowed := next.1.reflowed },next.2)

def viewStart (shell : Shell) (config : Config ρ θ) (configPath : Option Bytes) (size : Size) (cwd : Bytes)
    (screen : Screen) : View ρ θ δ :=
  ⟨sessionStart look shell config configPath size cwd,screen,false,false⟩

/-- The screen has room for what is drawn, and the prompt counter does not wrap. -/
def Regular (v : View ρ θ δ) : Affair ε ρ θ δ → Prop
  | .worker .. => True
  | .window m h => Orderly charWidth look v.window (m,h) ∧ match h with
      | .loop what => Counts v.session.engine (m,what)
      | .shell _ | .reflow _ => True

structure ViewSound (v : View ρ θ δ) : Prop where
  sound : Sound v.session
  kept : HeaderKept charWidth v.window
  fresh : v.session.engine.prompt.atPrompt = true → v.outdated = false → UpToDate look v.session.engine

theorem engineNext (s : Session ρ θ δ) (m : Moment ε) {what : Event ρ θ δ}
    (notWorked : ∀ i k found, what ≠ .worked i k found) :
    (engineStep look s m what).1.engine = (step look s.engine (m,what)).1 := by
  cases what with
  | worked i k found => exact absurd rfl (notWorked i k found)
  | header | gitResult | reload | windowChange | resize | vimMode | input | output | deferredPrompt => rfl

variable {charWidth}

theorem viewWorker {v : View ρ θ δ} (sound : ViewSound charWidth look v) (i : Nat) (turn : Turn δ) :
    ViewSound charWidth look { v with session := workerStep v.session i turn } := by
  refine ⟨soundWorker sound.sound i turn,?_,?_⟩
  all_goals rcases workerCases v.session i turn with same | ⟨hand,queue,phase,queue',answer,_,_,result⟩
  · rw [same]
    exact sound.kept
  · rw [result]
    exact ⟨sound.kept.instant,sound.kept.header⟩
  · rw [same]
    exact sound.fresh
  · rw [result]
    exact sound.fresh

theorem viewLoop {v : View ρ θ δ} (sound : ViewSound charWidth look v) (m : Moment ε) (what : Event ρ θ δ)
    (regular : Regular charWidth look v (.window m (.loop what))) :
    ViewSound charWidth look (viewStep charWidth look v (.window m (.loop what))).1 := by
  obtain ⟨orderly,counts⟩ := regular
  have window := headerKeptStep look sound.kept orderly
  have counted : SessionCounts v.session (.engine m what) := counts
  have session := soundStep look sound.sound counted
  by_cases worked : ∃ i k found, what = .worked i k found
  · obtain ⟨i,k,found,rfl⟩ := worked
    have still : (viewStep charWidth look v (.window m (.loop (.worked i k found)))).1.window = v.window := by
      simp only [viewStep,View.window,windowStep,step,engineStep,List.foldl_nil,List.any_nil,Bool.not_false,Bool.and_true]
    refine ⟨sound.sound,by rw [still]; exact sound.kept,fun atPrompt current => ?_⟩
    simp only [viewStep,renders,Bool.not_false,Bool.and_true,Bool.or_eq_false_iff] at current
    exact sound.fresh atPrompt current.1
  have notWorked : ∀ i k found, what ≠ .worked i k found := fun i k found same => worked ⟨i,k,found,same⟩
  have next := engineNext look v.session m notWorked
  refine ⟨session,?_,fun atPrompt current => ?_⟩
  · simp only [viewStep,View.window,next]
    exact window
  · simp only [viewStep,next] at atPrompt current ⊢
    cases anew : renders v.session.engine what with
    | true => exact rendered look m anew
    | false =>
      rw [anew,Bool.not_false,Bool.and_true,Bool.or_eq_false_iff] at current
      obtain ⟨before,still⟩ := stillUpToDate look m anew current.2 atPrompt
      exact still (sound.fresh before current.1)

theorem viewSoundStep {v : View ρ θ δ} (sound : ViewSound charWidth look v) {a : Affair ε ρ θ δ}
    (regular : Regular charWidth look v a) : ViewSound charWidth look (viewStep charWidth look v a).1 := by
  cases a with
  | worker i turn => exact viewWorker look sound i turn
  | window m h =>
    cases h with
    | loop what => exact viewLoop look sound m what regular
    | shell text => exact ⟨sound.sound,headerKeptStep look sound.kept regular.1,sound.fresh⟩
    | reflow screen => exact ⟨sound.sound,headerKeptStep look sound.kept regular.1,sound.fresh⟩

theorem viewSoundStart (shell : Shell) (config : Config ρ θ) (configPath : Option Bytes) (size : Size) (cwd : Bytes)
    (screen : Screen) :
    ViewSound charWidth look (viewStart look shell config configPath size cwd screen : View ρ θ δ) :=
  ⟨soundStart look shell config configPath size cwd,headerKeptStart look shell config configPath size cwd screen,
    fun atPrompt => by cases atPrompt⟩

theorem quietAdopted {s : Session ρ θ δ} (sound : Sound s) (quiet : Quiet s) {w : Nat} {r : GitRequest}
    (sent : s.sent = some (w,r)) :
    ∃ status, s.adopted = some ⟨w,r,status⟩ ∧ s.engine.lastVcs = some (r.cwd,status) := by
  rcases sound.tracked w r sent with ⟨hand,mem,panicked⟩ | ⟨i,hand,queue,at',_,place⟩ | back | adopted
  · rcases quiet.idle hand mem with idle | idle <;> rw [panicked] at idle <;> contradiction
  · have empty := quiet.queues queue (List.mem_of_getElem? at'.2)
    rcases quiet.idle hand (List.mem_of_getElem? at'.1) with idle | idle <;> simp [idle,empty,Phase.holds] at place
  · have answered := sound.answered
    rw [quiet.results,List.forall₂_nil_left_iff] at answered
    simp [answered] at back
  · exact adopted

/-- Whatever came in which order: when the channels are empty and the workers idle, a prompt shows the header that
the present theme makes of the current directory and of the status that was found for it. -/
theorem promptConverges (shell : Shell) (config : Config ρ θ) (configPath : Option Bytes) (size : Size) (cwd : Bytes)
    (screen : Screen) (affairs : List (Affair ε ρ θ δ))
    (regular : Machine.Guarded (viewStep charWidth look) (Regular charWidth look)
      (viewStart look shell config configPath size cwd screen) affairs) :
    let v := (Machine.run (viewStep charWidth look) (viewStart look shell config configPath size cwd screen) affairs).1
    let s := v.session.engine
    Quiet v.session → s.prompt.atPrompt = true → v.outdated = false → v.reflowed = false →
    ∀ worker request, v.session.sent = some (worker,request) →
    ∃ status info env shown, v.session.adopted = some ⟨worker,request,status⟩ ∧
      s.currentInfo = some info ∧ info.cwd = request.cwd ∧
      Legible charWidth v.screen.width
        (renderHeaderLines look env s.viMode s.config info status s.lastSize.cols.toNat) shown ∧
      Holds charWidth v.screen shown := by
  intro v s quiet atPrompt current steady worker request sent
  have sound : ViewSound charWidth look v :=
    Machine.runKeeps (I := ViewSound charWidth look) (fun _ _ sound regular => viewSoundStep look sound regular)
      (viewSoundStart look shell config configPath size cwd screen) regular
  obtain ⟨status,adopted,last⟩ := quietAdopted sound.sound quiet sent
  obtain ⟨info,known,same⟩ := Option.map_eq_some_iff.mp (sound.sound.last worker request sent).2
  have shownNow : shownInfo s = info := by
    rw [shownInfo,show s.currentInfo = some info from known]
    rfl
  have own : ∀ vcs, vcs = lastStatus s ∨ vcs = ownStatus s → vcs = status := by
    intro vcs either
    have kept : s.lastVcs = some (request.cwd,status) := last
    rcases either with rfl | rfl
    · rw [lastStatus,kept]
      rfl
    · rw [ownStatus,kept,shownNow,Option.filter_some,if_pos (by simp [same])]
      rfl
  obtain ⟨env,vcs,either,lines⟩ := sound.fresh atPrompt current info known
  obtain ⟨_,_,painted,shown,remembered,legible,holds⟩ := sound.kept.header atPrompt steady
  cases own vcs either
  cases remembered.symm.trans lines
  exact ⟨_,info,env,shown,adopted,known,same,legible,holds⟩

end view

/-- The worker answers while the prompt is up. -/
def lateAnswer : List (Affair Unit Unit Unit Bytes) :=
  [.window quietMoment (.loop (.header ⟨some 0,[97],0,0,0,[]⟩)),.window quietMoment (.loop (.output 1 0)),
    .worker 0 .recv,.worker 0 .drained,.worker 0 (.compute (some [33])),.worker 0 .send,
    .window quietMoment (.loop .gitResult)]

theorem lateAnswerConverges :
    let v := (Machine.run (viewStep oneCell plainLook)
      (viewStart plainLook .zsh oneRow none terminal [104] emptyScreen) lateAnswer).1
    let s := v.session.engine
    ∃ status info env shown, v.session.adopted = some ⟨0,⟨1,[97]⟩,status⟩ ∧
      s.currentInfo = some info ∧ info.cwd = [97] ∧
      Legible oneCell v.screen.width
        (renderHeaderLines plainLook env s.viMode s.config info status s.lastSize.cols.toNat) shown ∧
      Holds oneCell v.screen shown := by
  have alone : Legible oneCell 80 [[97]] [['a']] :=
    ⟨[['a']],by decide,.cons (Screen.showsText (by decide)) .nil,by decide⟩
  have changed : Legible oneCell 80 [[97,33]] [['a','!']] :=
    ⟨[['a','!']],by decide,.cons (Screen.showsText (by decide)) .nil,by decide⟩
  refine promptConverges plainLook .zsh oneRow none terminal [104] emptyScreen lateAnswer
    ⟨⟨?_,show (0 : UInt64).toNat + 1 < 2^64 by decide⟩,⟨?_,trivial⟩,trivial,trivial,trivial,trivial,⟨?_,trivial⟩,trivial⟩
    ⟨?_,?_,?_⟩ (by decide) (by decide) (by decide) 0 ⟨1,[97]⟩ (by decide)
  · exact ⟨⟨by decide,by decide,trivial⟩,⟨by decide,by decide,trivial⟩,trivial⟩
  · exact ⟨⟨by decide,by decide,trivial⟩,⟨by decide,by decide,by decide,_,alone⟩,trivial⟩
  · exact ⟨⟨by decide,by decide,by decide,_,changed⟩,trivial⟩
  · exact List.forall_mem_singleton.mpr (by decide)
  · decide
  · exact List.forall_mem_singleton.mpr (.inl (by decide))

end P11k.Engine
