import P11k.Engine.Loop

/-! What one step can do to the screen. A header is painted behind a prompt signal, for a git
result, or as a repaint of what is shown; nothing else paints. -/
namespace P11k.Engine
open Gitstatus (Bytes)

section steps
variable {ε ρ θ δ : Type} (look : Look ε ρ θ δ)

def loaded (s : State ρ θ δ) (request : Option (Option Bytes)) (load : Bytes → Option (Config ρ θ)) :
    Option (Config ρ θ) := request.bind fun path => (path.or s.configPath).bind load

def freshLines (m : Moment ε) (s : State ρ θ δ) (viMode : Bytes) (info : HeaderInfo)
    (vcs : Option (GitStatus δ)) : List Bytes :=
  renderHeaderLines look m.env viMode s.config info vcs s.lastSize.cols.toNat

/-- The event repaints the header that is shown, with the last status as it is. -/
def Repaints (s : State ρ θ δ) (e : Moment ε × Event ρ θ δ) : Prop :=
  s.prompt.atPrompt = true ∧ match e.2 with
    | .reload request load => ∃ config, loaded s request load = some config ∧
        headerRows config = s.geometry.headerRows
    | .resize => s.shell = .zsh
    | .vimMode mode =>
        s.lastHeader ≠ some (freshLines look e.1 (syncSize e.1 s) mode (shownInfo s) (lastStatus s))
    | _ => False

/-- The event fills in the header behind a signal, or with the result of the last request. -/
def FillsIn (s : State ρ θ δ) (e : Moment ε × Event ρ θ δ) : Prop :=
  match e.2 with
  | .output count _ => 0 < count
  | .gitResult => s.prompt.atPrompt = true ∧ ∃ res info, s.results.head? = some res ∧
      res.generation = s.gitGen ∧ s.currentInfo = some info ∧
      s.lastHeader ≠ some (freshLines look e.1 s s.viMode info res.status)
  | _ => False

def isPaint : Output δ → Bool
  | .paint _ => true
  | _ => false

def isAck : Output δ → Bool
  | .ack .. => true
  | _ => false

theorem redrawPaints (m : Moment ε) (s : State ρ θ δ) (info : HeaderInfo) (vcs : Option (GitStatus δ))
    (new : s.lastHeader ≠ some (freshLines look m s s.viMode info vcs)) : ∃ p,
    (redraw look m s info vcs).2 = [.paint p] ∧ p.info = info ∧ p.vcs = vcs ∧
      p.lines.length = headerRows s.config ∧ p.up = max (headerRows s.config) 1 := by
  have painted := redrawNew look new
  simp only [redraw,painted]
  exact ⟨_,rfl,rfl,rfl,headerLines look m.env s.viMode s.config info vcs s.lastSize.cols.toNat,rfl⟩

theorem redrawSkips (m : Moment ε) {s : State ρ θ δ} {info : HeaderInfo} {vcs : Option (GitStatus δ)}
    (same : s.lastHeader = some (freshLines look m s s.viMode info vcs)) :
    (redraw look m s info vcs).2 = [] := by
  have skipped := redrawSame look same
  simp only [redraw,skipped]
  rfl

theorem reloadCases (m : Moment ε) (s : State ρ θ δ) (request : Option (Option Bytes))
    (load : Bytes → Option (Config ρ θ)) :
    (loaded s request load = none ∧ ∃ path, reload look m s request load =
      ({ s with configPath := path },[])) ∨
    ∃ config path, loaded s request load = some config ∧
      reload look m s request load =
        let next := newTheme look { s with configPath := path } config
        if s.prompt.atPrompt && headerRows config == s.geometry.headerRows then
          redraw look m { next with lastHeader := none } (shownInfo s) (lastStatus s)
        else (next,[]) := by
  unfold reload loaded
  cases request with
  | none => exact .inl ⟨rfl,s.configPath,rfl⟩
  | some path =>
    simp only [Option.bind_some]
    cases found : (path.or s.configPath).bind load with
    | none => exact .inl ⟨rfl,_,rfl⟩
    | some config => exact .inr ⟨config,_,rfl,rfl⟩

theorem repaintStep {s : State ρ θ δ} {e : Moment ε × Event ρ θ δ} (repaints : Repaints look s e) :
    ∃ p, (step look s e).2 = [.paint p] ∧ p.info = shownInfo s ∧ p.vcs = lastStatus s ∧
      p.lines.length = headerRows (step look s e).1.config ∧
      p.up = max (headerRows (step look s e).1.config) 1 := by
  obtain ⟨m,what⟩ := e
  obtain ⟨atPrompt,reason⟩ := repaints
  cases what with
  | reload request load =>
    obtain ⟨config,found,rows⟩ := reason
    rcases reloadCases look m s request load with ⟨none,_⟩ | ⟨config',path,found',result⟩
    · rw [none] at found
      contradiction
    · cases found.symm.trans found'
      simp only [step,result,atPrompt,rows,beq_self_eq_true,Bool.and_self,if_true]
      exact redrawPaints look m _ _ _ (by simp)
  | resize =>
    simp only [step,resize,syncSize,atPrompt,show s.shell = .zsh from reason,beq_self_eq_true,Bool.and_self,
      if_true]
    exact redrawPaints look m _ _ _ (by simp)
  | vimMode mode =>
    simp only [step,vimMode,syncSize,atPrompt,if_true]
    exact redrawPaints look m _ _ _ reason
  | windowChange => exact reason.elim
  | header info => exact reason.elim
  | input bytes => exact reason.elim
  | output count newlines => exact reason.elim
  | gitResult => exact reason.elim
  | worked i k found => exact reason.elim
  | deferredPrompt => exact reason.elim

theorem quietStep {s : State ρ θ δ} {e : Moment ε × Event ρ θ δ} (still : ¬ Repaints look s e)
    (empty : ¬ FillsIn look s e) : ∀ o ∈ (step look s e).2, isPaint o = false := by
  obtain ⟨m,what⟩ := e
  cases what with
  | reload request load =>
    rcases reloadCases look m s request load with ⟨_,path,result⟩ | ⟨config,path,found,result⟩
    · simp [step,result]
    · simp only [step,result]
      split
      · rename_i same
        rw [Bool.and_eq_true,beq_iff_eq] at same
        exact absurd ⟨same.1,config,found,same.2⟩ still
      · simp
  | windowChange =>
    simp only [step,windowChange]
    repeat' split
    all_goals simp [isPaint]
  | header info =>
    intro o mem
    rcases List.mem_append.mp mem with blank | told
    · split at blank
      · simp at blank
      · rw [List.eq_of_mem_replicate blank]
        rfl
    · rw [List.mem_pair] at told
      rcases told with rfl | rfl <;> rfl
  | resize =>
    simp only [step,resize]
    split
    · rename_i both
      rw [Bool.and_eq_true,beq_iff_eq] at both
      exact absurd both still
    · simp
  | vimMode mode =>
    simp only [step,vimMode]
    split
    · rename_i atPrompt
      rw [redrawSkips]
      · simp
      · by_contra new
        exact still ⟨atPrompt,new⟩
    · simp
  | input bytes => simp [step]
  | output count newlines =>
    have none : count = 0 := Nat.eq_zero_of_not_pos empty
    subst none
    simp [step,output,signals]
  | gitResult =>
    simp only [step,gitResult]
    cases front : s.results with
    | nil => simp
    | cons res results =>
      dsimp only
      split
      · simp
      · rename_i current
        cases info : s.currentInfo with
        | none => simp
        | some info' =>
          dsimp only
          split
          · rename_i atPrompt
            rw [redrawSkips]
            · simp
            · by_contra new
              exact empty ⟨atPrompt,res,info',by rw [front]; rfl,by simpa using current,info,new⟩
          · simp
  | worked i k found => simp [step]
  | deferredPrompt =>
    simp only [step,deferredPrompt]
    split
    · simp
    · split <;> simp [isPaint]

def FilledIn (s : State ρ θ δ) (p : Paint δ) : Prop :=
  (p.info = shownInfo s ∧ p.vcs = ownStatus s) ∨
  ∃ res, s.results.head? = some res ∧ res.generation = s.gitGen ∧ s.currentInfo = some p.info ∧
    p.vcs = res.status

theorem signalPaints (m : Moment ε) (s : State ρ θ δ) : ∃ p,
    (signal look m s).2 = beforePaint s ++ [.paint p] ∧ p.info = shownInfo s ∧ p.vcs = ownStatus s ∧
      p.lines.length = headerRows s.config ∧ p.up = max (headerRows s.config) 1 := by
  obtain ⟨p,painted,facts⟩ := redrawPaints look m
    { s with resizeExtraRows := 0, lastHeader := none } (shownInfo s) (ownStatus s) (by simp)
  exact ⟨p,by simp only [signal,paintPrompt]; exact congrArg (beforePaint s ++ ·) painted,facts⟩

theorem beforePaintQuiet (s : State ρ θ δ) :
    ∀ o ∈ beforePaint s, isPaint o = false ∧ isAck o = false := by
  unfold beforePaint
  split <;> split <;> simp [isPaint,isAck]

theorem signalsPaint (m : Moment ε) (n : Nat) (s : State ρ θ δ) :
    (∀ o ∈ (signals look m n s).2, isPaint o = false ∨ ∃ p, o = .paint p ∧
      p.info = shownInfo s ∧ p.vcs = ownStatus s ∧ p.lines.length = headerRows s.config ∧
      p.up = max (headerRows s.config) 1) ∧
    (0 < n → ∃ p, .paint p ∈ (signals look m n s).2) := by
  induction n generalizing s with
  | zero => simp [signals]
  | succ n ih =>
    obtain ⟨p,painted,facts⟩ := signalPaints look m s
    obtain ⟨rest,_⟩ := ih (signal look m s).1
    refine ⟨?_,fun _ => ⟨p,by simp [signals,painted]⟩⟩
    intro o mem
    rcases List.mem_append.mp mem with first | later
    · rw [painted,List.mem_append,List.mem_singleton] at first
      rcases first with before | rfl
      · exact .inl (beforePaintQuiet s o before).1
      · exact .inr ⟨p,rfl,facts⟩
    · exact rest o later

/-! What the events of the screen leave alone. -/

def Event.onScreen : Event ρ θ δ → Bool
  | .windowChange | .resize | .vimMode _ | .input _ | .output _ _ | .deferredPrompt => true
  | .reload _ _ | .header _ | .gitResult | .worked _ _ _ => false

/-- The theme, what the shell was told of it, and what the loop shares with the git workers are the same. -/
structure Untouched (s s' : State ρ θ δ) : Prop where
  config : s'.config = s.config
  configPath : s'.configPath = s.configPath
  geometry : s'.geometry = s.geometry
  reserved : s'.reserved = s.reserved
  workers : s'.workers = s.workers
  results : s'.results = s.results
  gitGen : s'.gitGen = s.gitGen
  lastVcs : s'.lastVcs = s.lastVcs
  currentInfo : s'.currentInfo = s.currentInfo

theorem untouchedSame (s : State ρ θ δ) : Untouched s s := ⟨rfl,rfl,rfl,rfl,rfl,rfl,rfl,rfl,rfl⟩

theorem signalsUntouched (m : Moment ε) (n : Nat) (s : State ρ θ δ) : Untouched s (signals look m n s).1 := by
  induction n generalizing s with
  | zero => exact untouchedSame s
  | succ n ih =>
    obtain ⟨a,b,c,d,e,f,g,h,i⟩ := ih (signal look m s).1
    exact ⟨a,b,c,d,e,f,g,h,i⟩

theorem screenUntouched (s : State ρ θ δ) (m : Moment ε) {what : Event ρ θ δ} (screen : what.onScreen = true) :
    Untouched s (step look s (m,what)).1 := by
  cases what with
  | windowChange =>
    simp only [step,windowChange]
    repeat' split
    all_goals exact ⟨rfl,rfl,rfl,rfl,rfl,rfl,rfl,rfl,rfl⟩
  | resize =>
    simp only [step,resize]
    split
    all_goals exact ⟨rfl,rfl,rfl,rfl,rfl,rfl,rfl,rfl,rfl⟩
  | vimMode mode =>
    simp only [step,vimMode]
    split
    all_goals exact ⟨rfl,rfl,rfl,rfl,rfl,rfl,rfl,rfl,rfl⟩
  | input bytes =>
    simp only [step,input]
    repeat' split
    all_goals exact ⟨rfl,rfl,rfl,rfl,rfl,rfl,rfl,rfl,rfl⟩
  | output count newlines =>
    obtain ⟨a,b,c,d,e,f,g,h,i⟩ := signalsUntouched look m count s
    simp only [step,output]
    split
    all_goals exact ⟨a,b,c,d,e,f,g,h,i⟩
  | deferredPrompt =>
    simp only [step,deferredPrompt]
    repeat' split
    all_goals exact ⟨rfl,rfl,rfl,rfl,rfl,rfl,rfl,rfl,rfl⟩
  | reload | header | gitResult | worked => cases screen

theorem stepPaints (s : State ρ θ δ) (e : Moment ε × Event ρ θ δ) :
    (∀ o ∈ (step look s e).2, isPaint o = false ∨ ∃ p, o = .paint p ∧
      p.lines.length = headerRows (step look s e).1.config ∧
      p.up = max (headerRows (step look s e).1.config) 1 ∧
      (Repaints look s e ∧ p.info = shownInfo s ∧ p.vcs = lastStatus s ∨ FilledIn s p)) ∧
    (Repaints look s e ∨ FillsIn look s e → ∃ p, .paint p ∈ (step look s e).2) := by
  by_cases repaints : Repaints look s e
  · obtain ⟨p,only,info,vcs,rows,up⟩ := repaintStep look repaints
    rw [only]
    refine ⟨?_,fun _ => ⟨p,List.mem_singleton_self _⟩⟩
    intro o mem
    exact .inr ⟨p,List.mem_singleton.mp mem,rows,up,.inl ⟨repaints,info,vcs⟩⟩
  by_cases fills : FillsIn look s e
  · obtain ⟨m,what⟩ := e
    cases what with
    | output count newlines =>
      obtain ⟨each,some'⟩ := signalsPaint look m count s
      have config : (step look s (m,.output count newlines)).1.config = s.config := (screenUntouched look s m rfl).config
      refine ⟨?_,fun _ => some' fills⟩
      intro o mem
      rcases each o mem with quiet | ⟨p,paint,info,vcs,rows,up⟩
      · exact .inl quiet
      · exact .inr ⟨p,paint,by rw [config]; exact rows,by rw [config]; exact up,.inr (.inl ⟨info,vcs⟩)⟩
    | gitResult =>
      obtain ⟨atPrompt,res,info,front,current,known,new⟩ := fills
      obtain ⟨results,queue⟩ : ∃ results, s.results = res :: results := by
        cases all : s.results with
        | nil => rw [all] at front; contradiction
        | cons first results => rw [all] at front; cases front; exact ⟨results,rfl⟩
      have result : step look s (m,.gitResult) = redraw look m
          { s with results := results, lastVcs := some (info.cwd,res.status) } info res.status := by
        simp only [step,gitResult,queue,current,ne_eq,not_true_eq_false,if_false,known,Option.elim_some,atPrompt,
          if_true]
      obtain ⟨p,only,info',vcs,rows,up⟩ := redrawPaints look m
        { s with results := results, lastVcs := some (info.cwd,res.status) } info res.status new
      rw [result,only]
      refine ⟨?_,fun _ => ⟨p,List.mem_singleton_self _⟩⟩
      intro o mem
      exact .inr ⟨p,List.mem_singleton.mp mem,rows,up,.inr (.inr ⟨res,front,current,info' ▸ known,vcs⟩)⟩
    | reload request load => exact fills.elim
    | windowChange => exact fills.elim
    | header info => exact fills.elim
    | resize => exact fills.elim
    | vimMode mode => exact fills.elim
    | input bytes => exact fills.elim
    | worked i k found => exact fills.elim
    | deferredPrompt => exact fills.elim
  · exact ⟨fun o mem => .inl (quietStep look repaints fills o mem),
      fun either => either.elim (absurd · repaints) (absurd · fills)⟩

end steps
end P11k.Engine
