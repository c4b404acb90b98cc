import P11k.Render.Foreign

/-! What the terminal makes of the header: which control characters it is sent, and how it is left. -/
namespace P11k.Render
open P11k P11k.Settings P11k.Terminal

structure Harmless (cwd : Str) (line : List Ink) : Prop where
  written : Written cwd line
  quiet : ∀ c, Ink.text c ∈ line → control c = false
  rests : run {} (chars line) = {}

section rests
variable {cwd : Str}

theorem paintedRests {s t : Str} (paints : Paints s) (quiet : esc ∉ t) (b : Bool) :
    run ⟨.ground,b⟩ (s ++ t ++ reset) = {} := by
  have ground := runPaints paints b
  rw [runAppend,runAppend]
  cases there : run ⟨.ground,b⟩ s with
  | mk mode painted =>
    rw [there] at ground
    cases ground
    rw [runText quiet]
    exact runSgr (numberParam (by decide : '0'.isDigit = true)) painted

theorem linkRests (cwd : Str) : run {} (linkOpens cwd) = {} ∧ run {} linkCloses = {} := by
  constructor
  · have whole : linkOpens cwd = '\x1b' :: ']' :: ("8;;file://".toList ++ urlEscape cwd ++ ['\x07']) := by
      simp [linkOpens,esc]
    rw [whole]
    exact runCommand (plainQuiet (linkBody cwd)) false
  · exact runCommand (by decide : '\x1b' ∉ "8;;".toList ∧ '\x07' ∉ "8;;".toList) false

theorem drawnRests {line : List Ink} (drawn : Drawn cwd line) (quiet : Ink.text esc ∉ line) :
    run {} (chars line) = {} := by
  induction drawn with
  | text t =>
    rw [charsText]
    exact runText (fun mem => quiet ((shownInText t).mpr mem)) false
  | paint t style =>
    rw [shownInPaint] at quiet
    unfold paint
    split
    · rfl
    · rw [charsAppend,charsAppend,charsCode,charsCode,charsText]
      exact paintedRests (stylePaints style) quiet false
  | arrow ch fg bg =>
    rw [shownInArrow] at quiet
    rw [arrow,charsAppend,charsAppend,charsCode,charsCode,charsText]
    exact paintedRests (paintsAppend (colorPaints groundDigits.1 fg) (colorPaints groundDigits.2 bg)) quiet false
  | link _ ih =>
    rw [List.mem_append,List.mem_append,not_or,not_or] at quiet
    rw [charsAppend,charsAppend,charsCode,charsCode,runAppend,(linkRests cwd).1,runAppend,ih quiet.2.1,(linkRests cwd).2]
  | append _ _ first rest =>
    rw [List.mem_append,not_or] at quiet
    rw [charsAppend,runAppend,first quiet.1,rest quiet.2]

end rests

section header
variable {φ τ : Type} {o : Outside τ} {config : Config φ}

/-- The link around the directory escapes it; what is shown of it and of everything else from elsewhere is
copied as it is. -/
theorem headerHarmlessIff (own : OwnPlain config) (info : HeaderInfo τ) (vcs : Option GitStatus) (cols : Nat) :
    (∀ line ∈ renderHeaderLines o config info vcs cols, Harmless info.cwd line) ↔
      ∀ i < layoutRows config, ∀ t ∈ rowForeign o config info vcs cols i, Plain t := by
  constructor
  · intro harmless i there t mem c here
    cases steers : control c with
    | false => rfl
    | true =>
      obtain ⟨line,drawn,shown⟩ := (headerReach own steers cols).mpr ⟨i,there,t,mem,here⟩
      exact steers.symm.trans ((harmless line drawn).quiet c shown)
  · intro plain line mem
    have quiet : ∀ c, Ink.text c ∈ line → control c = false := by
      intro c shown
      cases steers : control c with
      | false => rfl
      | true =>
        obtain ⟨i,there,t,foreign,here⟩ := (headerReach own steers cols).mp ⟨line,mem,shown⟩
        exact steers.symm.trans (plain i there t foreign c here)
    have escapeless : Ink.text esc ∉ line := fun shown => absurd (quiet esc shown) (by decide)
    exact ⟨drawnWritten (drawnHeader mem),quiet,drawnRests (drawnHeader mem) escapeless⟩

/-- A header that shows the directory and nothing else. -/
def pathOnly : Config Unit where
  layout := { left := [[.seg "dir".toList]] }

def standing (cwd : Str) : HeaderInfo Unit where
  exitCode := none
  cwd := cwd
  execSeconds := ()

theorem pathOnlyPlain : OwnPlain pathOnly where
  segments _ mem := absurd mem List.not_mem_nil
  separators := by decide
  frame := by decide
  overrides _ mem := absurd mem List.not_mem_nil
  remotes := by decide
  classes _ mem := absurd mem List.not_mem_nil

theorem pathHarmless : (renderHeaderLines silent pathOnly (standing "/srv".toList) none 80).length = 1 ∧
    ∀ line ∈ renderHeaderLines silent pathOnly (standing "/srv".toList) none 80, Harmless "/srv".toList line :=
  ⟨by decide +kernel,(headerHarmlessIff pathOnlyPlain (standing "/srv".toList) none 80).mpr (by decide +kernel)⟩

/-- A directory whose name sets the title of the terminal. -/
theorem directoryInjects : ¬ ∀ line ∈ renderHeaderLines silent pathOnly (standing "/\x1b]0;pwned\x07".toList) none 80,
    Harmless "/\x1b]0;pwned\x07".toList line := by
  intro harmless
  have shown : Ink.text esc ∈ (renderHeaderLines silent pathOnly (standing "/\x1b]0;pwned\x07".toList) none 80).flatten := by
    decide +kernel
  obtain ⟨line,mem,here⟩ := List.mem_flatten.mp shown
  exact absurd ((harmless line mem).quiet esc here) (by decide)

end header
end P11k.Render
