import P11k.Render.Prefix

/-! The three spellings of the prefix show one text when the configured texts hold no character that
a shell or the terminal reads as syntax; the shells never see them quoted. -/
namespace P11k.Render
open P11k P11k.Settings P11k.PromptStrings
open P11k.Machine (run runAppend runThen)
open P11k.Text (decimal decimalDigits)

section encodings
variable {φ : Type}

def promptChar (config : Config φ) (state : Option Str) : Str :=
  (config.segment "prompt_char".toList).charFor state "❯".toList

/-- The prefix is one line of the three that the shell reads. -/
def OneLine (prefix' : Str) : Prop := ∀ rows fold,
  Framing.split '\n' (ack rows prefix' fold) = ([decimal rows,prefix',[if fold then '1' else '0']],[])

structure EncodingsAgree (config : Config φ) : Prop where
  zsh : ∀ sh status state, Zsh.visible sh status (prefixTextZsh config state) = stripAnsi (prefixText config state)
  bash : ∀ sh state, Bash.visible sh (prefixTextBash config state) = stripAnsi (prefixText config state)
  line : ∀ state, OneLine (prefixText config state) ∧ OneLine (prefixTextZsh config state) ∧
    OneLine (prefixTextBash config state)
  transient : ∀ sh status, Zsh.visible sh status (transientPromptZsh config) = promptChar config none ++ " ".toList

/-- A configured text that some prefix shows. -/
def PrefixText (config : Config φ) (t : Str) : Prop :=
  t = config.frame.lastPrefix.text ∨ ∃ state, t = promptChar config state

structure PlainTexts (config : Config φ) : Prop where
  texts : ∀ t, PrefixText config t → '%' ∉ t ∧ '\\' ∉ t ∧ '\n' ∉ t ∧ esc ∉ t
  char : ')' ∉ promptChar config none ∧ '\x01' ∉ promptChar config none

/-! Plain texts are shown as they are. -/

theorem zshFgQuiet {sh : Zsh.Shell} {status : Int} {s : Zsh.State} {color : Color}
    (beside : Zsh.Beside s (zshFg color)) : run (Zsh.step sh status) s (zshFg color) = (s,[]) := by
  rcases zshFgShape color with plain | ⟨x,whole,marks⟩
  · rw [plain] at beside ⊢
    exact Zsh.resetQuiet beside
  · rw [whole] at beside ⊢
    refine Zsh.colourQuiet beside (fun mem => ?_) (fun mem => ?_)
    · rcases marks _ mem with same | letter
      · exact absurd same (by decide)
      · exact absurd letter (by decide)
    · rcases marks _ mem with same | letter
      · exact absurd same (by decide)
      · exact absurd letter (by decide)

theorem homeBeside (t : Str) : Zsh.Beside {} t := ⟨rfl,by simp⟩

theorem zshPainted {sh : Zsh.Shell} {status : Int} {t : Str} (plain : '%' ∉ t) (style : Style) :
    run (Zsh.step sh status) {} (paintZsh t style) = ({},t) := by
  unfold paintZsh
  split
  · rename_i empty
    rw [empty]
    rfl
  · rw [runAppend,zshFgQuiet (homeBeside _),runAppend,Zsh.textShown (homeBeside t) plain,
      Zsh.resetQuiet (homeBeside _)]
    simp [Zsh.printing]

theorem styleChars {style : Style} {c : Char} (mem : c ∈ ansiStyle style) :
    c = esc ∨ c ∈ "[;m".toList ∨ c.isDigit = true := by
  have colored : ∀ ground color, (∀ c ∈ ground, c.isDigit = true) → c ∈ colorSgr ground color →
      c = esc ∨ c ∈ "[;m".toList ∨ c.isDigit = true := by
    intro ground color digits mem
    rcases colorSequence digits color with none' | ⟨body,whole,plain⟩
    · rw [none'] at mem
      exact absurd mem List.not_mem_nil
    · rw [whole,List.mem_cons,List.mem_cons,List.mem_append] at mem
      rcases mem with same | bracket | inner | last
      · exact .inl same
      · exact .inr (.inl (by simp [bracket]))
      · rcases plain c inner with semicolon | digit
        · exact .inr (.inl (by simp [semicolon]))
        · exact .inr (.inr digit)
      · exact .inr (.inl (by simpa using .inr (.inr (by simpa using last))))
  rw [ansiStyle,List.mem_append,List.mem_append] at mem
  rcases mem with (front | back) | bold
  · exact colored _ _ groundDigits.1 front
  · exact colored _ _ groundDigits.2 back
  · cases thick : style.bold with
    | false => simp [thick] at bold
    | true =>
      rw [thick,if_pos rfl,List.mem_cons] at bold
      rcases bold with same | inner
      · exact .inl same
      · have marks : c = '[' ∨ c = '1' ∨ c = 'm' := by simpa using inner
        rcases marks with rfl | rfl | rfl
        · exact .inr (.inl (by decide))
        · exact .inr (.inr rfl)
        · exact .inr (.inl (by decide))

theorem styleFree {style : Style} {c : Char} (other : c ≠ esc ∧ c ∉ "[;m".toList ∧ c.isDigit = false) :
    c ∉ ansiStyle style := by
  intro mem
  rcases styleChars mem with same | mark | digit
  · exact other.1 same
  · exact other.2.1 mark
  · rw [other.2.2] at digit
    contradiction

theorem bashPainted {sh : Bash.Shell} {t : Str} (plain : '\\' ∉ t) (style : Style) :
    run (Bash.step sh) {} (paintBash t style) = ({},t) := by
  unfold paintBash
  split
  · rename_i empty
    rw [empty]
    rfl
  · split
    · rw [Bash.textShown false plain]
      rfl
    · rw [runAppend,Bash.markedQuiet (styleFree (by decide)),runAppend,Bash.textShown false plain]
      simp [run,Bash.step]

theorem prefixParts {colour : Str → Style → Str} (none' : ∀ style, colour [] style = []) (config : Config φ)
    (state : Option Str) : prefixTextWith config state colour =
      colour config.frame.lastPrefix.text (config.framePieceStyle config.frame.lastPrefix) ++
        (colour (promptChar config state)
          ((config.segment "prompt_char".toList).effectiveStyle state config.defaults) ++ " ".toList) := by
  unfold prefixTextWith
  dsimp only
  split
  · rename_i empty
    rw [empty,none']
    rfl
  · rfl

theorem prefixRun {σ : Type} {step : σ → Char → σ × List Char} {home : σ} {colour : Str → Style → Str}
    {config : Config φ} {state : Option Str} (none' : ∀ style, colour [] style = [])
    (space : step home ' ' = (home,[' ']))
    (painted : ∀ t, PrefixText config t → ∀ style, run step home (colour t style) = (home,t)) :
    (run step home (prefixTextWith config state colour)).2 =
      config.frame.lastPrefix.text ++ (promptChar config state ++ " ".toList) := by
  have last : run step home " ".toList = (home," ".toList) := by
    change run step home [' '] = _
    rw [run,space]
    rfl
  rw [prefixParts none']
  exact congrArg Prod.snd (runThen (painted _ (.inl rfl) _) (runThen (painted _ (.inr ⟨state,rfl⟩) _) last))

theorem stripPrefix {config : Config φ} (plain : ∀ t, PrefixText config t → esc ∉ t) (state : Option Str) :
    stripAnsi (prefixText config state) = config.frame.lastPrefix.text ++ (promptChar config state ++ " ".toList) := by
  rw [prefixText,prefixParts fun _ => rfl,stripPaint (plain _ (.inl rfl)),stripPaint (plain _ (.inr ⟨state,rfl⟩))]
  rfl

/-! The answer. -/

theorem lineIff (prefix' : Str) : OneLine prefix' ↔ '\n' ∉ prefix' := by
  constructor
  · intro line mem
    have clean := (Framing.splitClean '\n' (ack 0 prefix' false)).1 prefix' (by rw [line 0 false]; simp)
    exact clean mem
  · intro clean rows fold
    have digits : '\n' ∉ decimal rows := fun mem => absurd (decimalDigits mem) (by decide)
    rw [ack,Framing.splitFirst digits,Framing.splitFirst clean]
    cases fold <;> rfl

theorem prefixFree {x : Char} {config : Config φ} {state : Option Str} {colour : Str → Style → Str}
    (none' : ∀ style, colour [] style = []) (space : x ≠ ' ') (adds : ∀ t style, x ∉ t → x ∉ colour t style)
    (plain : ∀ t, PrefixText config t → x ∉ t) : x ∉ prefixTextWith config state colour := by
  rw [prefixParts none',List.mem_append,List.mem_append,not_or,not_or]
  exact ⟨adds _ _ (plain _ (.inl rfl)),adds _ _ (plain _ (.inr ⟨state,rfl⟩)),by simpa using space⟩

theorem zshFgFree {color : Color} {x : Char} (other : x ∉ "%fF\x7b\x7d#".toList ∧ x.isAlphanum = false) :
    x ∉ zshFg color := by
  intro mem
  rcases zshFgShape color with plain | ⟨y,whole,marks⟩
  · rw [plain] at mem
    exact other.1 (by simp at mem ⊢; tauto)
  · rw [whole,List.mem_append,List.mem_append] at mem
    rcases mem with (front | inner) | back
    · exact other.1 (by simp at front ⊢; tauto)
    · rcases marks x inner with rfl | letter
      · exact other.1 (by decide)
      · rw [other.2] at letter
        contradiction
    · exact other.1 (by simp at back ⊢; tauto)

theorem paintNewline (t : Str) (style : Style) (plain : '\n' ∉ t) : '\n' ∉ chars (paint t style) := by
  unfold paint
  split
  · exact List.not_mem_nil
  · have whole : chars (code (ansiStyle style) ++ text t ++ code reset) = ansiStyle style ++ (t ++ reset) := by
      simp [chars,code,text,Ink.char,Function.comp_def]
    rw [whole,List.mem_append,List.mem_append,not_or,not_or]
    exact ⟨styleFree (by decide),plain,by decide⟩

theorem paintZshNewline (t : Str) (style : Style) (plain : '\n' ∉ t) : '\n' ∉ paintZsh t style := by
  unfold paintZsh
  split
  · exact List.not_mem_nil
  · rw [List.mem_append,List.mem_append,not_or,not_or]
    exact ⟨zshFgFree (by decide),plain,by decide⟩

theorem paintBashNewline (t : Str) (style : Style) (plain : '\n' ∉ t) : '\n' ∉ paintBash t style := by
  unfold paintBash
  split
  · exact List.not_mem_nil
  · split
    · exact plain
    · simp only [List.mem_append,not_or]
      exact ⟨⟨⟨by decide,styleFree (by decide)⟩,by decide⟩,plain,by decide⟩

/-! The folded prompt. -/

/-- The text for a failed command is being read. -/
def Failing (shown : Bool) : Zsh.State := ⟨.text,[⟨')',shown,none⟩]⟩

/-- The text for a successful command is being read. -/
def Succeeding (shown : Bool) : Zsh.State := ⟨.text,[⟨'\x01',shown,some !shown⟩]⟩

theorem transientOpens (sh : Zsh.Shell) (status : Int) :
    run (Zsh.step sh status) {} "%(?\x01".toList = (Succeeding (status == 0),[]) := by
  cases holds : (status == 0) <;> simp [run,Zsh.step,Zsh.readText,Zsh.literal,Zsh.readEscape,Zsh.condition,
    Succeeding,holds]

theorem succeedingBeside {shown : Bool} {t : Str} (free : '\x01' ∉ t) : Zsh.Beside (Succeeding shown) t :=
  ⟨rfl,fun b head => by cases head; exact free⟩

theorem failingBeside {shown : Bool} {t : Str} (free : ')' ∉ t) : Zsh.Beside (Failing shown) t :=
  ⟨rfl,fun b head => by cases head; exact free⟩

theorem succeedingEnds (sh : Zsh.Shell) (status : Int) (shown : Bool) :
    run (Zsh.step sh status) (Succeeding shown) "\x01".toList = (Failing (!shown),[]) := rfl

theorem failingEnds (sh : Zsh.Shell) (status : Int) (shown : Bool) :
    run (Zsh.step sh status) (Failing shown) ")%f".toList = ({},[]) := by
  have last : run (Zsh.step sh status) {} "%f".toList = _ := Zsh.resetQuiet (homeBeside _)
  change run (Zsh.step sh status) (Failing shown) (')' :: "%f".toList) = _
  rw [run,show Zsh.step sh status (Failing shown) ')' = ({},[]) from rfl,last]
  rfl

theorem transientShown {config : Config φ} (plain : '%' ∉ promptChar config none)
    (closed : ')' ∉ promptChar config none ∧ '\x01' ∉ promptChar config none) (sh : Zsh.Shell) (status : Int) :
    Zsh.visible sh status (transientPromptZsh config) = promptChar config none ++ " ".toList := by
  have spaced : '%' ∉ promptChar config none ++ " ".toList := by simpa using plain
  have noMark : '\x01' ∉ promptChar config none ++ " ".toList := by simpa using closed.2
  have noParen : ')' ∉ promptChar config none ++ " ".toList := by simpa using closed.1
  have ok : run (Zsh.step sh status) (Succeeding (status == 0))
      (zshFg ((config.segment "prompt_char".toList).effectiveStyle none config.defaults).fg ++
        (promptChar config none ++ " ".toList)) = _ :=
    runThen (zshFgQuiet (succeedingBeside (zshFgFree (by decide)))) (Zsh.textShown (succeedingBeside noMark) spaced)
  have err : run (Zsh.step sh status) (Failing (!(status == 0)))
      (zshFg ((config.segment "prompt_char".toList).effectiveStyle (some "ERROR".toList) config.defaults).fg ++
        (promptChar config none ++ " ".toList)) = _ :=
    runThen (zshFgQuiet (failingBeside (zshFgFree (by decide)))) (Zsh.textShown (failingBeside noParen) spaced)
  have whole := runThen (transientOpens sh status)
    (runThen ok (runThen (succeedingEnds sh status (status == 0)) (runThen err (failingEnds sh status _))))
  refine (congrArg Prod.snd whole).trans ?_
  cases status == 0 <;> simp [Zsh.printing,Succeeding,Failing]

theorem plainAgree {config : Config φ} (plain : PlainTexts config) : EncodingsAgree config where
  zsh sh status state :=
    (prefixRun (fun _ => rfl) rfl fun t shown style => zshPainted (plain.texts t shown).1 style).trans
      (stripPrefix (fun t shown => (plain.texts t shown).2.2.2) state).symm
  bash sh state :=
    (prefixRun (fun _ => rfl) rfl fun t shown style => bashPainted (plain.texts t shown).2.1 style).trans
      (stripPrefix (fun t shown => (plain.texts t shown).2.2.2) state).symm
  line state := by
    have newline : ∀ t, PrefixText config t → '\n' ∉ t := fun t shown => (plain.texts t shown).2.2.1
    exact ⟨(lineIff _).mpr (prefixFree (fun _ => rfl) (by decide) paintNewline newline),
      (lineIff _).mpr (prefixFree (fun _ => rfl) (by decide) paintZshNewline newline),
      (lineIff _).mpr (prefixFree (fun _ => rfl) (by decide) paintBashNewline newline)⟩
  transient sh status := transientShown (plain.texts _ (.inr ⟨none,rfl⟩)).1 plain.char sh status

end encodings
end P11k.Render
