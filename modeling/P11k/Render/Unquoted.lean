import P11k.Render.Encodings

/-! Where the spellings agree, no text holds a character of a shell's syntax: what each spelling
shows of such a text is counted. -/
namespace P11k.Render
open P11k P11k.Settings P11k.PromptStrings
open P11k.Machine (run runAppend runThen)

section unquoted
variable {φ : Type}

/-! zsh, where a percent sign in a text opens an escape. -/

theorem zshFgEnds (color : Color) : ∃ front last, zshFg color = front ++ [last] ∧ last ≠ '%' ∧
    last.isDigit = false ∧ last ≠ '-' ∧ (zshFg color).count '%' = 1 := by
  rcases zshFgShape color with plain | ⟨x,whole,marks⟩
  · exact ⟨['%'],'f',plain,by decide,by decide,by decide,by rw [plain]; decide⟩
  · refine ⟨"%F\x7b".toList ++ x,'}',whole,by decide,by decide,by decide,?_⟩
    have clean : '%' ∉ x := by
      intro mem
      rcases marks _ mem with same | letter
      · exact absurd same (by decide)
      · exact absurd letter (by decide)
    rw [whole,List.count_append,List.count_append,List.count_eq_zero_of_not_mem clean]
    decide

/-- At most as many percent signs are seen as the text has, and as many only of a single one. -/
theorem zshPiece (status : Int) {s : Zsh.State} (settled : s.owed = 0) (t : Str) (style : Style) :
    (run (Zsh.step Zsh.bare status) s (paintZsh t style)).1.owed = 0 ∧
      (run (Zsh.step Zsh.bare status) s (paintZsh t style)).2.count '%' ≤ t.count '%' ∧
      ((run (Zsh.step Zsh.bare status) s (paintZsh t style)).2.count '%' = t.count '%' → t.count '%' ≤ 1) := by
  unfold paintZsh
  split
  · rename_i empty
    rw [empty]
    exact ⟨settled,le_rfl,fun _ => by decide⟩
  · obtain ⟨front,last,whole,plain,digit,minus,one⟩ := zshFgEnds style.fg
    have opened := Zsh.bareBudget status s (zshFg style.fg)
    have after : (run (Zsh.step Zsh.bare status) s (zshFg style.fg)).1.owed = 0 := by
      rw [whole]
      exact Zsh.settledAfter status s front plain ⟨digit,minus⟩
    rw [one,settled] at opened
    have middle := Zsh.bareBudget status (run (Zsh.step Zsh.bare status) s (zshFg style.fg)).1 t
    have most := Zsh.owedMost
      (run (Zsh.step Zsh.bare status) (run (Zsh.step Zsh.bare status) s (zshFg style.fg)).1 t).1
    have closing := Zsh.bareBudget status
      (run (Zsh.step Zsh.bare status) (run (Zsh.step Zsh.bare status) s (zshFg style.fg)).1 t).1 "%f".toList
    have ended := Zsh.settledAfter status
      (run (Zsh.step Zsh.bare status) (run (Zsh.step Zsh.bare status) s (zshFg style.fg)).1 t).1 ['%']
      (c := 'f') (by decide) (by decide)
    rw [after] at middle
    have sign : "%f".toList.count '%' = 1 := rfl
    rw [sign] at closing
    rw [runAppend,runAppend]
    dsimp only
    rw [List.count_append,List.count_append]
    refine ⟨ended,?_,?_⟩ <;> omega

/-- A single percent sign that is seen stood before the reset, with its argument between. -/
theorem zshPieceSingle (status : Int) {t : Str} (style : Style) (single : t.count '%' = 1)
    (seen : (run (Zsh.step Zsh.bare status) {} (paintZsh t style)).2.count '%' = 1) :
    ∃ a d, t = a ++ '%' :: d ∧ (∀ c ∈ d, (c.isDigit || c == '-') = true) ∧
      run (Zsh.step Zsh.bare status) {} (paintZsh t style) = ({},a ++ "%f".toList) := by
  have there : '%' ∈ t := by
    rw [← List.count_pos_iff]
    omega
  obtain ⟨a,d,whole,before⟩ := List.eq_append_cons_of_mem there
  have behind : '%' ∉ d := by
    rw [whole,List.count_append,List.count_cons_self] at single
    rw [← List.count_eq_zero]
    omega
  have some' : t ≠ [] := by
    rw [whole]
    simp
  have opens : run (Zsh.step Zsh.bare status) {} (zshFg style.fg ++ (a ++ ['%'])) = (⟨.escape [],[]⟩,a) := by
    have shown : run (Zsh.step Zsh.bare status) {} (zshFg style.fg ++ (a ++ ['%'])) = _ :=
      runThen (zshFgQuiet (homeBeside (zshFg style.fg))) (runThen (Zsh.textShown (homeBeside a) before)
        (show run (Zsh.step Zsh.bare status) {} ['%'] = (⟨.escape [],[]⟩,[]) from rfl))
    rw [shown]
    simp [Zsh.printing]
  have regroup : paintZsh t style = (zshFg style.fg ++ (a ++ ['%'])) ++ (d ++ "%f".toList) := by
    rw [paintZsh,if_neg some',whole]
    simp
  rw [regroup,runAppend,opens] at seen ⊢
  have owing : (run (Zsh.step Zsh.bare status) ⟨.escape [],[]⟩ d).1.owed = 1 := by
    have middle := Zsh.bareBudget status ⟨.escape [],[]⟩ d
    have closing := Zsh.bareBudget status (run (Zsh.step Zsh.bare status) ⟨.escape [],[]⟩ d).1 "%f".toList
    have sign : "%f".toList.count '%' = 1 := rfl
    have start : (⟨.escape [],[]⟩ : Zsh.State).owed = 1 := rfl
    have most := Zsh.owedMost (run (Zsh.step Zsh.bare status) ⟨.escape [],[]⟩ d).1
    rw [List.count_eq_zero_of_not_mem behind,start] at middle
    rw [sign] at closing
    rw [runAppend] at seen
    dsimp only at seen
    rw [List.count_append,List.count_append,List.count_eq_zero_of_not_mem before] at seen
    omega
  obtain ⟨digits,rest⟩ := Zsh.openArgument status behind [] [] owing
  refine ⟨a,d,whole,digits,?_⟩
  rw [runThen rest (Zsh.escapedReset Zsh.bare status _)]
  rfl

theorem zshPieceSeen (status : Int) {t : Str} (style : Style)
    (seen : (run (Zsh.step Zsh.bare status) {} (paintZsh t style)).2.count '%' = t.count '%') :
    ∃ o, run (Zsh.step Zsh.bare status) {} (paintZsh t style) = ({},o) ∧
      (('%' ∉ t ∧ o = t) ∨ ∃ a d, t = a ++ '%' :: d ∧ (∀ c ∈ d, (c.isDigit || c == '-') = true) ∧
        o = a ++ "%f".toList) := by
  have most := (zshPiece status (s := {}) rfl t style).2.2 seen
  rcases Nat.le_one_iff_eq_zero_or_eq_one.mp most with zero | one
  · have plain : '%' ∉ t := List.count_eq_zero.mp zero
    exact ⟨t,zshPainted plain style,.inl ⟨plain,rfl⟩⟩
  · obtain ⟨a,d,whole,digits,shown⟩ := zshPieceSingle status style one (seen.trans one)
    exact ⟨_,shown,.inr ⟨a,d,whole,digits,rfl⟩⟩

/-- What the reset leaves behind ends in a letter, and an escape with its argument does not. -/
theorem resetNotSeen {x y d : Str} (digits : ∀ c ∈ d, (c.isDigit || c == '-') = true) :
    x ++ "%f".toList ≠ y ++ '%' :: d := by
  intro same
  have last := congrArg List.getLast? same
  rw [List.getLast?_append_of_ne_nil x (by decide),List.getLast?_append_cons] at last
  rcases List.mem_cons.mp (List.mem_of_getLast? last.symm) with sign | mem
  · exact absurd sign (by decide)
  · exact absurd (digits _ mem) (by decide)

theorem zshUnquoted {t ch : Str} {style charStyle : Style}
    (shown : (run (Zsh.step Zsh.bare 0) {} (paintZsh t style ++ (paintZsh ch charStyle ++ " ".toList))).2 =
      t ++ (ch ++ " ".toList)) : '%' ∉ t ∧ '%' ∉ ch := by
  obtain ⟨settled,most,-⟩ := zshPiece 0 (s := {}) rfl t style
  obtain ⟨charSettled,charMost,-⟩ := zshPiece 0 settled ch charStyle
  have space := Zsh.bareBudget 0 _ " ".toList |>.trans (le_of_eq (congrArg (_ + ·) charSettled))
  have counted := congrArg (List.count '%') shown
  rw [runAppend,runAppend] at counted
  simp only [List.count_append] at counted
  have sign : " ".toList.count '%' = 0 := rfl
  rw [sign] at space counted
  have firstSeen : (run (Zsh.step Zsh.bare 0) {} (paintZsh t style)).2.count '%' = t.count '%' := by omega
  have secondSeen : (run (Zsh.step Zsh.bare 0) (run (Zsh.step Zsh.bare 0) {} (paintZsh t style)).1
      (paintZsh ch charStyle)).2.count '%' = ch.count '%' := by omega
  obtain ⟨o,first,here⟩ := zshPieceSeen 0 style firstSeen
  rw [first] at secondSeen
  obtain ⟨p,second,there⟩ := zshPieceSeen 0 charStyle secondSeen
  have whole := runThen first (runThen second
    (show run (Zsh.step Zsh.bare 0) {} " ".toList = ({}," ".toList) from rfl))
  rw [whole] at shown
  dsimp only at shown
  rw [← List.append_assoc,← List.append_assoc,List.append_cancel_right_eq] at shown
  rcases there with ⟨plain,rfl⟩ | ⟨a,d,rfl,digits,rfl⟩
  · rcases here with ⟨clean,rfl⟩ | ⟨b,e,rfl,digits,rfl⟩
    · exact ⟨clean,plain⟩
    · rw [List.append_cancel_right_eq] at shown
      exact absurd shown (resetNotSeen digits)
  · rw [← List.append_assoc,← List.append_assoc] at shown
    exact absurd shown (resetNotSeen digits)

/-! bash, where a backslash in a text opens an escape. A marker that is read as text uncovers the
escape character it hides. -/

/-- A shell whose other escapes show an escape character. -/
def telling : Bash.Shell := fun _ => [esc]

theorem tellingBudget (s : Bash.State) (t : Str) :
    2 * (run (Bash.step telling) s t).2.count '\\' + (run (Bash.step telling) s t).1.owed ≤
      t.count '\\' + s.owed :=
  runBudget (Bash.pays fun _ => (by decide : '\\' ∉ [esc])) s t

theorem styleEscape {style : Style} (some' : ansiStyle style ≠ []) : esc ∈ ansiStyle style := by
  have colored : ∀ ground color, (∀ c ∈ ground, c.isDigit = true) → colorSgr ground color ≠ [] →
      esc ∈ colorSgr ground color := by
    intro ground color digits some'
    rcases colorSequence digits color with none' | ⟨body,whole,_⟩
    · exact absurd none' some'
    · rw [whole]
      exact List.mem_cons_self
  unfold ansiStyle at some' ⊢
  rw [List.mem_append,List.mem_append]
  by_cases front : colorSgr "38".toList style.fg = []
  · by_cases back : colorSgr "48".toList style.bg = []
    · rw [front,back] at some'
      cases thick : style.bold with
      | false => simp [thick] at some'
      | true => exact .inr List.mem_cons_self
    · exact .inl (.inr (colored _ _ groundDigits.2 back))
  · exact .inl (.inl (colored _ _ groundDigits.1 front))

theorem openingSeen (s : Bash.State) {x : Str} (plain : '\\' ∉ x) :
    run (Bash.step telling) s ("\\[".toList ++ x ++ "\\]".toList) =
      ({},if s.escaped && !s.hidden then "\\[".toList ++ x else []) := by
  obtain ⟨escaped,hidden⟩ := s
  cases escaped with
  | false =>
    rw [List.append_assoc]
    have opened : run (Bash.step telling) ⟨false,hidden⟩ "\\[".toList = (⟨false,true⟩,[]) := rfl
    exact runThen opened (runThen (Bash.textShown true plain)
      (show run (Bash.step telling) ⟨false,true⟩ "\\]".toList = ({},[]) from rfl))
  | true =>
    have opened : run (Bash.step telling) ⟨true,hidden⟩ "\\[".toList =
        (⟨false,hidden⟩,if hidden then [] else "\\[".toList) := by cases hidden <;> rfl
    have whole := runThen (runThen opened (Bash.textShown hidden plain))
      (show run (Bash.step telling) ⟨false,hidden⟩ "\\]".toList = ({},[]) from rfl)
    rw [whole]
    cases hidden <;> simp

theorem closingSeen (s : Bash.State) : run (Bash.step telling) s "\\[\\e[0m\\]".toList =
    ({},if s.escaped && !s.hidden then "\\[".toList ++ esc :: "[0m".toList else []) := by
  obtain ⟨escaped,hidden⟩ := s
  cases escaped <;> cases hidden <;> rfl

theorem bashPiece (s : Bash.State) (t : Str) (style : Style)
    (noEscape : esc ∉ (run (Bash.step telling) s (paintBash t style)).2) :
    2 * (run (Bash.step telling) s (paintBash t style)).2.count '\\' +
      (run (Bash.step telling) s (paintBash t style)).1.owed ≤ t.count '\\' + s.owed := by
  unfold paintBash at noEscape ⊢
  split
  · rename_i empty
    rw [empty]
    exact tellingBudget s []
  · rename_i some'
    rw [if_neg some'] at noEscape
    split
    · exact tellingBudget s t
    · rename_i colored
      rw [if_neg colored] at noEscape
      have free : '\\' ∉ ansiStyle style := styleFree (by decide)
      have opened := openingSeen s free
      have inner := tellingBudget {} t
      rw [runAppend,opened,runAppend,closingSeen] at noEscape ⊢
      dsimp only at noEscape ⊢
      rw [List.mem_append,List.mem_append,not_or,not_or] at noEscape
      have front : (if s.escaped && !s.hidden then "\\[".toList ++ ansiStyle style else []) = [] := by
        split
        · rename_i uncovered
          rw [if_pos uncovered] at noEscape
          exact absurd (List.mem_append_right _ (styleEscape colored)) noEscape.1
        · rfl
      have back : (if (run (Bash.step telling) {} t).1.escaped && !(run (Bash.step telling) {} t).1.hidden then
          "\\[".toList ++ esc :: "[0m".toList else []) = [] := by
        split
        · rename_i uncovered
          rw [if_pos uncovered] at noEscape
          exact absurd (by decide) noEscape.2.2
        · rfl
      rw [front,back,List.nil_append,List.append_nil]
      have start : ({} : Bash.State).owed = 0 := rfl
      rw [start] at inner ⊢
      omega

theorem bashUnquoted {t ch : Str} {style charStyle : Style} (plain : esc ∉ t) (charPlain : esc ∉ ch)
    (shown : (run (Bash.step telling) {} (paintBash t style ++ (paintBash ch charStyle ++ " ".toList))).2 =
      t ++ (ch ++ " ".toList)) : '\\' ∉ t ∧ '\\' ∉ ch := by
  have noEscape : esc ∉ t ++ (ch ++ " ".toList) := by
    rw [List.mem_append,List.mem_append,not_or,not_or]
    exact ⟨plain,charPlain,by decide⟩
  rw [← shown,runAppend,runAppend] at noEscape
  simp only [List.mem_append,not_or] at noEscape
  have first := bashPiece {} t style noEscape.1
  have second := bashPiece _ ch charStyle noEscape.2.1
  have space := tellingBudget (run (Bash.step telling) (run (Bash.step telling) {} (paintBash t style)).1
    (paintBash ch charStyle)).1 " ".toList
  have counted := congrArg (List.count '\\') shown
  rw [runAppend,runAppend] at counted
  simp only [List.count_append] at counted
  have sign : " ".toList.count '\\' = 0 := rfl
  have start : ({} : Bash.State).owed = 0 := rfl
  rw [sign] at space counted
  rw [start] at first
  rw [← List.count_eq_zero,← List.count_eq_zero]
  omega

/-! The folded prompt, after a command that failed. -/

def Unclosed (s : Zsh.State) : Prop := s = {} ∨ s = Failing true

theorem unclosedBeside {s : Zsh.State} (unclosed : Unclosed s) {t : Str} (free : ')' ∉ t) : Zsh.Beside s t := by
  rcases unclosed with rfl | rfl
  · exact homeBeside t
  · exact failingBeside free

theorem unclosedStep {s : Zsh.State} (unclosed : Unclosed s) {c : Char} (plain : c ≠ '%') :
    Unclosed (Zsh.step Zsh.bare 1 s c).1 ∧ (Zsh.step Zsh.bare 1 s c).2.count '\x01' = [c].count '\x01' := by
  rcases unclosed with rfl | rfl
  · rw [Zsh.stepShown (homeBeside [c]) List.mem_cons_self plain]
    exact ⟨.inl rfl,rfl⟩
  · by_cases closes : c = ')'
    · rw [closes]
      exact ⟨.inl rfl,rfl⟩
    · have free : ')' ∉ [c] := by simpa using Ne.symm closes
      rw [Zsh.stepShown (failingBeside free) List.mem_cons_self plain]
      exact ⟨.inr rfl,rfl⟩

/-- Both texts show every mark between them. -/
theorem unclosedText {s : Zsh.State} (unclosed : Unclosed s) {t : Str} (plain : '%' ∉ t) :
    Unclosed (run (Zsh.step Zsh.bare 1) s t).1 ∧
      (run (Zsh.step Zsh.bare 1) s t).2.count '\x01' = t.count '\x01' := by
  induction t generalizing s with
  | nil => exact ⟨unclosed,rfl⟩
  | cons c t ih =>
    rw [List.mem_cons,not_or] at plain
    obtain ⟨next,counted⟩ := unclosedStep unclosed (Ne.symm plain.1)
    obtain ⟨last,rest⟩ := ih next plain.2
    refine ⟨last,?_⟩
    rw [run]
    dsimp only
    rw [List.count_append,counted,rest,← List.count_append,List.singleton_append]

theorem transientMarkSeen (ok err : Color) {a b : Str} (plain : '%' ∉ a ++ '\x01' :: b) (before : '\x01' ∉ a) :
    (run (Zsh.step Zsh.bare 1) {} ("%(?\x01".toList ++ (zshFg ok ++ (a ++ '\x01' :: b ++ " ".toList) ++
      ("\x01".toList ++ (zshFg err ++ (a ++ '\x01' :: b ++ " ".toList) ++ ")%f".toList))))).2.count '\x01' =
      b.count '\x01' + 1 + (a ++ '\x01' :: b).count '\x01' := by
  obtain ⟨first,second⟩ : '%' ∉ a ∧ '%' ∉ b := by simpa using plain
  have regroup : "%(?\x01".toList ++ (zshFg ok ++ (a ++ '\x01' :: b ++ " ".toList) ++
      ("\x01".toList ++ (zshFg err ++ (a ++ '\x01' :: b ++ " ".toList) ++ ")%f".toList))) =
      ("%(?\x01".toList ++ (zshFg ok ++ (a ++ "\x01".toList))) ++ ((b ++ " \x01".toList) ++ (zshFg err ++
        ((a ++ '\x01' :: b ++ " )".toList) ++ "%f".toList))) := by simp
  have opened : run (Zsh.step Zsh.bare 1) {} ("%(?\x01".toList ++ (zshFg ok ++ (a ++ "\x01".toList))) =
      (Failing true,[]) := runThen (transientOpens Zsh.bare 1)
    (runThen (zshFgQuiet (succeedingBeside (zshFgFree (by decide))))
      (runThen (Zsh.textShown (succeedingBeside before) first) (succeedingEnds Zsh.bare 1 false)))
  obtain ⟨middle,marks⟩ := unclosedText (.inr rfl) (t := b ++ " \x01".toList) (by simpa using second)
  obtain ⟨last,again⟩ := unclosedText middle (t := a ++ '\x01' :: b ++ " )".toList) (by simpa using ⟨first,second⟩)
  rw [regroup,runAppend,opened,runAppend,runAppend,zshFgQuiet (unclosedBeside middle (zshFgFree (by decide))),
    runAppend,Zsh.resetQuiet (unclosedBeside last (by decide))]
  simp only [List.nil_append,List.append_nil,List.count_append] at marks again ⊢
  rw [marks,again]
  rfl

theorem transientParenSeen (ok err : Color) {a b : Str} (plain : '%' ∉ a ++ ')' :: b)
    (unmarked : '\x01' ∉ a ++ ')' :: b) (before : ')' ∉ a) :
    (run (Zsh.step Zsh.bare 1) {} ("%(?\x01".toList ++ (zshFg ok ++ (a ++ ')' :: b ++ " ".toList) ++
      ("\x01".toList ++ (zshFg err ++ (a ++ ')' :: b ++ " ".toList) ++ ")%f".toList))))).2 = a ++ (b ++ " )".toList) := by
  obtain ⟨first,second⟩ : '%' ∉ a ∧ '%' ∉ b := by simpa using plain
  have regroup : zshFg err ++ (a ++ ')' :: b ++ " ".toList) ++ ")%f".toList =
      zshFg err ++ (a ++ (")".toList ++ ((b ++ " )".toList) ++ "%f".toList))) := by simp
  have hidden : run (Zsh.step Zsh.bare 1) (Succeeding false) (zshFg ok ++ (a ++ ')' :: b ++ " ".toList)) = _ :=
    runThen (zshFgQuiet (succeedingBeside (zshFgFree (by decide))))
      (Zsh.textShown (succeedingBeside (by simpa using unmarked)) (by simpa using plain))
  have failed : run (Zsh.step Zsh.bare 1) (Failing true) (zshFg err ++ (a ++ (")".toList ++
      ((b ++ " )".toList) ++ "%f".toList)))) = _ := runThen (zshFgQuiet (failingBeside (zshFgFree (by decide))))
    (runThen (Zsh.textShown (failingBeside before) first)
      (runThen (show run (Zsh.step Zsh.bare 1) (Failing true) ")".toList = ({},[]) from rfl)
        (runThen (Zsh.textShown (homeBeside (b ++ " )".toList)) (by simpa using second))
          (Zsh.resetQuiet (homeBeside _)))))
  rw [regroup]
  refine (congrArg Prod.snd (runThen (transientOpens Zsh.bare 1)
    (runThen hidden (runThen (succeedingEnds Zsh.bare 1 false) failed)))).trans ?_
  simp [Zsh.printing,Succeeding,Failing]

theorem transientClosed {config : Config φ} (plain : '%' ∉ promptChar config none)
    (shown : Zsh.visible Zsh.bare 1 (transientPromptZsh config) = promptChar config none ++ " ".toList) :
    ')' ∉ promptChar config none ∧ '\x01' ∉ promptChar config none := by
  have unmarked : '\x01' ∉ promptChar config none := by
    intro mem
    obtain ⟨a,b,whole,before⟩ := List.eq_append_cons_of_mem mem
    have marks := transientMarkSeen
      ((config.segment "prompt_char".toList).effectiveStyle none config.defaults).fg
      ((config.segment "prompt_char".toList).effectiveStyle (some "ERROR".toList) config.defaults).fg
      (whole ▸ plain) before
    rw [← whole] at marks
    have twice := marks.symm.trans (congrArg (List.count '\x01') shown)
    rw [List.count_append] at twice
    have none' : " ".toList.count '\x01' = 0 := rfl
    omega
  refine ⟨fun mem => ?_,unmarked⟩
  obtain ⟨a,b,whole,before⟩ := List.eq_append_cons_of_mem mem
  have seen := transientParenSeen
    ((config.segment "prompt_char".toList).effectiveStyle none config.defaults).fg
    ((config.segment "prompt_char".toList).effectiveStyle (some "ERROR".toList) config.defaults).fg
    (whole ▸ plain) (whole ▸ unmarked) before
  rw [← whole] at seen
  have last := congrArg List.getLast? (seen.symm.trans shown)
  simp at last

/-! The condition. -/

theorem agreeEscapeless {config : Config φ} (agree : EncodingsAgree config)
    (plain : ∀ t, PrefixText config t → '%' ∉ t) : ∀ t, PrefixText config t → esc ∉ t := by
  have shown : ∀ state, config.frame.lastPrefix.text ++ (promptChar config state ++ " ".toList) =
      stripAnsi (prefixText config state) := fun state =>
    (prefixRun (fun _ => rfl) rfl fun t text style => zshPainted (plain t text) style).symm.trans
      (agree.zsh Zsh.bare 0 state)
  have free : ∀ state, esc ∉ config.frame.lastPrefix.text ++ (promptChar config state ++ " ".toList) := by
    intro state
    rw [shown state]
    exact (stripNoEscape _).1
  rintro t (rfl | ⟨state,rfl⟩) mem
  · exact free none (List.mem_append_left _ mem)
  · exact free state (List.mem_append_right _ (List.mem_append_left _ mem))

theorem agreePlain {config : Config φ} (agree : EncodingsAgree config)
    (plain : ∀ t, PrefixText config t → esc ∉ t) : PlainTexts config := by
  have zsh : ∀ state, '%' ∉ config.frame.lastPrefix.text ∧ '%' ∉ promptChar config state := by
    intro state
    have same := agree.zsh Zsh.bare 0 state
    rw [stripPrefix plain,prefixTextZsh,prefixParts fun _ => rfl] at same
    exact zshUnquoted same
  have bash : ∀ state, '\\' ∉ config.frame.lastPrefix.text ∧ '\\' ∉ promptChar config state := by
    intro state
    have same := agree.bash telling state
    rw [stripPrefix plain,prefixTextBash,prefixParts fun _ => rfl] at same
    exact bashUnquoted (plain _ (.inl rfl)) (plain _ (.inr ⟨state,rfl⟩)) same
  have line : ∀ state, '\n' ∉ config.frame.lastPrefix.text ∧ '\n' ∉ promptChar config state := by
    intro state
    have clean := (lineIff _).mp (agree.line state).2.1
    rw [prefixTextZsh,prefixParts fun _ => rfl,List.mem_append,List.mem_append,not_or,not_or] at clean
    have shown : ∀ (t : Str) (style : Style), '\n' ∉ paintZsh t style → '\n' ∉ t := by
      intro t style clean mem
      rw [paintZsh,if_neg (List.ne_nil_of_mem mem)] at clean
      exact clean (List.mem_append_right _ (List.mem_append_left _ mem))
    exact ⟨shown _ _ clean.1,shown _ _ clean.2.1⟩
  constructor
  · rintro t (rfl | ⟨state,rfl⟩)
    · exact ⟨(zsh none).1,(bash none).1,(line none).1,plain _ (.inl rfl)⟩
    · exact ⟨(zsh state).2,(bash state).2,(line state).2,plain _ (.inr ⟨state,rfl⟩)⟩
  · exact transientClosed (zsh none).2 (agree.transient Zsh.bare 1)

/-- The converse leaves out texts that hold both an escape character and a percent sign. -/
theorem encodingsAgreeIff (config : Config φ) :
    (PlainTexts config → EncodingsAgree config) ∧
      (((∀ t, PrefixText config t → esc ∉ t) ∨ ∀ t, PrefixText config t → '%' ∉ t) →
        EncodingsAgree config → PlainTexts config) := by
  refine ⟨plainAgree,fun unmixed agree => ?_⟩
  rcases unmixed with escapeless | percentless
  · exact agreePlain agree escapeless
  · exact agreePlain agree (agreeEscapeless agree percentless)

def percentPrompt : Config Unit where
  segments := SortedMap.empty.insert "prompt_char".toList
    { props := SortedMap.empty.insert "char".toList (.str "%".toList) }

theorem percentDisagrees : ¬ EncodingsAgree percentPrompt := by
  intro agree
  have zsh : Zsh.visible Zsh.bare 0 (prefixTextZsh percentPrompt none) = "%f ".toList := by decide
  have plain : stripAnsi (prefixText percentPrompt none) = "% ".toList := by decide
  have same := agree.zsh Zsh.bare 0 none
  rw [zsh,plain] at same
  exact absurd same (by decide)

end unquoted
end P11k.Render
