import P11k.Lib.Framing
import P11k.Lib.PromptStrings
import P11k.Settings.Write
import P11k.Render.Paint

/-! The prefix of the input line in the syntax of each shell, the prompt that a finished line folds
to, and the answer that carries the prefix to the shell. -/
namespace P11k.Render
open P11k.Settings P11k.PromptStrings
open P11k.Machine (run runAppend)
open P11k.Text (decimal decimalDigits digitRange letterRange)

section prefixes
variable {φ : Type}

def prefixTextWith (config : Config φ) (state : Option Str) (colour : Str → Style → Str) : Str :=
  let piece := config.frame.lastPrefix
  let pc := config.segment "prompt_char".toList
  (if piece.text = [] then [] else colour piece.text (config.framePieceStyle piece)) ++
    (colour (pc.charFor state "❯".toList) (pc.effectiveStyle state config.defaults) ++ " ".toList)

def prefixText (config : Config φ) (state : Option Str) : Str :=
  prefixTextWith config state fun t style => chars (paint t style)

mutual
/-- An escape is dropped, with the sequence up to its letter if one begins there. -/
def stripAnsi : Str → Str
  | [] => []
  | c :: s =>
      -- the bracket that opens a sequence is no letter, so the loop may start at it
      if c = esc then if s.head? = some '[' then skipSequence s else stripAnsi s
      else c :: stripAnsi s

def skipSequence : Str → Str
  | [] => []
  | d :: s => if d.isAlpha then stripAnsi s else skipSequence s
end

def zshFg : Color → Str
  | .default => "%f".toList
  | .xterm n => "%F\x7b".toList ++ decimal n.toNat ++ "\x7d".toList
  | .rgb r g b => "%F\x7b".toList ++ '#' :: (hexByte r ++ hexByte g ++ hexByte b) ++ "\x7d".toList
  | .named n => "%F\x7b".toList ++ decimal (named256 n).toNat ++ "\x7d".toList

def paintZsh (t : Str) (style : Style) : Str := if t = [] then [] else zshFg style.fg ++ (t ++ "%f".toList)

def paintBash (t : Str) (style : Style) : Str :=
  if t = [] then []
  else if ansiStyle style = [] then t
  else "\\[".toList ++ ansiStyle style ++ "\\]".toList ++ (t ++ "\\[\\e[0m\\]".toList)

def prefixTextZsh (config : Config φ) (state : Option Str) : Str := prefixTextWith config state paintZsh

def prefixTextBash (config : Config φ) (state : Option Str) : Str := prefixTextWith config state paintBash

def transientPromptZsh (config : Config φ) : Str :=
  let pc := config.segment "prompt_char".toList
  let ch := pc.charFor none "❯".toList
  let ok := pc.effectiveStyle none config.defaults
  let err := pc.effectiveStyle (some "ERROR".toList) config.defaults
  "%(?\x01".toList ++ (zshFg ok.fg ++ (ch ++ " ".toList) ++ ("\x01".toList ++ (zshFg err.fg ++ (ch ++ " ".toList) ++
    ")%f".toList)))

/-- What the shell reads back. -/
def ack (rows : Nat) (prefix' : Str) (fold : Bool) : Str :=
  decimal rows ++ '\n' :: (prefix' ++ '\n' :: ((if fold then '1' else '0') :: ['\n']))

end prefixes

/-! Taking the colours out again. -/

theorem stripPlain {t : Str} (plain : esc ∉ t) (u : Str) : stripAnsi (t ++ u) = t ++ stripAnsi u := by
  induction t with
  | nil => rfl
  | cons c t ih =>
    rw [List.mem_cons,not_or] at plain
    rw [List.cons_append,stripAnsi,if_neg (Ne.symm plain.1),ih plain.2,List.cons_append]

theorem skipPlain {body : Str} (letterless : ∀ c ∈ body, c.isAlpha = false) (u : Str) :
    skipSequence (body ++ 'm' :: u) = stripAnsi u := by
  induction body with
  | nil => rfl
  | cons c body ih =>
    rw [List.cons_append,skipSequence,letterless c List.mem_cons_self,if_neg Bool.false_ne_true,
      ih fun d mem => letterless d (List.mem_cons_of_mem c mem)]

theorem stripSequence {body : Str} (letterless : ∀ c ∈ body, c.isAlpha = false) (u : Str) :
    stripAnsi (esc :: '[' :: (body ++ 'm' :: u)) = stripAnsi u := by
  rw [stripAnsi,if_pos rfl,List.head?_cons,if_pos rfl,skipSequence,if_neg (by decide)]
  exact skipPlain letterless u

theorem stripNoEscape (s : Str) : esc ∉ stripAnsi s ∧ esc ∉ skipSequence s := by
  induction s with
  | nil => simp [stripAnsi,skipSequence]
  | cons c s ih =>
    constructor
    · rw [stripAnsi]
      split
      · split
        · exact ih.2
        · exact ih.1
      · rename_i other
        rw [List.mem_cons,not_or]
        exact ⟨Ne.symm other,ih.1⟩
    · rw [skipSequence]
      split
      · exact ih.1
      · exact ih.2

/-! The characters of the colours. -/

theorem digitLetterless {c : Char} (digit : c.isDigit = true) : c.isAlpha = false := by
  obtain ⟨_,high⟩ := digitRange digit
  cases letter : c.isAlpha with
  | false => rfl
  | true =>
    rcases letterRange letter with upper | lower
    · exact absurd (le_trans upper.1 high) (by decide)
    · exact absurd (le_trans lower.1 high) (by decide)

theorem colorSequence {ground : Str} (letterless : ∀ c ∈ ground, c.isDigit = true) (color : Color) :
    colorSgr ground color = [] ∨ ∃ body, colorSgr ground color = esc :: '[' :: (body ++ "m".toList) ∧
      ∀ c ∈ body, c = ';' ∨ c.isDigit = true := by
  have marks : ∀ d : Char, d.isDigit = true → ∀ c ∈ [';',d,';'], c = ';' ∨ c.isDigit = true := by
    intro d digit c mem
    rcases List.mem_cons.mp mem with first | behind
    · exact .inl first
    · rcases List.mem_cons.mp behind with middle | last
      · exact .inr (middle ▸ digit)
      · exact .inl (List.mem_singleton.mp last)
  have indexed : ∀ n : UInt8, ∃ body,
      esc :: '[' :: ground ++ ";5;".toList ++ decimal n.toNat ++ "m".toList = esc :: '[' :: (body ++ "m".toList) ∧
        ∀ c ∈ body, c = ';' ∨ c.isDigit = true := by
    intro n
    refine ⟨ground ++ ";5;".toList ++ decimal n.toNat,rfl,fun c mem => ?_⟩
    rcases List.mem_append.mp mem with front | digit
    · rcases List.mem_append.mp front with digit | inner
      · exact .inr (letterless c digit)
      · exact marks '5' rfl c inner
    · exact .inr (decimalDigits digit)
  cases color with
  | default => exact .inl rfl
  | xterm n => exact .inr (indexed n)
  | named name => exact .inr (indexed (named256 name))
  | rgb r g b =>
    refine .inr ⟨ground ++ ";2;".toList ++ decimal r.toNat ++ ";".toList ++ decimal g.toNat ++ ";".toList ++
      decimal b.toNat,rfl,fun c mem => ?_⟩
    simp only [List.mem_append] at mem
    rcases mem with (((((digit | inner) | digit) | semicolon) | digit) | semicolon) | digit
    · exact .inr (letterless c digit)
    · exact marks '2' rfl c inner
    · exact .inr (decimalDigits digit)
    · exact .inl (by simpa using semicolon)
    · exact .inr (decimalDigits digit)
    · exact .inl (by simpa using semicolon)
    · exact .inr (decimalDigits digit)

theorem groundDigits : (∀ c ∈ "38".toList, c.isDigit = true) ∧ ∀ c ∈ "48".toList, c.isDigit = true :=
  ⟨List.all_eq_true.mp (by decide),List.all_eq_true.mp (by decide)⟩

theorem numberLetterless {c : Char} (digit : c.isDigit = true) : ∀ d ∈ [c], d.isAlpha = false := by
  intro d mem
  rw [List.mem_singleton.mp mem]
  exact digitLetterless digit

theorem stripColor {ground : Str} (letterless : ∀ c ∈ ground, c.isDigit = true) (color : Color) (u : Str) :
    stripAnsi (colorSgr ground color ++ u) = stripAnsi u := by
  rcases colorSequence letterless color with none' | ⟨body,whole,plain⟩
  · rw [none',List.nil_append]
  · have noLetter : ∀ c ∈ body, c.isAlpha = false := by
      intro c mem
      rcases plain c mem with rfl | digit
      · rfl
      · exact digitLetterless digit
    have flat : esc :: '[' :: (body ++ "m".toList) ++ u = esc :: '[' :: (body ++ 'm' :: u) := by simp
    rw [whole,flat]
    exact stripSequence noLetter u

theorem stripStyle (style : Style) (u : Str) : stripAnsi (ansiStyle style ++ u) = stripAnsi u := by
  rw [ansiStyle,List.append_assoc,List.append_assoc,stripColor groundDigits.1,stripColor groundDigits.2]
  cases style.bold with
  | false => rfl
  | true => exact stripSequence (numberLetterless (by decide : '1'.isDigit = true)) u

theorem stripPaint {t : Str} (plain : esc ∉ t) (style : Style) (u : Str) :
    stripAnsi (chars (paint t style) ++ u) = t ++ stripAnsi u := by
  unfold paint
  split
  · rename_i empty
    rw [empty]
    rfl
  · have whole : chars (code (ansiStyle style) ++ text t ++ code reset) ++ u =
        ansiStyle style ++ (t ++ (esc :: '[' :: (['0'] ++ 'm' :: u))) := by
      simp [chars,code,text,reset,Ink.char,Function.comp_def]
    rw [whole,stripStyle,stripPlain plain,stripSequence (numberLetterless (by decide : '0'.isDigit = true))]

theorem zshFgShape (color : Color) : zshFg color = "%f".toList ∨
    ∃ x, zshFg color = "%F\x7b".toList ++ x ++ "\x7d".toList ∧ ∀ c ∈ x, c = '#' ∨ c.isAlphanum = true := by
  have decimals : ∀ n, ∀ c ∈ decimal n, c = '#' ∨ c.isAlphanum = true := by
    intro n c mem
    rw [Char.isAlphanum,decimalDigits mem,Bool.or_true]
    exact .inr rfl
  have hexadecimals : ∀ b, ∀ c ∈ hexByte b, c.isAlphanum = true := by
    have small : ∀ n < 16, (hexChar n).isAlphanum = true := by decide
    intro b c mem
    have fits := b.toNat_lt
    rw [hexByte,List.mem_cons,List.mem_singleton] at mem
    rcases mem with rfl | rfl
    · exact small _ (by omega)
    · exact small _ (by omega)
  cases color with
  | default => exact .inl rfl
  | xterm n => exact .inr ⟨decimal n.toNat,rfl,decimals _⟩
  | named name => exact .inr ⟨decimal (named256 name).toNat,rfl,decimals _⟩
  | rgb r g b =>
    refine .inr ⟨'#' :: (hexByte r ++ hexByte g ++ hexByte b),by simp [zshFg],fun c mem => ?_⟩
    simp only [List.mem_cons,List.mem_append] at mem
    rcases mem with hash | (red | green) | blue
    · exact .inl hash
    · exact .inr (hexadecimals r c red)
    · exact .inr (hexadecimals g c green)
    · exact .inr (hexadecimals b c blue)

end P11k.Render
