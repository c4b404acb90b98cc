import P11k.Engine.Theme
import P11k.Lib.Text
import P11k.Lib.Utf8

/-! The announce line: how the shell templates print it, and how the engine reads it. -/
namespace P11k.Engine
open Gitstatus (Bytes)
open Text (whiteSpace trim lines decimal signed parseNat parseInt)

inductive AnnMsg where
  | header (info : HeaderInfo)
  | resize
  | vimMode (mode : Bytes)
  deriving DecidableEq, Repr

def parseI32 : List Char → Option Int := parseInt (-2^31) (2^31 - 1)

def parseUsize : List Char → Option Nat := parseNat (2^64 - 1)

def parsePipestatus (s : List Char) : List Int :=
  ((s.splitOnP fun c => c == ',' || whiteSpace c).filter fun p => !p.isEmpty).filterMap parseI32

/-- The fields behind the message type, as far as the line has them. -/
def parseHeader (parts : List (List Char)) : HeaderInfo where
  exitCode := (parts[0]?).bind fun s => parseI32 (trim s)
  cwd := Utf8.encode ((parts[1]?.map trim).getD [])
  execMillis := 0
  jobs := ((parts[2]?).bind fun s => parseUsize (trim s)).getD 0
  history := ((parts[3]?).bind fun s => parseUsize (trim s)).getD 0
  pipestatus := (parts[4]?.map parsePipestatus).getD []

def parseAnnounceLine (line : List Char) : Option AnnMsg :=
  match line.splitOn '\t' with
  | ['h'] :: parts => some (.header (parseHeader parts))
  | ['r'] :: _ => some .resize
  | ['v'] :: parts => some (.vimMode (Utf8.encode ((parts[0]?.map trim).getD [])))
  | _ => none

def parseAnnounceLines (buf : Bytes) : List AnnMsg := (lines (Utf8.decode buf)).filterMap parseAnnounceLine

/-- What a shell has to announce. A path is a text without a newline. -/
structure Announced where
  exitCode : Int
  cwd : List Char
  jobs : Nat
  history : Nat
  pipestatus : List Int
  exitFits : -2^31 ≤ exitCode ∧ exitCode ≤ 2^31 - 1
  oneLine : '\n' ∉ cwd
  jobsFit : jobs ≤ 2^64 - 1
  historyFits : history ≤ 2^64 - 1
  pipesFit : ∀ code ∈ pipestatus, -2^31 ≤ code ∧ code ≤ 2^31 - 1

/-- A shell joins the elements of an array with blanks. -/
def joinStatus (pipestatus : List Int) : List Char := [' '].intercalate (pipestatus.map signed)

/-- bash counts its jobs with `wc -l`, which may put blanks before the number. -/
def announceFields (a : Announced) (blanks : Nat) : Shell → List (List Char)
  | .zsh => [['h'],signed a.exitCode,a.cwd,decimal a.jobs,decimal a.history,joinStatus a.pipestatus]
  | .bash => [['h'],signed a.exitCode,a.cwd,List.replicate blanks ' ' ++ decimal a.jobs,[],
      joinStatus a.pipestatus]
  | .fish => [['h'],signed a.exitCode,a.cwd,decimal a.jobs,[],joinStatus a.pipestatus]
  | .pwsh => [['h'],signed a.exitCode,a.cwd,decimal a.jobs,decimal a.history]

def announceLine (a : Announced) (blanks : Nat) (shell : Shell) : Bytes :=
  Utf8.encode (['\t'].intercalate (announceFields a blanks shell) ++ ['\n'])

/-- What of it the shell's format carries: bash and fish have no history number, pwsh no pipeline
status. -/
def carried (a : Announced) (shell : Shell) : HeaderInfo where
  exitCode := some a.exitCode
  cwd := Utf8.encode a.cwd
  execMillis := 0
  jobs := a.jobs
  history := match shell with
    | .zsh | .pwsh => a.history
    | .bash | .fish => 0
  pipestatus := match shell with
    | .zsh | .bash | .fish => a.pipestatus
    | .pwsh => []

theorem signedPlain {n : Int} {c : Char} (mem : c ∈ signed n) :
    whiteSpace c = false ∧ c ≠ ',' ∧ c ≠ '\t' ∧ c ≠ '\n' ∧ c ≠ '\r' := by
  have plain : c.isDigit = true → whiteSpace c = false ∧ c ≠ ',' ∧ c ≠ '\t' ∧ c ≠ '\n' ∧ c ≠ '\r' := by
    intro digit
    obtain ⟨space,_,_,comma,tab,newline,return'⟩ := Text.digitPlain digit
    exact ⟨space,comma,tab,newline,return'⟩
  cases n with
  | ofNat n => exact plain (Text.decimalDigits mem)
  | negSucc n =>
    rcases List.mem_cons.mp mem with rfl | digit
    · decide
    · exact plain (Text.decimalDigits digit)

theorem decimalPlain {n : Nat} {c : Char} (mem : c ∈ decimal n) :
    whiteSpace c = false ∧ c ≠ ',' ∧ c ≠ '\t' ∧ c ≠ '\n' ∧ c ≠ '\r' := signedPlain (n := .ofNat n) mem

theorem signedSome (n : Int) : signed n ≠ [] := by
  cases n with
  | ofNat n => exact Text.decimalSome n
  | negSucc n => exact List.cons_ne_nil _ _

theorem parseJoined {pipestatus : List Int} (fit : ∀ code ∈ pipestatus, -2^31 ≤ code ∧ code ≤ 2^31 - 1) :
    parsePipestatus (joinStatus pipestatus) = pipestatus := by
  have apart : ∀ code, ∀ c ∈ signed code, (c == ',' || whiteSpace c) = false := by
    intro code c mem
    obtain ⟨space,comma,_⟩ := signedPlain mem
    simp [space,comma]
  have one : ∀ code, (signed code).isEmpty = false := fun code => by simpa using signedSome code
  induction pipestatus with
  | nil => rfl
  | cons code rest ih =>
    obtain ⟨low,high⟩ := fit code List.mem_cons_self
    have read : parseI32 (signed code) = some code := Text.parseIntSigned low high
    have tail := ih (fun code mem => fit code (List.mem_cons_of_mem _ mem))
    cases rest with
    | nil =>
      have whole : joinStatus [code] = signed code := by simp [joinStatus]
      rw [whole,parsePipestatus,List.splitOnP_eq_singleton (apart code)]
      simp [one,read]
    | cons next rest =>
      have split : joinStatus (code :: next :: rest) = signed code ++ ' ' :: joinStatus (next :: rest) := by
        simp [joinStatus,List.intercalate_cons_cons]
      rw [split,parsePipestatus,List.splitOnP_append_cons_of_forall_mem (apart code) ' ' (by decide)]
      simp only [List.filter_cons,one,Bool.not_false,if_true,List.filterMap_cons,read]
      exact congrArg (code :: ·) tail

/-- What may stand in a field that the parser reads back: no separator, and nothing that ends a
line. -/
def Plain (c : Char) : Prop := c ≠ '\t' ∧ c ≠ '\n' ∧ c ≠ '\r'

theorem tabbedPlain {fields : List (List Char)} (plain : ∀ f ∈ fields, ∀ c ∈ f, Plain c) {c : Char}
    (mem : c ∈ ['\t'].intercalate fields) : c ≠ '\n' ∧ c ≠ '\r' := by
  induction fields with
  | nil => simp at mem
  | cons f fields ih =>
    have front := plain f List.mem_cons_self c
    cases fields with
    | nil => exact (front (by simpa using mem)).2
    | cons g fields =>
      rw [List.intercalate_cons_cons,List.mem_append,List.mem_append,List.mem_singleton] at mem
      rcases mem with (field | rfl) | later
      · exact (front field).2
      · decide
      · exact ih (fun f' mem' => plain f' (List.mem_cons_of_mem f mem')) later

theorem announceRead {code cwd : List Char} {rest : List (List Char)} (some' : rest ≠ [])
    (codePlain : ∀ c ∈ code, Plain c) (oneLine : '\n' ∉ cwd) (plain : ∀ f ∈ rest, ∀ c ∈ f, Plain c) :
    parseAnnounceLines (Utf8.encode (['\t'].intercalate (['h'] :: code :: cwd :: rest) ++ ['\n'])) =
      [.header (parseHeader (code :: (cwd.splitOn '\t' ++ rest)))] := by
  have whole : ['\t'].intercalate (['h'] :: code :: cwd :: rest) =
      ['h'] ++ '\t' :: (code ++ '\t' :: (cwd ++ '\t' :: ['\t'].intercalate rest)) := by
    rw [List.intercalate_cons_cons,List.intercalate_cons_cons,List.intercalate_cons_of_ne_nil some']
    simp
  have tail := fun c mem => @tabbedPlain rest plain c mem
  have newline : '\n' ∉ ['\t'].intercalate (['h'] :: code :: cwd :: rest) := by
    rw [whole]
    simp only [List.cons_append,List.nil_append,List.mem_cons,List.mem_append,not_or]
    exact ⟨by decide,by decide,fun mem => (codePlain _ mem).2.1 rfl,by decide,oneLine,by decide,
      fun mem => (tail _ mem).1 rfl⟩
  have last : (['\t'].intercalate (['h'] :: code :: cwd :: rest)).getLast? ≠ some '\r' := by
    have shape : ['\t'].intercalate (['h'] :: code :: cwd :: rest) =
        (['h'] ++ '\t' :: (code ++ '\t' :: cwd)) ++ '\t' :: ['\t'].intercalate rest := by
      rw [whole]
      simp
    intro ends
    rw [shape,List.getLast?_append_of_ne_nil _ (List.cons_ne_nil _ _)] at ends
    rcases List.mem_cons.mp (List.mem_of_getLast? ends) with tab | mem
    · contradiction
    · exact (tail _ mem).2 rfl
  have split : (['\t'].intercalate (['h'] :: code :: cwd :: rest)).splitOn '\t' =
      ['h'] :: code :: (cwd.splitOn '\t' ++ rest) := by
    rw [whole,List.splitOn_append_cons_self_of_not_mem (by decide),
      List.splitOn_append_cons_self_of_not_mem (fun mem => (codePlain _ mem).1 rfl),
      List.splitOn_append_cons_self,
      List.splitOn_intercalate '\t' (fun f mem inside => (plain f mem _ inside).1 rfl) some']
  have read : parseAnnounceLine (['\t'].intercalate (['h'] :: code :: cwd :: rest)) =
      some (.header (parseHeader (code :: (cwd.splitOn '\t' ++ rest)))) := by
    rw [parseAnnounceLine,split]
    rfl
  rw [parseAnnounceLines,Utf8.decodeEncode,lines,Text.linesPlain newline,List.nil_append,Text.stripReturn,
    if_neg last,Text.linesLoop,if_pos rfl,List.filterMap_cons_some read,List.filterMap_nil]

/-- A path that the parser cuts or trims does not come back. -/
theorem cwdKept (cwd : List Char) (rest : List (List Char)) (code : List Char) :
    (parseHeader (code :: (cwd.splitOn '\t' ++ rest))).cwd = Utf8.encode cwd ↔ '\t' ∉ cwd ∧ trim cwd = cwd := by
  by_cases tab : '\t' ∈ cwd
  · obtain ⟨front,back,rfl,apart⟩ := List.eq_append_cons_of_mem tab
    rw [List.splitOn_append_cons_self_of_not_mem apart]
    refine iff_of_false (fun same => ?_) (fun both => both.1 tab)
    have whole : trim front = front ++ '\t' :: back := Utf8.encodeInjective same
    have inside : '\t' ∈ trim front := by
      rw [whole]
      exact List.mem_append_right front List.mem_cons_self
    exact apart (Text.trimMem inside)
  · rw [List.splitOn_eq_singleton tab]
    have read : (parseHeader (code :: ([cwd] ++ rest))).cwd = Utf8.encode (trim cwd) := rfl
    rw [read,and_iff_right tab]
    exact ⟨Utf8.encodeInjective,congrArg Utf8.encode⟩

theorem joinedPlain {pipestatus : List Int} {c : Char} (mem : c ∈ joinStatus pipestatus) : Plain c := by
  induction pipestatus with
  | nil => simp [joinStatus] at mem
  | cons code rest ih =>
    have front : c ∈ signed code → Plain c := fun mem => (signedPlain mem).2.2
    cases rest with
    | nil => exact front (by simpa [joinStatus] using mem)
    | cons next rest =>
      rw [joinStatus,List.map_cons,List.map_cons,List.intercalate_cons_cons,List.mem_append,List.mem_append,
        List.mem_singleton] at mem
      rcases mem with (field | rfl) | later
      · exact front field
      · exact ⟨by decide,by decide,by decide⟩
      · exact ih later

theorem trimBlanks (blanks n : Nat) : trim (List.replicate blanks ' ' ++ decimal n) = decimal n := by
  have plain : ∀ c ∈ decimal n, whiteSpace c = false := fun c mem => (decimalPlain mem).1
  have start : Text.trimStart (List.replicate blanks ' ' ++ decimal n) = Text.trimStart (decimal n) := by
    rw [Text.trimStart,List.dropWhile_append_of_pos]
    · rfl
    · intro c mem
      rw [List.eq_of_mem_replicate mem]
      rfl
  rw [trim,start]
  exact Text.trimPlain plain

theorem carriedBack (a : Announced) (shell : Shell) {rest : List (List Char)} (some' : rest ≠ [])
    (plain : ∀ f ∈ rest, ∀ c ∈ f, Plain c)
    (others : parseHeader (signed a.exitCode :: a.cwd :: rest) =
      { carried a shell with cwd := Utf8.encode (trim a.cwd) }) :
    parseAnnounceLines (Utf8.encode (['\t'].intercalate (['h'] :: signed a.exitCode :: a.cwd :: rest) ++ ['\n'])) =
      [.header (carried a shell)] ↔ '\t' ∉ a.cwd ∧ trim a.cwd = a.cwd := by
  have kept := cwdKept a.cwd rest (signed a.exitCode)
  rw [announceRead some' (fun c mem => (signedPlain mem).2.2) a.oneLine plain,← kept]
  constructor
  · intro same
    exact congrArg HeaderInfo.cwd (AnnMsg.header.inj (List.cons_eq_cons.mp same).1)
  · intro same
    obtain ⟨tab,whole⟩ := kept.mp same
    rw [List.splitOn_eq_singleton tab,List.singleton_append,others,whole]
    rfl

/-- The announce line of every shell comes back with what it carries exactly when the path has no
tab and no white space at its ends. -/
theorem announceIff (a : Announced) (blanks : Nat) (shell : Shell) :
    parseAnnounceLines (announceLine a blanks shell) = [.header (carried a shell)] ↔
      '\t' ∉ a.cwd ∧ trim a.cwd = a.cwd := by
  have number : ∀ n, ∀ c ∈ decimal n, Plain c := fun n c mem => (decimalPlain mem).2.2
  have joined : ∀ c ∈ joinStatus a.pipestatus, Plain c := fun c mem => joinedPlain mem
  have exit : parseI32 (trim (signed a.exitCode)) = some a.exitCode := by
    rw [Text.trimPlain fun c mem => (signedPlain mem).1]
    exact Text.parseIntSigned a.exitFits.1 a.exitFits.2
  have count : ∀ n, n ≤ 2^64 - 1 → parseUsize (trim (decimal n)) = some n := by
    intro n fits
    rw [Text.trimPlain fun c mem => (decimalPlain mem).1]
    exact Text.parseNatDecimal fits
  have jobs := count a.jobs a.jobsFit
  have history := count a.history a.historyFits
  have absent : parseUsize (trim []) = none := by decide
  have pipes := parseJoined a.pipesFit
  cases shell with
  | zsh =>
    refine carriedBack a .zsh (by simp) ?_ ?_
    · simpa using ⟨number a.jobs,number a.history,joined⟩
    · simp [parseHeader,carried,exit,jobs,history,pipes]
  | bash =>
    have padded : parseUsize (trim (List.replicate blanks ' ' ++ decimal a.jobs)) = some a.jobs := by
      rw [trimBlanks,← Text.trimPlain fun c mem => (decimalPlain mem).1]
      exact jobs
    have blank : ∀ c ∈ List.replicate blanks ' ' ++ decimal a.jobs, Plain c := by
      intro c mem
      rcases List.mem_append.mp mem with pad | digit
      · rw [List.eq_of_mem_replicate pad]
        exact ⟨by decide,by decide,by decide⟩
      · exact number a.jobs c digit
    refine carriedBack a .bash (List.cons_ne_nil _ _) ?_ ?_
    · intro f mem
      simp only [List.mem_cons,List.not_mem_nil,or_false] at mem
      rcases mem with rfl | rfl | rfl
      · exact blank
      · simp
      · exact joined
    · simp [parseHeader,carried,exit,padded,absent,pipes]
  | fish =>
    refine carriedBack a .fish (by simp) ?_ ?_
    · simpa using ⟨number a.jobs,joined⟩
    · simp [parseHeader,carried,exit,jobs,absent,pipes]
  | pwsh =>
    refine carriedBack a .pwsh (by simp) ?_ ?_
    · simpa using ⟨number a.jobs,number a.history⟩
    · simp [parseHeader,carried,exit,jobs,history]

def inDirectory (cwd : List Char) (oneLine : '\n' ∉ cwd) : Announced :=
  ⟨0,cwd,0,1,[0],by decide,oneLine,by decide,by decide,by decide⟩

/-- The directory `/a ` is announced by zsh and read as `/a`. -/
theorem trailingBlankTrimmed : ¬ ∀ (a : Announced) (blanks : Nat) (shell : Shell),
    parseAnnounceLines (announceLine a blanks shell) = [.header (carried a shell)] := by
  intro back
  exact absurd (back (inDirectory ['/','a',' '] (by decide)) 0 .zsh) (by decide)

end P11k.Engine
