import P11k.Engine.Announce
import P11k.Lib.Framing

/-! The announce lines as they come out of the pipe, in reads that end anywhere. -/
namespace P11k.Engine
open Gitstatus (Bytes)
open Framing (split join)

/-- Longest partial announce line kept across reads. -/
def maxAnnounceLine : Nat := 64 * 1024

/-- The bytes that one read of the loop can take. -/
def chunkSize : Nat := 1024

/-- The position behind the last newline. -/
def lineEnd (buf : Bytes) : Option Nat := (buf.reverse.findIdx? (· == 10)).map fun i => buf.length - i

/-- The messages that a read completes, and what stays for the next one. -/
def pushAnnounce (pending chunk : Bytes) : List AnnMsg × Bytes :=
  let buf := pending ++ chunk
  match lineEnd buf with
  | none => ([],if maxAnnounceLine < buf.length then [] else buf)
  | some e => (parseAnnounceLines (buf.take e),buf.drop e)

/-- What a read of the pipe can give. -/
inductive ReadResult where
  | data (chunk : Bytes) (some' : chunk ≠ []) (fits : chunk.length ≤ chunkSize)
  | interrupted
  | failed
  | closed

/-- The loop over the reads, of which it leaves those behind the one that has no data. -/
def drainAnnounce (pending : Bytes) : List ReadResult → List AnnMsg × Bytes
  | [] => ([],pending)
  | .data chunk _ _ :: reads =>
      let (msgs,pending) := pushAnnounce pending chunk
      let (more,pending) := drainAnnounce pending reads
      (msgs ++ more,pending)
  | .interrupted :: reads => drainAnnounce pending reads
  | .failed :: _ => ([],pending)
  | .closed :: _ => ([],pending)

def pushAll (pending : Bytes) : List Bytes → List AnnMsg × Bytes
  | [] => ([],pending)
  | chunk :: chunks =>
      let pushed := pushAnnounce pending chunk
      let later := pushAll pushed.2 chunks
      (pushed.1 ++ later.1,later.2)

def chunksOf : List ReadResult → List Bytes
  | [] => []
  | .data chunk _ _ :: reads => chunk :: chunksOf reads
  | .interrupted :: reads => chunksOf reads
  | .failed :: _ => []
  | .closed :: _ => []

theorem drainPushes (pending : Bytes) (reads : List ReadResult) :
    drainAnnounce pending reads = pushAll pending (chunksOf reads) := by
  induction reads generalizing pending with
  | nil => rfl
  | cons read reads ih =>
    cases read with
    | data chunk some' fits =>
      simp only [drainAnnounce,chunksOf,pushAll,ih]
    | interrupted => exact ih pending
    | failed => rfl
    | closed => rfl

theorem chunksFit {reads : List ReadResult} {chunk : Bytes} (mem : chunk ∈ chunksOf reads) :
    chunk.length ≤ chunkSize := by
  induction reads with
  | nil => cases mem
  | cons read reads ih =>
    cases read with
    | data first some' fits =>
      rcases List.mem_cons.mp mem with rfl | mem
      · exact fits
      · exact ih mem
    | interrupted => exact ih mem
    | failed => cases mem
    | closed => cases mem

/-! One line. -/

def messageOf (line : Bytes) : Option AnnMsg := parseAnnounceLine (Text.stripReturn (Utf8.decode line))

theorem parseCons {line : Bytes} (clean : 10 ∉ line) (rest : Bytes) :
    parseAnnounceLines (line ++ 10 :: rest) = (messageOf line).toList ++ parseAnnounceLines rest := by
  have plain : '\n' ∉ Utf8.decode line := fun mem => clean (Utf8.decodeNewline mem)
  have cut : Utf8.decode (line ++ 10 :: rest) = Utf8.decode line ++ '\n' :: Utf8.decode rest :=
    Utf8.decodeSingle (by decide) line rest
  rw [parseAnnounceLines,cut,Text.lines,Text.linesPlain plain,List.nil_append,List.filterMap_cons]
  cases read : parseAnnounceLine (Text.stripReturn (Utf8.decode line)) with
  | none => simp [messageOf,read,parseAnnounceLines,Text.lines]
  | some msg => simp [messageOf,read,parseAnnounceLines,Text.lines]

theorem parseJoin {ls : List Bytes} (clean : ∀ l ∈ ls, 10 ∉ l) :
    parseAnnounceLines (join 10 ls) = ls.filterMap messageOf := by
  induction ls with
  | nil => rfl
  | cons l ls ih =>
    obtain ⟨first,rest⟩ := List.forall_mem_cons.mp clean
    have whole : join 10 (l :: ls) = l ++ 10 :: join 10 ls := by simp [join]
    rw [whole,parseCons first,ih rest,List.filterMap_cons]
    cases messageOf l <;> rfl

/-! One read. -/

theorem lineEndNone {buf : Bytes} (open' : lineEnd buf = none) : 10 ∉ buf := by
  intro mem
  have other : ∀ b ∈ buf, ¬ b = 10 := by simpa [lineEnd] using open'
  exact other 10 mem rfl

theorem lineEndSome {buf : Bytes} {e : Nat} (found : lineEnd buf = some e) :
    ∃ front rest, buf = front ++ 10 :: rest ∧ 10 ∉ rest ∧ e = front.length + 1 := by
  obtain ⟨i,here,out⟩ := Option.map_eq_some_iff.mp found
  obtain ⟨inside,same,before⟩ := List.findIdx?_eq_some_iff_getElem.mp here
  have whole := List.take_append_drop i buf.reverse
  rw [List.drop_eq_getElem_cons inside,eq_of_beq same] at whole
  have turned : buf = (buf.reverse.drop (i + 1)).reverse ++ 10 :: (buf.reverse.take i).reverse := by
    have := congrArg List.reverse whole
    simpa using this.symm
  refine ⟨_,_,turned,fun mem => ?_,?_⟩
  · obtain ⟨j,small,value⟩ := List.getElem_of_mem (List.mem_reverse.mp mem)
    rw [List.length_take] at small
    have other := before j (by omega)
    rw [List.getElem_take] at value
    exact other (by rw [value]; rfl)
  · rw [List.length_reverse] at inside
    rw [List.length_reverse,List.length_drop,List.length_reverse]
    omega

/-- A read completes the lines that end in it, and what is behind the last newline stays. -/
theorem pushSplit {pending chunk : Bytes} (short : (split 10 (pending ++ chunk)).2.length ≤ maxAnnounceLine) :
    pushAnnounce pending chunk =
      ((split 10 (pending ++ chunk)).1.filterMap messageOf,(split 10 (pending ++ chunk)).2) := by
  unfold pushAnnounce
  dsimp only
  cases found : lineEnd (pending ++ chunk) with
  | none =>
    rw [Framing.splitOpen (lineEndNone found)] at short ⊢
    dsimp only at short ⊢
    rw [if_neg (Nat.not_lt.mpr short)]
    rfl
  | some e =>
    obtain ⟨front,rest,whole,clean,rfl⟩ := lineEndSome found
    have ended : split 10 (front ++ [10]) = ((split 10 front).1 ++ [(split 10 front).2],[]) :=
      Framing.splitEnded 10 front
    have cut : split 10 (pending ++ chunk) = ((split 10 front).1 ++ [(split 10 front).2],rest) := by
      rw [whole,List.append_cons,Framing.splitAppend,ended]
      simp [Framing.splitOpen clean]
    have lines := Framing.joinSplit 10 (front ++ [10])
    rw [ended,List.append_nil] at lines
    have complete : ∀ l ∈ (split 10 front).1 ++ [(split 10 front).2], 10 ∉ l := by
      have := (Framing.splitClean 10 (front ++ [10])).1
      rwa [ended] at this
    have taken : (pending ++ chunk).take (front.length + 1) = front ++ [10] := by
      rw [whole,List.append_cons]
      exact List.take_left' (by simp)
    have dropped : (pending ++ chunk).drop (front.length + 1) = rest := by
      rw [whole,List.append_cons]
      exact List.drop_left' (by simp)
    dsimp only
    rw [taken,dropped,cut,← lines,parseJoin complete]

theorem pushShort {pending chunk : Bytes} (clean : 10 ∉ pending) (fits : chunk.length ≤ chunkSize) :
    10 ∉ (pushAnnounce pending chunk).2 ∧ (pushAnnounce pending chunk).2.length ≤ maxAnnounceLine := by
  unfold pushAnnounce
  dsimp only
  cases found : lineEnd (pending ++ chunk) with
  | none =>
    dsimp only
    split
    · exact ⟨List.not_mem_nil,Nat.zero_le _⟩
    · rename_i short
      exact ⟨lineEndNone found,Nat.le_of_not_lt short⟩
  | some e =>
    obtain ⟨front,rest,whole,behind,rfl⟩ := lineEndSome found
    have dropped : (pending ++ chunk).drop (front.length + 1) = rest := by
      rw [whole,List.append_cons]
      exact List.drop_left' (by simp)
    dsimp only
    rw [dropped]
    refine ⟨behind,?_⟩
    -- The newline is one of the chunk's, so what is behind it is too.
    have within : pending.length < front.length + 1 := by
      rcases List.append_eq_append_iff.mp whole with ⟨more,first,-⟩ | ⟨more,first,second⟩
      · rw [first,List.length_append]
        omega
      · cases more with
        | nil =>
          rw [first,List.append_nil]
          omega
        | cons b more =>
          obtain ⟨rfl,-⟩ := List.cons.inj second
          rw [first] at clean
          exact absurd (List.mem_append_right front List.mem_cons_self) clean
    have total := congrArg List.length whole
    simp only [List.length_append,List.length_cons] at total
    unfold chunkSize at fits
    unfold maxAnnounceLine
    omega

/-! Every read. -/

theorem pushAllSplit {pending : Bytes} (clean : 10 ∉ pending) (chunks : List Bytes)
    (bounded : Framing.Bounded 10 maxAnnounceLine (pending ++ chunks.flatten)) :
    pushAll pending chunks = ((split 10 (pending ++ chunks.flatten)).1.filterMap messageOf,
      (split 10 (pending ++ chunks.flatten)).2) := by
  induction chunks generalizing pending with
  | nil => rw [pushAll,List.flatten_nil,List.append_nil,Framing.splitOpen clean]; rfl
  | cons chunk chunks ih =>
    rw [List.flatten_cons,← List.append_assoc] at bounded ⊢
    have left := (Framing.splitClean 10 (pending ++ chunk)).2
    have later := Framing.boundedRest 10 bounded
    have first := pushSplit (Framing.boundedOpen 10 left later)
    simp only [pushAll,first,ih left later]
    rw [Framing.splitAppend 10 (pending ++ chunk),List.filterMap_append]

theorem pushAllShort {pending : Bytes} (clean : 10 ∉ pending) (short : pending.length ≤ maxAnnounceLine)
    {chunks : List Bytes} (fit : ∀ chunk ∈ chunks, chunk.length ≤ chunkSize) :
    (pushAll pending chunks).2.length ≤ maxAnnounceLine := by
  induction chunks generalizing pending with
  | nil => exact short
  | cons chunk chunks ih =>
    obtain ⟨first,rest⟩ := List.forall_mem_cons.mp fit
    obtain ⟨clean',short'⟩ := pushShort clean first
    exact ih clean' short' rest

theorem pushAllAppend (pending : Bytes) (chunks more : List Bytes) :
    pushAll pending (chunks ++ more) =
      ((pushAll pending chunks).1 ++ (pushAll (pushAll pending chunks).2 more).1,
        (pushAll (pushAll pending chunks).2 more).2) := by
  induction chunks generalizing pending with
  | nil => rfl
  | cons chunk chunks ih => simp only [List.cons_append,pushAll,ih,List.append_assoc]

/-- The engine drains the pipe whenever it is readable. -/
def drainAll (pending : Bytes) : List (List ReadResult) → List AnnMsg × Bytes
  | [] => ([],pending)
  | reads :: drains =>
      let drained := drainAnnounce pending reads
      let later := drainAll drained.2 drains
      (drained.1 ++ later.1,later.2)

theorem drainAllPushes (pending : Bytes) (drains : List (List ReadResult)) :
    drainAll pending drains = pushAll pending (drains.flatMap chunksOf) := by
  induction drains generalizing pending with
  | nil => rfl
  | cons reads drains ih =>
    simp only [drainAll,List.flatMap_cons,drainPushes,ih,pushAllAppend]

theorem drainAllShort (drains : List (List ReadResult)) : (drainAll [] drains).2.length ≤ maxAnnounceLine := by
  rw [drainAllPushes]
  refine pushAllShort List.not_mem_nil (Nat.zero_le _) fun chunk mem => ?_
  obtain ⟨reads,-,inside⟩ := List.mem_flatMap.mp mem
  exact chunksFit inside

/-- Where the reads end does not matter: the messages are those of the complete lines, each read on its own,
and the bytes behind the last newline stay. What stays is bounded after any reads of the loop. -/
theorem announceFraming :
    (∀ chunks : List Bytes, Framing.Bounded 10 maxAnnounceLine chunks.flatten →
      (pushAll [] chunks).1 = (split 10 chunks.flatten).1.filterMap messageOf ∧
        (pushAll [] chunks).1 = parseAnnounceLines (join 10 (split 10 chunks.flatten).1) ∧
        (pushAll [] chunks).2 = (split 10 chunks.flatten).2) ∧
    ∀ chunks : List Bytes, (∀ chunk ∈ chunks, chunk.length ≤ chunkSize) →
      (pushAll [] chunks).2.length ≤ maxAnnounceLine := by
  constructor
  · intro chunks bounded
    have lines := parseJoin (Framing.splitClean 10 chunks.flatten).1
    rw [pushAllSplit List.not_mem_nil chunks bounded,List.nil_append,lines]
    exact ⟨rfl,rfl,rfl⟩
  · intro chunks fit
    exact pushAllShort List.not_mem_nil (Nat.zero_le _) fit

/-- Two lines, the second cut inside the sign `é`. -/
theorem announceFramingCut :
    (pushAll [] [[114],[10,118,9,0xC3],[0xA9,10,104]]).1 = [.resize,.vimMode [0xC3,0xA9]] ∧
      (pushAll [] [[114],[10,118,9,0xC3],[0xA9,10,104]]).2 = [104] ∧
      (pushAll [] [[114],[10,118,9,0xC3],[0xA9,10,104]]).2.length ≤ maxAnnounceLine := by
  obtain ⟨messages,-,rest⟩ := announceFraming.1 [[114],[10,118,9,0xC3],[0xA9,10,104]] ⟨by decide,by decide⟩
  refine ⟨messages.trans ?_,rest.trans (by decide),announceFraming.2 _ (by decide)⟩
  decide

end P11k.Engine
