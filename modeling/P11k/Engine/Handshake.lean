import P11k.Engine.Announce
import P11k.Engine.Reserved
import P11k.Lib.Framing

/-! The handshake at a prompt. The shell announces the prompt and polls for a file; the engine writes the answer
beside it and renames it into place; the shell reads it, removes it and prints the prompt from it. Everything that
the two do in between comes in any order. -/
namespace P11k.Engine
open Gitstatus (Bytes)
open Text (decimal)

structure Answer where
  rows : Nat
  inputPrefix : Bytes
  fold : Bool
  deriving DecidableEq, Repr

def ackText (a : Answer) : Bytes :=
  Framing.join 10 [Utf8.encode (decimal a.rows),a.inputPrefix,[if a.fold then 49 else 48]]

def ackLines (text : Bytes) : List Bytes := (Framing.split 10 text).1

inductive Prompting where
  | busy
  | waiting
  | found
  | read (text : Bytes)
  | removed (text : Bytes)
  deriving DecidableEq, Repr

/-- The shell, the engine and the files between them. `rest` is what the engine has yet to write of an ack, `tmp`
the file that it writes into. -/
structure Handshake (ε ρ θ δ : Type) where
  loop : State ρ θ δ
  fifo : List AnnMsg
  rest : Option Bytes
  tmp : Option Bytes
  ack : Option Bytes
  shell : Prompting
  /-- The prompt that was announced last, and the loop as it was when it took the announcement. -/
  asked : Option HeaderInfo
  served : Option (Moment ε × State ρ θ δ)

inductive Move (ρ θ δ : Type) where
  | announce (info : HeaderInfo)
  /-- A change of the window or of the editing mode, announced whenever it comes. -/
  | notify (msg : AnnMsg)
  | poll
  | read
  | remove
  /-- The shell prints the prompt string, and its user gets to work. -/
  | print
  /-- The wait is interrupted, and with it the prompt. -/
  | breakOff
  | serve
  | engine (e : Event ρ θ δ)
  | worked (i k : Nat) (found : Option δ)
  | write (n : Nat)
  | rename

def AnnMsg.event {ρ θ δ : Type} : AnnMsg → Event ρ θ δ
  | .header info => .header info
  | .resize => .resize
  | .vimMode mode => .vimMode mode

/-- An event of the loop that comes neither from the announcements nor from a worker. -/
def Event.own {ρ θ δ : Type} : Event ρ θ δ → Bool
  | .header _ | .resize | .vimMode _ | .worked _ _ _ => false
  | _ => true

def answers {δ : Type} (os : List (Output δ)) : Option Answer :=
  os.findSome? fun
    | .ack rows inputPrefix fold => some ⟨rows,inputPrefix,fold⟩
    | _ => none

section handshake
variable {ε ρ θ δ : Type} (look : Look ε ρ θ δ)

/-- Each move of a party that is not in the place for it leaves everything as it is. -/
def handshakeStep (s : Handshake ε ρ θ δ) (a : Moment ε × Move ρ θ δ) : Handshake ε ρ θ δ × List (Output δ) :=
  match a.2 with
  | .announce info =>
      if s.shell = .busy then
        ({ s with shell := .waiting, fifo := s.fifo ++ [.header info], asked := some info },[])
      else (s,[])
  | .notify msg => (match msg with
      | .header _ => (s,[])
      | _ => ({ s with fifo := s.fifo ++ [msg] },[]))
  | .poll => (if s.shell = .waiting ∧ s.ack.isSome then { s with shell := .found } else s,[])
  | .read => (match s.shell with
      | .found => { s with shell := .read (s.ack.getD []) }
      | _ => s,[])
  | .remove => (match s.shell with
      | .read text => { s with shell := .removed text, ack := none }
      | _ => s,[])
  | .print => (match s.shell with
      | .removed _ => { s with shell := .busy }
      | _ => s,[])
  | .breakOff => (if s.shell = .waiting then { s with shell := .busy } else s,[])
  | .serve =>
      match s.rest, s.fifo with
      | none, msg :: fifo =>
          let r := step look s.loop (a.1,msg.event)
          ({ s with
            loop := r.1
            fifo := fifo
            rest := (answers r.2).map ackText
            tmp := (answers r.2).elim s.tmp fun _ => some []
            served := (answers r.2).elim s.served fun _ => some (a.1,s.loop) },r.2)
      | _, _ => (s,[])
  | .engine e =>
      if s.rest = none ∧ e.own then
        let r := step look s.loop (a.1,e)
        ({ s with loop := r.1 },r.2)
      else (s,[])
  | .worked i k found => ({ s with loop := worked s.loop i k found },[])
  | .write n => (match s.rest with
      | some rest => { s with rest := some (rest.drop n), tmp := s.tmp.map (· ++ rest.take n) }
      | none => s,[])
  | .rename => (match s.rest with
      | some [] => { s with rest := none, tmp := none, ack := s.tmp }
      | _ => s,[])

def handshakeStart (loop : State ρ θ δ) : Handshake ε ρ θ δ := ⟨loop,[],none,none,none,.busy,none,none⟩

/-! What the shell may find. -/

/-- The answer of the loop to the prompt that was announced last; its rows are those that the loop counts on. -/
def Fit (s : Handshake ε ρ θ δ) (text : Bytes) : Prop :=
  ∃ m before info a, s.asked = some info ∧ s.served = some (m,before) ∧
    answers (step look before (m,.header info)).2 = some a ∧ s.loop.reserved = some a.rows ∧ text = ackText a

def isHeader : AnnMsg → Bool
  | .header _ => true
  | _ => false

def headers (s : Handshake ε ρ θ δ) : List AnnMsg := s.fifo.filter isHeader

def Still (s : Handshake ε ρ θ δ) : Prop := headers s = [] ∧ s.rest = none

/-- The announcement is on its way, or the answer is being written, or it is there. -/
inductive UnderWay (s : Handshake ε ρ θ δ) : Prop where
  | announced {info : HeaderInfo} (one : headers s = [.header info]) (asked : s.asked = some info)
      (rest : s.rest = none) (ack : s.ack = none)
  | written {done rest : Bytes} (none' : headers s = []) (rest' : s.rest = some rest) (tmp : s.tmp = some done)
      (fit : Fit look s (done ++ rest)) (ack : s.ack = none)
  | there {text : Bytes} (still : Still s) (ack : s.ack = some text) (fit : Fit look s text)

def InOrder (s : Handshake ε ρ θ δ) : Prop :=
  match s.shell with
  | .busy => Still s ∧ s.ack = none
  | .waiting => UnderWay look s
  | .found => Still s ∧ ∃ text, s.ack = some text ∧ Fit look s text
  | .read text => Still s ∧ s.ack = some text ∧ Fit look s text
  | .removed text => Still s ∧ s.ack = none ∧ Fit look s text

variable {look}

theorem fitSame {s t : Handshake ε ρ θ δ} {text : Bytes} (fit : Fit look s text) (asked : t.asked = s.asked)
    (served : t.served = s.served) (reserved : t.loop.reserved = s.loop.reserved) : Fit look t text := by
  obtain ⟨m,before,info,a,known,from',answer,rows,same⟩ := fit
  exact ⟨m,before,info,a,asked.trans known,served.trans from',answer,reserved.trans rows,same⟩

structure SameOrder (s t : Handshake ε ρ θ δ) : Prop where
  headers : headers t = headers s
  rest : t.rest = s.rest
  tmp : t.tmp = s.tmp
  ack : t.ack = s.ack
  shell : t.shell = s.shell
  asked : t.asked = s.asked
  served : t.served = s.served
  reserved : t.loop.reserved = s.loop.reserved

theorem inOrderSame {s t : Handshake ε ρ θ δ} (order : InOrder look s) (same : SameOrder s t) : InOrder look t := by
  obtain ⟨headers,rest,tmp,ack,shell,asked,served,reserved⟩ := same
  have still : Still s → Still t := fun still => ⟨headers.trans still.1,rest.trans still.2⟩
  have fit : ∀ {text}, Fit look s text → Fit look t text := fun fit => fitSame fit asked served reserved
  unfold InOrder at order ⊢
  rw [shell]
  cases place : s.shell with
  | busy =>
    rw [place] at order
    exact ⟨still order.1,ack.trans order.2⟩
  | waiting =>
    rw [place] at order
    cases order with
    | announced one asked' rest' ack' =>
      exact .announced (headers.trans one) (asked.trans asked') (rest.trans rest') (ack.trans ack')
    | written none' rest' tmp' fit' ack' =>
      exact .written (headers.trans none') (rest.trans rest') (tmp.trans tmp') (fit fit') (ack.trans ack')
    | there still' ack' fit' => exact .there (still still') (ack.trans ack') (fit fit')
  | found =>
    rw [place] at order
    obtain ⟨still',text,ack',fit'⟩ := order
    exact ⟨still still',text,ack.trans ack',fit fit'⟩
  | read text =>
    rw [place] at order
    exact ⟨still order.1,ack.trans order.2.1,fit order.2.2⟩
  | removed text =>
    rw [place] at order
    exact ⟨still order.1,ack.trans order.2.1,fit order.2.2⟩

variable (look) in
theorem headerAnswers (m : Moment ε) (s : State ρ θ δ) (info : HeaderInfo) : ∃ a,
    answers (step look s (m,.header info)).2 = some a ∧ (step look s (m,.header info)).1.reserved = some a.rows := by
  have blank : ∀ n, (List.replicate n (.blankRow : Output δ)).findSome? (fun o => match o with
      | .ack rows inputPrefix fold => some (⟨rows,inputPrefix,fold⟩ : Answer)
      | _ => none) = none := by
    intro n
    rw [List.findSome?_eq_none_iff]
    intro o mem
    rw [List.eq_of_mem_replicate mem]
  simp only [step,header,answers]
  split
  · exact ⟨_,rfl,rfl⟩
  · rw [List.findSome?_append,blank]
    exact ⟨_,rfl,rfl⟩

variable (look) in
theorem otherAnswers (m : Moment ε) (s : State ρ θ δ) {what : Event ρ θ δ} (other : ∀ info, what ≠ .header info) :
    answers (step look s (m,what)).2 = none ∧ (step look s (m,what)).1.reserved = s.reserved := by
  obtain ⟨noAck,reserved⟩ := stepNoAck look s m other
  refine ⟨?_,reserved⟩
  rw [answers,List.findSome?_eq_none_iff]
  intro o mem
  have quiet := noAck o mem
  cases o with
  | ack rows told fold => cases quiet
  | _ => rfl

/-! Moves. -/

theorem stillServe {s : Handshake ε ρ θ δ} {msg : AnnMsg} {fifo : List AnnMsg} (next : s.fifo = msg :: fifo)
    (other : isHeader msg = false) : headers { s with fifo := fifo } = headers s := by
  rw [headers,headers,next,List.filter_cons_of_neg (by simp [other])]

theorem noticeEvent {msg : AnnMsg} (other : isHeader msg = false) :
    ∀ info, (msg.event : Event ρ θ δ) ≠ .header info := by
  intro info same
  cases msg with
  | header _ => cases other
  | resize => cases same
  | vimMode _ => cases same

theorem workedReserved (s : State ρ θ δ) (i k : Nat) (found : Option δ) :
    (worked s i k found).reserved = s.reserved := by
  unfold worked
  split <;> rfl

theorem serveInOrder {s : Handshake ε ρ θ δ} (order : InOrder look s) (m : Moment ε) :
    InOrder look (handshakeStep look s (m,.serve)).1 := by
  cases rest : s.rest with
  | some rest' => simpa only [handshakeStep,rest] using order
  | none =>
    cases next : s.fifo with
    | nil => simpa only [handshakeStep,rest,next] using order
    | cons msg fifo =>
      cases kind : isHeader msg with
      | false =>
        obtain ⟨quiet,reserved⟩ := otherAnswers look m s.loop (noticeEvent (ρ := ρ) (θ := θ) (δ := δ) kind)
        have kept := stillServe next kind
        refine inOrderSame order ?_
        simp only [handshakeStep,rest,next,quiet,Option.map_none,Option.elim_none]
        exact ⟨kept,rest.symm,rfl,rfl,rfl,rfl,rfl,reserved⟩
      | true =>
        obtain ⟨info,rfl⟩ : ∃ info, msg = .header info := by
          cases msg with
          | header info => exact ⟨info,rfl⟩
          | resize => cases kind
          | vimMode _ => cases kind
        obtain ⟨a,answer,reserved⟩ := headerAnswers look m s.loop info
        have waiting : ∃ back, headers s = .header info :: back :=
          ⟨_,by rw [headers,next,List.filter_cons_of_pos (by rfl)]⟩
        obtain ⟨back,waiting⟩ := waiting
        have behind : fifo.filter isHeader = back := by
          rw [headers,next,List.filter_cons_of_pos (by rfl)] at waiting
          exact (List.cons_eq_cons.mp waiting).2
        have moved : (handshakeStep look s (m,.serve)).1 = { s with
            loop := (step look s.loop (m,.header info)).1
            fifo := fifo
            rest := some (ackText a)
            tmp := some []
            served := some (m,s.loop) } := by
          simp only [handshakeStep,rest,next,AnnMsg.event,answer,Option.map_some,Option.elim_some]
        rw [moved]
        unfold InOrder at order ⊢
        cases place : s.shell with
        | waiting =>
          rw [place] at order
          cases order with
          | @announced asked one known rest' ack =>
            rw [waiting] at one
            obtain ⟨same,none'⟩ := List.cons_eq_cons.mp one
            cases same
            refine .written (behind.trans none') rfl rfl ?_ ack
            exact ⟨m,s.loop,info,a,known,rfl,answer,reserved,rfl⟩
          | written none' => cases waiting.symm.trans none'
          | there still => cases waiting.symm.trans still.1
        | _ =>
          rw [place] at order
          cases waiting.symm.trans order.1.1

def Patient (_ : Handshake ε ρ θ δ) (a : Moment ε × Move ρ θ δ) : Prop := a.2 ≠ .breakOff

theorem announceInOrder {s : Handshake ε ρ θ δ} (order : InOrder look s) (m : Moment ε) (info : HeaderInfo) :
    InOrder look (handshakeStep look s (m,.announce info)).1 := by
  simp only [handshakeStep]
  split
  · rename_i busy
    unfold InOrder at order
    rw [busy] at order
    have asked : some info = some info := rfl
    refine .announced ?_ asked order.1.2 order.2
    rw [headers,List.filter_append,show s.fifo.filter isHeader = [] from order.1.1]
    rfl
  · exact order

theorem readInOrder {s : Handshake ε ρ θ δ} (order : InOrder look s) (m : Moment ε) :
    InOrder look (handshakeStep look s (m,.read)).1 := by
  unfold InOrder at order
  cases place : s.shell with
  | found =>
    rw [place] at order
    obtain ⟨still,text,ack,fit⟩ := order
    have content : s.ack.getD [] = text := by rw [ack,Option.getD_some]
    simp only [handshakeStep,place,content]
    exact ⟨still,ack,fitSame fit rfl rfl rfl⟩
  | _ =>
    simp only [handshakeStep,place]
    unfold InOrder
    rw [place] at order ⊢
    exact order

/-- While an answer is being written the shell waits for it. -/
theorem writingWaits {s : Handshake ε ρ θ δ} (order : InOrder look s) {left : Bytes} (rest : s.rest = some left) :
    s.shell = .waiting ∧ headers s = [] ∧ s.ack = none ∧ ∃ done, s.tmp = some done ∧ Fit look s (done ++ left) := by
  unfold InOrder at order
  cases place : s.shell with
  | waiting =>
    rw [place] at order
    cases order with
    | announced _ _ none' => cases rest.symm.trans none'
    | there still => cases rest.symm.trans still.2
    | @written done left' none' rest' tmp fit ack =>
      obtain rfl : left = left' := Option.some.inj (rest.symm.trans rest')
      exact ⟨rfl,none',ack,done,tmp,fit⟩
  | _ =>
    rw [place] at order
    cases rest.symm.trans order.1.2

theorem writeInOrder {s : Handshake ε ρ θ δ} (order : InOrder look s) (m : Moment ε) (n : Nat) :
    InOrder look (handshakeStep look s (m,.write n)).1 := by
  cases rest : s.rest with
  | none => simpa only [handshakeStep,rest] using order
  | some left =>
    obtain ⟨place,none',ack,done,tmp,fit⟩ := writingWaits order rest
    have whole : done ++ left.take n ++ left.drop n = done ++ left := by
      rw [List.append_assoc,List.take_append_drop]
    have more : s.tmp.map (· ++ left.take n) = some (done ++ left.take n) := by rw [tmp,Option.map_some]
    simp only [handshakeStep,rest,InOrder,place]
    refine .written none' rfl more ?_ ack
    rw [whole]
    exact fitSame fit rfl rfl rfl

theorem renameInOrder {s : Handshake ε ρ θ δ} (order : InOrder look s) (m : Moment ε) :
    InOrder look (handshakeStep look s (m,.rename)).1 := by
  cases rest : s.rest with
  | none => simpa only [handshakeStep,rest] using order
  | some left =>
    cases left with
    | cons b left => simpa only [handshakeStep,rest] using order
    | nil =>
      obtain ⟨place,none',_,done,tmp,fit⟩ := writingWaits order rest
      rw [List.append_nil] at fit
      simp only [handshakeStep,rest,InOrder,place]
      exact .there ⟨none',rfl⟩ tmp (fitSame fit rfl rfl rfl)

theorem inOrderStep {s : Handshake ε ρ θ δ} (order : InOrder look s) {a : Moment ε × Move ρ θ δ} (patient : Patient s a) :
    InOrder look (handshakeStep look s a).1 := by
  obtain ⟨m,move⟩ := a
  cases move with
  | announce info => exact announceInOrder order m info
  | notify msg =>
    cases msg with
    | header info => exact order
    | resize =>
      refine inOrderSame order ⟨?_,rfl,rfl,rfl,rfl,rfl,rfl,rfl⟩
      simp only [handshakeStep,headers,List.filter_append]
      exact List.append_nil _
    | vimMode mode =>
      refine inOrderSame order ⟨?_,rfl,rfl,rfl,rfl,rfl,rfl,rfl⟩
      simp only [handshakeStep,headers,List.filter_append]
      exact List.append_nil _
  | poll =>
    simp only [handshakeStep]
    split
    · rename_i ready
      unfold InOrder at order
      rw [ready.1] at order
      cases order with
      | announced _ _ _ ack => rw [ack] at ready; cases ready.2
      | written _ _ _ _ ack => rw [ack] at ready; cases ready.2
      | there still ack fit => exact ⟨still,_,ack,fitSame fit rfl rfl rfl⟩
    · exact order
  | read => exact readInOrder order m
  | remove =>
    unfold InOrder at order
    cases place : s.shell with
    | read text =>
      rw [place] at order
      simp only [handshakeStep,place]
      exact ⟨order.1,rfl,fitSame order.2.2 rfl rfl rfl⟩
    | _ =>
      simp only [handshakeStep,place]
      unfold InOrder
      rw [place] at order ⊢
      exact order
  | print =>
    unfold InOrder at order
    cases place : s.shell with
    | removed text =>
      rw [place] at order
      simp only [handshakeStep,place]
      exact ⟨order.1,order.2.1⟩
    | _ =>
      simp only [handshakeStep,place]
      unfold InOrder
      rw [place] at order ⊢
      exact order
  | breakOff => exact absurd rfl patient
  | serve => exact serveInOrder order m
  | engine e =>
    simp only [handshakeStep]
    split
    · rename_i mine
      have other : ∀ info, e ≠ .header info := by
        rintro info rfl
        cases mine.2
      exact inOrderSame order ⟨rfl,rfl,rfl,rfl,rfl,rfl,rfl,(otherAnswers _ m s.loop other).2⟩
    · exact order
  | worked i k found => exact inOrderSame order ⟨rfl,rfl,rfl,rfl,rfl,rfl,rfl,workedReserved s.loop i k found⟩
  | write n => exact writeInOrder order m n
  | rename => exact renameInOrder order m

theorem inOrderStart (loop : State ρ θ δ) : InOrder look (handshakeStart loop) := ⟨⟨rfl,rfl⟩,rfl⟩

/-! What the shell makes of the ack. -/

theorem digitsPlain (n : Nat) : (10 : UInt8) ∉ Utf8.encode (decimal n) := by
  intro mem
  obtain ⟨c,digit,here⟩ := List.mem_flatMap.mp mem
  obtain ⟨low,high⟩ := Text.digitRange (Text.decimalDigits digit)
  have one : String.utf8EncodeChar c = [UInt8.ofNat c.toNat] := if_pos (by simp only [Char.toNat] at high ⊢; omega)
  rw [one,List.mem_singleton] at here
  have value := congrArg UInt8.toNat here
  rw [Utf8.toNatOfNat (by omega)] at value
  exact absurd value (by simp; omega)

theorem ackRows (a : Answer) : (ackLines (ackText a)).head? = some (Utf8.encode (decimal a.rows)) := by
  have first := Framing.splitFirst (digitsPlain a.rows)
    (Framing.join 10 [a.inputPrefix,[if a.fold then 49 else 48]])
  have whole : ackText a = Utf8.encode (decimal a.rows) ++
      10 :: Framing.join 10 [a.inputPrefix,[if a.fold then 49 else 48]] := by simp [ackText,Framing.join]
  rw [ackLines,whole,first]
  rfl

/-- The three lines come back exactly when the prefix is one line. -/
theorem ackLinesIff (a : Answer) :
    ackLines (ackText a) = [Utf8.encode (decimal a.rows),a.inputPrefix,[if a.fold then 49 else 48]] ↔
      10 ∉ a.inputPrefix := by
  have last : (10 : UInt8) ∉ [if a.fold then 49 else 48] := by cases a.fold <;> decide
  constructor
  · intro lines
    have clean := (Framing.splitClean 10 (ackText a)).1
    rw [show (Framing.split 10 (ackText a)).1 = _ from lines] at clean
    exact clean _ (by simp)
  · intro clean
    have each : ∀ m ∈ [Utf8.encode (decimal a.rows),a.inputPrefix,[if a.fold then 49 else 48]], (10 : UInt8) ∉ m := by
      simp only [List.forall_mem_cons]
      exact ⟨digitsPlain a.rows,clean,last,List.forall_mem_nil _⟩
    have whole := Framing.splitJoin each []
    rw [List.append_nil] at whole
    rw [ackLines,ackText,whole]
    rfl

/-- In every run in which no wait is broken off, what the shell has read when it prints its prompt is a whole answer
to the prompt that it announced, and its rows are those that the loop has reserved. -/
theorem promptsAnswered (loop : State ρ θ δ) (moves : List (Moment ε × Move ρ θ δ))
    (patient : Machine.Guarded (handshakeStep look) Patient (handshakeStart loop) moves) :
    let s := (Machine.run (handshakeStep look) (handshakeStart loop) moves).1
    ∀ text, s.shell = .removed text → s.ack = none ∧
      ∃ m before info a, s.asked = some info ∧ s.served = some (m,before) ∧
        answers (step look before (m,.header info)).2 = some a ∧ text = ackText a ∧ s.loop.reserved = some a.rows ∧
        (ackLines text).head? = some (Utf8.encode (decimal a.rows)) ∧
        (10 ∉ a.inputPrefix → ackLines text =
          [Utf8.encode (decimal a.rows),a.inputPrefix,[if a.fold then 49 else 48]]) := by
  intro s text place
  have order := Machine.runKeeps (I := InOrder look) (fun _ _ order patient => inOrderStep order patient)
    (inOrderStart loop) patient
  unfold InOrder at order
  rw [place] at order
  obtain ⟨_,ack,m,before,info,a,asked,served,answer,reserved,rfl⟩ := order
  exact ⟨ack,m,before,info,a,asked,served,answer,rfl,reserved,ackRows a,(ackLinesIff a).mpr⟩

/-! Progress. -/

def serving (s : Handshake ε ρ θ δ) : Move ρ θ δ :=
  match s.rest with
  | none => .serve
  | some [] => .rename
  | some (b :: rest) => .write (b :: rest).length

def served (look : Look ε ρ θ δ) (m : Moment ε) : Nat → Handshake ε ρ θ δ → Handshake ε ρ θ δ
  | 0, s => s
  | n+1, s => served look m n (handshakeStep look s (m,serving s)).1

theorem answerWritten {s : Handshake ε ρ θ δ} {done rest : Bytes} (rest' : s.rest = some rest) (tmp : s.tmp = some done)
    (m : Moment ε) : ∃ n ≤ 2, (served look m n s).shell = s.shell ∧ (served look m n s).ack.isSome := by
  cases rest with
  | nil =>
    refine ⟨1,by omega,?_,?_⟩
    · simp only [served,serving,handshakeStep,rest']
    · simp only [served,serving,handshakeStep,rest',tmp,Option.isSome_some]
  | cons b rest =>
    refine ⟨2,by omega,?_,?_⟩
    · simp only [served,serving,handshakeStep,rest',List.drop_length]
    · simp only [served,serving,handshakeStep,rest',List.drop_length,tmp,Option.map_some,Option.isSome_some]

variable (look) in
theorem serveNext {s : Handshake ε ρ θ δ} {msg : AnnMsg} {fifo : List AnnMsg} (m : Moment ε) (rest : s.rest = none)
    (next : s.fifo = msg :: fifo) : (handshakeStep look s (m,serving s)).1.fifo = fifo ∧
      (handshakeStep look s (m,serving s)).1.shell = s.shell := by
  simp only [serving,handshakeStep,rest,next,and_self]

/-- The engine gets to the prompt behind everything that was announced before it. -/
theorem answerComes {s : Handshake ε ρ θ δ} (order : InOrder look s) (waiting : s.shell = .waiting) (m : Moment ε) :
    ∃ n ≤ s.fifo.length + 2, (served look m n s).shell = .waiting ∧ (served look m n s).ack.isSome := by
  generalize queue : s.fifo = fifo
  have underWay : UnderWay look s := by
    unfold InOrder at order
    rwa [waiting] at order
  induction fifo generalizing s with
  | nil =>
    cases underWay with
    | announced one => simp [headers,queue] at one
    | written _ rest tmp =>
      obtain ⟨n,few,shell,ack⟩ := answerWritten rest tmp m
      exact ⟨n,by omega,shell.trans waiting,ack⟩
    | there _ ack => exact ⟨0,by omega,waiting,by simp only [served,ack,Option.isSome_some]⟩
  | cons msg fifo ih =>
    cases underWay with
    | announced _ _ rest =>
      obtain ⟨rest',shell⟩ := serveNext look m rest queue
      have next : InOrder look (handshakeStep look s (m,serving s)).1 := by
        refine inOrderStep order ?_
        simp only [Patient,serving,rest,ne_eq,reduceCtorEq,not_false_eq_true]
      have there := shell.trans waiting
      obtain ⟨n,few,shell',ack⟩ := ih next there rest' (by
        unfold InOrder at next
        rwa [there] at next)
      exact ⟨n+1,by simp only [List.length_cons]; omega,shell',ack⟩
    | written _ rest tmp =>
      obtain ⟨n,few,shell,ack⟩ := answerWritten rest tmp m
      exact ⟨n,by omega,shell.trans waiting,ack⟩
    | there _ ack => exact ⟨0,by omega,waiting,by simp only [served,ack,Option.isSome_some]⟩

variable (look) in
/-- Whatever came before, a shell that waits for its answer has it as soon as the engine has gone through what is
announced, and nobody else has to do anything for it. -/
theorem waitsEnd (loop : State ρ θ δ) (moves : List (Moment ε × Move ρ θ δ))
    (patient : Machine.Guarded (handshakeStep look) Patient (handshakeStart loop) moves) (m : Moment ε) :
    let s := (Machine.run (handshakeStep look) (handshakeStart loop) moves).1
    s.shell = .waiting → ∃ n ≤ s.fifo.length + 2, (served look m n s).shell = .waiting ∧
      (served look m n s).ack.isSome := by
  intro s waiting
  exact answerComes (Machine.runKeeps (I := InOrder look) (fun _ _ order patient => inOrderStep order patient)
    (inOrderStart loop) patient) waiting m

end handshake

/-- A prompt up to the moment at which the shell has its answer; the window changes while the shell waits. -/
def answeredPrompt : List (Moment Unit × Move Unit Unit Bytes) :=
  [.notify .resize,.announce ⟨some 0,[97],0,0,0,[]⟩,.serve,.notify (.vimMode [118]),.serve,.poll,.write 2,.write 9,
    .rename,.poll,.read,.serve,.remove].map (quietMoment,·)

theorem answeredPatient :
    Machine.Guarded (handshakeStep plainLook) Patient (handshakeStart plainStart) answeredPrompt := by
  refine ⟨?_,?_,?_,?_,?_,?_,?_,?_,?_,?_,?_,?_,?_,trivial⟩ <;>
    (intro broken; cases broken)

theorem promptAnswered :
    let s := (Machine.run (handshakeStep plainLook) (handshakeStart plainStart) answeredPrompt).1
    ∃ text, s.shell = .removed text ∧ s.ack = none := by
  have place : (Machine.run (handshakeStep plainLook) (handshakeStart plainStart) answeredPrompt).1.shell =
      .removed [49,10,10,48,10] := by decide
  exact ⟨_,place,(promptsAnswered plainStart answeredPrompt answeredPatient _ place).1⟩

/-- The same prompt when the engine has not got to it. -/
theorem promptComes : ∃ n ≤ 4,
    (served plainLook quietMoment n
      (Machine.run (handshakeStep plainLook) (handshakeStart plainStart) (answeredPrompt.take 2)).1).ack.isSome := by
  obtain ⟨n,few,_,ack⟩ := waitsEnd plainLook plainStart (answeredPrompt.take 2)
    ⟨answeredPatient.1,answeredPatient.2.1,trivial⟩ quietMoment (by decide)
  exact ⟨n,few,ack⟩

end P11k.Engine
