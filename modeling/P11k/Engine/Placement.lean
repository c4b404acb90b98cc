import P11k.Engine.Status
import P11k.Engine.Signal

/-! One read of shell output on its way to the terminal: what is forwarded, what is painted, and
where. Reading byte by byte places each paint where its signal stood; a larger read does so unless
it completes two signals with output between them. -/
namespace P11k.Engine
open Gitstatus (Bytes)
open Markers (marks)

inductive Item (δ : Type) where
  | byte (b : UInt8)
  | drawn (o : Output δ)
  deriving DecidableEq

/-- `skip` bytes still belong to the prefix before. -/
def rewriteLoop (visible colored : Bytes) : Nat → Bytes → Bytes
  | _, [] => []
  | skip+1, _ :: data => rewriteLoop visible colored skip data
  | 0, b :: data =>
      if visible.isPrefixOf (b :: data) then colored ++ rewriteLoop visible colored (visible.length - 1) data
      else b :: rewriteLoop visible colored 0 data

def rewritePwshPrefix (data : Bytes) (shell : Shell) : Option (Bytes × Bytes) → Bytes
  | none => data
  | some (visible,colored) =>
      if shell ≠ .pwsh ∨ visible.isEmpty then data else rewriteLoop visible colored 0 data

section reads
variable {ε ρ θ δ : Type} (look : Look ε ρ θ δ) (pwshPrefix : Option (Bytes × Bytes))

def readStep (st : State ρ θ δ × SignalScanner) (r : Moment ε × Bytes) :
    (State ρ θ δ × SignalScanner) × List (Item δ) :=
  let pushed := st.2.push r.2
  let painted := output look r.1 st.1 pushed.2.signals (r.2.count 10)
  let before := rewritePwshPrefix pushed.2.before st.1.shell pwshPrefix
  let after := rewritePwshPrefix pushed.2.after st.1.shell pwshPrefix
  ((painted.1,pushed.1),before.map .byte ++ painted.2.map .drawn ++ after.map .byte)

/-- The same bytes at the same moments, each in a read of its own. -/
def bytewise (reads : List (Moment ε × Bytes)) : List (Moment ε × Bytes) :=
  reads.flatMap fun r => r.2.map fun b => (r.1,[b])

/-- Where the paints stand among the forwarded bytes. -/
def placed (items : List (Item δ)) : List (Option UInt8) :=
  items.flatMap fun
    | .byte b => [some b]
    | .drawn (.paint _) => [none]
    | .drawn _ => []

/-- The read completes two signals with output between them. -/
def Splits (x c : Bytes) : Prop :=
  ∃ p q r b, marks promptSignal 0 (x ++ c) = p ++ none :: (q ++ none :: r) ∧
    signalsIn x ≤ p.count none ∧ some b ∈ q

def Whole (x : Bytes) : List (Moment ε × Bytes) → Prop
  | [] => True
  | r :: reads => ¬ Splits x r.2 ∧ Whole (x ++ r.2) reads

/-- The output path as it should be: a byte is forwarded and a signal painted where it stands. -/
def tellStep (s : State ρ θ δ) (e : Moment ε × Option UInt8) : State ρ θ δ × List (Item δ) :=
  match e.2 with
  | some b => (s,[.byte b])
  | none =>
      let painted := signal look e.1 s
      (painted.1,painted.2.map .drawn)

/-- The order in which a read tells what it shows. -/
def gather (ms : List (Option UInt8)) : List (Option UInt8) :=
  (summary ms).before.map some ++ List.replicate (summary ms).signals none ++ (summary ms).after.map some

def tell (m : Moment ε) (s : State ρ θ δ) (ms : List (Option UInt8)) : State ρ θ δ × List (Item δ) :=
  Machine.run (tellStep look) s (ms.map (m,·))

theorem tellAppend (m : Moment ε) (s : State ρ θ δ) (ms ns : List (Option UInt8)) :
    tell look m s (ms ++ ns) =
      ((tell look m (tell look m s ms).1 ns).1,(tell look m s ms).2 ++ (tell look m (tell look m s ms).1 ns).2) := by
  rw [tell,List.map_append,Machine.runAppend]
  rfl

theorem tellBytes (m : Moment ε) (s : State ρ θ δ) (bytes : Bytes) :
    tell look m s (bytes.map some) = (s,bytes.map .byte) := by
  induction bytes with
  | nil => rfl
  | cons b bytes ih =>
    rw [List.map_cons,← List.singleton_append,tellAppend]
    show ((tell look m s (bytes.map some)).1,[Item.byte b] ++ (tell look m s (bytes.map some)).2) = _
    rw [ih]
    rfl

theorem tellSignals (m : Moment ε) (s : State ρ θ δ) (n : Nat) :
    tell look m s (List.replicate n none) = ((signals look m n s).1,(signals look m n s).2.map .drawn) := by
  induction n generalizing s with
  | zero => rfl
  | succ n ih =>
    rw [List.replicate_succ,← List.singleton_append,tellAppend]
    show ((tell look m (signal look m s).1 (List.replicate n none)).1,
      (signal look m s).2.map Item.drawn ++ [] ++ (tell look m (signal look m s).1 (List.replicate n none)).2) = _
    rw [ih,List.append_nil,signals,List.map_append]

theorem tellState (m : Moment ε) (s : State ρ θ δ) (ms : List (Option UInt8)) :
    (tell look m s ms).1 = (signals look m (ms.count none) s).1 := by
  induction ms generalizing s with
  | nil => rfl
  | cons b ms ih =>
    rw [← List.singleton_append,tellAppend]
    cases b with
    | none =>
      rw [List.singleton_append,List.count_cons_self]
      exact ih (signal look m s).1
    | some b =>
      rw [List.singleton_append,List.count_cons_of_ne (by simp)]
      exact ih s

theorem placedAppend (is js : List (Item δ)) : placed (is ++ js) = placed is ++ placed js :=
  List.flatMap_append

theorem placedSignal (m : Moment ε) (s : State ρ θ δ) :
    placed ((signal look m s).2.map Item.drawn) = [none] := by
  obtain ⟨p,painted,_⟩ := signalPaints look m s
  have quiet : placed ((beforePaint s).map (Item.drawn (δ := δ))) = [] := by
    unfold beforePaint
    split <;> split <;> rfl
  rw [painted,List.map_append,placedAppend,quiet]
  rfl

theorem placedTell (m : Moment ε) (s : State ρ θ δ) (ms : List (Option UInt8)) :
    placed (tell look m s ms).2 = ms := by
  induction ms generalizing s with
  | nil => rfl
  | cons b ms ih =>
    rw [← List.singleton_append,tellAppend,placedAppend,ih]
    cases b with
    | none =>
      show placed ((signal look m s).2.map Item.drawn ++ []) ++ ms = _
      rw [List.append_nil,placedSignal]
    | some b => rfl

theorem signalsNewlines (m : Moment ε) (s : State ρ θ δ) (n k : Nat) :
    signals look m n { s with instantNewlines := k } =
      ({ (signals look m n s).1 with instantNewlines := k },(signals look m n s).2) := by
  induction n generalizing s with
  | zero => rfl
  | succ n ih =>
    have first : signal look m { s with instantNewlines := k } =
        ({ (signal look m s).1 with instantNewlines := k },(signal look m s).2) := rfl
    simp only [signals,first,ih]

theorem signalsShell (m : Moment ε) (s : State ρ θ δ) (n : Nat) : (signals look m n s).1.shell = s.shell := by
  induction n generalizing s with
  | zero => rfl
  | succ n ih => exact ih (signal look m s).1

theorem rewriteOther {shell : Shell} (other : shell ≠ .pwsh) (data : Bytes) :
    rewritePwshPrefix data shell pwshPrefix = data := by
  unfold rewritePwshPrefix
  split
  · rfl
  · rw [if_pos (.inl other)]

/-- A read tells what it shows, in its own order. The newlines of the instant phase are the only
thing that the cuts of the stream leave behind. -/
theorem readTells {s : State ρ θ δ} {scanner : SignalScanner} (other : s.shell ≠ .pwsh) (m : Moment ε)
    {c : Bytes} {ms : List (Option UInt8)} (scan : (scanner.push c).2 = summary ms) (k : Nat) : ∃ k',
    readStep look pwshPrefix ({ s with instantNewlines := k },scanner) (m,c) =
      (({ (tell look m s ms).1 with instantNewlines := k' },(scanner.push c).1),
        (tell look m s (gather ms)).2) := by
  have count : (summary ms).signals = ms.count none := by
    simpa [summary] using (summaryBytes ms ⟨[],0,[]⟩ (fun _ => rfl)).2
  have outs : (tell look m s (gather ms)).2 = (summary ms).before.map .byte ++
      (signals look m (ms.count none) s).2.map .drawn ++ (summary ms).after.map .byte := by
    rw [gather,tellAppend,tellAppend,tellBytes,tellSignals,tellBytes,count]
  rw [tellState,outs]
  simp only [readStep,output,scan,count,signalsNewlines,rewriteOther pwshPrefix other]
  split
  · exact ⟨_,rfl⟩
  · exact ⟨k,rfl⟩

end reads

theorem someOnly {ms : List (Option UInt8)} (bytes : none ∉ ms) : (ms.filterMap id).map some = ms := by
  induction ms with
  | nil => rfl
  | cons m ms ih =>
    rw [List.mem_cons,not_or] at bytes
    cases m with
    | none => exact absurd rfl bytes.1
    | some b => simpa using ih bytes.2

theorem bytesAndSignals (ms : List (Option UInt8)) : (ms.filterMap id).length + ms.count none = ms.length := by
  induction ms with
  | nil => rfl
  | cons m ms ih =>
    cases m with
    | none =>
      rw [List.filterMap_cons_none rfl,List.count_cons_self,List.length_cons]
      omega
    | some b =>
      rw [List.filterMap_cons_some (f := id) rfl,List.count_cons_of_ne (by simp),List.length_cons,List.length_cons]
      omega

theorem gatherBytes (bytes : Bytes) : gather (bytes.map some) = bytes.map some := by
  have scan : summary (bytes.map some) = ⟨bytes,0,[]⟩ := by
    rw [summary,summarizeBytes]
    rfl
  rw [gather,scan]
  simp

theorem gatherBehind (bytes : Bytes) (ms : List (Option UInt8)) :
    gather (bytes.map some ++ none :: ms) =
      bytes.map some ++ none :: (List.replicate (ms.count none) none ++ (ms.filterMap id).map some) := by
  have scan : summary (bytes.map some ++ none :: ms) = ⟨bytes,1 + ms.count none,ms.filterMap id⟩ := by
    rw [summary,List.foldl_append,summarizeBytes,List.foldl_cons,if_pos rfl]
    exact summarizeBehind ms (Nat.succ_ne_zero 0)
  rw [gather,scan,Nat.add_comm 1,List.replicate_succ]
  simp

theorem gatherLength (ms : List (Option UInt8)) : (gather ms).length = ms.length := by
  obtain ⟨bytes,count⟩ := summaryBytes ms ⟨[],0,[]⟩ (fun _ => rfl)
  have whole := bytesAndSignals ms
  have size := congrArg List.length bytes
  simp only [List.length_append,List.length_nil] at size
  simp only [gather,summary,List.length_append,List.length_map,List.length_replicate,count]
  omega

/-- Behind the first signal the order is kept when no byte stands before a later signal. -/
theorem sortedBehind (ms : List (Option UInt8)) :
    List.replicate (ms.count none) none ++ (ms.filterMap id).map some = ms ↔
      ¬ ∃ q r b, ms = q ++ none :: r ∧ some b ∈ q := by
  induction ms with
  | nil => simp
  | cons m ms ih =>
    cases m with
    | none =>
      have front : List.replicate ((none :: ms).count none) none ++ ((none :: ms).filterMap id).map some =
          none :: (List.replicate (ms.count none) none ++ (ms.filterMap id).map some) := by
        simp [List.replicate_succ]
      rw [front,List.cons_inj_right,ih]
      refine not_congr ⟨?_,?_⟩
      · rintro ⟨q,r,b,rfl,mem⟩
        exact ⟨none :: q,r,b,rfl,List.mem_cons_of_mem _ mem⟩
      · rintro ⟨q,r,b,split,mem⟩
        cases q with
        | nil => contradiction
        | cons a q =>
          obtain ⟨rfl,rfl⟩ := List.cons_eq_cons.mp split
          exact ⟨q,r,b,rfl,by simpa using mem⟩
    | some b =>
      constructor
      · rintro sorted ⟨q,r,b',split,mem⟩
        have later : none ∈ ms := by
          cases q with
          | nil => contradiction
          | cons a q =>
            obtain ⟨rfl,rfl⟩ := List.cons_eq_cons.mp split
            simp
        obtain ⟨n,size⟩ := Nat.exists_eq_succ_of_ne_zero (Nat.ne_of_gt (List.count_pos_iff.mpr later))
        rw [List.count_cons_of_ne (by simp),size,List.replicate_succ] at sorted
        simp at sorted
      · intro apart
        have bytes : none ∉ some b :: ms := by
          intro mem
          rw [List.mem_cons] at mem
          rcases mem with same | later
          · contradiction
          · obtain ⟨q,r,rfl⟩ := List.append_of_mem later
            exact apart ⟨some b :: q,r,b,rfl,List.mem_cons_self⟩
        rw [List.count_eq_zero.mpr bytes,List.replicate_zero,List.nil_append,someOnly bytes]

theorem gatherWhole (ms : List (Option UInt8)) :
    gather ms = ms ↔ ¬ ∃ p q r b, ms = p ++ none :: (q ++ none :: r) ∧ some b ∈ q := by
  by_cases signal' : none ∈ ms
  · obtain ⟨front,behind,rfl,bytes⟩ := List.eq_append_cons_of_mem signal'
    have shape := gatherBehind (front.filterMap id) behind
    rw [someOnly bytes] at shape
    rw [shape,List.append_cancel_left_eq,List.cons_inj_right,sortedBehind]
    refine not_congr ⟨?_,?_⟩
    · rintro ⟨q,r,b,rfl,mem⟩
      exact ⟨front,q,r,b,rfl,mem⟩
    · rintro ⟨p,q,r,b,split,mem⟩
      rcases List.append_eq_append_iff.mp split with ⟨more,rfl,tail⟩ | ⟨more,rfl,tail⟩
      · cases more with
        | nil =>
          rw [List.nil_append,List.cons_inj_right] at tail
          exact ⟨q,r,b,tail,mem⟩
        | cons a more =>
          obtain ⟨rfl,rfl⟩ := List.cons_eq_cons.mp tail
          exact ⟨more ++ none :: q,r,b,by simp,by simp [mem]⟩
      · cases more with
        | nil =>
          rw [List.nil_append,List.cons_inj_right] at tail
          exact ⟨q,r,b,tail.symm,mem⟩
        | cons a more =>
          obtain ⟨rfl,_⟩ := List.cons_eq_cons.mp tail
          exact absurd (List.mem_append_right p List.mem_cons_self) bytes
  · have same := gatherBytes (ms.filterMap id)
    rw [someOnly signal'] at same
    refine iff_of_true same ?_
    rintro ⟨p,q,r,b,rfl,_⟩
    simp at signal'

theorem splitsTwo {x c : Bytes} (splits : Splits x c) : signalsIn x + 2 ≤ signalsIn (x ++ c) := by
  obtain ⟨p,q,r,b,shown,past,_⟩ := splits
  rw [signalsIn,signalsIn] at *
  rw [shown]
  simp only [List.count_append,List.count_cons_self]
  omega

theorem pastSignals {out u p v : List (Option UInt8)} (split : out ++ u = p ++ none :: v)
    (past : out.count none ≤ p.count none) : ∃ more, p = out ++ more ∧ u = more ++ none :: v := by
  rcases List.append_eq_append_iff.mp split with ⟨more,rfl,tail⟩ | ⟨more,rfl,tail⟩
  · exact ⟨more,rfl,tail⟩
  · cases more with
    | nil => exact ⟨[],by simp,tail.symm⟩
    | cons a more =>
      obtain ⟨rfl,_⟩ := List.cons_eq_cons.mp tail
      rw [List.count_append,List.count_cons_self] at past
      omega

theorem beforeHeld {ms w r : List (Option UInt8)} {z : Bytes}
    (split : ms ++ z.map some = w ++ none :: r) : ∃ r', ms = w ++ none :: r' := by
  have bytes : (none : Option UInt8) ∉ z.map some := by simp
  rcases List.append_eq_append_iff.mp split with ⟨more,rfl,tail⟩ | ⟨more,rfl,tail⟩
  · exact absurd (tail ▸ List.mem_append_right more List.mem_cons_self) bytes
  · cases more with
    | nil =>
      rw [List.nil_append] at tail
      exact absurd (tail ▸ List.mem_cons_self) bytes
    | cons a more =>
      obtain ⟨rfl,_⟩ := List.cons_eq_cons.mp tail
      exact ⟨more,rfl⟩

theorem splitsShown {x c y z : Bytes} {out ms : List (Option UInt8)}
    (before : Markers.Held.After promptSignal x out y)
    (after : Markers.Held.After promptSignal (x ++ c) (out ++ ms) z) : gather ms = ms ↔ ¬ Splits x c := by
  have shown := Markers.afterMarks after
  have bytes : (y.map some).count (none : Option UInt8) = 0 := List.count_eq_zero.mpr (by simp)
  have count : signalsIn x = out.count none := by
    rw [signalsIn,Markers.afterMarks before,List.count_append,bytes,Nat.add_zero]
  rw [gatherWhole]
  refine not_congr ⟨?_,?_⟩
  · rintro ⟨p,q,r,b,rfl,mem⟩
    refine ⟨out ++ p,q,r ++ z.map some,b,?_,?_,mem⟩
    · rw [shown]
      simp
    · rw [count,List.count_append]
      omega
  · rintro ⟨p,q,r,b,split,signals,mem⟩
    rw [shown,List.append_assoc] at split
    obtain ⟨more,rfl,rest⟩ := pastSignals split (count ▸ signals)
    rw [← List.cons_append,← List.append_assoc] at rest
    obtain ⟨r',rfl⟩ := beforeHeld rest
    exact ⟨more,q,r',b,by simp,mem⟩

/-- A read of one byte completes at most one signal, and then shows nothing else. -/
theorem pushByte {scanner : SignalScanner} {x : Bytes} {out : List (Option UInt8)}
    (after : Markers.Held.After promptSignal x out scanner.pending) (b : UInt8) :
    ∃ ms : List (Option UInt8),
    Markers.Held.After promptSignal (x ++ [b]) (out ++ ms) (scanner.push [b]).1.pending ∧
    (scanner.push [b]).2 = summary ms ∧ gather ms = ms := by
  obtain ⟨new,gone,reads,held,scan⟩ := pushReads scanner [b]
  have next := Markers.afterRead signalProper after reads held
  rw [List.append_assoc] at next
  refine ⟨new ++ gone.map some,next,scan,?_⟩
  have short := after.held.short
  rcases Markers.readsOnce reads signalProper (by simp; omega) with rfl | ⟨rfl,none'⟩
  · exact gatherBytes gone
  · rw [(List.append_eq_nil_iff.mp none').1]
    exact gatherBehind [] []

section runs
variable {ε ρ θ δ : Type} (look : Look ε ρ θ δ) (pwshPrefix : Option (Bytes × Bytes))

theorem tellShell (m : Moment ε) (s : State ρ θ δ) (ms : List (Option UInt8)) :
    (tell look m s ms).1.shell = s.shell := by rw [tellState,signalsShell]

theorem bytesTell {s : State ρ θ δ} (other : s.shell ≠ .pwsh) (m : Moment ε) (c : Bytes)
    {scanner : SignalScanner} {x : Bytes} {out : List (Option UInt8)}
    (after : Markers.Held.After promptSignal x out scanner.pending) (k : Nat) :
    ∃ (ms : List (Option UInt8)) (scanner' : SignalScanner) (k' : Nat),
      Markers.Held.After promptSignal (x ++ c) (out ++ ms) scanner'.pending ∧
      Machine.run (readStep look pwshPrefix) ({ s with instantNewlines := k },scanner) (c.map fun b => (m,[b])) =
        (({ (tell look m s ms).1 with instantNewlines := k' },scanner'),(tell look m s ms).2) := by
  induction c generalizing s scanner x out k with
  | nil => exact ⟨[],scanner,k,by simpa using after,rfl⟩
  | cons b c ih =>
    obtain ⟨first,next,scan,same⟩ := pushByte after b
    obtain ⟨k',read⟩ := readTells look pwshPrefix other m scan k
    rw [same] at read
    obtain ⟨later,scanner',k'',last,run'⟩ := ih (tellShell look m s first ▸ other) next k'
    refine ⟨first ++ later,scanner',k'',?_,?_⟩
    · rw [← List.append_assoc,List.append_cons]
      exact last
    · rw [List.map_cons,Machine.run,read,run',tellAppend]

theorem readsTell {s : State ρ θ δ} (other : s.shell ≠ .pwsh) (reads : List (Moment ε × Bytes))
    {scanner : SignalScanner} {x : Bytes} {out : List (Option UInt8)}
    (after : Markers.Held.After promptSignal x out scanner.pending) (k k' : Nat) :
    ∃ ms : List (Option UInt8),
      let read := Machine.run (readStep look pwshPrefix) ({ s with instantNewlines := k },scanner) reads
      let single := Machine.run (readStep look pwshPrefix) ({ s with instantNewlines := k' },scanner)
        (bytewise reads)
      Markers.Held.After promptSignal (x ++ reads.flatMap (·.2)) (out ++ ms) read.1.2.pending ∧
      placed single.2 = ms ∧ (read.2 = single.2 ↔ Whole x reads) := by
  induction reads generalizing s scanner x out k k' with
  | nil => exact ⟨[],by simpa [Machine.run] using after,rfl,iff_of_true rfl trivial⟩
  | cons r reads ih =>
    obtain ⟨m,c⟩ := r
    obtain ⟨ms,next,scan⟩ := pushAfter after c
    obtain ⟨k₁,read⟩ := readTells look pwshPrefix other m scan k
    obtain ⟨ms',scanner',k₂,next',single⟩ := bytesTell look pwshPrefix other m c after k'
    obtain ⟨same,held⟩ := Markers.afterUnique next next'
    obtain rfl := List.append_cancel_left same
    obtain rfl : (scanner.push c).1 = scanner' := by cases scanner'; cases h : (scanner.push c).1; simp_all
    obtain ⟨rest,last,shown,whole⟩ := ih (tellShell look m s ms ▸ other) next k₁ k₂
    refine ⟨ms ++ rest,?_,?_,?_⟩
    · rw [List.flatMap_cons,Machine.run,read,← List.append_assoc,← List.append_assoc]
      exact last
    · rw [bytewise,List.flatMap_cons,Machine.runAppend,single,placedAppend,placedTell]
      exact congrArg (ms ++ ·) shown
    · rw [bytewise,List.flatMap_cons,Machine.runAppend,single,Machine.run,read,Whole,← splitsShown after next,
        ← whole]
      refine ⟨fun equal => ?_,?_⟩
      · have places := congrArg placed equal
        rw [placedAppend,placedAppend,placedTell,placedTell] at places
        have order := (List.append_inj places (gatherLength ms)).1
        refine ⟨order,?_⟩
        rw [order] at equal
        exact List.append_cancel_left equal
      · rintro ⟨order,rest'⟩
        rw [order]
        exact congrArg ((tell look m s ms).2 ++ ·) rest'

/-- Reading by the cuts of the pty draws what reading byte by byte draws, each paint where its
signal stood, exactly when no read completes two signals with output between them. -/
theorem paintsPlacedIff (s : State ρ θ δ) (other : s.shell ≠ .pwsh) (reads : List (Moment ε × Bytes)) :
    let read := Machine.run (readStep look pwshPrefix) (s,⟨[]⟩) reads
    let single := Machine.run (readStep look pwshPrefix) (s,⟨[]⟩) (bytewise reads)
    (read.2 = single.2 ∧
      placed read.2 ++ read.1.2.pending.map some = marks promptSignal 0 (reads.flatMap (·.2))) ↔
    Whole [] reads := by
  obtain ⟨ms,after,shown,whole⟩ := readsTell look pwshPrefix other reads
    (Markers.afterNothing signalProper : Markers.Held.After promptSignal [] [] (⟨[]⟩ : SignalScanner).pending)
    s.instantNewlines s.instantNewlines
  rw [← whole]
  refine and_iff_left_of_imp fun same => ?_
  rw [same]
  exact shown ▸ (Markers.afterMarks after).symm

end runs

def cutSignal : List (Moment Unit × Bytes) :=
  [(quietMoment,97 :: promptSignal.take 5),(quietMoment,promptSignal.drop 5 ++ [98])]

theorem cutSignalPlaced :
    let read := Machine.run (readStep plainLook none) (plainStart,⟨[]⟩) cutSignal
    let single := Machine.run (readStep plainLook none) (plainStart,⟨[]⟩) (bytewise cutSignal)
    read.2 = single.2 ∧
      placed read.2 ++ read.1.2.pending.map some = marks promptSignal 0 (cutSignal.flatMap (·.2)) :=
  (paintsPlacedIff plainLook none plainStart (by decide) cutSignal).mpr
    ⟨fun splits => absurd (splitsTwo splits) (by decide),
      fun splits => absurd (splitsTwo splits) (by decide),trivial⟩

/-- Two signals and a byte between them, in one read. -/
def twoSignals : List (Moment Unit × Bytes) := [(quietMoment,promptSignal ++ 97 :: promptSignal)]

theorem betweenSignalsMisplaced :
    ¬ let read := Machine.run (readStep plainLook none) (plainStart,⟨[]⟩) twoSignals
      let single := Machine.run (readStep plainLook none) (plainStart,⟨[]⟩) (bytewise twoSignals)
      read.2 = single.2 ∧
        placed read.2 ++ read.1.2.pending.map some = marks promptSignal 0 (twoSignals.flatMap (·.2)) := by
  intro property
  have order : placed (Machine.run (readStep plainLook none) (plainStart,⟨[]⟩) twoSignals).2 =
      [none,none,some 97] := by decide
  have stood : marks promptSignal 0 (twoSignals.flatMap (·.2)) = [none,some 97,none] := by decide
  have same := property.2
  rw [order,stood] at same
  simp at same

end P11k.Engine
