import P11k.Engine.Theme
import P11k.Lib.Markers

/-! The prompt-ready signal in the output of the shell, and the scanner that takes it out of the
stream read by read. -/
namespace P11k.Engine
open Gitstatus (Bytes)
open Markers (marks remaining)
open scoped List

def findBytes (haystack needle : Bytes) : Option Nat :=
  if needle.isEmpty || haystack.length < needle.length then none
  else (List.range (haystack.length - needle.length + 1)).find?
    (fun i => (haystack.drop i).take needle.length == needle)

/-- `ESC ] 1337 ; p11k ; p BEL` -/
def promptSignal : Bytes := [27,93,49,51,51,55,59,112,49,49,107,59,112,7]

def signalPrefixTail (hay needle : Bytes) : Nat :=
  let most := min hay.length (needle.length - 1)
  ((List.range' 1 most).reverse.find? (fun n => hay.drop (hay.length - n) == needle.take n)).getD 0

structure SignalScanner where
  pending : Bytes
  deriving DecidableEq, Repr

structure Scan where
  before : Bytes
  signals : Nat
  after : Bytes
  deriving DecidableEq, Repr

/-- The turns of the loop on what of the pending bytes is still ahead; no turn leaves fewer
bytes than it takes. -/
def pushLoop : Nat → Bytes → Scan → Scan × Bytes
  | 0, rest, scan => (scan,rest)
  | fuel+1, rest, scan =>
      match findBytes rest promptSignal with
      | none => (scan,rest)
      | some rel =>
          let scan := if scan.signals = 0 then { scan with before := scan.before ++ rest.take rel }
            else { scan with after := scan.after ++ rest.take rel }
          pushLoop fuel (rest.drop (rel + promptSignal.length)) { scan with signals := scan.signals + 1 }

def SignalScanner.push (scanner : SignalScanner) (chunk : Bytes) : SignalScanner × Scan :=
  let pending := scanner.pending ++ chunk
  let (scan,rest) := pushLoop (pending.length + 1) pending ⟨[],0,[]⟩
  let keep := signalPrefixTail rest promptSignal
  let tail := rest.take (rest.length - keep)
  (⟨rest.drop (rest.length - keep)⟩,
    if scan.signals = 0 then { scan with before := scan.before ++ tail }
    else { scan with after := scan.after ++ tail })

theorem findBytesFind {needle : Bytes} (proper : 0 < needle.length) (haystack : Bytes) :
    findBytes haystack needle = Markers.find needle haystack := by
  have some' : needle.isEmpty = false := by
    rw [List.isEmpty_eq_false_iff]
    exact List.ne_nil_of_length_pos proper
  have window : ∀ i, ((haystack.drop i).take needle.length == needle) = true ↔ needle <+: haystack.drop i := by
    intro i
    rw [beq_iff_eq,List.prefix_iff_eq_take,eq_comm]
  unfold findBytes
  rw [some',Bool.false_or]
  cases found : Markers.find needle haystack with
  | none =>
    split
    · rfl
    · rename_i fits
      rw [List.find?_range_eq_none]
      intro i bound
      simp only [decide_eq_true_eq,Nat.not_lt] at fits
      rw [Bool.not_eq_true',← Bool.not_eq_true,window]
      refine Markers.findNone found (List.drop_suffix i haystack) ?_
      rw [← List.length_pos_iff_ne_nil,List.length_drop]
      omega
  | some i =>
    obtain ⟨here,first⟩ := Markers.findHit found
    have fits := here.length_le
    rw [List.length_drop] at fits
    rw [if_neg (by simp only [decide_eq_true_eq,Nat.not_lt]; omega),List.find?_range_eq_some]
    refine ⟨(window i).mpr here,List.mem_range.mpr (by omega),fun j before => ?_⟩
    rw [Bool.not_eq_true',← Bool.not_eq_true,window]
    exact first j before

theorem findDown (p : Nat → Bool) (most : Nat) :
    let last := ((List.range' 1 most).reverse.find? p).getD 0
    last ≤ most ∧ (last = 0 ∨ p last = true) ∧ ∀ n, last < n → n ≤ most → p n = false := by
  induction most with
  | zero => exact ⟨Nat.le_refl 0,.inl rfl,fun n below above => by omega⟩
  | succ most ih =>
    rw [List.range'_1_concat,List.reverse_append,List.reverse_singleton,List.singleton_append,
      List.find?_cons]
    cases top : p (1 + most) with
    | true => exact ⟨by simp; omega,.inr top,fun n below above => by simp at below; omega⟩
    | false =>
      obtain ⟨bound,good,rest⟩ := ih
      refine ⟨Nat.le_succ_of_le bound,good,fun n below above => ?_⟩
      rcases Nat.lt_or_eq_of_le above with lower | rfl
      · exact rest n below (by omega)
      · rwa [Nat.add_comm] at top

theorem prefixTailMost (hay needle : Bytes) :
    signalPrefixTail hay needle ≤ min hay.length (needle.length - 1) ∧
    (signalPrefixTail hay needle = 0 ∨ (hay.drop (hay.length - signalPrefixTail hay needle) ==
      needle.take (signalPrefixTail hay needle)) = true) ∧
    ∀ n, signalPrefixTail hay needle < n → n ≤ min hay.length (needle.length - 1) →
      (hay.drop (hay.length - n) == needle.take n) = false :=
  findDown (fun n => hay.drop (hay.length - n) == needle.take n) _

theorem prefixTailHeld {needle : Bytes} (proper : 0 < needle.length) (hay : Bytes) :
    Markers.Held needle hay (hay.drop (hay.length - signalPrefixTail hay needle)) := by
  obtain ⟨bound,good,best⟩ := prefixTailMost hay needle
  generalize signalPrefixTail hay needle = keep at bound good best
  have size : (hay.drop (hay.length - keep)).length = keep := by
    rw [List.length_drop]
    omega
  refine ⟨List.drop_suffix _ _,?_,by omega,fun t suffix begins short => ?_⟩
  · rcases good with rfl | same
    · simp
    · rw [beq_iff_eq.mp same]
      exact List.take_prefix keep needle
  · rw [size]
    by_contra longer
    have ending : hay.drop (hay.length - t.length) = t := (List.suffix_iff_eq_drop.mp suffix).symm
    have differs := best t.length (by omega) (by have := suffix.length_le; omega)
    rw [ending,← List.prefix_iff_eq_take.mp begins] at differs
    simp at differs

/-- What a read shows, as the two texts and the number of signals between them. -/
def summarize (scan : Scan) : Option UInt8 → Scan
  | none => { scan with signals := scan.signals + 1 }
  | some b =>
      if scan.signals = 0 then { scan with before := scan.before ++ [b] }
      else { scan with after := scan.after ++ [b] }

def summary (ms : List (Option UInt8)) : Scan := ms.foldl summarize ⟨[],0,[]⟩

theorem summarizeBytes (scan : Scan) (bytes : Bytes) : (bytes.map some).foldl summarize scan =
    if scan.signals = 0 then { scan with before := scan.before ++ bytes }
    else { scan with after := scan.after ++ bytes } := by
  induction bytes generalizing scan with
  | nil => simp
  | cons b bytes ih =>
    rw [List.map_cons,List.foldl_cons,ih,summarize]
    split <;> simp [*]

theorem signalProper : 0 < promptSignal.length := by decide

theorem pushLoopReads {fuel : Nat} {rest : Bytes} (enough : rest.length < fuel) (scan : Scan) :
    ∃ out, Markers.Reads promptSignal rest out (pushLoop fuel rest scan).2 ∧
      (pushLoop fuel rest scan).1 = out.foldl summarize scan := by
  induction fuel generalizing rest scan with
  | zero => omega
  | succ fuel ih =>
    unfold pushLoop
    rw [findBytesFind signalProper]
    cases found : Markers.find promptSignal rest with
    | none => exact ⟨[],.stop found,rfl⟩
    | some rel =>
      have fits := (Markers.findHit found).1.length_le
      have size := signalProper
      rw [List.length_drop] at fits
      have shorter : (rest.drop (rel + promptSignal.length)).length < fuel := by
        rw [List.length_drop]
        omega
      obtain ⟨out,reads,same⟩ := ih shorter _
      refine ⟨_,.hit found reads,?_⟩
      dsimp only
      rw [same,List.foldl_append,summarizeBytes,List.foldl_cons]
      rfl

theorem pushReads (scanner : SignalScanner) (chunk : Bytes) : ∃ out gone,
    Markers.Reads promptSignal (scanner.pending ++ chunk) out (gone ++ (scanner.push chunk).1.pending) ∧
    Markers.Held promptSignal (gone ++ (scanner.push chunk).1.pending) (scanner.push chunk).1.pending ∧
    (scanner.push chunk).2 = summary (out ++ gone.map some) := by
  obtain ⟨out,reads,same⟩ := pushLoopReads (Nat.lt_succ_self (scanner.pending ++ chunk).length) ⟨[],0,[]⟩
  cases run : pushLoop ((scanner.pending ++ chunk).length + 1) (scanner.pending ++ chunk) ⟨[],0,[]⟩ with
  | mk scan rest =>
    rw [run] at reads same
    dsimp only at reads same
    subst same
    simp only [SignalScanner.push,run]
    refine ⟨out,rest.take (rest.length - signalPrefixTail rest promptSignal),?_,?_,?_⟩
    · rwa [List.take_append_drop]
    · rw [List.take_append_drop]
      exact prefixTailHeld signalProper rest
    · rw [summary,List.foldl_append,summarizeBytes]

theorem summarizeBehind (ms : List (Option UInt8)) {scan : Scan} (behind : scan.signals ≠ 0) :
    ms.foldl summarize scan =
      ⟨scan.before,scan.signals + ms.count none,scan.after ++ ms.filterMap id⟩ := by
  induction ms generalizing scan with
  | nil => simp
  | cons m ms ih =>
    cases m with
    | none =>
      rw [List.foldl_cons,summarize,ih (Nat.succ_ne_zero scan.signals)]
      simp [Nat.add_assoc,Nat.add_comm 1]
    | some b =>
      have next := @ih { scan with after := scan.after ++ [b] } behind
      rw [List.foldl_cons,summarize,if_neg behind,next]
      simp

theorem summaryBytes (ms : List (Option UInt8)) (scan : Scan) (behind : scan.signals = 0 → scan.after = []) :
    (ms.foldl summarize scan).before ++ (ms.foldl summarize scan).after =
      scan.before ++ scan.after ++ ms.filterMap id ∧
    (ms.foldl summarize scan).signals = scan.signals + ms.count none := by
  induction ms generalizing scan with
  | nil => simp
  | cons m ms ih =>
    by_cases first : scan.signals = 0
    · cases m with
      | none =>
        have signalled : (summarize scan none).signals ≠ 0 := Nat.succ_ne_zero scan.signals
        rw [List.foldl_cons,summarizeBehind ms signalled]
        simp [summarize,Nat.add_assoc,Nat.add_comm 1]
      | some b =>
        obtain ⟨bytes,signals⟩ := ih { scan with before := scan.before ++ [b] } behind
        rw [List.foldl_cons,summarize,if_pos first,bytes,signals]
        simp [behind first]
    · rw [summarizeBehind (m :: ms) first]
      simp

def SignalScanner.pushes (scanner : SignalScanner) : List Bytes → SignalScanner × List Scan
  | [] => (scanner,[])
  | chunk :: chunks =>
      let first := scanner.push chunk
      let rest := first.1.pushes chunks
      (rest.1,first.2 :: rest.2)

theorem pushAfter {scanner : SignalScanner} {x : Bytes} {out : List (Option UInt8)}
    (after : Markers.Held.After promptSignal x out scanner.pending) (chunk : Bytes) : ∃ ms : List (Option UInt8),
    Markers.Held.After promptSignal (x ++ chunk) (out ++ ms) (scanner.push chunk).1.pending ∧
    (scanner.push chunk).2 = summary ms := by
  obtain ⟨new,gone,reads,held,scan⟩ := pushReads scanner chunk
  refine ⟨new ++ gone.map some,?_,scan⟩
  rw [← List.append_assoc]
  exact Markers.afterRead signalProper after reads held

theorem pushesAfter {scanner : SignalScanner} {x : Bytes} {out : List (Option UInt8)}
    (after : Markers.Held.After promptSignal x out scanner.pending) (chunks : List Bytes) :
    ∃ reads : List (List (Option UInt8)),
    Markers.Held.After promptSignal (x ++ chunks.flatten) (out ++ reads.flatten)
      (scanner.pushes chunks).1.pending ∧
    (scanner.pushes chunks).2 = reads.map summary := by
  induction chunks generalizing scanner x out with
  | nil => exact ⟨[],by simpa [SignalScanner.pushes] using after,rfl⟩
  | cons chunk chunks ih =>
    obtain ⟨ms,next,scan⟩ := pushAfter after chunk
    obtain ⟨reads,last,scans⟩ := ih next
    refine ⟨ms :: reads,?_,?_⟩
    · rw [List.flatten_cons,List.flatten_cons,← List.append_assoc,← List.append_assoc]
      exact last
    · rw [SignalScanner.pushes,List.map_cons,← scan,← scans]

theorem pushesNew (chunks : List Bytes) :
    ∃ reads : List (List (Option UInt8)),
    Markers.Held.After promptSignal chunks.flatten reads.flatten ((⟨[]⟩ : SignalScanner).pushes chunks).1.pending ∧
    ((⟨[]⟩ : SignalScanner).pushes chunks).2 = reads.map summary :=
  pushesAfter (Markers.afterNothing signalProper) chunks

def withoutSignals (stream : Bytes) : Bytes := (marks promptSignal 0 stream).filterMap id

def signalsIn (stream : Bytes) : Nat := (marks promptSignal 0 stream).count none

/-- Whatever the chunks, the scanner lets go of the stream without its signals, counts these, and
holds back the longest end that a signal may still grow from. -/
theorem scannerConserves (chunks : List Bytes) :
    ((⟨[]⟩ : SignalScanner).pushes chunks).2.flatMap (fun scan => scan.before ++ scan.after) ++
      ((⟨[]⟩ : SignalScanner).pushes chunks).1.pending = withoutSignals chunks.flatten ∧
    (((⟨[]⟩ : SignalScanner).pushes chunks).2.map (·.signals)).sum = signalsIn chunks.flatten ∧
    Markers.Held promptSignal (remaining (marks promptSignal 0 chunks.flatten))
      ((⟨[]⟩ : SignalScanner).pushes chunks).1.pending := by
  obtain ⟨reads,after,scans⟩ := pushesNew chunks
  have shown := Markers.afterMarks after
  have each : ∀ ms, (summary ms).before ++ (summary ms).after = ms.filterMap id ∧
      (summary ms).signals = ms.count none := fun ms => by
    simpa [summary] using summaryBytes ms ⟨[],0,[]⟩ (fun _ => rfl)
  refine ⟨?_,?_,?_⟩
  · have bytes : reads.flatMap (fun ms => (summary ms).before ++ (summary ms).after) =
        reads.flatten.filterMap id := by
      rw [List.filterMap_flatten,List.flatMap_def]
      exact congrArg List.flatten (List.map_congr_left fun ms _ => (each ms).1)
    rw [withoutSignals,shown,List.filterMap_append,scans,List.flatMap_map,bytes]
    simp
  · rw [signalsIn,shown,List.count_append,scans,List.map_map,List.count_flatten]
    have none' : (((⟨[]⟩ : SignalScanner).pushes chunks).1.pending.map some).count (none : Option UInt8) = 0 := by
      simp [List.count_eq_zero]
    rw [none',Nat.add_zero]
    exact congrArg List.sum (List.map_congr_left fun ms _ => (each ms).2)
  · rw [Markers.afterRemaining after]
    exact after.held

end P11k.Engine
