import P11k.Gitstatus.Shards
import P11k.Gitstatus.Spellings
import P11k.Lib.SortedMap

/-! The thread count of the command line in the arithmetic of the shards. -/
namespace P11k.Gitstatus
open Reading (mapOk bindOk)

theorem usizeFits {s : Arg} {n : Nat} (read : usize s = some n) : n < 2 ^ 64 := by
  obtain ⟨_,fits⟩ := Option.filter_eq_some_iff.mp read
  have := of_decide_eq_true fits
  unfold usizeMax at this
  omega

theorem threadsRead {value : Option Arg} {opt : Arg} {n : UInt64} (read : parseThreads value opt = .ok n) : n ≠ 0 := by
  obtain ⟨k,number,rest⟩ := bindOk read
  obtain ⟨v,_,trimmed⟩ := bindOk number
  split at rest
  · cases rest
  · rename_i some'
    split at trimmed
    · rename_i digits
      cases trimmed
      cases rest
      intro zero
      have size := congrArg UInt64.toNat zero
      rw [UInt64.toNat_ofNat_of_lt' (usizeFits digits)] at size
      exact some' size
    · cases trimmed

theorem shortThreads {o next : CliOptions} {name : Char} {value : Option Arg} (some' : o.numThreads ≠ 0)
    (read : parseShortOpt o name value = .ok next) : next.numThreads ≠ 0 := by
  unfold parseShortOpt at read
  dsimp only at read
  split at read
  case h_3 =>
    obtain ⟨n,threads,rfl⟩ := mapOk read
    exact threadsRead threads
  all_goals
    first
    | obtain ⟨_,_,rfl⟩ := mapOk read
      exact some'
    | cases read

theorem longThreads {o next : CliOptions} {name : Arg} {value : Option Arg} (some' : o.numThreads ≠ 0)
    (read : parseLongOpt o name value = .ok next) : next.numThreads ≠ 0 := by
  unfold parseLongOpt at read
  iterate 16
    rcases ite_eq_iff.mp read with ⟨_,read⟩ | ⟨_,read⟩
    · first
      | obtain ⟨_,_,rfl⟩ := mapOk read
        exact some'
      | obtain ⟨_,threads,rfl⟩ := mapOk read
        exact threadsRead threads
  cases read

theorem acceptedThreads {o last : CliOptions} {args : List Arg} (accepted : Accepted o args last)
    (some' : o.numThreads ≠ 0) : last.numThreads ≠ 0 := by
  induction accepted with
  | done => exact some'
  | attached _ read _ ih => exact ih (shortThreads some' read)
  | apart _ read _ ih => exact ih (shortThreads some' read)
  | switch _ read _ ih => exact ih (shortThreads some' read)
  | longValue _ _ read _ ih => exact ih (longThreads some' read)
  | longSwitch _ _ read _ ih => exact ih (longThreads some' read)

/-- What can fail in the cut of an index into shards. -/
structure ShardArithmetic (numThreads : UInt64) (index : Index) : Prop where
  product : 16 * max numThreads.toNat 1 < 2 ^ 64
  divisor : 16 * max numThreads 1 ≠ 0
  inside : ∃ splits, initSplits numThreads index = some { index with splits := splits } ∧
    ∀ cut ∈ splits, cut ≤ index.dirs.length

theorem cutsInside {start stop : Nat} {splits : List Nat} (cuts : Cuts start stop splits) : ∀ cut ∈ splits, cut ≤ stop := by
  intro cut mem
  obtain ⟨front,whole⟩ := List.getLast?_eq_some_iff.mp cuts.last
  have ascend := cuts.ascend
  rw [whole] at mem ascend
  rcases List.mem_append.mp mem with before | last
  · exact Nat.le_of_lt ((List.pairwise_append.mp ascend).2.2 cut before stop List.mem_cons_self)
  · exact Nat.le_of_eq (List.mem_singleton.mp last)

/-- The options give at least one thread, and the shards are computed without a fault exactly below 2^60 threads. -/
theorem shardArithmeticParsed (args : List Arg) (o : CliOptions) (parsed : parseArgs args = some (.ok (.run o)))
    (index : Index) : o.numThreads ≠ 0 ∧ (ShardArithmetic o.numThreads index ↔ o.numThreads.toNat < 2 ^ 60) := by
  have some' : o.numThreads ≠ 0 := acceptedThreads ((loopRuns _ _ _).mp parsed) (by decide)
  refine ⟨some',fun fine => ?_,fun fits => ?_⟩
  · have product := fine.product
    omega
  · have least : 1 ≤ o.numThreads := by
      rw [UInt64.le_iff_toNat_le]
      have := UInt64.toNat_inj.not.mpr some'
      simp only [UInt64.toNat_zero,UInt64.toNat_one] at this ⊢
      omega
    have nonzero := threadsFit least (by omega)
    obtain ⟨splits,run,cuts⟩ := initSplitsCuts nonzero index
    exact ⟨by omega,nonzero,splits,run,cutsInside cuts⟩

theorem shardArithmeticThirtyTwo : ShardArithmetic 32 (indexTree []) := by
  have parsed : parseArgs ["-t32".toList] = some (.ok (.run { defaultOptions with numThreads := 32 })) := by decide
  exact (shardArithmeticParsed ["-t32".toList] _ parsed (indexTree [])).2.mpr (by decide)

/-- The options `-t 1152921504606846976`, 2^60 threads: the product wraps to zero, and the division panics. -/
theorem shardArithmeticWraps :
    parseArgs ["-t".toList,"1152921504606846976".toList] =
      some (.ok (.run { defaultOptions with numThreads := 1152921504606846976 })) ∧
    ¬ ShardArithmetic 1152921504606846976 (indexTree []) ∧ initSplits 1152921504606846976 (indexTree []) = none := by
  refine ⟨by decide +kernel,fun fine => absurd fine.product (by decide),initSplitsNone (by decide) _⟩

end P11k.Gitstatus
