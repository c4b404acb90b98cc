import Mathlib.Algebra.Order.Ring.Int
import Mathlib.Data.List.Basic

/-! Index entries, on-disk stats and the per-entry dirty check. The machine widths are the
source's: the index format keeps 32-bit fields, the stat side 64-bit ones.
A path is the visible byte string; the trailing NUL that the source keeps for libc is left
out, since every use strips it. -/
namespace P11k.Gitstatus

abbrev Bytes := List UInt8

structure Stat where
  stIno : UInt64
  stSize : Int64
  stMtime : Int64
  stMtimeNsec : Int64
  stMode : UInt32
  deriving DecidableEq, Repr

structure RepoCaps where
  trustFilemode : Bool
  hasSymlinks : Bool
  caseSensitive : Bool
  deriving DecidableEq, Repr

structure IndexEntry where
  path : Bytes
  ino : UInt32
  fsize : UInt32
  mtimeSec : Int32
  mtimeNsec : UInt32
  mode : UInt32
  stage : UInt16
  flagsExtended : UInt16
  assumeValid : Bool
  deriving DecidableEq, Repr

def sIfmt : UInt32 := 0o170000
def sIfreg : UInt32 := 0o100000
def sIflnk : UInt32 := 0o120000
def gitlink : UInt32 := 0o160000

def normalMode (mode : UInt32) : UInt32 :=
  sIfreg ||| (if mode &&& 0o100 ≠ 0 then 0o755 else 0o644)

/-- The on-disk mode as the check compares it: a regular file keeps the executable bit,
anything else its type, and a capability that is off copies the entry's own mode. -/
def comparedMode (entry : IndexEntry) (st : Stat) (caps : RepoCaps) : UInt32 :=
  if st.stMode &&& sIfmt = sIfreg then
    if (!caps.hasSymlinks && entry.mode &&& sIfmt == sIflnk) || !caps.trustFilemode then
      entry.mode
    else normalMode st.stMode
  else st.stMode &&& sIfmt

def isModified (entry : IndexEntry) (st : Stat) (caps : RepoCaps) : Bool :=
  -- A gitlink is a directory on disk: only its absence counts, which the scan sees itself.
  if entry.mode &&& sIfmt = gitlink then false else
    let inoOk := entry.ino == 0 || entry.ino.toUInt64 == st.stIno
    let stageOk := entry.stage == 0
    let fsizeOk := (entry.fsize.toNat : Int) == st.stSize.toInt
    let mtimeOk := entry.mtimeSec.toInt == st.stMtime.toInt &&
      ((entry.mtimeNsec.toNat : Int) == st.stMtimeNsec.toInt || entry.mtimeNsec == 0)
    let modeOk := entry.mode == comparedMode entry st caps
    !(inoOk && stageOk && fsizeOk && mtimeOk && modeOk)

/-- What git writes into the index for a file it has just looked at. -/
def recordedMode (st : Stat) : UInt32 :=
  if st.stMode &&& sIfmt = sIflnk then sIflnk else normalMode st.stMode

structure Recorded (entry : IndexEntry) (st : Stat) : Prop where
  stage : entry.stage = 0
  ino : entry.ino = st.stIno.toUInt32
  fsize : entry.fsize = st.stSize.toUInt64.toUInt32
  mtimeSec : entry.mtimeSec = st.stMtime.toInt32
  mtimeNsec : entry.mtimeNsec = st.stMtimeNsec.toUInt64.toUInt32
  mode : entry.mode = recordedMode st

def RegularOrSymlink (st : Stat) : Prop :=
  st.stMode &&& sIfmt = sIfreg ∨ st.stMode &&& sIfmt = sIflnk
instance (st) : Decidable (RegularOrSymlink st) := by unfold RegularOrSymlink; infer_instance

/-- The values that come back from the 32-bit fields of the index. A reduced inode or
nanosecond field of zero is a wildcard of the comparison. -/
def FitsIndex (st : Stat) : Prop :=
  (st.stIno.toNat < 2^32 ∨ st.stIno.toNat % 2^32 = 0) ∧
  (0 ≤ st.stSize.toInt ∧ st.stSize.toInt < 2^32) ∧
  (-2^31 ≤ st.stMtime.toInt ∧ st.stMtime.toInt < 2^31) ∧
  ((0 ≤ st.stMtimeNsec.toInt ∧ st.stMtimeNsec.toInt < 2^32) ∨ st.stMtimeNsec.toInt % 2^32 = 0)
instance (st) : Decidable (FitsIndex st) := by unfold FitsIndex; infer_instance

theorem normalModeCases (mode : UInt32) :
    normalMode mode = 0o100755 ∨ normalMode mode = 0o100644 := by
  unfold normalMode
  split
  · left; rfl
  · right; rfl

theorem recordedModeNotGitlink (st : Stat) : recordedMode st &&& sIfmt ≠ gitlink := by
  unfold recordedMode
  split
  · decide
  · rcases normalModeCases st.stMode with h | h <;> rw [h] <;> decide

theorem recordedModeAccepted {entry : IndexEntry} {st : Stat} (caps : RepoCaps)
    (kind : RegularOrSymlink st) (recorded : entry.mode = recordedMode st) :
    entry.mode = comparedMode entry st caps := by
  unfold comparedMode
  rcases kind with regular | symlink
  · have notLink : st.stMode &&& sIfmt ≠ sIflnk := by rw [regular]; decide
    rw [if_pos regular]
    split
    · rfl
    · rw [recorded,recordedMode,if_neg notLink]
  · have notRegular : st.stMode &&& sIfmt ≠ sIfreg := by rw [symlink]; decide
    rw [if_neg notRegular,symlink,recorded,recordedMode,if_pos symlink]

theorem cleanFields {entry : IndexEntry} {st : Stat} {caps : RepoCaps}
    (notLink : entry.mode &&& sIfmt ≠ gitlink) :
    isModified entry st caps = false ↔
      (entry.ino = 0 ∨ entry.ino.toUInt64 = st.stIno) ∧ entry.stage = 0 ∧
      (entry.fsize.toNat : Int) = st.stSize.toInt ∧
      (entry.mtimeSec.toInt = st.stMtime.toInt ∧
        ((entry.mtimeNsec.toNat : Int) = st.stMtimeNsec.toInt ∨ entry.mtimeNsec = 0)) ∧
      entry.mode = comparedMode entry st caps := by
  unfold isModified
  rw [if_neg notLink]
  simp only [Bool.not_eq_false',Bool.and_eq_true,Bool.or_eq_true,beq_iff_eq,and_assoc]

theorem inoReturns (n : UInt64) :
    (n.toUInt32 = 0 ∨ n.toUInt32.toUInt64 = n) ↔ (n.toNat < 2^32 ∨ n.toNat % 2^32 = 0) := by
  have size := n.toNat_lt
  simp only [← UInt32.toNat_inj,← UInt64.toNat_inj,UInt64.toNat_toUInt32,UInt32.toNat_toUInt64,
    UInt32.toNat_zero]
  omega

theorem lowWordValue (n : Int64) : (n.toUInt64.toUInt32.toNat : Int) = n.toInt % 2^32 := by
  have size := n.toBitVec.isLt
  have value : n.toInt = n.toBitVec.toInt := rfl
  rw [value,BitVec.toInt_eq_toNat_cond]
  have low : n.toUInt64.toUInt32.toNat = n.toBitVec.toNat % 2^32 := by
    rw [UInt64.toNat_toUInt32]; rfl
  rw [low]
  split <;> omega

theorem lowWordZero (n : Int64) : n.toUInt64.toUInt32 = 0 ↔ n.toInt % 2^32 = 0 := by
  have value := lowWordValue n
  rw [← UInt32.toNat_inj,UInt32.toNat_zero]
  omega

theorem lowWordReturns (n : Int64) :
    (n.toUInt64.toUInt32.toNat : Int) = n.toInt ↔ 0 ≤ n.toInt ∧ n.toInt < 2^32 := by
  rw [lowWordValue]
  omega

theorem secondsReturn (n : Int64) :
    n.toInt32.toInt = n.toInt ↔ -2^31 ≤ n.toInt ∧ n.toInt < 2^31 := by
  rw [Int64.toInt_toInt32,Int.bmod_def]
  split <;> omega

/-- An entry recorded from a stat compares clean with it exactly for the values that the
index format can hold. -/
theorem freshEntryCleanIff (entry : IndexEntry) (st : Stat) (caps : RepoCaps)
    (kind : RegularOrSymlink st) (recorded : Recorded entry st) :
    isModified entry st caps = false ↔ FitsIndex st := by
  have notLink : entry.mode &&& sIfmt ≠ gitlink := recorded.mode ▸ recordedModeNotGitlink st
  have modeOk := recordedModeAccepted caps kind recorded.mode
  rw [cleanFields notLink,recorded.ino,recorded.stage,recorded.fsize,recorded.mtimeSec,
    recorded.mtimeNsec,inoReturns,lowWordReturns,secondsReturn,lowWordReturns,lowWordZero]
  exact ⟨fun ⟨ino,_,size,⟨seconds,nanos⟩,_⟩ => ⟨ino,size,seconds,nanos⟩,
    fun ⟨ino,size,seconds,nanos⟩ => ⟨ino,rfl,size,⟨seconds,nanos⟩,modeOk⟩⟩

/-- A regular file whose inode number is 2^32+1. -/
def highInode : Stat := ⟨4294967297,0,0,0,0o100644⟩

def highInodeEntry : IndexEntry := ⟨[97],1,0,0,0,0o100644,0,0,false⟩

theorem freshEntryCleanAtFive :
    isModified ⟨[97],5,0,7,0,0o100755,0,0,false⟩ ⟨5,0,7,0,0o100700⟩ ⟨true,true,true⟩ = false :=
  (freshEntryCleanIff ⟨[97],5,0,7,0,0o100755,0,0,false⟩ ⟨5,0,7,0,0o100700⟩ ⟨true,true,true⟩
    (by decide) ⟨rfl,rfl,rfl,rfl,rfl,rfl⟩).mpr (by decide)

theorem highInodeReportedModified :
    RegularOrSymlink highInode ∧ Recorded highInodeEntry highInode ∧
      isModified highInodeEntry highInode ⟨true,true,true⟩ = true :=
  ⟨by decide,⟨rfl,rfl,rfl,rfl,rfl,rfl⟩,by decide⟩

end P11k.Gitstatus
