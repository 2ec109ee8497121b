import Gunwinder.Native.Target
import Mathlib.Logic.Function.Basic

/-!
# The sampled stack

A register block is read and written by DWARF register number, so a block is a function
of that number and the table `regs[]` of slot offsets reduces to its length. The stop
reason of a walk is stored in bits 16 to 23 of the sample's flags.
-/

namespace Gunwinder

/-- `MAX_FP_STACK_LEVEL`. -/
def maxFpStackLevel : Nat := 127

/-- `struct gu_stack_info`: the sample, its register block and its stack bytes. -/
structure StackInfo where
  pid : Int
  stackSize : Word
  uniqueId : Word
  /-- Register block by register number; `none` is a NULL `regs`. -/
  regs : Option (Nat → Word)
  flags : Word
  ustackFp : Nat → Word
  ustackFpLevel : Word
  /-- Captured bytes from the page start of the sampled stack pointer; `none` is NULL. -/
  stackData : Option (Nat → Byte)

variable (arch : Arch)

/-- `get_regs`; `none` is its `false`. -/
def getRegs (info : StackInfo) (regno : Int) : Option Word :=
  match info.regs with
  | none => none
  | some block =>
    if regno < 0 then none
    else if (arch.regCount : Int) ≤ regno then none
    else some (block regno.toNat)

/-- `write_regs`; a rejected register number leaves the block as it was. -/
def writeRegs (info : StackInfo) (regno : Int) (val : Word) : StackInfo :=
  match info.regs with
  | none => info
  | some block =>
    if regno < 0 then info
    else if (arch.regCount : Int) ≤ regno then info
    else { info with regs := some (Function.update block regno.toNat val) }

/-- A register that was written has the new value, the others are as before. -/
theorem getRegs_writeRegs {arch : Arch} {info : StackInfo} {n : Nat} (hregs : info.regs.isSome)
    (hn : n < arch.regCount) (val : Word) (m : Nat) :
    getRegs arch (writeRegs arch info n val) m =
      if m = n then some val else getRegs arch info m := by
  obtain ⟨block, hblock⟩ := Option.isSome_iff_exists.mp hregs
  have hn' : ¬((arch.regCount : Int) ≤ n) := by omega
  have hwrite : (writeRegs arch info n val).regs = some (Function.update block n val) := by
    simp only [writeRegs, hblock, Int.natCast_nonneg, Int.not_lt.mpr, if_false, if_neg hn',
      Int.toNat_natCast]
  simp only [getRegs, hwrite, hblock, Int.natCast_nonneg, Int.not_lt.mpr, if_false,
    Int.toNat_natCast, Function.update_apply]
  split
  · rename_i hm
    rw [if_neg (show m ≠ n by omega)]
  · split <;> rfl

@[simp] theorem writeRegs_isSome (info : StackInfo) (regno : Int) (val : Word) :
    (writeRegs arch info regno val).regs.isSome = info.regs.isSome := by
  unfold writeRegs
  split
  · rfl
  rename_i block hblock
  split
  · rfl
  split
  · rfl
  · rw [hblock]
    rfl

@[simp] theorem writeRegs_stackSize (info : StackInfo) (regno : Int) (val : Word) :
    (writeRegs arch info regno val).stackSize = info.stackSize := by
  unfold writeRegs
  repeat' split
  all_goals rfl

@[simp] theorem writeRegs_stackData (info : StackInfo) (regno : Int) (val : Word) :
    (writeRegs arch info regno val).stackData = info.stackData := by
  unfold writeRegs
  repeat' split
  all_goals rfl

/-- The two samples hold the same registers and the same stack bytes. -/
structure StackInfo.SameSample (info info' : StackInfo) : Prop where
  regs : info'.regs = info.regs
  stackSize : info'.stackSize = info.stackSize
  stackData : info'.stackData = info.stackData

/-- `enum gu_unwind_reason`. -/
inductive UnwindReason where
  | ok
  | noRegs
  | noElf
  | noCfi
  | cfiFail
  | archFail
  | processExit
  | langSkip
  | truncated
  | noExecPc
  | cfiFrameDecodeFailed
  | cfiFrameCfaFailed
  | cfiFrameCfaCalcFailed
  | endOfStack
  | stackReadOutOfRange
  | noProgress
  | unknown
  deriving DecidableEq, Repr

/-- Value of the enumerator. -/
def UnwindReason.code : UnwindReason → Word
  | ok => 0#64
  | noRegs => 1#64
  | noElf => 2#64
  | noCfi => 3#64
  | cfiFail => 4#64
  | archFail => 5#64
  | processExit => 6#64
  | langSkip => 7#64
  | truncated => 8#64
  | noExecPc => 9#64
  | cfiFrameDecodeFailed => 10#64
  | cfiFrameCfaFailed => 11#64
  | cfiFrameCfaCalcFailed => 12#64
  | endOfStack => 13#64
  | stackReadOutOfRange => 14#64
  | noProgress => 15#64
  | unknown => 0xff#64

/-- `GU_FLAG_HINT_SET_FP`. -/
def guFlagHintSetFp : Word := 1#64

/-- `GU_FLAG_FP_ALLOW_UNKNOWN`. -/
def guFlagFpAllowUnknown : Word := 2#64

/-- `GU_FLAG_REASON_MASK`. -/
def guFlagReasonMask : Word := 0xff#64 <<< 16

def guFlagsSet (info : StackInfo) (flag : Word) : StackInfo :=
  { info with flags := info.flags ||| flag }

def guFlagsIsSet (info : StackInfo) (flag : Word) : Bool := info.flags &&& flag != 0#64

/-- `gu_flags_reason`, by the value of the enumerator. -/
def guFlagsReason (flags : Word) : Word := (flags &&& guFlagReasonMask) >>> 16

def guFlagsSetReason (info : StackInfo) (reason : UnwindReason) : StackInfo :=
  { info with flags := (info.flags &&& ~~~guFlagReasonMask) ||| (reason.code <<< 16) }

/-- The reason that was stored last is the one that is read. -/
theorem guFlagsReason_setReason (info : StackInfo) (reason : UnwindReason) :
    guFlagsReason (guFlagsSetReason info reason).flags = reason.code := by
  have hmasked : ((info.flags &&& ~~~guFlagReasonMask) ||| (reason.code <<< 16)) &&&
      guFlagReasonMask = (reason.code <<< 16) &&& guFlagReasonMask := by
    ext i hi
    simp only [BitVec.getElem_and, BitVec.getElem_or, BitVec.getElem_not]
    cases guFlagReasonMask[i] <;> simp
  rw [guFlagsReason, guFlagsSetReason, hmasked]
  cases reason <;> decide

end Gunwinder
