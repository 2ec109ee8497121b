import Gunwinder.Rows.LazyRows
import Gunwinder.Semantics.VirtualUnwind

/-!
# What a frame section says about a pc

A section describes ranges of addresses, each with the rows of its unwind table. The row of
a pc gives the CFA and, from it and the callee's registers, the registers of the caller. No
index, no cache and no interpreter state is involved.
-/

namespace Gunwinder

/-- A range of addresses, the rows of its table and the mark of a signal frame. -/
structure FrameEntry where
  start : Word
  fin : Word
  signalFrame : Bool
  rows : List (Nat × Row)

/-- The range holds the pc. -/
def FrameEntry.covers (entry : FrameEntry) (pc : Word) : Bool := entry.start ≤ pc ∧ pc < entry.fin

/-- The row of a pc, with the mark of a signal frame. -/
def frameRow (entries : List FrameEntry) (pc : Word) : Option (Row × Bool) :=
  (entries.find? fun entry => entry.covers pc).bind fun entry =>
    (rowAt entry.rows pc.toNat).map fun row => (row, entry.signalFrame)

/-- The operations of a CFA definition; a register number is read as an `int`. -/
def CfaDef.ops (mem : Mem) : CfaDef → Option (List DwarfOp)
  | .undefined => none
  | .regOffset reg offset => some [⟨.bregx, BitVec.ofNat 64 reg, offset, 0#64⟩]
  | .expr block => guCfiInitOpsFromBlock mem block .expression true

/-- The operations of the block a rule names by its place in the section. -/
def placedOps (sec : Section) (rule : FrameRule) (place : Nat) : Option (List DwarfOp) :=
  if sec.dSize ≤ place then none
  else
    match decodeReadChecked sec.mem (sec.dBuf + place) sec.fin dwEhPeUleb128 with
    | none => none
    | some (length, data) =>
      if blockFits data sec.fin length then
        guCfiInitOpsFromBlock sec.mem ⟨length, BitVec.ofNat 64 data⟩ rule false
      else none

/-- The value a rule gives a register of the caller. -/
def RegRule.value (env : EvalEnv) (sec : Section) (cfaOps : List DwarfOp) : RegRule → Option Word
  | .unspecified | .undefined | .sameValue => none
  | .offset n => (cfaValue env cfaOps).bind fun cfa =>
      (readAddr env (cfa + BitVec.ofInt 64 n) .clear).1
  | .valOffset n => (cfaValue env cfaOps).map fun cfa => cfa + BitVec.ofInt 64 n
  | .register reg => env.getRegs (toInt (BitVec.ofNat 64 reg))
  | .expression place => (placedOps sec .expression place).bind (opsValue env cfaOps)
  | .valExpression place => (placedOps sec .valExpression place).bind (opsValue env cfaOps)

/-- The rule says nothing about the register, or names a block that cannot be decoded. -/
def RegRule.silent (sec : Section) : RegRule → Bool
  | .unspecified | .undefined | .sameValue => true
  | .offset _ | .valOffset _ | .register _ => false
  | .expression place => (placedOps sec .expression place).isNone
  | .valExpression place => (placedOps sec .valExpression place).isNone

/-- The value of a register in the caller: the stack pointer is the CFA unless its rule says
otherwise. -/
def Row.callerValue (row : Row) (env : EvalEnv) (sec : Section) (cfaOps : List DwarfOp)
    (type : RegType) : Option Word :=
  let rule := row.regs (type.number env.target.arch)
  if type = .rsp ∧ rule.silent sec then cfaValue env cfaOps else rule.value env sec cfaOps

end Gunwinder
