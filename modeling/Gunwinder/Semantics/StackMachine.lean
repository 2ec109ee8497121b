import Gunwinder.Core.Loop
import Gunwinder.Native.Operation

/-!
# DWARF expressions as bytes

The abstract meaning of an expression block: a machine with 256 stack slots that stands on a byte
of the block. Nothing is decoded in advance. Arithmetic is stated on integers; an operation
without a defined 64-bit result fails.
-/

namespace Gunwinder

open Gunwinder.Core

/-- What the machine is connected to. -/
structure MachineEnv where
  /-- The register of a DWARF register number. -/
  reg : Word → Option Word
  /-- The captured byte at an address. -/
  byte : Nat → Option Byte
  /-- Load address added to `DW_OP_addr`. -/
  bias : Word

/-- The little-endian number of `size` bytes from an address on, where all of them are there. -/
def loadLe (byte : Nat → Option Byte) : Nat → Nat → Option Nat
  | 0, _ => some 0
  | size + 1, addr => do
    let low ← byte addr
    let high ← loadLe byte size (addr + 1)
    pure (low.toNat + 256 * high)

variable (env : MachineEnv)

/-- Load `size` bytes, extended with zeros. -/
def MachineEnv.load (size : Nat) (addr : Word) : Option Word :=
  (loadLe env.byte size addr.toNat).map (BitVec.ofNat 64)

/-- Stack slots of the machine. -/
def machineSlots : Nat := 256

/-- Position in the block and stack, top first. -/
structure MachineState where
  pos : Nat
  stack : List Word
  deriving DecidableEq, Repr

/-- The operand bytes of the operations the machine executes. -/
def machineOperands : Atom → Option OperandForm
  | .addr | .const8u => some (.one dwEhPeUdata8)
  | .const8s => some (.one dwEhPeSdata8)
  | .const1u | .pick | .derefSize => some .byte
  | .const1s => some .sbyte
  | .const2u => some (.one dwEhPeUdata2)
  | .const2s | .skip | .bra => some (.one dwEhPeSdata2)
  | .const4u => some (.one dwEhPeUdata4)
  | .const4s => some (.one dwEhPeSdata4)
  | .constu | .plusUconst | .regx => some (.one dwEhPeUleb128)
  | .consts | .breg _ => some (.one dwEhPeSleb128)
  | .bregx => some (.two dwEhPeUleb128 dwEhPeSleb128)
  | .deref | .dup | .drop | .over | .swap | .rot | .abs | .and | .div | .minus | .mod | .mul
  | .neg | .not | .or | .plus | .shl | .shr | .shra | .xor | .eq | .ge | .gt | .le | .lt | .ne
  | .lit _ | .reg _ | .nop => some .none
  | _ => none

/-- A signed result, if it fits. -/
def signedResult (i : Int) : Option Word :=
  if -2 ^ 63 ≤ i ∧ i < 2 ^ 63 then some (BitVec.ofInt 64 i) else none

/-- A truth value. -/
def truth (p : Prop) [Decidable p] : Option Word := some (if p then 1#64 else 0#64)

/-- Two-operand operations, on the second entry and the top. -/
def machineBinary : Atom → Option (Word → Word → Option Word)
  | .and => some fun a b => some (a &&& b)
  | .or => some fun a b => some (a ||| b)
  | .xor => some fun a b => some (a ^^^ b)
  | .plus => some fun a b => some (BitVec.ofInt 64 (a.toInt + b.toInt))
  | .minus => some fun a b => some (BitVec.ofInt 64 (a.toInt - b.toInt))
  | .mul => some fun a b => some (BitVec.ofInt 64 (a.toInt * b.toInt))
  | .div => some fun a b => if b = 0#64 then none else signedResult (a.toInt.tdiv b.toInt)
  | .mod => some fun a b =>
    if b = 0#64 then none else some (BitVec.ofNat 64 (a.toNat % b.toNat))
  | .shl => some fun a b =>
    if b.toNat < 64 then some (BitVec.ofNat 64 (a.toNat * 2 ^ b.toNat)) else none
  | .shr => some fun a b =>
    if b.toNat < 64 then some (BitVec.ofNat 64 (a.toNat / 2 ^ b.toNat)) else none
  | .shra => some fun a b =>
    if b.toNat < 64 then some (BitVec.ofInt 64 (a.toInt / 2 ^ b.toNat)) else none
  | .le => some fun a b => truth (a.toInt ≤ b.toInt)
  | .ge => some fun a b => truth (b.toInt ≤ a.toInt)
  | .eq => some fun a b => truth (a = b)
  | .lt => some fun a b => truth (a.toInt < b.toInt)
  | .gt => some fun a b => truth (b.toInt < a.toInt)
  | .ne => some fun a b => truth (a ≠ b)
  | _ => none

/-- One-operand operations; the second argument is the operand read from the block. -/
def machineUnary : Atom → Option (Word → Word → Option Word)
  | .abs => some fun _ a => some (BitVec.ofNat 64 a.toInt.natAbs)
  | .neg => some fun _ a => some (BitVec.ofInt 64 (-a.toInt))
  | .not => some fun _ a => some (~~~a)
  | .plusUconst => some fun number a => some (BitVec.ofNat 64 (a.toNat + number.toNat))
  | _ => none

/-- Operations that push a value of their own. -/
def machineValue (atom : Atom) (number number2 : Word) : Option (Option Word) :=
  match atom with
  | .lit n => some (some (BitVec.ofNat 64 n.toNat))
  | .addr => some (some (BitVec.ofNat 64 (number.toNat + env.bias.toNat)))
  | .const1u | .const1s | .const2u | .const2s | .const4u | .const4s | .const8u | .const8s
  | .constu | .consts => some (some number)
  | .reg n => some (env.reg (n.setWidth 64))
  | .regx => some (env.reg number)
  | .breg n => some ((env.reg (n.setWidth 64)).map fun r =>
      BitVec.ofNat 64 (r.toNat + number.toNat))
  | .bregx => some ((env.reg number).map fun r => BitVec.ofNat 64 (r.toNat + number2.toNat))
  | _ => none

/-- Push onto a stack that has a slot left. -/
def machinePush (stack : List Word) (val : Word) : Option (List Word) :=
  if stack.length < machineSlots then some (val :: stack) else none

/-- Replace the top. -/
def machineApply (f : Word → Option Word) : List Word → Option (List Word)
  | a :: rest => (f a).map (· :: rest)
  | [] => none

/-- Replace the two topmost entries. -/
def machineApply2 (f : Word → Word → Option Word) : List Word → Option (List Word)
  | b :: a :: rest => (f a b).map (· :: rest)
  | _ => none

/-- Operations on the entries as they are, and reads. -/
def machineMove (atom : Atom) (number : Word) (stack : List Word) : Option (List Word) :=
  match atom, stack with
  | .dup, a :: rest => machinePush (a :: rest) a
  | .drop, _ :: rest => some rest
  | .pick, stack => (stack[number.toNat]?).bind (machinePush stack)
  | .over, a :: b :: rest => machinePush (a :: b :: rest) b
  | .swap, a :: b :: rest => some (b :: a :: rest)
  | .rot, a :: b :: c :: rest => some (b :: c :: a :: rest)
  | .deref, a :: rest => (env.load 8 a).map (· :: rest)
  | .derefSize, a :: rest =>
    if number.toNat ≤ 8 then (env.load number.toNat a).map (· :: rest) else none
  | .nop, stack => some stack
  | _, _ => none

/-- The stack behind an operation that does not branch. -/
def machineStack (atom : Atom) (number number2 : Word) (stack : List Word) : Option (List Word) :=
  match machineValue env atom number number2, machineUnary atom, machineBinary atom with
  | some val, _, _ => val.bind (machinePush stack)
  | none, some f, _ => machineApply (f number) stack
  | none, none, some f => machineApply2 f stack
  | none, none, none => machineMove env atom number stack

/-- Byte offset a branch at `pos` leads to: behind its three bytes, by the displacement. -/
def machineTarget (pos : Nat) (number : Word) : Int := (pos : Int) + 3 + number.toInt

/-- Follow a branch; a target before the block is a failure. -/
def machineBranch (pos : Nat) (number : Word) (stack : List Word) :
    Turn MachineState (Option Word) :=
  if machineTarget pos number < 0 then .stop none
  else .next ⟨(machineTarget pos number).toNat, stack⟩

/-- Execute an operation with its operands; `next` is the offset behind it. -/
def machineExec (atom : Atom) (number number2 : Word) (next : Nat) (s : MachineState) :
    Turn MachineState (Option Word) :=
  match atom, s.stack with
  | .skip, stack => machineBranch s.pos number stack
  | .bra, val :: stack =>
    if val = 0#64 then .next ⟨next, stack⟩ else machineBranch s.pos number stack
  | _, stack =>
    match machineStack env atom number number2 stack with
    | none => .stop none
    | some stack => .next ⟨next, stack⟩

variable (mem : Mem)

/-- One turn on the block `[start, fin)`: behind the last byte the machine ends with the
top of its stack; a failure ends it without a value. -/
def machineTurn (start fin : Nat) (s : MachineState) : Turn MachineState (Option Word) :=
  let data := start + s.pos
  if fin ≤ data then .stop s.stack.head?
  else
    match machineOperands (Atom.ofByte (mem data)) with
    | none => .stop none
    | some form =>
      match readOperands mem (data + 1) fin form with
      | none => .stop none
      | some (number, number2, next) =>
        machineExec env (Atom.ofByte (mem data)) number number2 (next - start) s

/-- The machine executes `n` operations from `stack` and ends with `final` on its stack. -/
def MachineEnds (block : Block) (stack : List Word) (n : Nat) (final : List Word) : Prop :=
  ∃ s, headState (machineTurn env mem block.start block.fin) n ⟨0, stack⟩ = some s ∧
    block.fin ≤ block.start + s.pos ∧ s.stack = final

/-- Addresses at which an operation of the block starts when it is read from its first
byte on. -/
inductive OpStart (mem : Mem) (block : Block) : Nat → Prop where
  | first (h : block.start < block.fin) : OpStart mem block block.start
  | next {data next : Nat} {op : DwarfOp} (prev : OpStart mem block data)
      (read : decodeOp mem block.start block.fin data = some (op, next))
      (inside : next < block.fin) : OpStart mem block next

/-- The operation branches in a state with this stack. -/
def Branches (atom : Atom) (stack : List Word) : Prop :=
  atom = .skip ∨ atom = .bra ∧ ∃ val rest, stack = val :: rest ∧ val ≠ 0#64

/-- Every branch taken in the first `budget` turns from `stack` leads to the start of an
operation. -/
def BranchesToStarts (block : Block) (stack : List Word) (budget : Nat) : Prop :=
  ∀ n s op next, n < budget →
    headState (machineTurn env mem block.start block.fin) n ⟨0, stack⟩ = some s →
    block.start + s.pos < block.fin →
    decodeOp mem block.start block.fin (block.start + s.pos) = some (op, next) →
    Branches op.atom s.stack →
    0 ≤ machineTarget s.pos op.number ∧
      OpStart mem block (block.start + (machineTarget s.pos op.number).toNat)

/-- A sized read that the machine can make has the whole eight-byte word at its address. -/
def WholeWord (op : DwarfOp) (stack : List Word) : Prop :=
  op.atom = .derefSize → ∀ addr ∈ stack.head?, (env.load op.number.toNat addr).isSome = true →
    (env.load 8 addr).isSome = true

/-- Every sized read of the first `budget` turns from `start` has the whole word there. -/
def WordsRead (block : Block) (start : MachineState) (budget : Nat) : Prop :=
  ∀ n s op next, n < budget →
    headState (machineTurn env mem block.start block.fin) n start = some s →
    block.start + s.pos < block.fin →
    decodeOp mem block.start block.fin (block.start + s.pos) = some (op, next) →
    WholeWord env op s.stack

end Gunwinder
