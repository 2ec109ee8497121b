import Gunwinder.Core.Loop
import Gunwinder.Core.Bisect
import Gunwinder.Native.Operation
import Gunwinder.Native.Sample

/-!
# The expression evaluator

`gu_dwarf_ops_eval` runs an operation list over a stack of 256 words for at most 4096
steps. `DW_OP_call_frame_cfa` re-enters it with a fresh stack and a fresh step counter, so
nothing in the code bounds the nesting: the model bounds it by an explicit depth, and a run that
needs more depth is `deep`. A run that returns is one that is not `deep` at some depth.
-/

namespace Gunwinder

open Gunwinder.Core

/-- The thread-local `stack_read_out_of_range*` variables. -/
structure OutOfRange where
  flag : Bool
  addr : Word
  start : Word
  fin : Word
  rawSp : Word
  deriving DecidableEq, Repr

/-- The record as `gen_reg` clears it. -/
def OutOfRange.clear : OutOfRange := ⟨false, 0#64, 0#64, 0#64, 0#64⟩

/-- What an evaluation reads besides its operations: the target, `bias`, `raw_sp` and the
sample. -/
structure EvalEnv where
  target : Target
  bias : Word
  rawSp : Word
  info : StackInfo

variable (env : EvalEnv)

namespace EvalEnv

/-- Address of the first captured stack byte. -/
def stackStart : Word := env.rawSp - env.rawSp % env.target.pageSize

def stackEnd : Word := env.stackStart + env.info.stackSize

def getRegs (env : EvalEnv) (regno : Int) : Option Word :=
  Gunwinder.getRegs env.target.arch env.info regno

/-- Captured bytes; callers supply a buffer of `stack_size` bytes. -/
def stackBytes : Nat → Byte := env.info.stackData.getD fun _ => 0#8

end EvalEnv

/-- `read_addr` over the captured window: a rejected address is recorded. -/
def readAddr (addr : Word) (oor : OutOfRange) : Option Word × OutOfRange :=
  if addr < env.stackStart ∨ env.stackEnd ≤ addr ∨ addr + 8#64 < addr ∨
      env.stackEnd - addr < 8#64 then
    (none, ⟨true, addr, env.stackStart, env.stackEnd, env.rawSp⟩)
  else (some (load64 env.stackBytes (addr - env.stackStart).toNat), oor)

/-- `DW_EVAL_STACK_SIZE`. -/
def dwEvalStackSize : Nat := 0x100

/-- `DW_EVAL_STEPS_MAX`. -/
def dwEvalStepsMax : Nat := 0x1000

/-- `dw_push`; the top of the stack is the head of the list. -/
def dwPush (stack : List Word) (val : Word) : Option (List Word) :=
  if dwEvalStackSize ≤ stack.length then none else some (val :: stack)

/-- `dw_pop`. -/
def dwPop : List Word → Option (Word × List Word)
  | [] => none
  | val :: stack => some (val, stack)

/-- Pop `val2`, then `val1`, and push the result of a two-operand operation. -/
def dwBinary (f : Word → Word → Option Word) (stack : List Word) : Option (List Word) := do
  let (val2, stack) ← dwPop stack
  let (val1, stack) ← dwPop stack
  let val ← f val1 val2
  dwPush stack val

/-- Pop one value and push the result of a one-operand operation. -/
def dwUnary (f : Word → Word) (stack : List Word) : Option (List Word) := do
  let (val1, stack) ← dwPop stack
  dwPush stack (f val1)

/-- A C truth value. -/
def ofBool (b : Bool) : Word := if b then 1#64 else 0#64

/-- `INT64_MIN`. -/
def int64Min : Word := 0x8000000000000000#64

/-- The cases of the switch that only work on the stack, the registers and the operands.
`none` is `goto failed`, which is also the default case. -/
def stackEffect (op : DwarfOp) (stack : List Word) : Option (List Word) :=
  match op.atom with
  | .lit n => dwPush stack (n.setWidth 64)
  | .addr => dwPush stack (op.number + env.bias)
  | .const1u | .const1s | .const2u | .const2s | .const4u | .const4s | .const8u | .const8s
  | .constu | .consts => dwPush stack op.number
  | .reg n => do
    let val1 ← env.getRegs n.toNat
    dwPush stack val1
  | .regx => do
    let val1 ← env.getRegs (toInt op.number)
    dwPush stack val1
  | .breg n => do
    let val1 ← env.getRegs n.toNat
    dwPush stack (val1 + op.number)
  | .bregx => do
    let val1 ← env.getRegs (toInt op.number)
    dwPush stack (val1 + op.number2)
  | .dup => do
    let (val1, stack) ← dwPop stack
    let stack ← dwPush stack val1
    dwPush stack val1
  | .drop => do
    let (_, stack) ← dwPop stack
    pure stack
  | .pick =>
    if stack.length ≤ op.number.toNat then none
    else do
      let val ← stack[op.number.toNat]?
      dwPush stack val
  | .over => do
    let (val1, stack) ← dwPop stack
    let (val2, stack) ← dwPop stack
    let stack ← dwPush stack val2
    let stack ← dwPush stack val1
    dwPush stack val2
  | .swap => do
    let (val1, stack) ← dwPop stack
    let (val2, stack) ← dwPop stack
    let stack ← dwPush stack val1
    dwPush stack val2
  | .rot => do
    let (val1, stack) ← dwPop stack
    let (val2, stack) ← dwPop stack
    let (val3, stack) ← dwPop stack
    let stack ← dwPush stack val1
    let stack ← dwPush stack val3
    dwPush stack val2
  | .abs => dwUnary (fun v => if v.slt 0#64 then -v else v) stack
  | .neg => dwUnary (fun v => -v) stack
  | .not => dwUnary (fun v => ~~~v) stack
  | .plusUconst => dwUnary (fun v => v + op.number) stack
  | .and => dwBinary (fun v1 v2 => some (v1 &&& v2)) stack
  | .div =>
    dwBinary (fun v1 v2 =>
      if v2 = 0#64 then none
      else if v1 = int64Min ∧ v2 = -1#64 then none
      else some (v1.sdiv v2)) stack
  | .mod => dwBinary (fun v1 v2 => if v2 = 0#64 then none else some (v1 % v2)) stack
  | .minus => dwBinary (fun v1 v2 => some (v1 - v2)) stack
  | .xor => dwBinary (fun v1 v2 => some (v1 ^^^ v2)) stack
  | .shr => dwBinary (fun v1 v2 => if 64#64 ≤ v2 then none else some (v1 >>> v2.toNat)) stack
  | .shl => dwBinary (fun v1 v2 => if 64#64 ≤ v2 then none else some (v1 <<< v2.toNat)) stack
  | .plus => dwBinary (fun v1 v2 => some (v1 + v2)) stack
  | .or => dwBinary (fun v1 v2 => some (v1 ||| v2)) stack
  | .mul => dwBinary (fun v1 v2 => some (v1 * v2)) stack
  | .shra =>
    dwBinary (fun v1 v2 => if 64#64 ≤ v2 then none else some (v1.sshiftRight v2.toNat)) stack
  | .le => dwBinary (fun v1 v2 => some (ofBool (v1.sle v2))) stack
  | .ge => dwBinary (fun v1 v2 => some (ofBool (v2.sle v1))) stack
  | .eq => dwBinary (fun v1 v2 => some (ofBool (v1 == v2))) stack
  | .lt => dwBinary (fun v1 v2 => some (ofBool (v1.slt v2))) stack
  | .gt => dwBinary (fun v1 v2 => some (ofBool (v2.slt v1))) stack
  | .ne => dwBinary (fun v1 v2 => some (ofBool (v1 != v2))) stack
  | .nop => some stack
  | _ => none

/-- Result of an evaluation: `false`, `true` with a value, or nested deeper than allowed. -/
inductive EvalResult where
  | fail (oor : OutOfRange)
  | ok (val : Word) (oor : OutOfRange)
  | deep
  deriving DecidableEq, Repr

/-- Locals of `gu_dwarf_ops_eval` at the head of its loop; `pos` is the index of `op`. -/
structure EvalState where
  pos : Nat
  stack : List Word
  isLocation : Bool
  oor : OutOfRange
  deriving DecidableEq, Repr

/-- `compare` against the operation at an index, as `bsearch` calls it. -/
def compareOffset (ops : List DwarfOp) (offset : Word) (i : Nat) : Ordering :=
  match ops[i]? with
  | none => .lt
  | some op => if offset < op.offset then .lt else if op.offset < offset then .gt else .eq

/-- Byte offset a taken `DW_OP_skip` or `DW_OP_bra` asks for. -/
def branchTarget (op : DwarfOp) : Word :=
  op.offset + 1#64 + 2#64 + (op.number.setWidth 16).signExtend 64

/-- Continue at the operation the branch searches for. -/
def takeBranch (ops : List DwarfOp) (op : DwarfOp) (s : EvalState) : Turn EvalState EvalResult :=
  match bsearch (compareOffset ops (branchTarget op)) ops.length with
  | none => .stop (.fail s.oor)
  | some found => .next { s with pos := found }

/-- `DW_OP_deref` and `DW_OP_deref_size`: both read a whole word from the snapshot, the
second one keeps its low bytes. -/
def evalDeref (op : DwarfOp) (s : EvalState) : Turn EvalState EvalResult :=
  if op.atom = .derefSize ∧ 8#64 < op.number then .stop (.fail s.oor)
  else
    match dwPop s.stack with
    | none => .stop (.fail s.oor)
    | some (addr, stack) =>
      match readAddr env addr s.oor with
      | (none, oor) => .stop (.fail oor)
      | (some word, oor) =>
        let val1 := if op.atom = .derefSize ∧ op.number < 8#64 then
          word &&& ((1#64 <<< (op.number * 8#64).toNat) - 1#64) else word
        match dwPush stack val1 with
        | none => .stop (.fail oor)
        | some stack => .next { s with pos := s.pos + 1, stack, oor }

variable (callCfa : OutOfRange → EvalResult)

/-- One pass through the switch. `callCfa` evaluates the installed CFA list. -/
def evalOp (ops : List DwarfOp) (op : DwarfOp) (s : EvalState) : Turn EvalState EvalResult :=
  match op.atom with
  | .deref | .derefSize => evalDeref env op s
  | .bra =>
    match dwPop s.stack with
    | none => .stop (.fail s.oor)
    | some (val1, stack) =>
      if val1 = 0#64 then .next { s with pos := s.pos + 1, stack }
      else takeBranch ops op { s with stack }
  | .skip => takeBranch ops op s
  | .callFrameCfa =>
    match callCfa s.oor with
    | .deep => .stop .deep
    | .fail oor => .stop (.fail oor)
    | .ok cfa oor =>
      match dwPush s.stack cfa with
      | none => .stop (.fail oor)
      | some stack => .next ⟨s.pos + 1, stack, true, oor⟩
  | .stackValue => .next { s with pos := s.pos + 1, isLocation := false }
  | _ =>
    match stackEffect env op s.stack with
    | none => .stop (.fail s.oor)
    | some stack => .next { s with pos := s.pos + 1, stack }

/-- The code behind the loop: pop the result and, for a location, read it. -/
def evalFinish (s : EvalState) : EvalResult :=
  match dwPop s.stack with
  | none => .fail s.oor
  | some (val, _) =>
    if s.isLocation then
      match readAddr env val s.oor with
      | (none, oor) => .fail oor
      | (some word, oor) => .ok word oor
    else .ok val s.oor

/-- One turn of the evaluation loop. -/
def evalTurn (ops : List DwarfOp) (s : EvalState) : Turn EvalState EvalResult :=
  match ops[s.pos]? with
  | none => .stop (evalFinish env s)
  | some op => evalOp env callCfa ops op s

/-- The step counter is exhausted: the next operation fails, the end of the list does not. -/
def evalOut (ops : List DwarfOp) (s : EvalState) : EvalResult :=
  match ops[s.pos]? with
  | none => evalFinish env s
  | some _ => .fail s.oor

/-- State before the first operation. -/
def EvalState.init (oor : OutOfRange) : EvalState := ⟨0, [], false, oor⟩

/-- The body of `gu_dwarf_ops_eval` for a given meaning of `DW_OP_call_frame_cfa`. -/
def evalBody (ops : List DwarfOp) (oor : OutOfRange) : EvalResult :=
  if ops = [] then .fail oor
  else loop (evalTurn env callCfa ops) (evalOut env ops) dwEvalStepsMax (EvalState.init oor)

/-- `gu_dwarf_ops_eval` with `depth` nested calls allowed, `cfaOps` being installed. -/
def guDwarfOpsEval (env : EvalEnv) (cfaOps : List DwarfOp) :
    Nat → List DwarfOp → OutOfRange → EvalResult
  | 0, _, _ => .deep
  | depth + 1, ops, oor => evalBody env (guDwarfOpsEval env cfaOps depth cfaOps) ops oor

/-- One level of nesting. -/
theorem guDwarfOpsEval_succ (cfaOps : List DwarfOp) (depth : Nat) (ops : List DwarfOp) :
    guDwarfOpsEval env cfaOps (depth + 1) ops =
      evalBody env (guDwarfOpsEval env cfaOps depth cfaOps) ops := rfl

/-! ## The fast evaluator and `gen_reg` -/

/-- `fast_eval_reg_or_breg`. -/
def fastEvalRegOrBreg (op : DwarfOp) : Option Word :=
  match op.atom with
  | .reg n => env.getRegs n.toNat
  | .regx => env.getRegs (toInt op.number)
  | .breg n => do
    let base ← env.getRegs n.toNat
    pure (base + op.number)
  | .bregx => do
    let base ← env.getRegs (toInt op.number)
    pure (base + op.number2)
  | _ => none

/-- `fast_eval_cfa`. -/
def fastEvalCfa (cfaOps : List DwarfOp) (depth : Nat) (oor : OutOfRange) : EvalResult :=
  match cfaOps with
  | [] => .fail oor
  | [op] =>
    match fastEvalRegOrBreg env op with
    | some cfa => .ok cfa oor
    | none => guDwarfOpsEval env cfaOps depth cfaOps oor
  | _ => guDwarfOpsEval env cfaOps depth cfaOps oor

/-- The operation shapes behind `DW_OP_call_frame_cfa` that `fast_dwarf_ops_eval` computes
from an evaluated CFA. -/
def fastFromCfa (cfa : Word) (rest : List DwarfOp) (oor : OutOfRange) : EvalResult :=
  match rest with
  | [op] =>
    match op.atom with
    | .stackValue => .ok cfa oor
    | .plusUconst =>
      match readAddr env (cfa + op.number) oor with
      | (none, oor) => .fail oor
      | (some word, oor) => .ok word oor
    | _ => .fail oor
  | [op1, op2] =>
    if op1.atom = .plusUconst ∧ op2.atom = .stackValue then .ok (cfa + op1.number) oor
    else .fail oor
  | _ => .fail oor

/-- `fast_dwarf_ops_eval`. -/
def fastDwarfOpsEval (cfaOps : List DwarfOp) (depth : Nat) (ops : List DwarfOp) (oor : OutOfRange) :
    EvalResult :=
  match ops with
  | [] => .fail oor
  | [op] =>
    match fastEvalRegOrBreg env op with
    | some val => .ok val oor
    | none => .fail oor
  | op :: rest =>
    if op.atom ≠ .callFrameCfa then .fail oor
    else
      match fastEvalCfa env cfaOps depth oor with
      | .deep => .deep
      | .fail oor => .fail oor
      | .ok cfa oor => fastFromCfa env cfa rest oor

/-- The global operation lists a parse installs: `ops_arr[]` and `cfa_ops_info`, up to
their `ops_size`. -/
structure Scratch where
  regs : Columns (List DwarfOp)
  cfa : List DwarfOp
  deriving DecidableEq, Repr

/-- All four lists of size zero. -/
def Scratch.empty : Scratch := ⟨⟨[], [], []⟩, []⟩

/-- `gu_cfi_get_ops`; `none` is its `-1`. -/
def guCfiGetOps (scratch : Scratch) (type : Option RegType) (cfa : Bool) :
    Option (List DwarfOp) :=
  match type with
  | none => none
  | some t =>
    if cfa ∨ (t = .rsp ∧ scratch.regs.get t = []) then some scratch.cfa
    else some (scratch.regs.get t)

/-- The reason `gen_reg` reports for a failed evaluation. -/
def failReason (oor : OutOfRange) : UnwindReason :=
  if oor.flag then .stackReadOutOfRange else .cfiFrameCfaCalcFailed

/-- `gen_reg`: the recovered value or the reason, with the record of the last failed read.
`none` is an evaluation nested deeper than `depth`. -/
def genReg (scratch : Scratch) (depth : Nat) (regno : Int) (oor : OutOfRange) :
    Option (Except UnwindReason Word × OutOfRange) :=
  match guCfiGetOps scratch (transRegType env.target.arch regno) false with
  | none => some (.error .cfiFrameCfaFailed, oor)
  | some ops =>
    match fastDwarfOpsEval env scratch.cfa depth ops .clear with
    | .deep => none
    | .ok val oor => some (.ok val, oor)
    | .fail oor =>
      match guDwarfOpsEval env scratch.cfa depth ops oor with
      | .deep => none
      | .ok val oor => some (.ok val, oor)
      | .fail oor => some (.error (failReason oor), oor)

end Gunwinder
