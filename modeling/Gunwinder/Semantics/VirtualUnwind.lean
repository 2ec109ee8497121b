import Gunwinder.Rows.CacheTransparency

/-!
# Virtual unwinding with three registers

A reference unwinder without caches, global lists and register block. One step picks a mapping
that contains the pc, evaluates the rules of its row on the old registers and the stack snapshot,
and replaces the three registers at once. The mappings may change while a process is unwound, so
every step has a table of its own.
-/

namespace Gunwinder

/-- The value of an evaluation that succeeds. -/
def EvalResult.value : EvalResult → Option Word
  | .ok val _ => some val
  | .fail _ => none
  | .deep => none

/-- Evaluation of the CFA rule. Inside that rule `DW_OP_call_frame_cfa` has no meaning. -/
def cfaMeaning (env : EvalEnv) (cfaOps : List DwarfOp) : OutOfRange → EvalResult :=
  evalBody env .fail cfaOps

/-- The value of an operation list, with the CFA for `DW_OP_call_frame_cfa`. -/
def opsValue (env : EvalEnv) (cfaOps ops : List DwarfOp) : Option Word :=
  (evalBody env (cfaMeaning env cfaOps) ops .clear).value

/-- The CFA, when it can be evaluated. -/
def cfaValue (env : EvalEnv) (cfaOps : List DwarfOp) : Option Word :=
  (cfaMeaning env cfaOps .clear).value

/-- The rule says how to recover the register. -/
def FrameRule.recovers : FrameRule → Bool
  | .unspecified | .undefined | .sameValue => false
  | _ => true

/-- The value of a register in the caller. -/
def ruleValue (env : EvalEnv) (sec : Section) (cfaOps : List DwarfOp) (rules : CalcRules)
    (type : RegType) : Option Word :=
  let reg := rules.regs.get type
  match reg.rule with
  | .unspecified | .undefined | .sameValue => none
  | .offset => (cfaValue env cfaOps).bind fun cfa => (readAddr env (cfa + reg.word) .clear).1
  | .valOffset => (cfaValue env cfaOps).map fun cfa => cfa + reg.word
  | .register => env.getRegs (toInt reg.word)
  | .expression | .valExpression => (guCfiGetRegsOps sec type rules).bind (opsValue env cfaOps)

/-- The row of a pc, with the mark of a signal frame. -/
def freshRow (cfi : ValueCfi) (pc : Word) : Option (CalcRules × Bool) :=
  match findFde cfi pc with
  | none => none
  | some (fde, cie) =>
    let run := initCalcCtxByIns savedValues cfi.arch cfi.sec cie cie.cieCalcCtx ()
      fde.instructions fde.instructionsEnd fde.start pc
    if run.ok then some (run.ctx.rules, cie.signalFrame) else none

/-- An executable mapping that is backed by an ELF file. -/
structure Mapping where
  start : Word
  fin : Word
  bias : Word
  cfi : Option ValueCfi
  /-- The symbol of a relative pc marks the bottom of a stack. -/
  bottom : Word → Bool

/-- The mapping holds the address. -/
def Mapping.Contains (m : Mapping) (addr : Word) : Prop := m.start ≤ addr ∧ addr < m.fin

instance (m : Mapping) (addr : Word) : Decidable (m.Contains addr) :=
  inferInstanceAs (Decidable (m.start ≤ addr ∧ addr < m.fin))

/-- The registers of the reference unwinder. An exact pc is that of the sample or of a frame
that was interrupted by a signal. -/
structure RefState where
  pc : Word
  sp : Word
  bp : Word
  exactPc : Bool
  deriving DecidableEq, Repr

/-- The registers rules may name: stack pointer, frame pointer and, where the build keeps the
pc in the register it was sampled from, the pc. -/
def Arch.Tracked (arch : Arch) (regno : Nat) : Prop :=
  regno = arch.regNameRsp ∨ regno = arch.regNameRbp ∨
    (regno = arch.regNameRip ∧ arch.pcRegno = arch.regNameRip)

instance (arch : Arch) (regno : Nat) : Decidable (arch.Tracked regno) :=
  inferInstanceAs (Decidable (_ ∨ _ ∨ _))

/-- The three registers as a register block. -/
def RefState.block (arch : Arch) (s : RefState) (regno : Nat) : Word :=
  if regno = arch.regNameRsp then s.sp
  else if regno = arch.regNameRbp then s.bp
  else if regno = arch.regNameRip then s.pc
  else 0#64

/-- What the reference unwinder runs on. A `lenient` one looks the row of relative pc 0 up
there, and takes a stack pointer rule that does not decode for none. -/
structure RefWorld where
  target : Target
  /-- The sample; of its registers none is read. -/
  snapshot : StackInfo
  rawSp : Word
  tables : Nat → List Mapping
  lenient : Bool

namespace RefWorld

variable (w : RefWorld)

/-- The rules of a frame are evaluated on its registers and the snapshot. -/
def env (s : RefState) (bias : Word) : EvalEnv :=
  ⟨w.target, bias, w.rawSp, { w.snapshot with regs := some (s.block w.target.arch) }⟩

/-- The pc the row is looked up at: the call before a return address. -/
def lookupPc (s : RefState) (bias : Word) : Word :=
  if s.exactPc then s.pc - bias
  else if w.lenient ∧ s.pc - bias = 0#64 then 0#64
  else s.pc - bias - 1#64

/-- The stack pointer of the caller is the CFA unless it has a rule. -/
def spValue (env : EvalEnv) (sec : Section) (cfaOps : List DwarfOp) (rules : CalcRules) :
    Option Word :=
  if rules.regs.rsp.rule.recovers = false ∨
      (w.lenient ∧ guCfiGetRegsOps sec .rsp rules = none) then cfaValue env cfaOps
  else ruleValue env sec cfaOps rules .rsp

/-- The caller by the row of the pc in a mapping. -/
def caller (s : RefState) (m : Mapping) : Option RefState := do
  let cfi ← m.cfi
  let (rules, signalFrame) ← freshRow cfi (w.lookupPc s m.bias)
  let cfaOps ← guCfiGetCfaOps cfi.sec.mem rules
  let env := w.env s m.bias
  let ra ← ruleValue env cfi.sec cfaOps rules .rip
  let sp ← w.spValue env cfi.sec cfaOps rules
  return ⟨ra, sp, (ruleValue env cfi.sec cfaOps rules .rbp).getD s.bp, signalFrame⟩

/-- Step `k` of the reference unwinder. Only overlapping mappings leave a choice. -/
def steps (k : Nat) (s : RefState) : List RefState :=
  ((w.tables k).filter fun m => m.Contains s.pc).filterMap (w.caller s)

/-- A caller by a mapping is a step. -/
theorem mem_steps {w : RefWorld} {k : Nat} {s s' : RefState} {m : Mapping} (hm : m ∈ w.tables k)
    (hcontains : m.Contains s.pc) (hcaller : w.caller s m = some s') : s' ∈ w.steps k s :=
  List.mem_filterMap.mpr ⟨m, List.mem_filter.mpr ⟨hm, decide_eq_true hcontains⟩, hcaller⟩

/-- The list is an initial part of a pc sequence from step `k` on. -/
def PcSequence : Nat → RefState → List Word → Prop
  | _, _, [] => True
  | k, s, pc :: rest => pc = s.pc ∧ (rest = [] ∨ ∃ s' ∈ w.steps k s, PcSequence (k + 1) s' rest)

instance decidablePcSequence : ∀ k s pcs, Decidable (w.PcSequence k s pcs)
  | _, _, [] => isTrue trivial
  | k, s, pc :: rest =>
    have := fun s' => decidablePcSequence (k + 1) s' rest
    inferInstanceAs (Decidable (pc = s.pc ∧ (rest = [] ∨ ∃ s' ∈ w.steps k s, _)))

end RefWorld

end Gunwinder
