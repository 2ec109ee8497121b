import Gunwinder.Evaluation.Outcome

/-!
# The fast evaluator agrees with the general one

`fast_dwarf_ops_eval` answers the operation lists compilers emit without running the
stack machine. On the shapes it answers, the general evaluator gives the same result; on
the others, the record it leaves is the one the general evaluator leaves when it fails in turn.
-/

namespace Gunwinder

open Gunwinder.Core

variable {env : EvalEnv} {cfaOps : List DwarfOp}

variable {callCfa : OutOfRange → EvalResult} {op : DwarfOp} {ops : List DwarfOp}

/-- A register operation the fast evaluator reads is one the machine pushes. -/
theorem evalOp_of_fastEvalRegOrBreg {val : Word} (h : fastEvalRegOrBreg env op = some val)
    (oor : OutOfRange) :
    evalOp env callCfa ops op (EvalState.init oor) = .next ⟨1, [val], false, oor⟩ := by
  unfold fastEvalRegOrBreg at h
  split at h
  · rename_i n hop
    simp [evalOp, hop, stackEffect, h, dwPush, dwEvalStackSize, EvalState.init]
  · rename_i hop
    simp [evalOp, hop, stackEffect, h, dwPush, dwEvalStackSize, EvalState.init]
  · rename_i n hop
    obtain ⟨base, hbase, hval⟩ := Option.bind_eq_some_iff.mp h
    cases hval
    simp [evalOp, hop, stackEffect, hbase, dwPush, dwEvalStackSize, EvalState.init]
  · rename_i hop
    obtain ⟨base, hbase, hval⟩ := Option.bind_eq_some_iff.mp h
    cases hval
    simp [evalOp, hop, stackEffect, hbase, dwPush, dwEvalStackSize, EvalState.init]
  · cases h

/-- The machine behind its first `n` turns; a nonempty list starts with the whole budget. -/
def evalRest (env : EvalEnv) (callCfa : OutOfRange → EvalResult) (ops : List DwarfOp)
    (n : Nat) (s : EvalState) : EvalResult :=
  loop (evalTurn env callCfa ops) (evalOut env ops) (dwEvalStepsMax - n) s

/-- A list that is not empty is run. -/
theorem evalBody_cons (callCfa : OutOfRange → EvalResult) (op : DwarfOp) (ops : List DwarfOp)
    (oor : OutOfRange) :
    evalBody env callCfa (op :: ops) oor =
      evalRest env callCfa (op :: ops) 0 (EvalState.init oor) := by
  simp [evalBody, evalRest]

variable {s : EvalState}

/-- A turn that goes on consumes one unit of the budget. -/
theorem evalRest_next {n : Nat} {s' : EvalState} (hn : n < dwEvalStepsMax)
    (hop : ops[s.pos]? = some op) (h : evalOp env callCfa ops op s = .next s') :
    evalRest env callCfa ops n s = evalRest env callCfa ops (n + 1) s' := by
  have hturn : evalTurn env callCfa ops s = .next s' := by simp [evalTurn, hop, h]
  unfold evalRest
  rw [show dwEvalStepsMax - n = dwEvalStepsMax - (n + 1) + 1 by omega, loop_next hturn]

/-- A turn that stops gives the result. -/
theorem evalRest_stop {n : Nat} {r : EvalResult} (hn : n < dwEvalStepsMax)
    (hop : ops[s.pos]? = some op) (h : evalOp env callCfa ops op s = .stop r) :
    evalRest env callCfa ops n s = r := by
  have hturn : evalTurn env callCfa ops s = .stop r := by simp [evalTurn, hop, h]
  unfold evalRest
  rw [show dwEvalStepsMax - n = dwEvalStepsMax - (n + 1) + 1 by omega, loop_stop hturn]

/-- Behind the last operation the result is popped, whatever is left of the budget. -/
theorem evalLoop_end (n : Nat) (hend : ops[s.pos]? = none) :
    loop (evalTurn env callCfa ops) (evalOut env ops) n s = evalFinish env s := by
  cases n with
  | zero => simp [evalOut, hend]
  | succ n => exact loop_stop (by simp [evalTurn, hend]) _ _

/-- A run ends behind the list. -/
theorem evalRest_end (n : Nat) (hend : ops[s.pos]? = none) :
    evalRest env callCfa ops n s = evalFinish env s :=
  evalLoop_end _ hend

/-- A list of one register operation is evaluated to that register. -/
theorem evalBody_of_fastEvalRegOrBreg {val : Word} (h : fastEvalRegOrBreg env op = some val)
    (callCfa : OutOfRange → EvalResult) (oor : OutOfRange) :
    evalBody env callCfa [op] oor = .ok val oor := by
  rw [evalBody_cons, evalRest_next (by decide) rfl (evalOp_of_fastEvalRegOrBreg h oor),
    evalRest_end _ rfl]
  rfl

/-- `fast_eval_cfa` is the general evaluation of the installed CFA list. -/
theorem fastEvalCfa_eq (depth : Nat) (oor : OutOfRange) :
    fastEvalCfa env cfaOps (depth + 1) oor =
      guDwarfOpsEval env cfaOps (depth + 1) cfaOps oor := by
  unfold fastEvalCfa
  split
  · rfl
  · split
    · rename_i op cfa hcfa
      exact (evalBody_of_fastEvalRegOrBreg hcfa _ oor).symm
    · rfl
  · rfl

/-- A list that starts with `DW_OP_call_frame_cfa` first evaluates the installed list. -/
theorem evalBody_call {rest : List DwarfOp} (hop : op.atom = .callFrameCfa) (oor : OutOfRange) :
    evalBody env callCfa (op :: rest) oor =
      match callCfa oor with
      | .deep => .deep
      | .fail r => .fail r
      | .ok cfa r => evalRest env callCfa (op :: rest) 1 ⟨1, [cfa], true, r⟩ := by
  rw [evalBody_cons]
  cases hcall : callCfa oor with
  | deep | fail r =>
    exact evalRest_stop (by decide) rfl (by simp [evalOp, hop, EvalState.init, hcall])
  | ok cfa r =>
    exact evalRest_next (by decide) rfl
      (by simp [evalOp, hop, EvalState.init, hcall, dwPush, dwEvalStackSize])

section Shapes

variable {callCfa : OutOfRange → EvalResult} {op op1 op2 : DwarfOp} {cfa : Word}
  {oor : OutOfRange}

/-- The CFA as a value. -/
theorem evalRest_stackValue (h1 : op1.atom = .stackValue) :
    evalRest env callCfa [op, op1] 1 ⟨1, [cfa], true, oor⟩ = .ok cfa oor := by
  have hstep : evalOp env callCfa [op, op1] op1 ⟨1, [cfa], true, oor⟩ =
      .next ⟨2, [cfa], false, oor⟩ := by simp [evalOp, h1]
  rw [evalRest_next (by decide) rfl hstep, evalRest_end _ rfl]
  rfl

/-- `DW_OP_plus_uconst` adds its operand to the CFA on the stack. -/
theorem evalOp_plusUconst (h1 : op1.atom = .plusUconst) :
    evalOp env callCfa ops op1 ⟨1, [cfa], true, oor⟩ =
      .next ⟨2, [cfa + op1.number], true, oor⟩ := by
  simp [evalOp, h1, stackEffect, dwUnary, dwPop, dwPush, dwEvalStackSize]

/-- The snapshot word at an offset from the CFA. -/
theorem evalRest_plusUconst (h1 : op1.atom = .plusUconst) :
    evalRest env callCfa [op, op1] 1 ⟨1, [cfa], true, oor⟩ =
      match readAddr env (cfa + op1.number) oor with
      | (none, r) => .fail r
      | (some word, r) => .ok word r := by
  rw [evalRest_next (by decide) rfl (evalOp_plusUconst h1), evalRest_end _ rfl]
  rfl

/-- An offset from the CFA as a value. -/
theorem evalRest_plusUconst_stackValue (h1 : op1.atom = .plusUconst)
    (h2 : op2.atom = .stackValue) :
    evalRest env callCfa [op, op1, op2] 1 ⟨1, [cfa], true, oor⟩ = .ok (cfa + op1.number) oor := by
  have hstep : evalOp env callCfa [op, op1, op2] op2 ⟨2, [cfa + op1.number], true, oor⟩ =
      .next ⟨3, [cfa + op1.number], false, oor⟩ := by simp [evalOp, h2]
  rw [evalRest_next (by decide) rfl (evalOp_plusUconst h1), evalRest_next (by decide) rfl hstep,
    evalRest_end _ rfl]
  rfl

/-- On an evaluated CFA the fast evaluator gives the machine's result or declines. -/
theorem fastFromCfa_agrees (rest : List DwarfOp) :
    fastFromCfa env cfa rest oor = evalRest env callCfa (op :: rest) 1 ⟨1, [cfa], true, oor⟩ ∨
      fastFromCfa env cfa rest oor = .fail oor := by
  unfold fastFromCfa
  split
  · split
    · exact .inl (evalRest_stackValue ‹_›).symm
    · exact .inl (evalRest_plusUconst ‹_›).symm
    · exact .inr rfl
  · split
    · rename_i h
      exact .inl (evalRest_plusUconst_stackValue h.1 h.2).symm
    · exact .inr rfl
  · exact .inr rfl

end Shapes

/-- From the cleared record, the fast evaluator gives the general result or declines and
leaves the record. -/
theorem fastDwarfOpsEval_agrees {env : EvalEnv} {depth : Nat}
    (hcfa : guDwarfOpsEval env cfaOps (depth + 2) cfaOps .clear =
      guDwarfOpsEval env cfaOps (depth + 1) cfaOps .clear) (ops : List DwarfOp) :
    fastDwarfOpsEval env cfaOps (depth + 2) ops .clear =
        guDwarfOpsEval env cfaOps (depth + 2) ops .clear ∨
      fastDwarfOpsEval env cfaOps (depth + 2) ops .clear = .fail .clear := by
  unfold fastDwarfOpsEval
  split
  · exact .inr rfl
  · split
    · rename_i op val hval
      exact .inl (evalBody_of_fastEvalRegOrBreg hval _ _).symm
    · exact .inr rfl
  · rename_i op rest hne
    split
    · exact .inr rfl
    rename_i hop
    have hop' : op.atom = .callFrameCfa := by simpa using hop
    rw [fastEvalCfa_eq, hcfa, guDwarfOpsEval_succ env cfaOps (depth + 1) (op :: rest),
      evalBody_call hop']
    cases hc : guDwarfOpsEval env cfaOps (depth + 1) cfaOps .clear with
    | deep | fail r => exact .inl rfl
    | ok cfa r =>
      obtain rfl := (guDwarfOpsEval_record env cfaOps _ _).ok_record hc
      exact fastFromCfa_agrees rest

/-- A failed evaluation, run again on the record it left, fails with that record. -/
theorem RecordBlind.fail_again {eval : OutOfRange → EvalResult} (h : RecordBlind eval)
    {r : OutOfRange} (hfail : eval .clear = .fail r) : eval r = .fail r := by
  rw [h r, hfail]
  simp [EvalResult.withRecord]

/-- What `gen_reg` makes of the result of an evaluation. -/
def EvalResult.report : EvalResult → Option (Except UnwindReason Word × OutOfRange)
  | .ok val oor => some (.ok val, oor)
  | .fail oor => some (.error (failReason oor), oor)
  | .deep => none

/-- The general evaluator runs on the record a declined fast evaluation left. -/
def EvalResult.orElse (slow : OutOfRange → EvalResult) : EvalResult → EvalResult
  | .fail oor => slow oor
  | .ok val oor => .ok val oor
  | .deep => .deep

/-- `gen_reg` reports the fast evaluation or, where that declines, the general one. -/
theorem genReg_of_ops {scratch : Scratch} {regno : Int}
    (hops : guCfiGetOps scratch (transRegType env.target.arch regno) false = some ops) (depth : Nat)
    (oor : OutOfRange) :
    genReg env scratch depth regno oor =
      ((fastDwarfOpsEval env scratch.cfa depth ops .clear).orElse
        (guDwarfOpsEval env scratch.cfa depth ops)).report := by
  unfold genReg
  rw [hops]
  dsimp only
  cases fastDwarfOpsEval env scratch.cfa depth ops .clear with
  | deep => rfl
  | ok val r => rfl
  | fail r =>
    simp only [EvalResult.orElse]
    cases guDwarfOpsEval env scratch.cfa depth ops r <;> rfl

/-- `gen_reg` reports the general evaluation from the cleared record. -/
theorem genReg_eq_report {scratch : Scratch} {depth : Nat}
    (hcfa : guDwarfOpsEval env scratch.cfa (depth + 2) scratch.cfa .clear =
      guDwarfOpsEval env scratch.cfa (depth + 1) scratch.cfa .clear) {regno : Int}
    (hops : guCfiGetOps scratch (transRegType env.target.arch regno) false = some ops)
    (oor : OutOfRange) :
    genReg env scratch (depth + 2) regno oor =
      (guDwarfOpsEval env scratch.cfa (depth + 2) ops .clear).report := by
  rw [genReg_of_ops hops]
  rcases fastDwarfOpsEval_agrees hcfa ops with hfast | hfast
  · rw [hfast]
    cases heval : guDwarfOpsEval env scratch.cfa (depth + 2) ops .clear with
    | deep => rfl
    | ok val r => rfl
    | fail r =>
      rw [EvalResult.orElse, (guDwarfOpsEval_record env scratch.cfa _ ops).fail_again heval]
  · rw [hfast, EvalResult.orElse]

/-- `gen_reg` succeeds with the value the general evaluator alone gives, and otherwise
reports the reason the general evaluator alone leads to; it always returns. -/
theorem genReg_agrees_guDwarfOpsEval (env : EvalEnv) (scratch : Scratch) (depth : Nat)
    (hdepth : 2 ≤ depth) (hfree : CallFree scratch.cfa) (regno : Int) (ops : List DwarfOp)
    (hops : guCfiGetOps scratch (transRegType env.target.arch regno) false = some ops)
    (oor : OutOfRange) :
    (∀ val, (∃ r, genReg env scratch depth regno oor = some (.ok val, r)) ↔
        ∃ r, guDwarfOpsEval env scratch.cfa depth ops .clear = .ok val r) ∧
      (∀ reason, (∃ r, genReg env scratch depth regno oor = some (.error reason, r)) ↔
        ∃ r, guDwarfOpsEval env scratch.cfa depth ops .clear = .fail r ∧
          reason = if r.flag then .stackReadOutOfRange else .cfiFrameCfaCalcFailed) ∧
      genReg env scratch depth regno oor ≠ none := by
  obtain ⟨depth, rfl⟩ := Nat.exists_eq_add_of_le' hdepth
  rw [genReg_eq_report (guDwarfOpsEval_callFree hfree _ _ _) hops oor]
  have hdeep : guDwarfOpsEval env scratch.cfa (depth + 2) ops .clear ≠ .deep :=
    guDwarfOpsEval_ne_deep hfree depth ops .clear
  cases heval : guDwarfOpsEval env scratch.cfa (depth + 2) ops .clear with
  | ok val r => simp [EvalResult.report]
  | fail r =>
    have hreason (reason : UnwindReason) : failReason r = reason ↔ reason = failReason r := eq_comm
    simpa [EvalResult.report, failReason] using hreason
  | deep => exact absurd heval hdeep

/-- A sample with the stack pointer at `0x7000` and 64 captured bytes. -/
def sampleEnv : EvalEnv :=
  ⟨⟨.x86, 4096#64⟩, 0#64, 0x7000#64,
    ⟨1, 64#64, 0#64, some fun n => if n = 7 then 0x7000#64 else 0#64, 0#64, fun _ => 0#64,
      0#64, some fun n => if n = 8 then 0x2a#8 else 0#8⟩⟩

/-- A return address saved eight bytes below the CFA, found by the fast evaluator. -/
theorem genReg_agrees_guDwarfOpsEval_savedAddress :
    let scratch : Scratch := ⟨⟨[.bare .callFrameCfa, ⟨.plusUconst, -8#64, 0#64, 0#64⟩], [], []⟩,
      [⟨.bregx, 7#64, 16#64, 0#64⟩]⟩
    ∃ r, genReg sampleEnv scratch 2 16 .clear = some (.ok 0x2a#64, r) := by
  intro scratch
  exact ((genReg_agrees_guDwarfOpsEval sampleEnv scratch 2 (by decide) (by decide) 16
    scratch.regs.rip (by decide) .clear).1 0x2a#64).mpr ⟨.clear, by decide +kernel⟩

end Gunwinder
