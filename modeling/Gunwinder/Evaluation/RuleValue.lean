import Gunwinder.Evaluation.Termination
import Gunwinder.Semantics.VirtualUnwind

/-!
# Recovered registers are rule values

What `gen_reg` recovers on the operation lists of a row is the value that the rule of the
register has once the CFA is known, and it depends on the register block only through the
registers the operations name.
-/

namespace Gunwinder

open Gunwinder.Core

variable {env env' : EvalEnv} {cfaOps ops : List DwarfOp}

/-! ## The general and the fast evaluator -/

private theorem EvalResult.value_withRecord (oor : OutOfRange) (r : EvalResult) :
    (r.withRecord oor).value = r.value := by
  cases r <;> rfl

/-- The value of an evaluation does not depend on the record. -/
theorem RecordBlind.value_eq {eval : OutOfRange → EvalResult} (h : RecordBlind eval)
    (oor : OutOfRange) : (eval oor).value = (eval .clear).value := by
  rw [h oor, EvalResult.value_withRecord]

private theorem recordBlind_fail : RecordBlind .fail := fun _ => rfl

private theorem cfaMeaning_record (env : EvalEnv) (cfaOps : List DwarfOp) :
    RecordBlind (cfaMeaning env cfaOps) := evalBody_record recordBlind_fail

/-- An installed CFA list that stays clear of `DW_OP_call_frame_cfa` is the CFA at any depth. -/
theorem guDwarfOpsEval_cfa (h : ¬ReachesCall env cfaOps) (depth : Nat) :
    guDwarfOpsEval env cfaOps (depth + 1) cfaOps = cfaMeaning env cfaOps := by
  obtain ⟨result, -, heq⟩ := evalBody_of_not_reachesCall h
  rw [guDwarfOpsEval_succ, heq _ (guDwarfOpsEval_record env cfaOps depth cfaOps)]
  exact (heq _ recordBlind_fail).symm

/-- An evaluation that ends has the value of its list. -/
theorem guDwarfOpsEval_value (depth : Nat) (ops : List DwarfOp) (oor : OutOfRange)
    (h : guDwarfOpsEval env cfaOps depth ops oor ≠ .deep) :
    (guDwarfOpsEval env cfaOps depth ops oor).value = opsValue env cfaOps ops := by
  cases depth with
  | zero => exact absurd rfl h
  | succ depth =>
    rw [(guDwarfOpsEval_record env cfaOps (depth + 1) ops).value_eq oor, guDwarfOpsEval_succ]
    rw [guDwarfOpsEval_succ] at h
    by_cases hops : ReachesCall env ops
    · -- the list asks for the CFA, so the CFA list has ended
      have hcall : guDwarfOpsEval env cfaOps depth cfaOps ≠ fun _ => .deep := by
        intro hdeep
        rw [hdeep] at h
        exact h (evalBody_deep hops oor)
      have hcfa : ¬ReachesCall env cfaOps := fun hreach => hcall (guDwarfOpsEval_deep hreach depth)
      cases depth with
      | zero => exact absurd rfl hcall
      | succ depth => rw [guDwarfOpsEval_cfa hcfa, opsValue]
    · obtain ⟨result, -, heq⟩ := evalBody_of_not_reachesCall hops
      rw [opsValue, heq _ (guDwarfOpsEval_record env cfaOps depth cfaOps),
        heq _ (cfaMeaning_record env cfaOps)]

/-- A success of `fast_eval_cfa` is the CFA. -/
theorem fastEvalCfa_value {depth : Nat} {oor r : OutOfRange} {cfa : Word}
    (h : fastEvalCfa env cfaOps depth oor = .ok cfa r) : cfaMeaning env cfaOps oor = .ok cfa r := by
  cases depth with
  | zero =>
    unfold fastEvalCfa at h
    split at h
    · cases h
    · split at h
      · rename_i op val hval
        rw [← h]
        exact evalBody_of_fastEvalRegOrBreg hval _ oor
      · cases h
    · cases h
  | succ depth =>
    rw [fastEvalCfa_eq] at h
    by_cases hreach : ReachesCall env cfaOps
    · rw [guDwarfOpsEval_deep hreach] at h
      cases h
    · rw [← guDwarfOpsEval_cfa hreach depth]
      exact h

/-- A success of the fast evaluator has the value of its list. -/
theorem fastDwarfOpsEval_value {depth : Nat} {val : Word} {r : OutOfRange}
    (h : fastDwarfOpsEval env cfaOps depth ops .clear = .ok val r) :
    opsValue env cfaOps ops = some val := by
  unfold fastDwarfOpsEval at h
  split at h
  · cases h
  · split at h
    · rename_i op val' hval
      obtain ⟨rfl, -⟩ := EvalResult.ok.inj h
      rw [opsValue, evalBody_of_fastEvalRegOrBreg hval]
      rfl
    · cases h
  · rename_i op rest hne
    split at h
    · cases h
    rename_i hop
    split at h
    · cases h
    · cases h
    · rename_i cfa r' hcfa
      have hmeaning := fastEvalCfa_value hcfa
      have hop' : op.atom = .callFrameCfa := by simpa using hop
      rw [opsValue, evalBody_call hop', hmeaning]
      have hagrees : fastFromCfa env cfa rest r' =
          evalRest env (cfaMeaning env cfaOps) (op :: rest) 1 ⟨1, [cfa], true, r'⟩ ∨
            fastFromCfa env cfa rest r' = .fail r' := fastFromCfa_agrees rest
      dsimp only
      rcases hagrees with hfast | hfast
      · rw [← hfast, h]
        rfl
      · rw [hfast] at h
        cases h

/-- What `gen_reg` recovers is the value of the list it picks. -/
theorem genReg_value {scratch : Scratch} {regno : Int} {depth : Nat} {oor oor' : OutOfRange}
    {result : Except UnwindReason Word}
    (hops : guCfiGetOps scratch (transRegType env.target.arch regno) false = some ops)
    (h : genReg env scratch depth regno oor = some (result, oor')) :
    result.toOption = opsValue env scratch.cfa ops := by
  rw [genReg_of_ops hops] at h
  cases hfast : fastDwarfOpsEval env scratch.cfa depth ops .clear with
  | deep =>
    rw [hfast] at h
    cases h
  | ok val r =>
    rw [hfast] at h
    cases h
    exact (fastDwarfOpsEval_value hfast).symm
  | fail r =>
    rw [hfast, EvalResult.orElse] at h
    have hslow : guDwarfOpsEval env scratch.cfa depth ops r ≠ .deep → _ :=
      guDwarfOpsEval_value depth ops r
    cases heval : guDwarfOpsEval env scratch.cfa depth ops r with
    | deep =>
      rw [heval] at h
      cases h
    | ok val r' | fail r' =>
      rw [heval] at h hslow
      cases h
      exact hslow (by simp)

/-! ## Register rules -/

/-- A list that starts with `DW_OP_call_frame_cfa` has a value only with the CFA. -/
theorem opsValue_call {op : DwarfOp} {rest : List DwarfOp} (hop : op.atom = .callFrameCfa) :
    opsValue env cfaOps (op :: rest) = (cfaValue env cfaOps).bind fun cfa =>
      (evalRest env (cfaMeaning env cfaOps) (op :: rest) 1 ⟨1, [cfa], true, .clear⟩).value := by
  rw [opsValue, evalBody_call hop, cfaValue]
  cases hcfa : cfaMeaning env cfaOps .clear with
  | deep => rfl
  | fail r => rfl
  | ok cfa r =>
    obtain rfl := (cfaMeaning_record env cfaOps).ok_record hcfa
    rfl

/-- The value behind a read of the snapshot. -/
theorem value_readAddr (addr : Word) (oor : OutOfRange) :
    EvalResult.value (match readAddr env addr oor with
      | (none, r) => .fail r
      | (some word, r) => .ok word r) = (readAddr env addr oor).1 := by
  cases readAddr env addr oor with
  | mk word r => cases word <;> rfl

private theorem opsValue_offset (offset : Word) :
    opsValue env cfaOps (.bare .callFrameCfa :: plusOffset offset) =
      (cfaValue env cfaOps).bind fun cfa => (readAddr env (cfa + offset) .clear).1 := by
  rw [opsValue_call rfl]
  congr 1
  funext cfa
  unfold plusOffset
  split
  · rename_i hzero
    rw [evalRest_end 1 rfl, hzero, BitVec.add_zero]
    exact value_readAddr cfa .clear
  · rw [evalRest_plusUconst rfl]
    exact value_readAddr _ .clear

private theorem opsValue_valOffset (offset : Word) :
    opsValue env cfaOps (.bare .callFrameCfa :: plusOffset offset ++ [.bare .stackValue]) =
      (cfaValue env cfaOps).map fun cfa => cfa + offset := by
  rw [List.cons_append, opsValue_call rfl, Option.map_eq_bind]
  congr 1
  funext cfa
  unfold plusOffset
  split
  · rename_i hzero
    rw [List.nil_append, evalRest_stackValue rfl, hzero]
    simp [EvalResult.value]
  · rw [List.singleton_append, evalRest_plusUconst_stackValue rfl rfl]
    rfl

private theorem opsValue_register (regno : Word) :
    opsValue env cfaOps [⟨.regx, regno, 0#64, 0#64⟩] = env.getRegs (toInt regno) := by
  rw [opsValue]
  cases hreg : env.getRegs (toInt regno) with
  | some val =>
    have hfast : fastEvalRegOrBreg env ⟨.regx, regno, 0#64, 0#64⟩ = some val := hreg
    rw [evalBody_of_fastEvalRegOrBreg hfast]
    rfl
  | none =>
    rw [evalBody_cons, evalRest_stop (by decide) rfl (r := .fail .clear)]
    · rfl
    · simp [evalOp, stackEffect, hreg, EvalState.init]

/-- The operations of a rule have the value of the rule. -/
theorem ruleValue_eq_opsValue (sec : Section) (rules : CalcRules) (type : RegType) :
    ruleValue env sec cfaOps rules type =
      (guCfiGetRegsOps sec type rules).bind (opsValue env cfaOps) := by
  unfold ruleValue
  dsimp only
  split <;> rename_i hrule
  · simp [guCfiGetRegsOps, hrule]
  · simp [guCfiGetRegsOps, hrule]
  · simp [guCfiGetRegsOps, hrule]
  · simp [guCfiGetRegsOps, hrule, opsValue_offset]
  · simp only [guCfiGetRegsOps, hrule, Option.bind_some, opsValue_valOffset]
  · simp only [guCfiGetRegsOps, hrule, Option.bind_some, opsValue_register]
  · rfl
  · rfl

/-- A register without a rule has no operations. -/
theorem guCfiGetRegsOps_of_not_recovers {sec : Section} {rules : CalcRules} {type : RegType}
    (h : (rules.regs.get type).rule.recovers = false) : guCfiGetRegsOps sec type rules = none := by
  unfold guCfiGetRegsOps
  dsimp only
  cases hrule : (rules.regs.get type).rule <;> simp_all [FrameRule.recovers]

/-- The operations of a register are never empty. -/
theorem guCfiGetRegsOps_ne_nil {sec : Section} {rules : CalcRules} {type : RegType}
    (h : guCfiGetRegsOps sec type rules = some ops) : ops ≠ [] := by
  rintro rfl
  unfold guCfiGetRegsOps at h
  dsimp only at h
  split at h
  case h_7 | h_8 =>
    split at h
    · cases h
    split at h
    · cases h
    split at h
    · unfold guCfiInitOpsFromBlock at h
      grind [opsPrologue]
    · cases h
  all_goals simp at h

/-! ## The columns of a row -/

/-- An empty list has no value. -/
theorem opsValue_nil : opsValue env cfaOps [] = none := by
  simp [opsValue, evalBody, EvalResult.value]

variable {callCfa : OutOfRange → EvalResult}

/-- A run that arrives at `DW_OP_call_frame_cfa` has no value when the CFA has none. -/
theorem loop_value_of_reachesFrom (hcall : ∀ oor, (callCfa oor).value = none) (fuel : Nat)
    (s : EvalState) (h : ReachesFrom env ops fuel s) :
    (loop (evalTurn env callCfa ops) (evalOut env ops) fuel s).value = none := by
  induction fuel generalizing s with
  | zero =>
    obtain ⟨n, _, _, hn, -⟩ := h
    omega
  | succ fuel ih =>
    cases hop : ops[s.pos]? with
    | none =>
      have hstop : evalTurn env .fail ops s = .stop (evalFinish env s) := by simp [evalTurn, hop]
      exact absurd h (not_reachesFrom_stop (by simp [hop]) hstop)
    | some op =>
      by_cases hatom : op.atom = .callFrameCfa
      · have hvalue := hcall s.oor
        simp only [loop, evalTurn, hop, evalOp, hatom]
        cases hc : callCfa s.oor with
        | ok val r => rw [hc] at hvalue; cases hvalue
        | fail r => rfl
        | deep => rfl
      · have hturn : evalTurn env callCfa ops s = evalTurn env .fail ops s := by
          simpa only [evalTurn, hop] using evalOp_callFree hatom _ _ s
        cases hs : evalTurn env .fail ops s with
        | stop r => exact absurd h (not_reachesFrom_stop (by simpa [hop] using hatom) hs)
        | next s' =>
          rw [loop_next (hturn.trans hs)]
          exact ih s' ((reachesFrom_next hop hatom hs).mp h)

/-- No value without the CFA that is called for. -/
theorem evalBody_value_of_reachesCall (hcall : ∀ oor, (callCfa oor).value = none)
    (h : ReachesCall env ops) : (evalBody env callCfa ops .clear).value = none := by
  unfold evalBody
  split
  · rfl
  · exact loop_value_of_reachesFrom hcall _ _ h

/-- As the list of a column the CFA list has the value of the CFA. -/
theorem opsValue_self : opsValue env cfaOps cfaOps = cfaValue env cfaOps := by
  by_cases h : ReachesCall env cfaOps
  · have hnone : (cfaMeaning env cfaOps .clear).value = none :=
      evalBody_value_of_reachesCall (fun _ => rfl) h
    rw [opsValue, cfaValue, hnone]
    refine evalBody_value_of_reachesCall (fun oor => ?_) h
    rw [(cfaMeaning_record env cfaOps).value_eq, hnone]
  · obtain ⟨result, -, heq⟩ := evalBody_of_not_reachesCall h
    have hmeaning : cfaMeaning env cfaOps = result := heq _ recordBlind_fail
    rw [opsValue, heq _ (cfaMeaning_record env cfaOps), cfaValue, hmeaning]

/-! ## Tracked registers -/

/-- The register an operation names. -/
def DwarfOp.regno (op : DwarfOp) : Option Int :=
  match op.atom with
  | .reg n | .breg n => some n.toNat
  | .regx | .bregx => some (toInt op.number)
  | _ => none

/-- The operations name tracked registers only. -/
def OpsTracked (arch : Arch) (ops : List DwarfOp) : Prop :=
  ∀ op ∈ ops, ∀ r ∈ op.regno, 0 ≤ r ∧ arch.Tracked r.toNat

instance (arch : Arch) (ops : List DwarfOp) : Decidable (OpsTracked arch ops) :=
  inferInstanceAs (Decidable (∀ op ∈ ops, ∀ r ∈ op.regno, 0 ≤ r ∧ arch.Tracked r.toNat))

/-- The two evaluations differ at most in registers that are not tracked. -/
structure EvalEnv.Agrees (env env' : EvalEnv) : Prop where
  target : env.target = env'.target
  bias : env.bias = env'.bias
  rawSp : env.rawSp = env'.rawSp
  stackSize : env.info.stackSize = env'.info.stackSize
  stackData : env.info.stackData = env'.info.stackData
  regs : ∀ n : Nat, env.target.arch.Tracked n → env.getRegs n = env'.getRegs n

variable (h : env.Agrees env')

include h

private theorem EvalEnv.Agrees.readAddr (addr : Word) (oor : OutOfRange) :
    readAddr env addr oor = readAddr env' addr oor := by
  have hstart : env.stackStart = env'.stackStart := by
    simp only [EvalEnv.stackStart, h.target, h.rawSp]
  have hend : env.stackEnd = env'.stackEnd := by simp only [EvalEnv.stackEnd, hstart, h.stackSize]
  have hbytes : env.stackBytes = env'.stackBytes := by simp only [EvalEnv.stackBytes, h.stackData]
  rw [Gunwinder.readAddr, Gunwinder.readAddr, hstart, hend, hbytes, h.rawSp]

private theorem EvalEnv.Agrees.getRegs {r : Int} (hr : 0 ≤ r ∧ env.target.arch.Tracked r.toNat) :
    env.getRegs r = env'.getRegs r := by
  have hregs := h.regs r.toNat hr.2
  rwa [Int.toNat_of_nonneg hr.1] at hregs

private theorem EvalEnv.Agrees.stackEffect {op : DwarfOp}
    (hop : ∀ r ∈ op.regno, 0 ≤ r ∧ env.target.arch.Tracked r.toNat) (stack : List Word) :
    stackEffect env op stack = stackEffect env' op stack := by
  unfold Gunwinder.stackEffect
  rw [h.bias]
  unfold DwarfOp.regno at hop
  cases hatom : op.atom with
  | reg n | breg n | regx | bregx =>
    rw [hatom] at hop
    simp only [h.getRegs (hop _ rfl)]
  | _ => rfl

private theorem EvalEnv.Agrees.evalOp {op : DwarfOp}
    (hop : ∀ r ∈ op.regno, 0 ≤ r ∧ env.target.arch.Tracked r.toNat) (s : EvalState) :
    evalOp env callCfa ops op s = evalOp env' callCfa ops op s := by
  unfold Gunwinder.evalOp evalDeref
  simp only [h.stackEffect hop, h.readAddr]

/-- An evaluation depends on the tracked registers only, if its operations do. -/
theorem EvalEnv.Agrees.evalBody (callCfa : OutOfRange → EvalResult)
    (hops : OpsTracked env.target.arch ops) :
    evalBody env callCfa ops = evalBody env' callCfa ops := by
  have hfinish : evalFinish env = evalFinish env' := by
    funext s
    simp only [evalFinish, h.readAddr]
  have hturn : evalTurn env callCfa ops = evalTurn env' callCfa ops := by
    funext s
    unfold evalTurn
    split
    · rw [hfinish]
    · rename_i op hop
      exact h.evalOp (hops op (List.mem_of_getElem? hop)) s
  have hout : evalOut env ops = evalOut env' ops := by
    funext s
    simp only [evalOut, hfinish]
  funext oor
  simp only [Gunwinder.evalBody, hturn, hout]

variable (hcfa : OpsTracked env.target.arch cfaOps)

include hcfa

private theorem EvalEnv.Agrees.cfaMeaning : cfaMeaning env cfaOps = cfaMeaning env' cfaOps :=
  h.evalBody _ hcfa

/-- The values of tracked operations are those on the tracked registers. -/
theorem EvalEnv.Agrees.opsValue (hops : OpsTracked env.target.arch ops) :
    opsValue env cfaOps ops = opsValue env' cfaOps ops := by
  rw [Gunwinder.opsValue, Gunwinder.opsValue, h.cfaMeaning hcfa, h.evalBody _ hops]

/-- Tracked registers decide the CFA. -/
theorem EvalEnv.Agrees.cfaValue : cfaValue env cfaOps = cfaValue env' cfaOps := by
  rw [Gunwinder.cfaValue, Gunwinder.cfaValue, h.cfaMeaning hcfa]

end Gunwinder
