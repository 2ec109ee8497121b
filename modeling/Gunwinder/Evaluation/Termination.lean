import Gunwinder.Evaluation.FastPath
import Gunwinder.Native.Parse

/-!
# When evaluation ends

The step counter bounds the branches of one call, and nothing bounds the calls: a CFA
list whose run arrives at `DW_OP_call_frame_cfa` re-enters itself with a fresh counter
and arrives there again. Evaluation ends exactly when the column's own run or the run of
the installed CFA list stays clear of that operation.
-/

namespace Gunwinder

open Gunwinder.Core

/-- The run of a list from the empty stack arrives at `DW_OP_call_frame_cfa` within the
step budget. Every state on the way lies before the first nested evaluation. -/
def ReachesCall (env : EvalEnv) (ops : List DwarfOp) : Prop :=
  ∃ n s op, n < dwEvalStepsMax ∧
    headState (evalTurn env .fail ops) n (EvalState.init .clear) = some s ∧
    ops[s.pos]? = some op ∧ op.atom = .callFrameCfa

variable {env : EvalEnv}

/-- Arriving at `DW_OP_call_frame_cfa` from an arbitrary state, within `fuel` turns. -/
def ReachesFrom (env : EvalEnv) (ops : List DwarfOp) (fuel : Nat) (s : EvalState) : Prop :=
  ∃ n s' op, n < fuel ∧ headState (evalTurn env .fail ops) n s = some s' ∧
    ops[s'.pos]? = some op ∧ op.atom = .callFrameCfa

variable {ops : List DwarfOp}

/-- At an operation other than `DW_OP_call_frame_cfa` the arrival is a matter of the next
turn. -/
theorem reachesFrom_next {fuel : Nat} {s s' : EvalState} {op : DwarfOp}
    (hop : ops[s.pos]? = some op) (hcall : op.atom ≠ .callFrameCfa)
    (hnext : evalTurn env .fail ops s = .next s') :
    ReachesFrom env ops (fuel + 1) s ↔ ReachesFrom env ops fuel s' := by
  constructor
  · rintro ⟨n, t, op', hn, hhead, hop', hcall'⟩
    cases n with
    | zero =>
      cases hhead
      rw [hop] at hop'
      exact absurd hcall' (Option.some.inj hop' ▸ hcall)
    | succ n => exact ⟨n, t, op', by omega, headState_next hnext n ▸ hhead, hop', hcall'⟩
  · rintro ⟨n, t, op', hn, hhead, hop', hcall'⟩
    exact ⟨n + 1, t, op', by omega, (headState_next hnext n).trans hhead, hop', hcall'⟩

/-- A run that stops before `DW_OP_call_frame_cfa` never arrives there. -/
theorem not_reachesFrom_stop {fuel : Nat} {s : EvalState} {r : EvalResult}
    (hop : ∀ op, ops[s.pos]? = some op → op.atom ≠ .callFrameCfa)
    (hstop : evalTurn env .fail ops s = .stop r) : ¬ReachesFrom env ops fuel s := by
  rintro ⟨n, t, op, -, hhead, hop', hcall⟩
  cases n with
  | zero =>
    cases hhead
    exact hop op hop' hcall
  | succ n => simp [headState_stop hstop] at hhead

/-- A list that never arrives at `DW_OP_call_frame_cfa` has one result, and one that does
needs the nested evaluation. -/
theorem loop_reachesFrom (env : EvalEnv) (ops : List DwarfOp) (fuel : Nat) (s : EvalState) :
    (ReachesFrom env ops fuel s ∧
      loop (evalTurn env (fun _ => .deep) ops) (evalOut env ops) fuel s = .deep) ∨
    (¬ReachesFrom env ops fuel s ∧ ∃ r, r ≠ .deep ∧
      ∀ callCfa, loop (evalTurn env callCfa ops) (evalOut env ops) fuel s = r) := by
  induction fuel generalizing s with
  | zero =>
    refine .inr ⟨by rintro ⟨n, _, _, hn, _⟩; omega, evalOut env ops s, ?_, fun _ => rfl⟩
    unfold evalOut
    split
    · exact evalFinish_ne_deep env s
    · simp
  | succ fuel ih =>
    cases hop : ops[s.pos]? with
    | none =>
      have hturn (callCfa) : evalTurn env callCfa ops s = .stop (evalFinish env s) := by
        simp [evalTurn, hop]
      refine .inr ⟨not_reachesFrom_stop (by simp [hop]) (hturn _), _, evalFinish_ne_deep env s,
        fun callCfa => loop_stop (hturn callCfa) _ _⟩
    | some op =>
      by_cases hcall : op.atom = .callFrameCfa
      · refine .inl ⟨⟨0, s, op, by omega, rfl, hop, hcall⟩, loop_stop ?_ _ _⟩
        simp [evalTurn, hop, evalOp, hcall]
      · have hturn (callCfa) : evalTurn env callCfa ops s = evalTurn env .fail ops s := by
          simpa only [evalTurn, hop] using evalOp_callFree hcall _ _ s
        cases hs : evalTurn env .fail ops s with
        | stop r =>
          refine .inr ⟨not_reachesFrom_stop (by simpa [hop] using hcall) hs, r, ?_,
            fun callCfa => loop_stop ((hturn callCfa).trans hs) _ _⟩
          rintro rfl
          simp only [evalTurn, hop] at hs
          exact hcall (evalOp_eq_deep hs).1
        | next s' =>
          rw [reachesFrom_next hop hcall hs, loop_next ((hturn _).trans hs)]
          simpa only [fun callCfa => loop_next ((hturn callCfa).trans hs) (evalOut env ops) fuel]
            using ih s'

/-- With a nested evaluation that never ends, a list ends exactly when it needs none. -/
theorem evalBody_deep (h : ReachesCall env ops) (oor : OutOfRange) :
    evalBody env (fun _ => .deep) ops oor = .deep := by
  have hblind : RecordBlind (evalBody env (fun _ => .deep) ops) := evalBody_record fun _ => rfl
  rw [hblind oor]
  unfold evalBody
  split
  · rename_i hnil
    obtain ⟨n, s, op, -, -, hop, -⟩ := h
    simp [hnil] at hop
  · rcases loop_reachesFrom env ops dwEvalStepsMax (EvalState.init .clear)
      with ⟨-, hdeep⟩ | ⟨hnot, -⟩
    · rw [hdeep]
      rfl
    · exact absurd h hnot

/-- A list that never arrives at `DW_OP_call_frame_cfa` has a result of its own. -/
theorem evalBody_of_not_reachesCall (h : ¬ReachesCall env ops) :
    ∃ result : OutOfRange → EvalResult, (∀ oor, result oor ≠ .deep) ∧
      ∀ callCfa, RecordBlind callCfa → evalBody env callCfa ops = result := by
  by_cases hnil : ops = []
  · exact ⟨.fail, by simp, fun _ _ => by funext oor; simp [evalBody, hnil]⟩
  rcases loop_reachesFrom env ops dwEvalStepsMax (EvalState.init .clear)
    with ⟨hreach, -⟩ | ⟨-, r, hr, hloop⟩
  · exact absurd hreach h
  · refine ⟨fun oor => r.withRecord oor, ?_, ?_⟩
    · intro oor
      cases r <;> simp_all [EvalResult.withRecord]
    · intro callCfa hblind
      funext oor
      rw [evalBody_record hblind oor]
      congr 1
      simpa only [evalBody, hnil, ite_false] using hloop callCfa

variable {cfaOps : List DwarfOp}

/-- An installed list that re-enters itself ends at no depth. -/
theorem guDwarfOpsEval_deep (h : ReachesCall env cfaOps) (depth : Nat) :
    guDwarfOpsEval env cfaOps depth cfaOps = fun _ => .deep := by
  induction depth with
  | zero => rfl
  | succ depth ih =>
    funext oor
    rw [guDwarfOpsEval_succ, ih]
    exact evalBody_deep h oor

/-- If the list or the installed list stays clear of `DW_OP_call_frame_cfa`, two levels are
enough. -/
theorem guDwarfOpsEval_stable (h : ¬(ReachesCall env ops ∧ ReachesCall env cfaOps)) :
    ∃ result : OutOfRange → EvalResult, (∀ oor, result oor ≠ .deep) ∧
      ∀ depth, guDwarfOpsEval env cfaOps (depth + 2) ops = result := by
  by_cases hops : ReachesCall env ops
  · obtain ⟨inner, hinner, heq⟩ := evalBody_of_not_reachesCall fun hcfa => h ⟨hops, hcfa⟩
    refine ⟨evalBody env inner ops, fun oor => evalBody_ne_deep (.inr hinner) oor, ?_⟩
    intro depth
    have hcfa : guDwarfOpsEval env cfaOps (depth + 1) cfaOps = inner :=
      heq _ (guDwarfOpsEval_record env cfaOps depth cfaOps)
    rw [guDwarfOpsEval_succ, hcfa]
  · obtain ⟨result, hresult, heq⟩ := evalBody_of_not_reachesCall hops
    exact ⟨result, hresult, fun depth => heq _ (guDwarfOpsEval_record env cfaOps _ cfaOps)⟩

/-- `gen_reg` returns: from some depth on it has one result. -/
def GenRegReturns (env : EvalEnv) (scratch : Scratch) (regno : Int) (oor : OutOfRange) : Prop :=
  ∃ depth result, ∀ d, depth ≤ d → genReg env scratch d regno oor = some result

/-- A list that starts with `DW_OP_call_frame_cfa` arrives there at once. -/
theorem reachesCall_of_head {op : DwarfOp} {rest : List DwarfOp} (h : op.atom = .callFrameCfa) :
    ReachesCall env (op :: rest) :=
  ⟨0, _, op, by decide, rfl, rfl, h⟩

/-- The fast evaluator settles under the same condition. -/
theorem fastDwarfOpsEval_stable (h : ¬(ReachesCall env ops ∧ ReachesCall env cfaOps)) :
    ∃ result : OutOfRange → EvalResult, (∀ oor, result oor ≠ .deep) ∧
      ∀ depth, fastDwarfOpsEval env cfaOps (depth + 2) ops = result := by
  by_cases hhead : ∃ op rest, ops = op :: rest ∧ op.atom = .callFrameCfa
  · obtain ⟨op, rest, rfl, hop⟩ := hhead
    obtain ⟨inner, hinner, heq⟩ := guDwarfOpsEval_stable
      fun hcfa : ReachesCall env cfaOps ∧ ReachesCall env cfaOps =>
        h ⟨reachesCall_of_head hop, hcfa.1⟩
    have hfast (depth oor) : fastEvalCfa env cfaOps (depth + 2) oor = inner oor := by
      rw [fastEvalCfa_eq, heq]
    refine ⟨fastDwarfOpsEval env cfaOps 2 (op :: rest), ?_, ?_⟩
    · intro oor
      unfold fastDwarfOpsEval fastFromCfa
      have := hinner oor
      rw [hfast 0]
      grind
    · intro depth
      funext oor
      unfold fastDwarfOpsEval
      rw [hfast, hfast 0]
  · have hne (op rest) (hops : ops = op :: rest) : op.atom ≠ .callFrameCfa :=
      fun hop => hhead ⟨op, rest, hops, hop⟩
    refine ⟨fastDwarfOpsEval env cfaOps 2 ops, ?_, ?_⟩
    · intro oor
      unfold fastDwarfOpsEval
      grind
    · intro depth
      funext oor
      unfold fastDwarfOpsEval
      grind

/-- When both lists arrive at `DW_OP_call_frame_cfa`, the fast evaluator finds no value. -/
theorem fastDwarfOpsEval_ne_ok (hcol : ReachesCall env ops) (hcfa : ReachesCall env cfaOps)
    (depth : Nat) (val : Word) (r : OutOfRange) :
    fastDwarfOpsEval env cfaOps (depth + 1) ops .clear ≠ .ok val r := by
  unfold fastDwarfOpsEval
  split
  · simp
  · split
    · rename_i op v hval
      have hdeep := evalBody_deep hcol .clear
      rw [evalBody_of_fastEvalRegOrBreg hval] at hdeep
      cases hdeep
    · simp
  · split
    · simp
    · rw [fastEvalCfa_eq, guDwarfOpsEval_deep hcfa]
      simp

variable {scratch : Scratch}

/-- When both lists arrive at `DW_OP_call_frame_cfa`, `gen_reg` ends at no depth. -/
theorem genReg_eq_none {regno : Int}
    (hops : guCfiGetOps scratch (transRegType env.target.arch regno) false = some ops)
    (hcol : ReachesCall env ops) (hcfa : ReachesCall env scratch.cfa) (depth : Nat)
    (oor : OutOfRange) : genReg env scratch (depth + 1) regno oor = none := by
  rw [genReg_of_ops hops]
  cases hfast : fastDwarfOpsEval env scratch.cfa (depth + 1) ops .clear with
  | deep => rfl
  | ok val r => exact absurd hfast (fastDwarfOpsEval_ne_ok hcol hcfa depth val r)
  | fail r =>
    rw [EvalResult.orElse, guDwarfOpsEval_succ, guDwarfOpsEval_deep hcfa, evalBody_deep hcol]
    rfl

/-- If a column's list or the CFA list stays clear of `DW_OP_call_frame_cfa`, two levels are
enough for `gen_reg`. -/
theorem genReg_stable {regno : Int}
    (h : ∀ ops, guCfiGetOps scratch (transRegType env.target.arch regno) false = some ops →
      ¬(ReachesCall env ops ∧ ReachesCall env scratch.cfa)) (oor : OutOfRange) :
    ∃ result, ∀ depth, genReg env scratch (depth + 2) regno oor = some result := by
  cases hops : guCfiGetOps scratch (transRegType env.target.arch regno) false with
  | none =>
    exact ⟨(.error .cfiFrameCfaFailed, oor), fun depth => by simp only [genReg, hops]⟩
  | some ops =>
    obtain ⟨slow, hslow, hslow_eq⟩ := guDwarfOpsEval_stable (h ops hops)
    obtain ⟨fast, hfast, hfast_eq⟩ := fastDwarfOpsEval_stable (h ops hops)
    have hsome : ∃ result, ((fast .clear).orElse slow).report = some result := by
      cases hf : fast .clear with
      | deep => exact absurd hf (hfast _)
      | ok val r => exact ⟨_, rfl⟩
      | fail r =>
        cases hs : slow r with
        | deep => exact absurd hs (hslow _)
        | ok val r => exact ⟨(.ok val, r), by rw [EvalResult.orElse, hs]; rfl⟩
        | fail r => exact ⟨(.error (failReason r), r), by rw [EvalResult.orElse, hs]; rfl⟩
    obtain ⟨result, hresult⟩ := hsome
    refine ⟨result, fun depth => ?_⟩
    rw [genReg_of_ops hops, hfast_eq, hslow_eq, hresult]

/-- `gen_reg` returns exactly when not both lists arrive at `DW_OP_call_frame_cfa`. -/
theorem genRegReturns_iff {regno : Int} {oor : OutOfRange} :
    GenRegReturns env scratch regno oor ↔
      ∀ ops, guCfiGetOps scratch (transRegType env.target.arch regno) false = some ops →
        ¬(ReachesCall env ops ∧ ReachesCall env scratch.cfa) := by
  constructor
  · rintro ⟨depth, result, hret⟩ ops hops ⟨hcol, hcfa⟩
    have hnone := genReg_eq_none hops hcol hcfa depth oor
    rw [hret (depth + 1) (by omega)] at hnone
    cases hnone
  · intro h
    obtain ⟨result, hresult⟩ := genReg_stable h oor
    refine ⟨2, result, fun d hd => ?_⟩
    obtain ⟨d, rfl⟩ := Nat.exists_eq_add_of_le' hd
    exact hresult d

/-- After a parse, `gen_reg` returns for a column exactly when not both the column's list
and the installed CFA list arrive at `DW_OP_call_frame_cfa`. -/
theorem genReg_returns_after_parse_iff (cfi : CfiData (List CalcRules)) (st : ParseState Unit)
    (pc : Word) (env : EvalEnv) (regno : Int) (oor : OutOfRange) :
    GenRegReturns env (guCfiParseCfiEx savedValues cfi st pc).2.ops regno oor ↔
      ∀ ops, guCfiGetOps (guCfiParseCfiEx savedValues cfi st pc).2.ops
          (transRegType env.target.arch regno) false = some ops →
        ¬(ReachesCall env ops ∧
          ReachesCall env (guCfiParseCfiEx savedValues cfi st pc).2.ops.cfa) :=
  genRegReturns_iff

/-- A section holding the instruction `DW_CFA_def_cfa_expression` with the one-byte block
`DW_OP_call_frame_cfa`. -/
def selfCallSection : Section where
  mem a := ([0x0f#8, 0x01#8, 0x9c#8][a - 0x1000]?).getD 0#8
  dBuf := 0x1000
  dSize := 3
  inSpace := by decide

/-- An x86_64 object whose only FDE covers `[0, 16)` with that instruction; the return
address is saved eight bytes below the CFA. -/
def selfCallCfi : CfiData (List CalcRules) where
  arch := .x86
  sec := selfCallSection
  hdrIntervalArray := guIntervalArrayInit [⟨0#64, 16#64, some {
    cie := some {
      offset := 0#64
      codeAlignmentFactor := 1#64
      dataAlignmentFactor := -8#64
      returnAddressRegister := 16#64
      fdeAugmentationDataSize := 0
      initialInstructions := 0
      initialInstructionsEnd := 0
      fdeEncoding := dwEhPeUdata8
      lsdaEncoding := dwEhPeOmit
      sizedAugmentationData := false
      signalFrame := false
      cieCalcCtx := ⟨⟨.offset, CfaData.zero.setBregx 7#64 8#64,
        ⟨.of .offset (-8#64), .of .sameValue 0#64, .of .valOffset 0#64⟩⟩, []⟩ }
    start := 0#64
    fin := 16#64
    instructions := 0x1000
    instructionsEnd := 0x1003 }⟩]

/-- The parse accepts the CFA expression, and the return address column never ends. -/
theorem genReg_selfCall_never_returns :
    (guCfiParseCfiEx savedValues selfCallCfi ⟨fun _ => none, .empty, ()⟩ 0#64).1.ok = true ∧
      ¬GenRegReturns sampleEnv
        (guCfiParseCfiEx savedValues selfCallCfi ⟨fun _ => none, .empty, ()⟩ 0#64).2.ops 16
        .clear := by
  have hops : (guCfiParseCfiEx savedValues selfCallCfi ⟨fun _ => none, .empty, ()⟩ 0#64).2.ops =
      ⟨⟨[.bare .callFrameCfa, ⟨.plusUconst, -8#64, 0#64, 0#64⟩], [],
        [.bare .callFrameCfa, .bare .stackValue]⟩, [.bare .callFrameCfa]⟩ := by decide +kernel
  refine ⟨by decide +kernel, fun hret => ?_⟩
  rw [hops] at hret
  exact genRegReturns_iff.mp hret _ rfl ⟨reachesCall_of_head rfl, reachesCall_of_head rfl⟩

end Gunwinder
