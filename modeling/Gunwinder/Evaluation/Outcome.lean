import Gunwinder.Native.Eval

/-!
# What an evaluation depends on

The evaluator threads the record of failed snapshot reads through its run, but never looks at it.
A list free of `DW_OP_call_frame_cfa` depends neither on the installed CFA list nor on the nesting
depth, and a list depends on the register block only through the registers it names.
-/

namespace Gunwinder

open Gunwinder.Core

/-- A result of a run from the cleared record, seen from a run that started with `oor`:
a success leaves the record alone, a failure keeps it unless a read was recorded. -/
def EvalResult.withRecord (oor : OutOfRange) : EvalResult → EvalResult
  | .ok val _ => .ok val oor
  | .fail r => .fail (if r.flag then r else oor)
  | .deep => .deep

/-- An evaluation that never looks at the record it is given. -/
def RecordBlind (eval : OutOfRange → EvalResult) : Prop :=
  ∀ oor, eval oor = (eval .clear).withRecord oor

/-- A success does not touch the record. -/
theorem RecordBlind.ok_record {eval : OutOfRange → EvalResult} (h : RecordBlind eval)
    {oor r : OutOfRange} {val : Word} (hok : eval oor = .ok val r) : r = oor := by
  have hblind := h oor
  rw [hok] at hblind
  cases hc : eval .clear with
  | ok v c => simpa [hc, EvalResult.withRecord] using (EvalResult.ok.inj (hc ▸ hblind)).2
  | fail c | deep => simp [hc, EvalResult.withRecord] at hblind

/-- A rejected read leaves its own record; an accepted one leaves the record as it was. -/
theorem readAddr_record (env : EvalEnv) (addr : Word) (oor : OutOfRange) :
    (∃ word, readAddr env addr oor = (some word, oor) ∧
      readAddr env addr .clear = (some word, .clear)) ∨
    ∃ r : OutOfRange, r.flag = true ∧ readAddr env addr oor = (none, r) ∧
      readAddr env addr .clear = (none, r) := by
  unfold readAddr
  split
  · exact .inr ⟨_, rfl, rfl, rfl⟩
  · exact .inl ⟨_, rfl, rfl⟩

/-- Two states that differ in the record only, the second one holding the cleared one. -/
structure SameButRecord (oor : OutOfRange) (s t : EvalState) : Prop where
  pos : s.pos = t.pos
  stack : s.stack = t.stack
  isLocation : s.isLocation = t.isLocation
  left : s.oor = oor
  right : t.oor = .clear

section Record

variable {env : EvalEnv} {callCfa : OutOfRange → EvalResult} {ops : List DwarfOp}
  {oor : OutOfRange} {s t : EvalState}

/-- Agreement of the turns two such states take. -/
abbrev RecordTurns (oor : OutOfRange) :
    Turn EvalState EvalResult → Turn EvalState EvalResult → Prop :=
  Turn.Rel (SameButRecord oor) (fun r q => r = q.withRecord oor)

private theorem SameButRecord.failed (h : SameButRecord oor s t) :
    RecordTurns oor (.stop (.fail s.oor)) (.stop (.fail t.oor)) := by
  rw [h.left, h.right]
  exact .stop rfl

private theorem takeBranch_record (op : DwarfOp) (h : SameButRecord oor s t) :
    RecordTurns oor (takeBranch ops op s) (takeBranch ops op t) := by
  unfold takeBranch
  split
  · exact h.failed
  · exact .next ⟨rfl, h.stack, h.isLocation, h.left, h.right⟩

private theorem evalDeref_record (op : DwarfOp) (h : SameButRecord oor s t) :
    RecordTurns oor (evalDeref env op s) (evalDeref env op t) := by
  unfold evalDeref
  rw [h.stack]
  split
  · exact h.failed
  split
  · exact h.failed
  rename_i addr stack _
  rw [h.left, h.right]
  rcases readAddr_record env addr oor with ⟨word, h1, h2⟩ | ⟨r, hr, h1, h2⟩
  · rw [h1, h2]
    dsimp only
    split
    · exact .stop rfl
    · exact .next ⟨congrArg (· + 1) h.pos, rfl, h.isLocation, rfl, rfl⟩
  · rw [h1, h2]
    exact .stop (by simp [EvalResult.withRecord, hr])

private theorem evalOp_record (hcall : RecordBlind callCfa) (op : DwarfOp)
    (h : SameButRecord oor s t) :
    RecordTurns oor (evalOp env callCfa ops op s) (evalOp env callCfa ops op t) := by
  obtain ⟨pos, stack, isLocation, record⟩ := s
  obtain ⟨_, _, _, _⟩ := t
  obtain ⟨rfl, rfl, rfl, rfl, rfl⟩ := h
  have hsame (pos stack isLocation) : SameButRecord record ⟨pos, stack, isLocation, record⟩
      ⟨pos, stack, isLocation, .clear⟩ := ⟨rfl, rfl, rfl, rfl, rfl⟩
  unfold evalOp
  split
  · exact evalDeref_record op (hsame _ _ _)
  · exact evalDeref_record op (hsame _ _ _)
  -- a conditional branch
  · dsimp only
    split
    · exact .stop rfl
    · split
      · exact .next (hsame _ _ _)
      · exact takeBranch_record op (hsame _ _ _)
  · exact takeBranch_record op (hsame _ _ _)
  -- the nested evaluation
  · dsimp only
    rw [hcall record]
    cases hc : callCfa .clear with
    | deep => exact .stop rfl
    | fail r => exact .stop (by cases hr : r.flag <;> simp [EvalResult.withRecord, hr])
    | ok cfa r =>
      obtain rfl := hcall.ok_record hc
      dsimp only [EvalResult.withRecord]
      split
      · exact .stop rfl
      · exact .next (hsame _ _ _)
  · exact .next (hsame _ _ _)
  · dsimp only
    split
    · exact .stop rfl
    · exact .next (hsame _ _ _)

private theorem evalFinish_record (h : SameButRecord oor s t) :
    evalFinish env s = (evalFinish env t).withRecord oor := by
  unfold evalFinish
  rw [h.stack, h.isLocation, h.left, h.right]
  split
  · rfl
  split
  · rename_i val _ _ _
    rcases readAddr_record env val oor with ⟨word, h1, h2⟩ | ⟨r, hr, h1, h2⟩
    · rw [h1, h2]
      rfl
    · rw [h1, h2]
      simp [EvalResult.withRecord, hr]
  · rfl

/-- The body is blind to the record when the evaluation it re-enters is. -/
theorem evalBody_record (hcall : RecordBlind callCfa) : RecordBlind (evalBody env callCfa ops) := by
  intro oor
  unfold evalBody
  split
  · rfl
  have hinit : SameButRecord oor (EvalState.init oor) (EvalState.init .clear) :=
    ⟨rfl, rfl, rfl, rfl, rfl⟩
  refine loop_simulation (SameButRecord oor) (fun r q => r = EvalResult.withRecord oor q)
    ?_ ?_ _ hinit
  · intro s t h
    unfold evalTurn
    rw [h.pos]
    split
    · exact .stop (evalFinish_record h)
    · exact evalOp_record hcall _ h
  · intro s t h
    unfold evalOut
    rw [h.pos]
    split
    · exact evalFinish_record h
    · rw [h.left, h.right]
      rfl

/-- No evaluation looks at the record it starts from. -/
theorem guDwarfOpsEval_record (env : EvalEnv) (cfaOps : List DwarfOp) (depth : Nat)
    (ops : List DwarfOp) : RecordBlind (guDwarfOpsEval env cfaOps depth ops) := by
  induction depth generalizing ops with
  | zero => intro oor; rfl
  | succ depth ih => exact evalBody_record (ih cfaOps)

end Record

/-! ## Reasons -/

/-- The reasons `gen_reg` gives for a register that is not recovered. -/
def evalReasons : List UnwindReason :=
  [.cfiFrameCfaFailed, .cfiFrameCfaCalcFailed, .stackReadOutOfRange]

private theorem failReason_mem (oor : OutOfRange) : failReason oor ∈ evalReasons := by
  unfold failReason
  split <;> decide

variable {env : EvalEnv}

/-- `gen_reg` fails with an evaluation's reason. -/
theorem genReg_error_mem {scratch : Scratch} {depth : Nat} {regno : Int} {oor oor' : OutOfRange}
    {reason : UnwindReason} (h : genReg env scratch depth regno oor = some (.error reason, oor')) :
    reason ∈ evalReasons := by
  unfold genReg at h
  split at h
  · cases h
    decide
  · split at h
    · cases h
    · cases h
    · split at h
      · cases h
      · cases h
      · cases h
        exact failReason_mem _

/-! ## Lists without `DW_OP_call_frame_cfa` -/

/-- No operation of the list re-enters the evaluator. -/
def CallFree (ops : List DwarfOp) : Prop := ∀ op ∈ ops, op.atom ≠ .callFrameCfa

instance (ops : List DwarfOp) : Decidable (CallFree ops) :=
  inferInstanceAs (Decidable (∀ op ∈ ops, op.atom ≠ .callFrameCfa))

variable {ops : List DwarfOp}

/-- An operation other than `DW_OP_call_frame_cfa` does not use the nested evaluation. -/
theorem evalOp_callFree {op : DwarfOp} (hop : op.atom ≠ .callFrameCfa)
    (callCfa callCfa' : OutOfRange → EvalResult) (s : EvalState) :
    evalOp env callCfa ops op s = evalOp env callCfa' ops op s := by
  unfold evalOp
  split <;> first | rfl | contradiction

variable {callCfa : OutOfRange → EvalResult}

/-- Only `DW_OP_call_frame_cfa` asks for more depth, and only when the nested evaluation
does. -/
theorem evalOp_eq_deep {op : DwarfOp} {s : EvalState}
    (h : evalOp env callCfa ops op s = .stop .deep) :
    op.atom = .callFrameCfa ∧ callCfa s.oor = .deep := by
  unfold evalOp evalDeref takeBranch at h
  grind

/-- The end of a run nests nothing. -/
theorem evalFinish_ne_deep (env : EvalEnv) (s : EvalState) : evalFinish env s ≠ .deep := by
  unfold evalFinish
  grind

private theorem evalBody_callFree (hfree : CallFree ops)
    (callCfa callCfa' : OutOfRange → EvalResult)
    (oor : OutOfRange) : evalBody env callCfa ops oor = evalBody env callCfa' ops oor := by
  have hturn : evalTurn env callCfa ops = evalTurn env callCfa' ops := by
    funext s
    unfold evalTurn
    split
    · rfl
    · rename_i op hop
      exact evalOp_callFree (hfree op (List.mem_of_getElem? hop)) _ _ s
  unfold evalBody
  rw [hturn]

/-- A run is too deep only when the evaluation it re-enters is. -/
theorem evalBody_ne_deep (hcall : CallFree ops ∨ ∀ oor, callCfa oor ≠ .deep) (oor : OutOfRange) :
    evalBody env callCfa ops oor ≠ .deep := by
  unfold evalBody
  split
  · simp
  refine loop_invariant (fun _ => True) (fun r : EvalResult => r ≠ .deep)
    (fun _ _ _ _ => trivial) ?_ ?_ _ trivial
  · intro s r _ hstop
    unfold evalTurn at hstop
    split at hstop
    · cases hstop
      exact evalFinish_ne_deep env s
    · rename_i op hop
      rintro rfl
      obtain ⟨hop', hdeep⟩ := evalOp_eq_deep hstop
      rcases hcall with hfree | hcall
      · exact hfree op (List.mem_of_getElem? hop) hop'
      · exact hcall _ hdeep
  · intro s _
    unfold evalOut
    split
    · exact evalFinish_ne_deep env s
    · simp

/-- Over a call-free installed list the nested evaluation is the same at every depth. -/
theorem guDwarfOpsEval_callFree {cfaOps : List DwarfOp} (hfree : CallFree cfaOps)
    (depth depth' : Nat) (oor : OutOfRange) :
    guDwarfOpsEval env cfaOps (depth + 1) cfaOps oor =
      guDwarfOpsEval env cfaOps (depth' + 1) cfaOps oor :=
  evalBody_callFree hfree _ _ oor

/-- Over a call-free installed list two levels are enough for every evaluation. -/
theorem guDwarfOpsEval_ne_deep {cfaOps : List DwarfOp} (hfree : CallFree cfaOps) (depth : Nat)
    (ops : List DwarfOp) (oor : OutOfRange) :
    guDwarfOpsEval env cfaOps (depth + 2) ops oor ≠ .deep :=
  evalBody_ne_deep (.inr fun oor => evalBody_ne_deep (.inl hfree) oor) oor

end Gunwinder
