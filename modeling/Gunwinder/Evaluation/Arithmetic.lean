import Gunwinder.Core.CheckedInt
import Gunwinder.Evaluation.FastPath
import Gunwinder.Evaluation.Meaning

/-!
# Undefined arithmetic in the expression evaluator

The switch of `gu_dwarf_ops_eval` once more, with every operation of C that can be undefined
written as a checked one. Divisors and shift counts are tested before they are used; the operand
of `DW_OP_abs` and `DW_OP_neg` is not.
-/

namespace Gunwinder

open Gunwinder.Core

variable {env : EvalEnv} {callCfa : OutOfRange → EvalResult} {ops : List DwarfOp} {op : DwarfOp}
  {s s' : EvalState} {stack : List Word}

/-! ## The checked switch -/

/-- A one-operand operation; its result is computed before there is a push. -/
def checkedUnary (f : Word → Except Undefined Word) (stack : List Word) :
    Except Undefined (Option (List Word)) :=
  match dwPop stack with
  | none => .ok none
  | some (val1, stack) => (f val1).map (dwPush stack)

/-- A two-operand operation; the value of `f` is `none` where the case tests its operands and
fails. -/
def checkedBinary (f : Word → Word → Except Undefined (Option Word)) (stack : List Word) :
    Except Undefined (Option (List Word)) :=
  match dwPop stack with
  | none => .ok none
  | some (val2, stack) =>
    match dwPop stack with
    | none => .ok none
    | some (val1, stack) => (f val1 val2).map fun val => val.bind (dwPush stack)

/-- A shift case, with its test of the count. -/
def checkedShift (f : Word → Nat → Word) (stack : List Word) :
    Except Undefined (Option (List Word)) :=
  checkedBinary (fun val1 val2 =>
    if 64#64 ≤ val2 then .ok none else (shiftBy f val1 val2.toNat).map some) stack

/-- The stack effect of an operation. The cases that are not listed move words, compare them or
compute with unsigned ones. -/
def checkedEffect (env : EvalEnv) (op : DwarfOp) (stack : List Word) :
    Except Undefined (Option (List Word)) :=
  match op.atom with
  | .abs => checkedUnary absSigned stack
  | .neg => checkedUnary negSigned stack
  | .div =>
    checkedBinary (fun val1 val2 =>
      if val2 = 0#64 then .ok none
      else if val1 = int64Min ∧ val2 = -1#64 then .ok none
      else (divSigned val1 val2).map some) stack
  | .mod =>
    checkedBinary (fun val1 val2 =>
      if val2 = 0#64 then .ok none else (modUnsigned val1 val2).map some) stack
  | .shr => checkedShift (· >>> ·) stack
  | .shl => checkedShift (· <<< ·) stack
  | .shra => checkedShift BitVec.sshiftRight stack
  | _ => .ok (stackEffect env op stack)

/-- The word that `DW_OP_deref` and `DW_OP_deref_size` push. -/
def checkedMask (op : DwarfOp) (word : Word) : Except Undefined Word :=
  if op.atom = .derefSize ∧ op.number < 8#64 then
    (shiftBy (· <<< ·) 1#64 (op.number * 8#64).toNat).map fun mask => word &&& (mask - 1#64)
  else .ok word

def checkedDeref (env : EvalEnv) (op : DwarfOp) (s : EvalState) :
    Except Undefined (Turn EvalState EvalResult) :=
  if op.atom = .derefSize ∧ 8#64 < op.number then .ok (.stop (.fail s.oor))
  else
    match dwPop s.stack with
    | none => .ok (.stop (.fail s.oor))
    | some (addr, stack) =>
      match readAddr env addr s.oor with
      | (none, oor) => .ok (.stop (.fail oor))
      | (some word, oor) => (checkedMask op word).map fun val1 =>
        match dwPush stack val1 with
        | none => .stop (.fail oor)
        | some stack => .next { s with pos := s.pos + 1, stack, oor }

/-- One turn of the loop. -/
def checkedTurn (env : EvalEnv) (callCfa : OutOfRange → EvalResult) (ops : List DwarfOp)
    (s : EvalState) : Except Undefined (Turn EvalState EvalResult) :=
  match ops[s.pos]? with
  | none => .ok (.stop (evalFinish env s))
  | some op =>
    match op.atom with
    | .deref | .derefSize => checkedDeref env op s
    -- a branch target is computed with unsigned words
    | .bra | .skip | .callFrameCfa | .stackValue => .ok (evalOp env callCfa ops op s)
    | _ => (checkedEffect env op s.stack).map fun
      | none => .stop (.fail s.oor)
      | some stack => .next { s with pos := s.pos + 1, stack }

/-! ## Where it differs from the model -/

private theorem int64Min_eq : int64Min = BitVec.intMin 64 := by
  decide

/-- The operation negates the minimum of the signed integers. -/
def NegatesMin (op : DwarfOp) (stack : List Word) : Prop :=
  (op.atom = .abs ∨ op.atom = .neg) ∧ stack.head? = some int64Min

instance (op : DwarfOp) (stack : List Word) : Decidable (NegatesMin op stack) :=
  inferInstanceAs (Decidable (_ ∧ _))

/-- An operation that is undefined for the minimum only. -/
theorem checkedUnary_eq {f : Word → Except Undefined Word} {g : Word → Word}
    (hf : ∀ v, f v = if v = int64Min then .error .signedOverflow else .ok (g v))
    (stack : List Word) :
    checkedUnary f stack = if stack.head? = some int64Min then .error .signedOverflow
      else .ok (dwUnary g stack) := by
  cases stack with
  | nil => rfl
  | cons val1 stack =>
    simp only [checkedUnary, dwPop, hf, List.head?_cons, Option.some.injEq]
    split <;> rfl

/-- An operation whose own tests leave out what is undefined. -/
theorem checkedBinary_eq {f : Word → Word → Except Undefined (Option Word)}
    {g : Word → Word → Option Word} (hf : ∀ val1 val2, f val1 val2 = .ok (g val1 val2))
    (stack : List Word) : checkedBinary f stack = .ok (dwBinary g stack) := by
  match stack with
  | [] | [_] => rfl
  | val2 :: val1 :: stack =>
    simp only [checkedBinary, dwPop, hf]
    rfl

private theorem checkedShift_eq (f : Word → Nat → Word) (stack : List Word) :
    checkedShift f stack =
      .ok (dwBinary (fun v1 v2 => if 64#64 ≤ v2 then none else some (f v1 v2.toNat)) stack) := by
  refine checkedBinary_eq (fun val1 val2 => ?_) stack
  split
  · rfl
  · rename_i hcount
    rw [shiftBy_eq f val1 (BitVec.not_le.mp hcount)]
    rfl

private theorem checkedEffect_eq (env : EvalEnv) (op : DwarfOp) (stack : List Word) :
    checkedEffect env op stack =
      if NegatesMin op stack then .error .signedOverflow else .ok (stackEffect env op stack) := by
  unfold checkedEffect
  split
  case h_1 hop =>
    have hmin := checkedUnary_eq (fun v => int64Min_eq ▸ absSigned_eq (by decide) v) stack
    simpa only [NegatesMin, hop, true_or, true_and, stackEffect] using hmin
  case h_2 hop =>
    have hmin := checkedUnary_eq (fun v => int64Min_eq ▸ negSigned_eq (by decide) v) stack
    simpa only [NegatesMin, hop, or_true, true_and, stackEffect] using hmin
  case h_3 hop =>
    rw [if_neg (by simp [NegatesMin, hop])]
    simp only [stackEffect, hop]
    refine checkedBinary_eq (fun val1 val2 => ?_) stack
    split
    · rfl
    rename_i hzero
    split
    · rfl
    · rename_i hmin
      rw [divSigned_eq hzero (int64Min_eq ▸ hmin)]
      rfl
  case h_4 hop =>
    rw [if_neg (by simp [NegatesMin, hop])]
    simp only [stackEffect, hop]
    refine checkedBinary_eq (fun val1 val2 => ?_) stack
    split
    · rfl
    · rename_i hzero
      rw [modUnsigned_eq hzero]
      rfl
  case h_5 hop | h_6 hop | h_7 hop =>
    rw [if_neg (by simp [NegatesMin, hop]), checkedShift_eq]
    simp only [stackEffect, hop]
  case h_8 habs hneg _ _ _ _ _ =>
    rw [if_neg]
    rintro ⟨hop | hop, -⟩
    · exact habs hop
    · exact hneg hop

private theorem checkedMask_eq (op : DwarfOp) (word : Word) :
    checkedMask op word = .ok (if op.atom = .derefSize ∧ op.number < 8#64 then
      word &&& ((1#64 <<< (op.number * 8#64).toNat) - 1#64) else word) := by
  unfold checkedMask
  split
  · rename_i hsize
    have hcount : (op.number * 8#64).toNat < 64 := by
      have hnumber : op.number.toNat < 8 := hsize.2
      rw [BitVec.toNat_mul, show (8#64 : Word).toNat = 8 from rfl]
      omega
    rw [shiftBy_eq _ _ hcount]
    rfl
  · rfl

private theorem checkedDeref_eq (env : EvalEnv) (op : DwarfOp) (s : EvalState) :
    checkedDeref env op s = .ok (evalDeref env op s) := by
  unfold checkedDeref evalDeref
  split
  · rfl
  cases dwPop s.stack with
  | none => rfl
  | some popped =>
    obtain ⟨addr, stack⟩ := popped
    dsimp only
    cases readAddr env addr s.oor with
    | mk word oor =>
      cases word with
      | none => rfl
      | some word =>
        dsimp only
        rw [checkedMask_eq]
        rfl

/-- The operation a turn executes negates the minimum. -/
def EvalState.NegatesMin (ops : List DwarfOp) (s : EvalState) : Prop :=
  ∃ op ∈ ops[s.pos]?, Gunwinder.NegatesMin op s.stack

/-- A turn is the one of the model, unless it negates the minimum. -/
theorem checkedTurn_cases (env : EvalEnv) (callCfa : OutOfRange → EvalResult) (ops : List DwarfOp)
    (s : EvalState) :
    (s.NegatesMin ops ∧ checkedTurn env callCfa ops s = .error .signedOverflow) ∨
      (¬s.NegatesMin ops ∧ checkedTurn env callCfa ops s = .ok (evalTurn env callCfa ops s)) := by
  unfold checkedTurn evalTurn EvalState.NegatesMin
  cases hop : ops[s.pos]? with
  | none =>
    refine .inr ⟨?_, rfl⟩
    rintro ⟨_, hnone, -⟩
    cases hnone
  | some op =>
    have hiff : (∃ op' ∈ some op, Gunwinder.NegatesMin op' s.stack) ↔
        Gunwinder.NegatesMin op s.stack := by simp
    rw [hiff]
    dsimp only
    split
    case h_1 hatom | h_2 hatom =>
      refine .inr ⟨fun hneg => by simp [NegatesMin, hatom] at hneg, ?_⟩
      rw [checkedDeref_eq]
      simp only [evalOp, hatom]
    case h_3 hatom | h_4 hatom | h_5 hatom | h_6 hatom =>
      exact .inr ⟨fun hneg => by simp [NegatesMin, hatom] at hneg, rfl⟩
    case h_7 hderef hsize hbra hskip hcall hvalue =>
      have hplain : ¬op.atom.Special := by
        simp only [Atom.Special, not_or]
        exact ⟨hderef, hsize, hbra, hskip, hcall, hvalue⟩
      rw [checkedEffect_eq, evalOp_plain hplain]
      split
      · rename_i hneg
        exact .inl ⟨hneg, rfl⟩
      · rename_i hneg
        exact .inr ⟨hneg, rfl⟩

/-! ## The stack -/

/-- A push goes to a slot of the array. -/
theorem dwPush_slot {val : Word} {stack' : List Word} (h : dwPush stack val = some stack') :
    stack.length < dwEvalStackSize ∧ stack'.length = stack.length + 1 := by
  unfold dwPush at h
  split at h
  · cases h
  · rename_i hroom
    cases h
    exact ⟨Nat.not_le.mp hroom, rfl⟩

private theorem evalDeref_length (h : evalDeref env op s = .next s') :
    s'.stack.length ≤ dwEvalStackSize := by
  unfold evalDeref at h
  split at h
  · cases h
  split at h
  · cases h
  split at h
  · cases h
  dsimp only at h
  split at h
  · cases h
  rename_i hpush
  cases h
  have hslot := dwPush_slot hpush
  dsimp only
  omega

private theorem takeBranch_stack (h : takeBranch ops op s = .next s') : s'.stack = s.stack := by
  unfold takeBranch at h
  split at h <;> cases h
  rfl

private theorem dwPop_length {val : Word} {rest : List Word} (h : dwPop stack = some (val, rest)) :
    rest.length ≤ stack.length := by
  cases stack with
  | nil => cases h
  | cons top below =>
    cases h
    exact Nat.le_succ _

/-- An operation that reads memory, branches or changes the kind of the result keeps the stack in
its array. -/
theorem evalOp_special_length (hspecial : op.atom.Special)
    (hlen : s.stack.length ≤ dwEvalStackSize) (h : evalOp env callCfa ops op s = .next s') :
    s'.stack.length ≤ dwEvalStackSize := by
  unfold evalOp at h
  split at h
  case h_1 | h_2 => exact evalDeref_length h
  case h_3 =>
    split at h
    · cases h
    rename_i val1 stack hpop
    have hpopped := (dwPop_length hpop).trans hlen
    split at h
    · cases h
      exact hpopped
    · rw [takeBranch_stack h]
      exact hpopped
  case h_4 =>
    rw [takeBranch_stack h]
    exact hlen
  case h_5 =>
    split at h
    · cases h
    · cases h
    · split at h
      · cases h
      · rename_i hpush
        cases h
        have hslot := dwPush_slot hpush
        dsimp only
        omega
  case h_6 =>
    cases h
    exact hlen
  case h_7 hderef hsize hbra hskip hcall hvalue =>
    rcases hspecial with h' | h' | h' | h' | h' | h' <;> contradiction

/-- A turn keeps the stack in its array. -/
theorem evalTurn_length (hlen : s.stack.length ≤ dwEvalStackSize)
    (h : evalTurn env callCfa ops s = .next s') : s'.stack.length ≤ dwEvalStackSize := by
  unfold evalTurn at h
  split at h
  · cases h
  rename_i op hop
  by_cases hspecial : op.atom.Special
  · exact evalOp_special_length hspecial hlen h
  rw [evalOp_plain hspecial, stackEffect_eq hspecial hlen] at h
  split at h
  · cases h
  · rename_i hstack
    cases h
    exact machineStack_length hlen hstack

/-- Every push goes to a slot of the array. In every state that an evaluation reaches the stack
is in the array, and the turn is defined exactly when it does not negate the minimum of the
signed integers; a defined turn is the one of the model. -/
theorem evalTurn_defined_iff {oor : OutOfRange} {n : Nat}
    (h : headState (evalTurn env callCfa ops) n (EvalState.init oor) = some s) :
    (∀ stack val stack', dwPush stack val = some stack' →
        stack.length < dwEvalStackSize ∧ stack'.length = stack.length + 1) ∧
      s.stack.length ≤ dwEvalStackSize ∧
      ((∃ turn, checkedTurn env callCfa ops s = .ok turn) ↔ ¬s.NegatesMin ops) ∧
      ∀ turn, checkedTurn env callCfa ops s = .ok turn → turn = evalTurn env callCfa ops s := by
  refine ⟨fun _ _ _ => dwPush_slot, ?_, ?_⟩
  · refine headState_invariant (fun _ s => s.stack.length ≤ dwEvalStackSize) (Nat.zero_le _) ?_ h
    intro n s s' _ hlen hturn
    exact evalTurn_length hlen hturn
  · rcases checkedTurn_cases env callCfa ops s with ⟨hneg, hchecked⟩ | ⟨hneg, hchecked⟩
    · rw [hchecked]
      exact ⟨⟨nofun, fun hnot => absurd hneg hnot⟩, nofun⟩
    · rw [hchecked]
      exact ⟨⟨fun _ => hneg, fun _ => ⟨_, rfl⟩⟩, fun turn hturn => (Except.ok.inj hturn).symm⟩

/-- A constant and an operation on it. -/
def onConstant (val : Word) (atom : Atom) : List DwarfOp :=
  [⟨.const8u, val, 0#64, 0#64⟩, ⟨atom, 0#64, 0#64, 9#64⟩]

/-- The state behind the constant. -/
def onConstantState (val : Word) : EvalState := ⟨1, [val], false, .clear⟩

private theorem onConstant_head (env : EvalEnv) (callCfa : OutOfRange → EvalResult) (val : Word)
    (atom : Atom) : headState (evalTurn env callCfa (onConstant val atom)) 1
      (EvalState.init .clear) = some (onConstantState val) := rfl

/-- Negating 7 is defined. -/
theorem evalTurn_defined_iff_seven :
    ∃ turn, checkedTurn sampleEnv .fail (onConstant 7#64 .neg) (onConstantState 7#64) =
      .ok turn := by
  refine (evalTurn_defined_iff (onConstant_head _ _ _ _)).2.2.1.mpr ?_
  rintro ⟨op, hop, -, htop⟩
  exact absurd htop (by decide)

/-- The evaluator reaches the absolute value of the minimum, and its negation. -/
theorem evalTurn_negates_min :
    (headState (evalTurn sampleEnv .fail (onConstant int64Min .abs)) 1 (EvalState.init .clear) =
        some (onConstantState int64Min) ∧
      checkedTurn sampleEnv .fail (onConstant int64Min .abs) (onConstantState int64Min) =
        .error .signedOverflow) ∧
    headState (evalTurn sampleEnv .fail (onConstant int64Min .neg)) 1 (EvalState.init .clear) =
        some (onConstantState int64Min) ∧
      checkedTurn sampleEnv .fail (onConstant int64Min .neg) (onConstantState int64Min) =
        .error .signedOverflow :=
  ⟨⟨onConstant_head _ _ _ _, rfl⟩, onConstant_head _ _ _ _, rfl⟩

end Gunwinder
