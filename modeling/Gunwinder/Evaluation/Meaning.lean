import Gunwinder.Core.Fetch
import Gunwinder.Evaluation.Outcome
import Gunwinder.Semantics.StackMachine
import Mathlib.Tactic.IntervalCases

/-!
# Each operation means what the byte machine says

The evaluator computes on words; the byte machine states the same operations on integers.
`stackEffect` and `machineStack` agree on every stack of at most 256 entries.
-/

namespace Gunwinder

open Gunwinder.Core

/-- The byte machine connected to the register block and the snapshot of an evaluation. -/
def EvalEnv.machine (env : EvalEnv) : MachineEnv where
  reg n := env.getRegs (toInt n)
  byte := window (fun a => env.stackBytes (a - env.stackStart.toNat)) env.stackStart.toNat
    env.stackEnd.toNat
  bias := env.bias

section Loads

variable {byte : Nat → Option Byte}

/-- A load succeeds where all its bytes are there. -/
theorem loadLe_isSome (size addr : Nat) :
    (loadLe byte size addr).isSome = true ↔ ∀ i < size, (byte (addr + i)).isSome = true := by
  induction size generalizing addr with
  | zero => simp [loadLe]
  | succ size ih =>
    rw [Nat.forall_lt_succ_left]
    simp only [← Nat.add_assoc, Nat.add_right_comm addr _ 1, Nat.add_zero, loadLe]
    rw [← ih]
    cases byte addr with
    | none => simp
    | some low => cases loadLe byte size (addr + 1) <;> simp

/-- A shorter load keeps the low bytes of a longer one. -/
theorem loadLe_mod {size addr v : Nat} (more : Nat) (h : loadLe byte (size + more) addr = some v) :
    loadLe byte size addr = some (v % 256 ^ size) := by
  induction size generalizing addr v with
  | zero => simp [loadLe, Nat.mod_one]
  | succ size ih =>
    rw [Nat.add_right_comm, loadLe] at h
    obtain ⟨low, hlow, hrest⟩ := Option.bind_eq_some_iff.mp h
    obtain ⟨high, hhigh, hv⟩ := Option.bind_eq_some_iff.mp hrest
    cases hv
    have hlt : low.toNat < 256 := low.isLt
    have hmod : (low.toNat + 256 * high) % 256 ^ (size + 1) =
        low.toNat + 256 * (high % 256 ^ size) := by
      rw [Nat.pow_succ', Nat.mod_mul, Nat.add_mul_mod_self_left, Nat.mod_eq_of_lt hlt,
        Nat.add_mul_div_left _ _ (by omega), Nat.div_eq_of_lt hlt, Nat.zero_add]
    rw [loadLe, hlow, ih hhigh, hmod]
    rfl

/-- Two fields side by side, as numbers. -/
theorem toNat_append_eq {v w : Nat} (high : BitVec v) (low : BitVec w) :
    (high ++ low).toNat = low.toNat + 2 ^ w * high.toNat := by
  rw [BitVec.toNat_append, ← Nat.shiftLeft_add_eq_or_of_lt low.isLt, Nat.shiftLeft_eq,
    Nat.add_comm, Nat.mul_comm]

/-- Eight bytes of a window are the word loaded from it. -/
theorem loadLe_window {m : Mem} {lo hi addr : Nat} (hlo : lo ≤ addr) (hhi : addr + 8 ≤ hi) :
    loadLe (window m lo hi) 8 addr = some (load64 m addr).toNat := by
  have hbyte (i : Nat) (h : i < 8) : window m lo hi (addr + i) = some (m (addr + i)) :=
    if_pos ⟨by omega, by omega⟩
  have h0 := hbyte 0 (by omega)
  rw [Nat.add_zero] at h0
  have h16 (a : Nat) : (load16 m a).toNat = (m a).toNat + 2 ^ 8 * (m (a + 1)).toNat :=
    toNat_append_eq ..
  have h32 (a : Nat) :
      (load32 m a).toNat = (load16 m a).toNat + 2 ^ 16 * (load16 m (a + 2)).toNat :=
    toNat_append_eq ..
  have h64 : (load64 m addr).toNat = (load32 m addr).toNat + 2 ^ 32 * (load32 m (addr + 4)).toNat :=
    toNat_append_eq ..
  simp only [loadLe, h0, hbyte, Nat.add_assoc, Nat.reduceAdd, Nat.reduceLT, Option.bind_eq_bind,
    Option.bind_some, h64, h32, h16, Option.pure_def, Option.some.injEq]
  omega

/-- The machine's load of a word is the evaluator's read. -/
theorem machine_load_word (env : EvalEnv) (addr : Word) (oor : OutOfRange) :
    env.machine.load 8 addr = (readAddr env addr oor).1 := by
  have hin : ¬(addr < env.stackStart ∨ env.stackEnd ≤ addr ∨ addr + 8#64 < addr ∨
      env.stackEnd - addr < 8#64) ↔
      env.stackStart.toNat ≤ addr.toNat ∧ addr.toNat + 8 ≤ env.stackEnd.toNat := by
    generalize env.stackStart = start
    generalize env.stackEnd = fin
    bv_omega
  unfold readAddr
  split
  · rename_i hout
    cases hload : env.machine.load 8 addr with
    | none => rfl
    | some word =>
      obtain ⟨v, hv, -⟩ := Option.map_eq_some_iff.mp hload
      have hbytes := (loadLe_isSome 8 addr.toNat).mp (Option.isSome_of_eq_some hv)
      have hfirst := hbytes 0 (by omega)
      have hlast := hbytes 7 (by omega)
      simp only [EvalEnv.machine, window, Option.isSome_ite] at hfirst hlast
      exact absurd hout (hin.mpr ⟨by omega, by omega⟩)
  · rename_i hinside
    obtain ⟨hlo, hhi⟩ := hin.mp hinside
    have hindex : (addr - env.stackStart).toNat = addr.toNat - env.stackStart.toNat :=
      BitVec.toNat_sub_of_le hlo
    have hword : load64 (fun a => env.stackBytes (a - env.stackStart.toNat)) addr.toNat =
        load64 env.stackBytes (addr - env.stackStart).toNat := by
      have hsub (i : Nat) : addr.toNat + i - env.stackStart.toNat =
          addr.toNat - env.stackStart.toNat + i := by omega
      simp only [load64, load32, load16, hindex, Nat.add_assoc, Nat.reduceAdd, hsub]
    rw [MachineEnv.load, EvalEnv.machine, loadLe_window hlo hhi, hword, Option.map_some,
      BitVec.ofNat_toNat, BitVec.setWidth_eq]

/-- Where the whole word is there, a sized load keeps its low bytes. -/
theorem load_of_word {env : MachineEnv} {size : Nat} {addr word : Word} (hsize : size ≤ 8)
    (h : env.load 8 addr = some word) :
    env.load size addr = some (BitVec.ofNat 64 (word.toNat % 2 ^ (8 * size))) := by
  obtain ⟨v, hv, rfl⟩ := Option.map_eq_some_iff.mp h
  have hlow : loadLe env.byte 8 addr.toNat = some (v % 256 ^ 8) := loadLe_mod 0 hv
  have hlt : v < 2 ^ 64 := by
    have heq := Option.some.inj (hv.symm.trans hlow)
    omega
  obtain ⟨more, hmore⟩ := Nat.exists_eq_add_of_le hsize
  rw [hmore] at hv
  have hpow : 2 ^ (8 * size) = 256 ^ size := Nat.pow_mul 2 8 size
  rw [MachineEnv.load, loadLe_mod more hv, BitVec.toNat_ofNat, Nat.mod_eq_of_lt hlt, hpow,
    Option.map_some]

end Loads

section Arithmetic

variable (a b : Word)

/-- Signed division fails on a zero divisor and where the quotient does not fit. -/
theorem sdiv_meaning :
    (if b = 0#64 then none else if a = int64Min ∧ b = -1#64 then none else some (a.sdiv b)) =
      if b = 0#64 then none else signedResult (a.toInt.tdiv b.toInt) := by
  by_cases hb : b = 0#64
  · simp [hb]
  simp only [hb, if_false]
  by_cases ho : a = int64Min ∧ b = -1#64
  · obtain ⟨rfl, rfl⟩ := ho
    decide
  · rw [if_neg ho]
    have hne : a ≠ BitVec.intMin 64 ∨ b ≠ -1#64 := by
      by_contra h
      push Not at h
      exact ho ⟨by rw [h.1]; decide, h.2⟩
    have heq := BitVec.toInt_sdiv_of_ne_or_ne a b hne
    have hlo := BitVec.le_toInt (a.sdiv b)
    have hhi := (a.sdiv b).toInt_lt
    rw [heq] at hlo hhi
    rw [signedResult, if_pos ⟨by simpa using hlo, by simpa using hhi⟩, ← heq, BitVec.ofInt_toInt]

private theorem umod_meaning : a % b = BitVec.ofNat 64 (a.toNat % b.toNat) := by
  apply BitVec.eq_of_toNat_eq
  have hlt : a.toNat % b.toNat < 2 ^ 64 := Nat.lt_of_le_of_lt (Nat.mod_le _ _) a.isLt
  rw [BitVec.toNat_umod, BitVec.toNat_ofNat, Nat.mod_eq_of_lt hlt]

private theorem ushiftRight_meaning (n : Nat) : a >>> n = BitVec.ofNat 64 (a.toNat / 2 ^ n) := by
  apply BitVec.eq_of_toNat_eq
  have hlt : a.toNat / 2 ^ n < 2 ^ 64 := Nat.lt_of_le_of_lt (Nat.div_le_self _ _) a.isLt
  rw [BitVec.toNat_ushiftRight, Nat.shiftRight_eq_div_pow, BitVec.toNat_ofNat, Nat.mod_eq_of_lt hlt]

private theorem shiftLeft_meaning (n : Nat) : a <<< n = BitVec.ofNat 64 (a.toNat * 2 ^ n) := by
  apply BitVec.eq_of_toNat_eq
  simp [Nat.shiftLeft_eq]

private theorem sshiftRight_meaning (n : Nat) :
    a.sshiftRight n = BitVec.ofInt 64 (a.toInt / 2 ^ n) := by
  rw [← BitVec.ofInt_toInt (x := a.sshiftRight n), BitVec.toInt_sshiftRight,
    Int.shiftRight_eq_div_pow]
  norm_cast

private theorem add_meaning : a + b = BitVec.ofNat 64 (a.toNat + b.toNat) := by
  apply BitVec.eq_of_toNat_eq
  simp

private theorem abs_meaning : (if a.slt 0#64 then -a else a) = BitVec.ofNat 64 a.toInt.natAbs := by
  rw [BitVec.slt_eq_decide, BitVec.toInt_zero, ← BitVec.ofInt_natCast]
  by_cases h : a.toInt < 0
  · rw [Int.ofNat_natAbs_of_nonpos (by omega), BitVec.ofInt_neg, BitVec.ofInt_toInt]
    simp [h]
  · rw [Int.natAbs_of_nonneg (by omega), BitVec.ofInt_toInt]
    simp [h]

/-- Masking a word to its low `n` bytes. -/
theorem mask_meaning (h : b < 8#64) :
    a &&& ((1#64 <<< (b * 8#64).toNat) - 1#64) =
      BitVec.ofNat 64 (a.toNat % 2 ^ (8 * b.toNat)) := by
  have hb : b.toNat < 8 := h
  have h8 : (b * 8#64).toNat = 8 * b.toNat := by
    rw [BitVec.toNat_mul, show (8#64 : Word).toNat = 8 from rfl]
    omega
  have hmask : ((1#64 <<< (8 * b.toNat)) - 1#64 : Word).toNat = 2 ^ (8 * b.toNat) - 1 := by
    generalize b.toNat = k at hb
    interval_cases k <;> rfl
  apply BitVec.eq_of_toNat_eq
  rw [h8, BitVec.toNat_and, hmask, Nat.and_two_pow_sub_one_eq_mod, BitVec.toNat_ofNat,
    Nat.mod_eq_of_lt (Nat.lt_of_le_of_lt (Nat.mod_le _ _) a.isLt)]

end Arithmetic

section Stack

variable {env : EvalEnv} {op : DwarfOp} {stack : List Word}

/-- A two-operand operation pops two entries and pushes the machine's result. -/
theorem stackEffect_binary {f : Word → Word → Option Word}
    (h : machineBinary op.atom = some f) : stackEffect env op stack = dwBinary f stack := by
  have hle (x : Word) : 64#64 ≤ x ↔ ¬x.toNat < 64 := by
    rw [BitVec.le_def]
    exact Nat.not_lt.symm
  unfold stackEffect
  cases hop : op.atom <;> simp only [hop, machineBinary, reduceCtorEq, Option.some.injEq] at h
  all_goals
    subst h
    refine congrArg (fun g => dwBinary g stack) (funext fun a => funext fun b => ?_)
  case and | or | xor => rfl
  case plus => rw [BitVec.ofInt_add, BitVec.ofInt_toInt, BitVec.ofInt_toInt]
  case minus =>
    congr 1
    apply BitVec.eq_of_toInt_eq
    simp
  case mul => rw [BitVec.ofInt_mul, BitVec.ofInt_toInt, BitVec.ofInt_toInt]
  case div => exact sdiv_meaning a b
  case mod => rw [umod_meaning]
  case shl => simp only [hle, ite_not, shiftLeft_meaning]
  case shr => simp only [hle, ite_not, ushiftRight_meaning]
  case shra => simp only [hle, ite_not, sshiftRight_meaning]
  case le | ge => simp [truth, ofBool, BitVec.sle_eq_decide]
  case lt | gt => simp [truth, ofBool, BitVec.slt_eq_decide]
  case eq | ne => simp [truth, ofBool]

/-- A stack the evaluator accepts has room for the result once an operand is popped. -/
theorem dwPush_popped {a : Word} {rest : List Word} (hlen : (a :: rest).length ≤ machineSlots)
    (val : Word) : dwPush rest val = some (val :: rest) := by
  rw [List.length_cons] at hlen
  have hroom : ¬dwEvalStackSize ≤ rest.length := by
    unfold machineSlots at hlen
    unfold dwEvalStackSize
    omega
  simp [dwPush, hroom]

private theorem dwBinary_eq (f : Word → Word → Option Word) (hlen : stack.length ≤ machineSlots) :
    dwBinary f stack = machineApply2 f stack := by
  match stack with
  | [] => rfl
  | [_] => rfl
  | b :: a :: rest =>
    have hroom := dwPush_popped (Nat.le_of_succ_le hlen : (a :: rest).length ≤ machineSlots)
    cases hf : f a b <;> simp [dwBinary, machineApply2, dwPop, hf, hroom]

private theorem dwUnary_eq (f : Word → Word) (hlen : stack.length ≤ machineSlots) :
    dwUnary f stack = machineApply (fun a => some (f a)) stack := by
  match stack with
  | [] => rfl
  | a :: rest => simp [dwUnary, machineApply, dwPop, dwPush_popped hlen]

/-- A one-operand operation replaces the top by the machine's result. -/
theorem stackEffect_unary {f : Word → Word → Option Word} (h : machineUnary op.atom = some f)
    (hlen : stack.length ≤ machineSlots) :
    stackEffect env op stack = machineApply (f op.number) stack := by
  unfold stackEffect
  cases hop : op.atom <;> simp only [hop, machineUnary, reduceCtorEq, Option.some.injEq] at h
  all_goals
    subst h
    dsimp only
    rw [dwUnary_eq _ hlen]
  case abs => simp only [abs_meaning]
  case neg => simp only [BitVec.ofInt_neg, BitVec.ofInt_toInt]
  case plusUconst => simp only [add_meaning]

private theorem dwPush_eq (stack : List Word) (val : Word) :
    dwPush stack val = machinePush stack val := by
  unfold dwPush machinePush
  rw [show dwEvalStackSize = machineSlots from rfl]
  by_cases h : stack.length < machineSlots
  · rw [if_neg (by omega), if_pos h]
  · rw [if_pos (by omega), if_neg h]

/-- A five-bit register number read as a C `int`. -/
theorem toInt_setWidth (n : BitVec 5) : toInt (n.setWidth 64) = n.toNat := by
  revert n
  decide

/-- An operation with a value of its own pushes it. -/
theorem stackEffect_value {val : Option Word}
    (h : machineValue env.machine op.atom op.number op.number2 = some val) :
    stackEffect env op stack = val.bind (machinePush stack) := by
  unfold stackEffect
  cases hop : op.atom <;>
    simp only [hop, machineValue, reduceCtorEq, Option.some.injEq] at h
  all_goals
    subst h
    dsimp only
  case lit n =>
    rw [dwPush_eq, Option.bind_some]
    congr 1
    apply BitVec.eq_of_toNat_eq
    simp
  case addr =>
    rw [dwPush_eq, Option.bind_some, add_meaning]
    rfl
  case reg n =>
    simp only [EvalEnv.machine, toInt_setWidth, ← dwPush_eq]
    rfl
  case regx =>
    simp only [EvalEnv.machine, ← dwPush_eq]
    rfl
  case breg n =>
    simp only [EvalEnv.machine, toInt_setWidth, ← add_meaning, ← dwPush_eq]
    cases env.getRegs n.toNat <;> rfl
  case bregx =>
    simp only [EvalEnv.machine, ← add_meaning, ← dwPush_eq]
    cases env.getRegs (toInt op.number) <;> rfl
  all_goals rw [dwPush_eq, Option.bind_some]

/-- The operations `gu_dwarf_ops_eval` treats on their own: reads, branches and the two
operations about the result. -/
def Atom.Special (atom : Atom) : Prop :=
  atom = .deref ∨ atom = .derefSize ∨ atom = .bra ∨ atom = .skip ∨ atom = .callFrameCfa ∨
    atom = .stackValue

/-- The operations that move entries around. -/
theorem stackEffect_move (hop : ¬op.atom.Special) (hlen : stack.length ≤ machineSlots)
    (hv : machineValue env.machine op.atom op.number op.number2 = none)
    (hu : machineUnary op.atom = none) (hb : machineBinary op.atom = none) :
    stackEffect env op stack = machineMove env.machine op.atom op.number stack := by
  unfold stackEffect
  cases hop' : op.atom <;> simp only [hop', machineValue, machineUnary, machineBinary,
    reduceCtorEq] at hv hu hb
  all_goals dsimp only
  case deref | derefSize | bra | skip | callFrameCfa | stackValue =>
    exact absurd (by simp [Atom.Special, hop']) hop
  case dup =>
    match stack with
    | [] => rfl
    | a :: rest => simp [machineMove, ← dwPush_eq, dwPop, dwPush_popped hlen]
  case drop =>
    match stack with
    | [] => rfl
    | a :: rest => rfl
  case pick =>
    by_cases hin : op.number.toNat < stack.length
    · rw [if_neg (by omega)]
      simp [machineMove, List.getElem?_eq_getElem hin, dwPush_eq]
    · rw [if_pos (by omega)]
      simp [machineMove, List.getElem?_eq_none (Nat.not_lt.mp hin)]
  case «over» =>
    match stack with
    | [] | [_] => rfl
    | a :: b :: rest =>
      have hroom := dwPush_popped (Nat.le_of_succ_le hlen : (b :: rest).length ≤ machineSlots)
      simp [machineMove, ← dwPush_eq, dwPop, hroom, dwPush_popped hlen]
  case swap =>
    match stack with
    | [] | [_] => rfl
    | a :: b :: rest =>
      have hroom := dwPush_popped (Nat.le_of_succ_le hlen : (b :: rest).length ≤ machineSlots)
      have hroom2 := dwPush_popped (show (b :: a :: rest).length ≤ machineSlots from hlen)
      simp [machineMove, dwPop, hroom, hroom2]
  case rot =>
    match stack with
    | [] | [_] | [_, _] => rfl
    | a :: b :: c :: rest =>
      have hroom := dwPush_popped
        (Nat.le_of_succ_le (Nat.le_of_succ_le hlen) : (c :: rest).length ≤ machineSlots)
      have hroom2 := dwPush_popped (Nat.le_of_succ_le hlen : (b :: a :: rest).length ≤ machineSlots)
      have hroom3 := dwPush_popped (show (b :: c :: a :: rest).length ≤ machineSlots from hlen)
      simp [machineMove, dwPop, hroom, hroom2, hroom3]
  all_goals rfl

/-- On every other operation the evaluator and the machine have the same stack effect. -/
theorem stackEffect_eq (hop : ¬op.atom.Special) (hlen : stack.length ≤ machineSlots) :
    stackEffect env op stack =
      machineStack env.machine op.atom op.number op.number2 stack := by
  unfold machineStack
  cases hv : machineValue env.machine op.atom op.number op.number2 with
  | some val => exact stackEffect_value hv
  | none =>
    cases hu : machineUnary op.atom with
    | some f => exact stackEffect_unary hu hlen
    | none =>
      cases hb : machineBinary op.atom with
      | some f => exact (stackEffect_binary hb).trans (dwBinary_eq f hlen)
      | none => exact stackEffect_move hop hlen hv hu hb

/-- An opcode without a machine operation is one the evaluator rejects. -/
theorem stackEffect_unsupported (h : machineOperands op.atom = none)
    (hop : ¬op.atom.Special) : stackEffect env op stack = none := by
  unfold stackEffect
  cases hop' : op.atom <;> simp only [hop', machineOperands, reduceCtorEq] at h
  case callFrameCfa | stackValue => exact absurd (by simp [Atom.Special, hop']) hop
  all_goals rfl

/-- The default case of the switch. -/
theorem evalOp_plain {callCfa : OutOfRange → EvalResult} {ops : List DwarfOp}
    (hop : ¬op.atom.Special) (s : EvalState) :
    evalOp env callCfa ops op s =
      match stackEffect env op s.stack with
      | none => .stop (.fail s.oor)
      | some stack => .next { s with pos := s.pos + 1, stack } := by
  unfold evalOp
  split
  case h_7 => rfl
  all_goals exact absurd (by simp [Atom.Special, *]) hop

variable {menv : MachineEnv}

/-- An operation of the machine that does not branch. -/
theorem machineExec_plain {atom : Atom} (hskip : atom ≠ .skip) (hbra : atom ≠ .bra)
    (number number2 : Word) (next : Nat) (t : MachineState) :
    machineExec menv atom number number2 next t =
      match machineStack menv atom number number2 t.stack with
      | none => .stop none
      | some stack => .next ⟨next, stack⟩ := by
  unfold machineExec
  split
  · contradiction
  · contradiction
  · rfl

/-- The machine reads a word where the evaluator does, whatever is recorded. -/
theorem machine_load (env : EvalEnv) (addr : Word) (oor : OutOfRange) :
    (∃ word, env.machine.load 8 addr = some word ∧ readAddr env addr oor = (some word, oor)) ∨
      (env.machine.load 8 addr = none ∧ ∃ r, readAddr env addr oor = (none, r)) := by
  rw [machine_load_word env addr oor]
  rcases readAddr_record env addr oor with ⟨word, h, -⟩ | ⟨r, -, h, -⟩
  · exact .inl ⟨word, by rw [h], h⟩
  · exact .inr ⟨by rw [h], r, h⟩

/-- Bytes the machine reads for a read operation. -/
def DwarfOp.readSize (op : DwarfOp) : Nat := if op.atom = .derefSize then op.number.toNat else 8

/-- The value a snapshot read keeps of the word it reads. -/
theorem readValue_eq {addr word : Word} (hload : menv.load 8 addr = some word)
    (hop : ¬(op.atom = .derefSize ∧ 8#64 < op.number)) :
    menv.load op.readSize addr = some (if op.atom = .derefSize ∧ op.number < 8#64 then
      word &&& ((1#64 <<< (op.number * 8#64).toNat) - 1#64) else word) := by
  by_cases hsize : op.atom = .derefSize
  · have hle : op.number.toNat ≤ 8 := Nat.not_lt.mp fun hlt => hop ⟨hsize, hlt⟩
    rw [DwarfOp.readSize, if_pos hsize]
    by_cases hlt : op.number < 8#64
    · rw [load_of_word hle hload, if_pos ⟨hsize, hlt⟩, mask_meaning word op.number hlt]
    · have h8 : op.number.toNat = 8 := Nat.le_antisymm hle (Nat.not_lt.mp fun h => hlt h)
      rw [h8, hload, if_neg fun h => hlt h.2]
  · rw [DwarfOp.readSize, if_neg hsize, hload, if_neg fun h => hsize h.1]

/-- A read of the machine, with or without a size. -/
theorem machineStack_read (menv : MachineEnv) (hop : op.atom = .deref ∨ op.atom = .derefSize)
    (addr : Word) (rest : List Word) :
    machineStack menv op.atom op.number op.number2 (addr :: rest) =
      if op.atom = .derefSize ∧ 8#64 < op.number then none
      else (menv.load op.readSize addr).map (· :: rest) := by
  have hlt : 8#64 < op.number ↔ ¬op.number.toNat ≤ 8 := Nat.not_le.symm
  have hite (x : Option (List Word)) :
      (if op.number.toNat ≤ 8 then x else none) = if 8#64 < op.number then none else x := by
    by_cases h8 : op.number.toNat ≤ 8 <;> simp [hlt, h8]
  rcases hop with h | h <;>
    simp [machineStack, machineValue, machineUnary, machineBinary, machineMove,
      DwarfOp.readSize, h, hite]

/-- A read needs an address. -/
theorem machineStack_read_nil (menv : MachineEnv)
    (hop : op.atom = .deref ∨ op.atom = .derefSize) :
    machineStack menv op.atom op.number op.number2 [] = none := by
  rcases hop with h | h <;>
    simp [machineStack, machineValue, machineUnary, machineBinary, machineMove, h]

variable (callCfa : OutOfRange → EvalResult) (ops : List DwarfOp)

/-- Both snapshot reads are made by `evalDeref`. -/
theorem evalOp_deref (hop : op.atom = .deref ∨ op.atom = .derefSize) (s : EvalState) :
    evalOp env callCfa ops op s = evalDeref env op s := by
  unfold evalOp
  rcases hop with h | h <;> simp only [h]

/-- Both snapshot reads replace the address on top by what the machine reads, where the whole
word is there. -/
theorem evalOp_read (hop : op.atom = .deref ∨ op.atom = .derefSize) (s : EvalState)
    (hlen : s.stack.length ≤ machineSlots) (hword : WholeWord env.machine op s.stack) :
    (∃ stack, machineStack env.machine op.atom op.number op.number2 s.stack = some stack ∧
      evalOp env callCfa ops op s = .next { s with pos := s.pos + 1, stack := stack }) ∨
    (machineStack env.machine op.atom op.number op.number2 s.stack = none ∧
      ∃ r, evalOp env callCfa ops op s = .stop (.fail r)) := by
  rw [evalOp_deref callCfa ops hop]
  unfold evalDeref
  obtain ⟨pos, stack, isLocation, oor⟩ := s
  by_cases hbig : op.atom = .derefSize ∧ 8#64 < op.number
  · refine .inr ⟨?_, oor, if_pos hbig⟩
    cases stack with
    | nil => exact machineStack_read_nil env.machine hop
    | cons addr rest => exact (machineStack_read env.machine hop addr rest).trans (if_pos hbig)
  · rw [if_neg hbig]
    cases stack with
    | nil => exact .inr ⟨machineStack_read_nil env.machine hop, oor, rfl⟩
    | cons addr rest =>
      dsimp only [dwPop]
      rw [machineStack_read env.machine hop, if_neg hbig]
      rcases machine_load env addr oor with ⟨word, hload, hread⟩ | ⟨hload, r, hread⟩
      · rw [readValue_eq hload hbig, hread]
        simp only [dwPush_popped hlen, Option.map_some]
        exact .inl ⟨_, rfl, rfl⟩
      · have hnone : env.machine.load op.readSize addr = none := by
          rcases hop with h | h
          · rw [DwarfOp.readSize, if_neg (by simp [h]), hload]
          have hsome := hword h addr rfl
          rw [hload] at hsome
          rw [DwarfOp.readSize, if_pos h]
          simpa using hsome
        rw [hnone, hread]
        exact .inr ⟨rfl, r, rfl⟩

/-- A sized read whose word reaches behind the window fails in the evaluator. -/
theorem evalOp_short (s : EvalState) (hword : ¬WholeWord env.machine op s.stack) :
    ∃ r, evalOp env callCfa ops op s = .stop (.fail r) := by
  unfold WholeWord at hword
  push Not at hword
  obtain ⟨hop, addr, haddr, -, hload⟩ := hword
  rw [evalOp_deref callCfa ops (.inr hop)]
  unfold evalDeref
  obtain ⟨pos, stack, isLocation, oor⟩ := s
  split
  · exact ⟨_, rfl⟩
  cases stack with
  | nil => cases haddr
  | cons top rest =>
    obtain rfl := Option.some.inj haddr
    rcases machine_load env top oor with ⟨word, hsome, -⟩ | ⟨-, r, hread⟩
    · rw [hsome] at hload
      exact absurd rfl hload
    · dsimp only [dwPop]
      rw [hread]
      exact ⟨r, rfl⟩

/-- A push leaves a stack of the machine. -/
theorem machinePush_length {stack' : List Word} {val : Word}
    (h : machinePush stack val = some stack') : stack'.length ≤ machineSlots := by
  unfold machinePush at h
  split at h
  · rw [← Option.some.inj h, List.length_cons]
    omega
  · cases h

/-- The machine never exceeds its slots. -/
theorem machineStack_length {atom : Atom} {number number2 : Word} {stack' : List Word}
    (hlen : stack.length ≤ machineSlots)
    (h : machineStack menv atom number number2 stack = some stack') :
    stack'.length ≤ machineSlots := by
  unfold machineStack at h
  split at h
  · obtain ⟨val, -, hpush⟩ := Option.bind_eq_some_iff.mp h
    exact machinePush_length hpush
  · unfold machineApply at h
    split at h
    · obtain ⟨val, -, rfl⟩ := Option.map_eq_some_iff.mp h
      simpa using hlen
    · cases h
  · unfold machineApply2 at h
    split at h
    · obtain ⟨val, -, rfl⟩ := Option.map_eq_some_iff.mp h
      simp only [List.length_cons] at hlen ⊢
      omega
    · cases h
  · unfold machineMove at h
    split at h
    · exact machinePush_length h
    · cases h
      exact Nat.le_of_succ_le hlen
    · obtain ⟨val, -, hpush⟩ := Option.bind_eq_some_iff.mp h
      exact machinePush_length hpush
    · exact machinePush_length h
    · cases h
      exact hlen
    · cases h
      exact hlen
    · obtain ⟨val, -, rfl⟩ := Option.map_eq_some_iff.mp h
      exact hlen
    · split at h
      · obtain ⟨val, -, rfl⟩ := Option.map_eq_some_iff.mp h
        exact hlen
      · cases h
    · cases h
      exact hlen
    · cases h

end Stack

end Gunwinder
