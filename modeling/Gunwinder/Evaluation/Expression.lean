import Gunwinder.Evaluation.FastPath
import Gunwinder.Evaluation.Meaning

/-!
# Decoded expressions mean what their bytes mean

The evaluator stands on an index of the decoded list, the byte machine on a byte of the
block. `OpsAt` ties the two. A branch is followed on both sides: the evaluator searches the byte
offset, and where the list has a prepended operation the offset `0` occurs twice.
-/

namespace Gunwinder

open Gunwinder.Core

/-- From `data` on, the block `[base, fin)` decodes to `ops` up to its end. -/
inductive OpsAt (mem : Mem) (base fin : Nat) : Nat → List DwarfOp → Prop where
  | nil : OpsAt mem base fin fin []
  | cons {data next : Nat} {op : DwarfOp} {ops : List DwarfOp} (inside : data < fin)
      (read : decodeOp mem base fin data = some (op, next)) (rest : OpsAt mem base fin next ops) :
      OpsAt mem base fin data (op :: ops)

variable {op : DwarfOp} {i : Nat} {block : Block}

section Decoded

variable {mem : Mem} {base fin data : Nat} {ops : List DwarfOp}

/-- A block that is decoded to its end. -/
theorem decodeOps_opsAt {n : Nat} (h : decodeOps mem base fin n data = some (ops, fin)) :
    OpsAt mem base fin data ops := by
  induction n generalizing data ops with
  | zero =>
    cases h
    exact .nil
  | succ n ih =>
    rw [decodeOps] at h
    by_cases hlt : data < fin
    · rw [if_pos hlt] at h
      cases hop : decodeOp mem base fin data with
      | none => simp [hop] at h
      | some p =>
        obtain ⟨op, next⟩ := p
        cases hrest : decodeOps mem base fin n next with
        | none => simp [hop, hrest] at h
        | some q =>
          obtain ⟨rest, last⟩ := q
          simp only [hop, hrest, Option.some.injEq, Prod.mk.injEq] at h
          obtain ⟨rfl, rfl⟩ := h
          exact .cons hlt hop (ih hrest)
    · rw [if_neg hlt] at h
      cases h
      exact .nil

/-- Every operation starts at a byte from `data` on and records its offset. -/
theorem OpsAt.offset (h : OpsAt mem base fin data ops) (hop : op ∈ ops) :
    ∃ a, data ≤ a ∧ a < fin ∧ op.offset = BitVec.ofNat 64 (a - base) := by
  induction h with
  | nil => cases hop
  | cons inside read _ ih =>
    rcases List.mem_cons.mp hop with rfl | hrest
    · exact ⟨_, Nat.le_refl _, inside, (decodeOp_offset read).2⟩
    · obtain ⟨a, ha, hfin, hoff⟩ := ih hrest
      exact ⟨a, by have := (decodeOp_bounds inside read).1; omega, hfin, hoff⟩

/-- Offsets grow strictly along a decoded block. -/
theorem OpsAt.sorted (h : OpsAt mem base fin data ops) (hbase : base ≤ data)
    (hsize : fin - base < 2 ^ 64) : ops.Pairwise fun a b => a.offset < b.offset := by
  induction h with
  | nil => exact .nil
  | @cons data next op ops inside read rest ih =>
    have hnext := decodeOp_bounds inside read
    refine List.Pairwise.cons ?_ (ih (by omega))
    intro op' hop'
    obtain ⟨a, ha, hfin, hoff⟩ := rest.offset hop'
    rw [(decodeOp_offset read).2, hoff, BitVec.lt_def, BitVec.toNat_ofNat, BitVec.toNat_ofNat,
      Nat.mod_eq_of_lt (by omega), Nat.mod_eq_of_lt (by omega)]
    omega

/-- Nothing is left to decode at the end only. -/
theorem OpsAt.eq_fin (h : OpsAt mem base fin data []) : data = fin := by
  cases h
  rfl

/-- The rest of the list behind its first operation. -/
theorem OpsAt.tail (h : OpsAt mem base fin data (ops.drop i)) (hop : ops[i]? = some op) :
    data < fin ∧
      ∃ next, decodeOp mem base fin data = some (op, next) ∧
        OpsAt mem base fin next (ops.drop (i + 1)) := by
  obtain ⟨hi, rfl⟩ := List.getElem?_eq_some_iff.mp hop
  rw [List.drop_eq_getElem_cons hi] at h
  cases h with
  | cons inside read rest => exact ⟨inside, _, read, rest⟩

/-- A start of an operation is where some part of the list is decoded from. -/
theorem OpStart.opsAt {a : Nat} (hstart : OpStart mem block a)
    (h : OpsAt mem block.start block.fin block.start ops) :
    ∃ i op, ops[i]? = some op ∧ OpsAt mem block.start block.fin a (ops.drop i) := by
  have hne {a i : Nat} (ha : a < block.fin)
      (hi : OpsAt mem block.start block.fin a (ops.drop i)) : ∃ op, ops[i]? = some op := by
    cases hop : ops[i]? with
    | some op => exact ⟨op, rfl⟩
    | none =>
      rw [List.drop_eq_nil_of_le (List.getElem?_eq_none_iff.mp hop)] at hi
      cases hi
      omega
  induction hstart with
  | first hlt =>
    obtain ⟨op, hop⟩ := hne hlt (i := 0) h
    exact ⟨0, op, hop, h⟩
  | next _ read inside ih =>
    obtain ⟨i, op, hop, hi⟩ := ih
    obtain ⟨-, next, hread, hrest⟩ := hi.tail hop
    rw [read] at hread
    cases hread
    obtain ⟨op', hop'⟩ := hne inside hrest
    exact ⟨i + 1, op', hop', hrest⟩

end Decoded

/-! ## Searching a branch target -/

section Search

variable {ops : List DwarfOp} {key : Word}

/-- Entries of a pairwise related list are related in order. -/
theorem pairwise_at {R : DwarfOp → DwarfOp → Prop} (h : ops.Pairwise R) {j : Nat} {a b : DwarfOp}
    (hij : i < j) (ha : ops[i]? = some a) (hb : ops[j]? = some b) : R a b := by
  obtain ⟨hi, rfl⟩ := List.getElem?_eq_some_iff.mp ha
  obtain ⟨hj, rfl⟩ := List.getElem?_eq_some_iff.mp hb
  exact List.pairwise_iff_getElem.mp h i j hi hj hij

private theorem compareOffset_lt (hop : ops[i]? = some op) :
    compareOffset ops key i = .lt ↔ key < op.offset := by
  simp only [compareOffset, hop]
  by_cases h : key < op.offset
  · simp [h]
  · by_cases h' : op.offset < key <;> simp [h, h']

private theorem compareOffset_gt (hop : ops[i]? = some op) :
    compareOffset ops key i = .gt ↔ op.offset < key := by
  simp only [compareOffset, hop]
  by_cases h : key < op.offset
  · simp [h, BitVec.lt_asymm h]
  · by_cases h' : op.offset < key <;> simp [h, h']

/-- The search stops at the offset. -/
theorem compareOffset_eq (hop : ops[i]? = some op) :
    compareOffset ops key i = .eq ↔ op.offset = key := by
  simp only [compareOffset, hop]
  constructor
  · intro h
    split at h
    · cases h
    · split at h
      · cases h
      · exact BitVec.le_antisymm (BitVec.not_lt.mp ‹_›) (BitVec.not_lt.mp ‹_›)
  · rintro rfl
    simp

/-- Over nondecreasing offsets the comparisons are ordered. -/
theorem compareOffset_ordered (h : ops.Pairwise fun a b => a.offset ≤ b.offset) :
    Ordered (compareOffset ops key) ops.length := by
  have hle {i j : Nat} (hij : i ≤ j) (hj : j < ops.length) : ∃ a b, ops[i]? = some a ∧
      ops[j]? = some b ∧ a.offset ≤ b.offset := by
    have hb := List.getElem?_eq_getElem hj
    rcases Nat.lt_or_eq_of_le hij with hlt | rfl
    · have ha := List.getElem?_eq_getElem (Nat.lt_trans hlt hj)
      exact ⟨_, _, ha, hb, pairwise_at h hlt ha hb⟩
    · exact ⟨_, _, hb, hb, BitVec.le_refl _⟩
  constructor
  · intro i j hij hj hlt
    obtain ⟨a, b, ha, hb, hab⟩ := hle hij hj
    rw [compareOffset_lt hb]
    exact Nat.lt_of_lt_of_le ((compareOffset_lt ha).mp hlt) hab
  · intro i j hij hj hgt
    obtain ⟨a, b, ha, hb, hab⟩ := hle hij hj
    rw [compareOffset_gt ha]
    exact Nat.lt_of_le_of_lt hab ((compareOffset_gt hb).mp hgt)

/-- Over strictly growing offsets the search finds the operation with the offset. -/
theorem bsearch_offset (h : ops.Pairwise fun a b => a.offset < b.offset) (hop : ops[i]? = some op) :
    bsearch (compareOffset ops op.offset) ops.length = some i := by
  refine bsearch_unique (compareOffset_ordered (h.imp BitVec.le_of_lt))
    (List.getElem?_eq_some_iff.mp hop).1 ((compareOffset_eq hop).mpr rfl) ?_
  intro j hj heq
  have hb := List.getElem?_eq_getElem hj
  have hoff := (compareOffset_eq hb).mp heq
  rcases Nat.lt_trichotomy i j with hij | rfl | hji
  · exact absurd (pairwise_at h hij hop hb) (by rw [hoff]; exact BitVec.lt_irrefl _)
  · rfl
  · exact absurd (pairwise_at h hji hb hop) (by rw [hoff]; exact BitVec.lt_irrefl _)

/-- With an operation of offset `0` in front of a list that starts at offset `0`, the search
still ends in the list. -/
theorem bsearch_offset_cons {first op0 : DwarfOp} (hfirst : first.offset = 0#64)
    (h : ops.Pairwise fun a b => a.offset < b.offset) (h0 : ops[0]? = some op0)
    (hzero : op0.offset = 0#64) (hop : ops[i]? = some op) :
    bsearch (compareOffset (first :: ops) op.offset) (ops.length + 1) = some (i + 1) := by
  have hlen := (List.getElem?_eq_some_iff.mp hop).1
  have hpos {j : Nat} {b : DwarfOp} (hj : 0 < j) (hb : ops[j]? = some b) : 0#64 < b.offset := by
    rw [← hzero]
    exact pairwise_at h hj h0 hb
  cases i with
  | zero =>
    rw [h0] at hop
    cases hop
    refine bsearch_second (by omega) ((compareOffset_eq h0).mpr rfl) ?_
    intro j hj hjn
    obtain ⟨k, rfl⟩ := Nat.exists_eq_add_of_le' hj
    have hb : (first :: ops)[k + 2]? = some ops[k + 1] :=
      List.getElem?_eq_getElem (by omega : k + 1 < ops.length)
    rw [compareOffset_lt hb, hzero]
    exact hpos (Nat.succ_pos k) hb
  | succ i =>
    have hsorted : (first :: ops).Pairwise fun a b => a.offset ≤ b.offset := by
      refine List.Pairwise.cons (fun b _ => ?_) (h.imp BitVec.le_of_lt)
      rw [hfirst]
      exact Nat.zero_le _
    refine bsearch_unique (compareOffset_ordered hsorted) (by simpa using hlen)
      ((compareOffset_eq hop).mpr rfl) ?_
    intro j hj heq
    cases j with
    | zero =>
      have hzero' := (compareOffset_eq rfl).mp heq
      rw [hfirst] at hzero'
      exact absurd (hpos (Nat.succ_pos i) hop) (by rw [← hzero']; exact BitVec.lt_irrefl _)
    | succ j =>
      have hb : ops[j]? = some ops[j] := List.getElem?_eq_getElem (by omega : j < ops.length)
      have hoff := (compareOffset_eq (show (first :: ops)[j + 1]? = _ from hb)).mp heq
      rcases Nat.lt_trichotomy (i + 1) j with hij | rfl | hji
      · exact absurd (pairwise_at h hij hop hb) (by rw [hoff]; exact BitVec.lt_irrefl _)
      · rfl
      · exact absurd (pairwise_at h hji hb hop) (by rw [hoff]; exact BitVec.lt_irrefl _)

end Search

/-! ## The simulation -/

variable {list : List DwarfOp} {cfa : Bool} {rule : FrameRule} {mem : Mem}

/-- An accepted block decodes to its end; the list has a prepended and an appended operation.
-/
theorem guCfiInitOpsFromBlock_spec (h : guCfiInitOpsFromBlock mem block rule cfa = some list) :
    ∃ ops, OpsAt mem block.start block.fin block.start ops ∧ ops ≠ [] ∧
      list = opsPrologue cfa ++ (ops ++ opsEpilogue rule block.length.toNat) := by
  unfold guCfiInitOpsFromBlock at h
  split at h
  · cases h
  rename_i hlen
  split at h
  · cases h
  rename_i ops last hops
  split at h
  · cases h
  rename_i hlast
  have hfin : block.start ≤ block.fin := Nat.le_add_right _ _
  have hle := (decodeOps_bounds hfin hops).2
  obtain rfl : last = block.fin := by omega
  have hat := decodeOps_opsAt hops
  have hpos : block.length.toNat ≠ 0 := fun h0 => hlen (BitVec.eq_of_toNat_eq h0)
  refine ⟨ops, hat, ?_, ?_⟩
  · rintro rfl
    have hnil := hat.eq_fin
    unfold Block.start Block.fin at hnil
    omega
  · rw [← Option.some.inj h, List.append_assoc]
    simp [Block.start, Block.fin]

variable {ops : List DwarfOp}

section

variable (hat : OpsAt mem block.start block.fin block.start ops)
include hat

/-- The offsets grow strictly up to the appended operation, which has that of the end. -/
theorem OpsAt.sorted_epilogue (rule : FrameRule) :
    (ops ++ opsEpilogue rule block.length.toNat).Pairwise fun a b => a.offset < b.offset := by
  have hsize : block.fin - block.start = block.length.toNat := by simp [Block.start, Block.fin]
  have hlt := block.length.isLt
  refine List.pairwise_append.mpr ⟨hat.sorted (Nat.le_refl _) (by omega), ?_, ?_⟩
  · unfold opsEpilogue
    split <;> simp
  · intro a ha b hb
    obtain ⟨c, hc, hfin, hoff⟩ := hat.offset ha
    unfold opsEpilogue at hb
    split at hb
    · obtain rfl := List.mem_singleton.mp hb
      rw [hoff, BitVec.lt_def, BitVec.toNat_ofNat, BitVec.toNat_ofNat,
        Nat.mod_eq_of_lt (by omega), Nat.mod_eq_of_lt (by omega)]
      omega
    · cases hb

/-- The first operation of a block has offset `0`. -/
theorem OpsAt.first_offset {op0 : DwarfOp} (hop : ops[0]? = some op0) : op0.offset = 0#64 := by
  obtain ⟨-, next, hread, -⟩ := OpsAt.tail (i := 0) hat hop
  simpa using (decodeOp_offset hread).2

/-- Searching the list for the offset of a decoded operation finds that operation and not
the prepended one. -/
theorem bsearch_block (rule : FrameRule) (cfa : Bool) (hop : ops[i]? = some op) :
    let list := opsPrologue cfa ++ (ops ++ opsEpilogue rule block.length.toNat)
    bsearch (compareOffset list op.offset) list.length =
      some ((opsPrologue cfa).length + i) := by
  have hsorted := hat.sorted_epilogue rule
  have hop' : (ops ++ opsEpilogue rule block.length.toNat)[i]? = some op := by
    rw [List.getElem?_append_left (List.getElem?_eq_some_iff.mp hop).1]
    exact hop
  intro list
  cases cfa with
  | true => simpa [list, opsPrologue] using bsearch_offset hsorted hop'
  | false =>
    obtain ⟨op0, rest, rfl⟩ : ∃ op0 rest, ops = op0 :: rest :=
      List.exists_cons_of_ne_nil (by rintro rfl; simp at hop)
    have hzero : op0.offset = 0#64 := hat.first_offset rfl
    have hfound := bsearch_offset_cons (rfl : (DwarfOp.bare .callFrameCfa).offset = 0#64) hsorted
      rfl hzero hop'
    simpa [list, opsPrologue, Nat.add_comm] using hfound

end

/-- The machine's operand formats are the decoder's. -/
theorem operandForm_of_machine {atom : Atom} {form : OperandForm}
    (h : machineOperands atom = some form) : operandForm atom = some form := by
  cases atom <;> simp only [machineOperands, reduceCtorEq] at h <;> exact h

variable {menv : MachineEnv}

/-- On a byte where an operation was decoded, the machine executes that operation. -/
theorem machineTurn_at {base fin next : Nat} {t : MachineState} (hdata : base + t.pos < fin)
    (hread : decodeOp mem base fin (base + t.pos) = some (op, next)) :
    machineTurn menv mem base fin t =
      match machineOperands op.atom with
      | none => .stop none
      | some _ => machineExec menv op.atom op.number op.number2 (next - base) t := by
  have hatom := (decodeOp_offset hread).1
  simp only [machineTurn, Nat.not_le.mpr hdata, if_false, ← hatom]
  cases hform : machineOperands op.atom with
  | none => rfl
  | some form =>
    obtain ⟨form', hform', hargs⟩ := decodeOp_operands hread
    rw [operandForm_of_machine hform] at hform'
    cases hform'
    dsimp only
    rw [hargs]

/-- A branch operand is a sign-extended 16-bit displacement. -/
theorem branch_number {base fin data next : Nat}
    (hread : decodeOp mem base fin data = some (op, next))
    (hop : op.atom = .skip ∨ op.atom = .bra) :
    (op.number.setWidth 16).signExtend 64 = op.number := by
  obtain ⟨form, hform, hargs⟩ := decodeOp_operands hread
  obtain rfl : OperandForm.one dwEhPeSdata2 = form := by
    rcases hop with h | h <;> rw [h] at hform <;> exact Option.some.inj hform
  dsimp only [readOperands] at hargs
  split at hargs
  · cases hargs
  rename_i val behind hval
  obtain ⟨hnum, -⟩ := Prod.mk.inj (Option.some.inj hargs)
  have hw : val = (load16 mem (data + 1)).signExtend 64 := by
    unfold decodeReadChecked at hval
    rw [show ptrFormat dwEhPeSdata2 = some .sdata2 by decide] at hval
    dsimp only at hval
    split at hval
    · split at hval
      · cases hval
      · exact (congrArg Prod.fst (Option.some.inj hval)).symm
    · cases hval
  rw [← hnum, hw]
  congr 1
  apply BitVec.eq_of_getLsbD_eq
  intro i hi
  simp [BitVec.getLsbD_signExtend, hi]
  omega

/-- The offset a branch searches is the machine's target, where that lies in the block. -/
theorem branchTarget_eq {base fin next pos : Nat}
    (hread : decodeOp mem base fin (base + pos) = some (op, next))
    (hop : op.atom = .skip ∨ op.atom = .bra) (htarget : 0 ≤ machineTarget pos op.number) :
    branchTarget op = BitVec.ofNat 64 (machineTarget pos op.number).toNat := by
  have hoff : op.offset = BitVec.ofInt 64 pos := by
    rw [(decodeOp_offset hread).2, Nat.add_sub_cancel_left, BitVec.ofInt_natCast]
  have htargetWord : BitVec.ofNat 64 (machineTarget pos op.number).toNat =
      BitVec.ofInt 64 (machineTarget pos op.number) := by
    rw [← BitVec.ofInt_natCast, Int.toNat_of_nonneg htarget]
  rw [branchTarget, branch_number hread hop, hoff, htargetWord, machineTarget, BitVec.ofInt_add,
    BitVec.ofInt_add, BitVec.ofInt_toInt, BitVec.add_assoc (BitVec.ofInt 64 pos)]
  rfl

/-- A decoded block with its list: what the evaluator and the machine run. The block has
neither of the operations that are about the result. -/
structure BlockList (mem : Mem) (block : Block) (rule : FrameRule) (cfa : Bool)
    (ops list : List DwarfOp) : Prop where
  decoded : OpsAt mem block.start block.fin block.start ops
  shape : list = opsPrologue cfa ++ (ops ++ opsEpilogue rule block.length.toNat)
  plain : ∀ op ∈ ops, op.atom ≠ .callFrameCfa ∧ op.atom ≠ .stackValue

/-- Operation `i` of the block stands behind the prepended operation. -/
theorem BlockList.get (hb : BlockList mem block rule cfa ops list) (hop : ops[i]? = some op) :
    list[(opsPrologue cfa).length + i]? = some op := by
  rw [hb.shape, List.getElem?_append_right (by omega), Nat.add_sub_cancel_left,
    List.getElem?_append_left (List.getElem?_eq_some_iff.mp hop).1]
  exact hop

/-- The evaluator behind `i` operations of the block and the machine on the byte of the
next one, with the same stack. -/
structure Tied (mem : Mem) (block : Block) (cfa : Bool) (ops : List DwarfOp)
    (oor : OutOfRange) (i : Nat) (s : EvalState) (t : MachineState) : Prop where
  bound : i ≤ ops.length
  pos : s.pos = (opsPrologue cfa).length + i
  rest : OpsAt mem block.start block.fin (block.start + t.pos) (ops.drop i)
  stack : s.stack = t.stack
  room : t.stack.length ≤ machineSlots
  location : s.isLocation = !cfa
  record : s.oor = oor

section Step

variable {env : EvalEnv} {callCfa : OutOfRange → EvalResult} {mem : Mem} {block : Block}
  {rule : FrameRule} {cfa : Bool} {ops list : List DwarfOp} {oor : OutOfRange} {i next : Nat}
  {s : EvalState} {t : MachineState} {op : DwarfOp}

/-- The two turns of tied states: both go on in tied states, or both fail. -/
def TiedTurns (mem : Mem) (block : Block) (cfa : Bool) (ops : List DwarfOp) (oor : OutOfRange) :
    Turn EvalState EvalResult → Turn MachineState (Option Word) → Prop :=
  Turn.Rel (fun s t => ∃ i, Tied mem block cfa ops oor i s t)
    (fun r q => (∃ o, r = .fail o) ∧ q = none)

/-- Moving on to the operation behind the present one, with a new stack. -/
theorem Tied.advance (h : Tied mem block cfa ops oor i s t) (hop : ops[i]? = some op)
    (hrest : OpsAt mem block.start block.fin next (ops.drop (i + 1)))
    (hnext : block.start + t.pos < next) {stack : List Word}
    (hroom : stack.length ≤ machineSlots) :
    Tied mem block cfa ops oor (i + 1) { s with pos := s.pos + 1, stack := stack }
      ⟨next - block.start, stack⟩ where
  bound := (List.getElem?_eq_some_iff.mp hop).1
  pos := by rw [h.pos, Nat.add_assoc]
  rest := by rwa [Nat.add_sub_cancel' (by omega)]
  stack := rfl
  room := hroom
  location := h.location
  record := h.record

section

variable (hb : BlockList mem block rule cfa ops list) (h : Tied mem block cfa ops oor i s t)
include hb h

/-- A taken branch leads both sides to the same operation. -/
theorem Tied.branch
    (hread : decodeOp mem block.start block.fin (block.start + t.pos) = some (op, next))
    (hop : op.atom = .skip ∨ op.atom = .bra) (htarget : 0 ≤ machineTarget t.pos op.number ∧
      OpStart mem block (block.start + (machineTarget t.pos op.number).toNat)) {stack : List Word}
    (hroom : stack.length ≤ machineSlots) :
    TiedTurns mem block cfa ops oor (takeBranch list op { s with stack := stack })
      (machineBranch t.pos op.number stack) := by
  obtain ⟨hnonneg, hstart⟩ := htarget
  obtain ⟨j, op', hop', hat⟩ := hstart.opsAt hb.decoded
  obtain ⟨-, last, hread', -⟩ := hat.tail hop'
  have hkey : branchTarget op = op'.offset := by
    rw [branchTarget_eq hread hop hnonneg, (decodeOp_offset hread').2, Nat.add_sub_cancel_left]
  have hfound := bsearch_block hb.decoded rule cfa hop'
  rw [← hb.shape] at hfound
  unfold takeBranch machineBranch
  rw [hkey, hfound, if_neg (by omega)]
  exact .next ⟨j, (List.getElem?_eq_some_iff.mp hop').1.le, rfl, hat, rfl, hroom, h.location,
    h.record⟩

/-- A conditional branch pops its condition on both sides. -/
theorem Tied.stepBra (hop : ops[i]? = some op) (hdata : block.start + t.pos < block.fin)
    (hread : decodeOp mem block.start block.fin (block.start + t.pos) = some (op, next))
    (hrest : OpsAt mem block.start block.fin next (ops.drop (i + 1))) (hbra : op.atom = .bra)
    (hbranch : ∀ next, decodeOp mem block.start block.fin (block.start + t.pos) = some (op, next) →
      Branches op.atom t.stack → 0 ≤ machineTarget t.pos op.number ∧
        OpStart mem block (block.start + (machineTarget t.pos op.number).toNat)) :
    TiedTurns mem block cfa ops oor (evalOp env callCfa list op s)
      (machineExec env.machine op.atom op.number op.number2 (next - block.start) t) := by
  obtain ⟨pos, stack⟩ := t
  have hstack : s.stack = stack := h.stack
  simp only [evalOp, machineExec, hbra, hstack]
  cases stack with
  | nil => exact .stop ⟨⟨_, rfl⟩, rfl⟩
  | cons val rest =>
    have hroom : rest.length ≤ machineSlots := Nat.le_of_succ_le h.room
    dsimp only [dwPop]
    by_cases hval : val = 0#64
    · rw [if_pos hval, if_pos hval]
      exact .next ⟨_, h.advance hop hrest (decodeOp_bounds hdata hread).1 hroom⟩
    · rw [if_neg hval, if_neg hval]
      exact h.branch hb hread (.inr hbra) (hbranch next hread (.inr ⟨hbra, val, rest, rfl, hval⟩))
        hroom

/-- Tied states take agreeing turns, where a sized read has its whole word. -/
theorem Tied.step (hop : ops[i]? = some op)
    (hbranch : ∀ next, decodeOp mem block.start block.fin (block.start + t.pos) = some (op, next) →
      Branches op.atom t.stack → 0 ≤ machineTarget t.pos op.number ∧
        OpStart mem block (block.start + (machineTarget t.pos op.number).toNat))
    (hword : WholeWord env.machine op t.stack) :
    TiedTurns mem block cfa ops oor (evalOp env callCfa list op s)
      (machineTurn env.machine mem block.start block.fin t) := by
  obtain ⟨hdata, next, hread, hrest⟩ := h.rest.tail hop
  have hnext := (decodeOp_bounds hdata hread).1
  have hplain := hb.plain op (List.mem_of_getElem? hop)
  have hroom : s.stack.length ≤ machineSlots := h.stack ▸ h.room
  rw [machineTurn_at hdata hread]
  cases hform : machineOperands op.atom with
  | none =>
    have hspecial : ¬op.atom.Special := by
      rintro (ha | ha | ha | ha | ha | ha) <;> simp_all [machineOperands]
    rw [evalOp_plain hspecial, stackEffect_unsupported hform hspecial]
    exact .stop ⟨⟨_, rfl⟩, rfl⟩
  | some form =>
    dsimp only
    by_cases hskip : op.atom = .skip
    · have hturn := h.branch hb hread (.inl hskip) (hbranch next hread (.inl hskip)) h.room
      simpa only [evalOp, machineExec, hskip, ← h.stack] using hturn
    · by_cases hbra : op.atom = .bra
      · exact h.stepBra hb hop hdata hread hrest hbra hbranch
      · rw [machineExec_plain hskip hbra]
        by_cases hderef : op.atom = .deref ∨ op.atom = .derefSize
        · rcases evalOp_read callCfa list hderef s hroom (h.stack ▸ hword)
            with ⟨stack, hm, he⟩ | ⟨hm, r, he⟩
          · rw [he, ← h.stack, hm]
            exact .next ⟨_, h.advance hop hrest hnext (machineStack_length hroom hm)⟩
          · rw [he, ← h.stack, hm]
            exact .stop ⟨⟨r, rfl⟩, rfl⟩
        · have hspecial : ¬op.atom.Special := by
            rintro (ha | ha | ha | ha | ha | ha) <;> simp_all
          rw [evalOp_plain hspecial, stackEffect_eq hspecial hroom, h.stack]
          cases hm : machineStack env.machine op.atom op.number op.number2 t.stack with
          | none => exact .stop ⟨⟨_, rfl⟩, rfl⟩
          | some stack => exact .next ⟨_, h.advance hop hrest hnext (machineStack_length h.room hm)⟩

end

/-- The value a rule takes from the final stack: the top, or the snapshot word it points
to where the rule describes a location. -/
def blockValue (env : EvalEnv) (rule : FrameRule) (cfa : Bool) : List Word → Option Word
  | [] => none
  | top :: _ =>
    if cfa = false ∧ rule ≠ .valExpression then env.machine.load 8 top else some top

/-- What the evaluator makes of a final stack. -/
theorem evalFinish_ok {val : Word} :
    (∃ r, evalFinish env s = .ok val r) ↔
      match s.stack with
      | [] => False
      | top :: _ => (if s.isLocation then env.machine.load 8 top else some top) = some val := by
  unfold evalFinish
  cases s.stack with
  | nil => simp [dwPop]
  | cons top rest =>
    dsimp only [dwPop]
    cases hloc : s.isLocation with
    | false => simp
    | true =>
      rcases machine_load env top s.oor with ⟨word, hload, hread⟩ | ⟨hload, r, hread⟩
      · simp [hload, hread]
      · simp [hload, hread]

/-- Behind the block, the appended operation is executed and the result read. -/
theorem Tied.finish (hb : BlockList mem block rule cfa ops list)
    (h : Tied mem block cfa ops oor ops.length s t) (n : Nat) (val : Word) :
    (∃ r, loop (evalTurn env callCfa list) (evalOut env list) n s = .ok val r) ↔
      (opsEpilogue rule block.length.toNat).length ≤ n ∧
        blockValue env rule cfa t.stack = some val := by
  have hget (k : Nat) : list[s.pos + k]? = (opsEpilogue rule block.length.toNat)[k]? := by
    rw [h.pos, hb.shape, List.getElem?_append_right (by omega),
      List.getElem?_append_right (by omega)]
    congr 1
    omega
  by_cases hrule : rule = .valExpression
  · have hepi : opsEpilogue rule block.length.toNat =
        [⟨.stackValue, 0#64, 0#64, BitVec.ofNat 64 block.length.toNat⟩] := if_pos hrule
    have h0 := hget 0
    have h1 := hget 1
    rw [hepi] at h0 h1 ⊢
    cases n with
    | zero =>
      have hout : evalOut env list s = .fail s.oor := by
        unfold evalOut
        rw [show list[s.pos]? = _ from h0]
        rfl
      simp [hout]
    | succ n =>
      have hturn : evalTurn env callCfa list s =
          .next { s with pos := s.pos + 1, isLocation := false } := by
        unfold evalTurn
        rw [show list[s.pos]? = _ from h0]
        rfl
      rw [loop_next hturn, evalLoop_end n h1, evalFinish_ok]
      rw [h.stack]
      cases t.stack <;> simp [blockValue, hrule]
  · have hepi : opsEpilogue rule block.length.toNat = [] := if_neg hrule
    have h0 := hget 0
    rw [hepi] at h0 ⊢
    rw [evalLoop_end n h0, evalFinish_ok, h.stack, h.location]
    cases t.stack <;> cases cfa <;> simp [blockValue, hrule]

/-- The machine ends within the budget on the value the rule takes from its stack. -/
def EndsWith (env : EvalEnv) (mem : Mem) (block : Block) (rule : FrameRule) (cfa : Bool)
    (budget : Nat) (t : MachineState) (val : Word) : Prop :=
  ∃ k u, k + (opsEpilogue rule block.length.toNat).length ≤ budget ∧
    headState (machineTurn env.machine mem block.start block.fin) k t = some u ∧
    block.fin ≤ block.start + u.pos ∧ blockValue env rule cfa u.stack = some val

/-- Behind the last operation the machine is behind the block. -/
theorem Tied.at_end (h : Tied mem block cfa ops oor ops.length s t) :
    block.fin ≤ block.start + t.pos := by
  have hrest := h.rest
  rw [List.drop_length] at hrest
  exact hrest.eq_fin.ge

/-- Behind the block the machine has ended. -/
theorem Tied.run_end (hb : BlockList mem block rule cfa ops list)
    (h : Tied mem block cfa ops oor ops.length s t) (n : Nat) (val : Word) :
    (∃ r, loop (evalTurn env callCfa list) (evalOut env list) n s = .ok val r) ↔
      EndsWith env mem block rule cfa n t val := by
  have hfin := h.at_end
  have hstop : machineTurn env.machine mem block.start block.fin t = .stop t.stack.head? := by
    simp [machineTurn, hfin]
  rw [h.finish hb n val]
  constructor
  · rintro ⟨hn, hval⟩
    exact ⟨0, t, by omega, rfl, hfin, hval⟩
  · rintro ⟨k, u, hk, hhead, -, hval⟩
    cases k with
    | zero =>
      cases hhead
      exact ⟨by omega, hval⟩
    | succ k => simp [headState_stop hstop] at hhead

/-- Inside the block the machine ends later, if it goes on. -/
theorem endsWith_next {t' : MachineState} {n : Nat} {val : Word}
    (hdata : block.start + t.pos < block.fin)
    (hnext : machineTurn env.machine mem block.start block.fin t = .next t') :
    EndsWith env mem block rule cfa (n + 1) t val ↔ EndsWith env mem block rule cfa n t' val := by
  constructor
  · rintro ⟨k, u, hk, hhead, hfin, hval⟩
    cases k with
    | zero =>
      cases hhead
      omega
    | succ k => exact ⟨k, u, by omega, headState_next hnext k ▸ hhead, hfin, hval⟩
  · rintro ⟨k, u, hk, hhead, hfin, hval⟩
    exact ⟨k + 1, u, by omega, (headState_next hnext k).trans hhead, hfin, hval⟩

/-- A machine that fails inside the block ends with no value. -/
theorem not_endsWith_stop {n : Nat} {val : Word} {q : Option Word}
    (hdata : block.start + t.pos < block.fin)
    (hstop : machineTurn env.machine mem block.start block.fin t = .stop q) :
    ¬EndsWith env mem block rule cfa n t val := by
  rintro ⟨k, u, -, hhead, hfin, -⟩
  cases k with
  | zero =>
    cases hhead
    omega
  | succ k => simp [headState_stop hstop] at hhead

/-- Behind the block there is nothing to read. -/
theorem wordsRead_end (hfin : block.fin ≤ block.start + t.pos) (n : Nat) :
    WordsRead menv mem block t n := by
  have hstop : machineTurn menv mem block.start block.fin t = .stop t.stack.head? := by
    simp [machineTurn, hfin]
  intro k u op next _ hhead hdata _
  cases k with
  | zero =>
    cases hhead
    omega
  | succ k => simp [headState_stop hstop] at hhead

/-- Inside the block the reads of a turn come before those of the rest. -/
theorem wordsRead_next {t' : MachineState} {n : Nat}
    (hread : decodeOp mem block.start block.fin (block.start + t.pos) = some (op, next))
    (hword : WholeWord menv op t.stack)
    (hnext : machineTurn menv mem block.start block.fin t = .next t') :
    WordsRead menv mem block t (n + 1) ↔ WordsRead menv mem block t' n := by
  constructor
  · intro h k u op next hk hhead
    exact h (k + 1) u op next (by omega) ((headState_next hnext k).trans hhead)
  · intro h k u op' next' hk hhead hin hread'
    cases k with
    | zero =>
      cases hhead
      rw [hread] at hread'
      cases hread'
      exact hword
    | succ k => exact h k u op' next' (by omega) (headState_next hnext k ▸ hhead) hin hread'

/-- From tied states the evaluator succeeds within its budget exactly when the machine does,
on the value the rule takes, with every sized read inside the window. -/
theorem Tied.run (hb : BlockList mem block rule cfa ops list) (n : Nat)
    (h : Tied mem block cfa ops oor i s t) (val : Word)
    (hbranch : ∀ k u op next, k < n →
      headState (machineTurn env.machine mem block.start block.fin) k t = some u →
      block.start + u.pos < block.fin →
      decodeOp mem block.start block.fin (block.start + u.pos) = some (op, next) →
      Branches op.atom u.stack → 0 ≤ machineTarget u.pos op.number ∧
        OpStart mem block (block.start + (machineTarget u.pos op.number).toNat)) :
    (∃ r, loop (evalTurn env callCfa list) (evalOut env list) n s = .ok val r) ↔
      WordsRead env.machine mem block t n ∧ EndsWith env mem block rule cfa n t val := by
  induction n generalizing i s t with
  | zero =>
    have hwords : WordsRead env.machine mem block t 0 :=
      fun k u op next hk => absurd hk (Nat.not_lt_zero k)
    rw [iff_true_intro hwords, true_and]
    cases hop : ops[i]? with
    | none =>
      obtain rfl : i = ops.length := Nat.le_antisymm h.bound (List.getElem?_eq_none_iff.mp hop)
      exact h.run_end hb 0 val
    | some op =>
      have hdata := (h.rest.tail hop).1
      have hout : evalOut env list s = .fail s.oor := by simp [evalOut, h.pos, hb.get hop]
      simp only [loop_zero, hout, reduceCtorEq, exists_false, false_iff]
      rintro ⟨k, u, hk, hhead, hfin, -⟩
      obtain rfl : k = 0 := by omega
      cases hhead
      omega
  | succ n ih =>
    cases hop : ops[i]? with
    | none =>
      obtain rfl : i = ops.length := Nat.le_antisymm h.bound (List.getElem?_eq_none_iff.mp hop)
      rw [h.run_end hb (n + 1) val, iff_true_intro (wordsRead_end h.at_end (n + 1)), true_and]
    | some op =>
      obtain ⟨hdata, next, hread, -⟩ := h.rest.tail hop
      have hturn : evalTurn env callCfa list s = evalOp env callCfa list op s := by
        simp [evalTurn, h.pos, hb.get hop]
      by_cases hword : WholeWord env.machine op t.stack
      · have hstep : TiedTurns mem block cfa ops oor (evalOp env callCfa list op s)
            (machineTurn env.machine mem block.start block.fin t) :=
          h.step hb hop (fun next hread => hbranch 0 t op next (Nat.succ_pos n) rfl hdata hread)
            hword
        cases he : evalOp env callCfa list op s with
        | next s' =>
          rw [he] at hstep hturn
          cases hm : machineTurn env.machine mem block.start block.fin t with
          | stop q => rw [hm] at hstep; cases hstep
          | next t' =>
            rw [hm] at hstep
            cases hstep with
            | next htied =>
              obtain ⟨j, hj⟩ := htied
              rw [loop_next hturn, endsWith_next hdata hm, wordsRead_next hread hword hm]
              refine ih hj fun k u op next hk hhead => ?_
              exact hbranch (k + 1) u op next (by omega) ((headState_next hm k).trans hhead)
        | stop r =>
          rw [he] at hstep hturn
          cases hm : machineTurn env.machine mem block.start block.fin t with
          | next t' => rw [hm] at hstep; cases hstep
          | stop q =>
            rw [hm] at hstep
            cases hstep with
            | stop hfail =>
              obtain ⟨⟨o, rfl⟩, rfl⟩ := hfail
              rw [loop_stop hturn]
              simp only [reduceCtorEq, exists_false, false_iff]
              exact fun hends => not_endsWith_stop hdata hm hends.2
      -- the evaluator fails where the machine may go on
      · obtain ⟨r, he⟩ := evalOp_short callCfa list s (h.stack ▸ hword)
        rw [he] at hturn
        rw [loop_stop hturn]
        simp only [reduceCtorEq, exists_false, false_iff]
        exact fun hends => hword (hends.1 0 t op next (Nat.succ_pos n) rfl hdata hread)

end Step

/-- Every decoded operation starts at a byte the machine can stand on. -/
theorem OpsAt.start {data : Nat} (h : OpsAt mem block.start block.fin data ops)
    (hstart : data < block.fin → OpStart mem block data) (hop : op ∈ ops) :
    ∃ a, OpStart mem block a ∧ op.atom = Atom.ofByte (mem a) := by
  induction h with
  | nil => cases hop
  | cons inside read _ ih =>
    rcases List.mem_cons.mp hop with rfl | hrest
    · exact ⟨_, hstart inside, (decodeOp_offset read).1⟩
    · exact ih (fun hnext => .next (hstart inside) read hnext) hrest

/-- An accepted block without operations about the result gives a `BlockList`. -/
theorem blockList_of_accepted (hlist : guCfiInitOpsFromBlock mem block rule cfa = some list)
    (hplain : ∀ a, OpStart mem block a →
      Atom.ofByte (mem a) ≠ .callFrameCfa ∧ Atom.ofByte (mem a) ≠ .stackValue) :
    ∃ ops, BlockList mem block rule cfa ops list ∧ ops ≠ [] := by
  obtain ⟨ops, hat, hne, hshape⟩ := guCfiInitOpsFromBlock_spec hlist
  refine ⟨ops, ⟨hat, hshape, fun op hop => ?_⟩, hne⟩
  obtain ⟨a, hstart, hatom⟩ := hat.start .first hop
  exact hatom ▸ hplain a hstart

/-- The stack an expression starts on: the CFA for a register rule, nothing for the CFA
itself. -/
def startStack (cfa : Bool) (cfaValue : Word) : List Word := if cfa then [] else [cfaValue]

/-- The evaluator on an accepted list is the loop behind the prepended operation. -/
theorem guDwarfOpsEval_block {env : EvalEnv} {cfaOps : List DwarfOp} {depth : Nat} {cfaValue : Word}
    {oor : OutOfRange} (hb : BlockList mem block rule cfa ops list) (hne : ops ≠ [])
    (hcfa : cfa = false → ∃ r, guDwarfOpsEval env cfaOps depth cfaOps oor = .ok cfaValue r) :
    guDwarfOpsEval env cfaOps (depth + 1) list oor =
      loop (evalTurn env (guDwarfOpsEval env cfaOps depth cfaOps) list) (evalOut env list)
        (dwEvalStepsMax - (opsPrologue cfa).length)
        ⟨(opsPrologue cfa).length, startStack cfa cfaValue, !cfa, oor⟩ := by
  rw [guDwarfOpsEval_succ]
  cases cfa with
  | true =>
    obtain ⟨op, rest, rfl⟩ := List.exists_cons_of_ne_nil hne
    rw [hb.shape]
    exact evalBody_cons _ op _ oor
  | false =>
    obtain ⟨r, hr⟩ := hcfa rfl
    obtain rfl := (guDwarfOpsEval_record env cfaOps depth cfaOps).ok_record hr
    rw [hb.shape]
    simp only [opsPrologue, Bool.false_eq_true, if_false, List.singleton_append]
    rw [evalBody_call rfl, hr]
    rfl

/-- The machine, started with the CFA on its stack or empty, ends within the step budget on a
stack the rule takes `val` from. -/
def BlockYields (env : EvalEnv) (mem : Mem) (block : Block) (rule : FrameRule) (cfa : Bool)
    (cfaValue val : Word) : Prop :=
  ∃ n final, (opsPrologue cfa).length + n + (opsEpilogue rule block.length.toNat).length ≤
      dwEvalStepsMax ∧
    MachineEnds env.machine mem block (startStack cfa cfaValue) n final ∧
    blockValue env rule cfa final = some val

/-- On an accepted block the evaluator succeeds with what the machine yields, as long as sized
reads have their words in the window. -/
theorem guDwarfOpsEval_ok_iff {env : EvalEnv} {cfaOps : List DwarfOp} {depth : Nat}
    {cfaValue : Word} {oor : OutOfRange} (hb : BlockList mem block rule cfa ops list)
    (hne : ops ≠ [])
    (hcfa : cfa = false → ∃ r, guDwarfOpsEval env cfaOps depth cfaOps oor = .ok cfaValue r)
    (hbranch : BranchesToStarts env.machine mem block (startStack cfa cfaValue) dwEvalStepsMax)
    (val : Word) :
    (∃ r, guDwarfOpsEval env cfaOps (depth + 1) list oor = .ok val r) ↔
      WordsRead env.machine mem block ⟨0, startStack cfa cfaValue⟩
          (dwEvalStepsMax - (opsPrologue cfa).length) ∧
        BlockYields env mem block rule cfa cfaValue val := by
  have hpro : (opsPrologue cfa).length ≤ 1 := by cases cfa <;> decide
  have hmax : dwEvalStepsMax = 4096 := rfl
  have htied : Tied mem block cfa ops oor 0
      ⟨(opsPrologue cfa).length, startStack cfa cfaValue, !cfa, oor⟩
      ⟨0, startStack cfa cfaValue⟩ :=
    ⟨Nat.zero_le _, rfl, hb.decoded, rfl, by cases cfa <;> simp [startStack, machineSlots],
      rfl, rfl⟩
  rw [guDwarfOpsEval_block hb hne hcfa,
    htied.run hb _ val fun k u op next hk => hbranch k u op next (by omega)]
  refine and_congr_right fun _ => ?_
  constructor
  · rintro ⟨n, u, hn, hhead, hfin, hval⟩
    exact ⟨n, u.stack, by omega, ⟨u, hhead, hfin, rfl⟩, hval⟩
  · rintro ⟨n, final, hn, ⟨u, hhead, hfin, rfl⟩, hval⟩
    exact ⟨n, u, by omega, hhead, hfin, hval⟩

/-- On an accepted expression block the evaluator succeeds with exactly what the byte machine
yields if and only if a run of the machine that yields a value makes no sized read whose
eight-byte word reaches behind the window. A branch to byte offset `0` resumes at the block's
first operation. -/
theorem guDwarfOpsEval_iff_machine (env : EvalEnv) (cfaOps list : List DwarfOp) (depth : Nat)
    (mem : Mem) (block : Block) (rule : FrameRule) (cfa : Bool) (cfaValue : Word)
    (oor : OutOfRange) (hlist : guCfiInitOpsFromBlock mem block rule cfa = some list)
    (hplain : ∀ a, OpStart mem block a →
      Atom.ofByte (mem a) ≠ .callFrameCfa ∧ Atom.ofByte (mem a) ≠ .stackValue)
    (hcfa : cfa = false → ∃ r, guDwarfOpsEval env cfaOps depth cfaOps oor = .ok cfaValue r)
    (hbranch : BranchesToStarts env.machine mem block (startStack cfa cfaValue)
      dwEvalStepsMax) :
    ((∀ val, (∃ r, guDwarfOpsEval env cfaOps (depth + 1) list oor = .ok val r) ↔
        BlockYields env mem block rule cfa cfaValue val) ↔
      ((∃ val, BlockYields env mem block rule cfa cfaValue val) →
        WordsRead env.machine mem block ⟨0, startStack cfa cfaValue⟩
          (dwEvalStepsMax - (opsPrologue cfa).length))) ∧
      bsearch (compareOffset list 0#64) list.length = some (opsPrologue cfa).length := by
  obtain ⟨ops, hb, hne⟩ := blockList_of_accepted hlist hplain
  obtain ⟨op0, rest, hops⟩ := List.exists_cons_of_ne_nil hne
  have hop0 : ops[0]? = some op0 := by rw [hops]; rfl
  have hok := guDwarfOpsEval_ok_iff hb hne hcfa hbranch
  refine ⟨⟨?_, ?_⟩, ?_⟩
  · rintro hagree ⟨val, hyields⟩
    exact ((hok val).mp ((hagree val).mpr hyields)).1
  · intro hwords val
    rw [hok val]
    exact ⟨And.right, fun hyields => ⟨hwords ⟨val, hyields⟩, hyields⟩⟩
  · have hzero := hb.decoded.first_offset hop0
    have hfound := bsearch_block hb.decoded rule cfa hop0
    rw [← hb.shape, hzero] at hfound
    exact hfound

/-- An operation starts inside the block. -/
theorem OpStart.inside {a : Nat} (h : OpStart mem block a) : block.start ≤ a ∧ a < block.fin := by
  induction h with
  | first hlt => exact ⟨Nat.le_refl _, hlt⟩
  | next _ read inside ih => exact ⟨by have := (decodeOp_bounds ih.2 read).1; omega, inside⟩

/-- The register rule whose block is `DW_OP_plus_uconst 8`, over a CFA of `0x7000`: the
snapshot word at `0x7008`. -/
theorem guDwarfOpsEval_iff_machine_plusUconst :
    let mem : Mem := fun a => ([0x23#8, 0x08#8][a - 0x1000]?).getD 0#8
    let block : Block := ⟨2#64, 0x1000#64⟩
    let list : List DwarfOp := [.bare .callFrameCfa, ⟨.plusUconst, 8#64, 0#64, 0#64⟩]
    guCfiInitOpsFromBlock mem block .expression false = some list ∧
      ∃ r, guDwarfOpsEval sampleEnv [⟨.bregx, 7#64, 0#64, 0#64⟩] 2 list .clear =
        .ok 0x2a#64 r := by
  intro mem block list
  have hlist : guCfiInitOpsFromBlock mem block .expression false = some list := by decide +kernel
  have hbytes (a : Nat) (hlo : block.start ≤ a) (hhi : a < block.fin) :
      Atom.ofByte (mem a) = .plusUconst ∨ Atom.ofByte (mem a) = .const1u := by
    have h1 : 0x1000 ≤ a := hlo
    have h2 : a < 0x1002 := hhi
    interval_cases a
    · exact .inl (by decide)
    · exact .inr (by decide)
  refine ⟨hlist, ((guDwarfOpsEval_iff_machine sampleEnv [⟨.bregx, 7#64, 0#64, 0#64⟩] list 1 mem
    block .expression false 0x7000#64 .clear hlist ?_ ?_ ?_).1.mpr ?_ 0x2a#64).mpr ?_⟩
  · intro a ha
    rcases hbytes a ha.inside.1 ha.inside.2 with h | h <;> rw [h] <;> decide
  · exact fun _ => ⟨.clear, by decide +kernel⟩
  · intro n s op next _ _ hin hread hbranch
    rw [(decodeOp_offset hread).1] at hbranch
    rcases hbytes _ (Nat.le_add_right _ _) hin with h | h <;> simp [Branches, h] at hbranch
  · intro _ n s op next _ _ hin hread hsized
    rw [(decodeOp_offset hread).1] at hsized
    rcases hbytes _ (Nat.le_add_right _ _) hin with h | h <;> simp [h] at hsized
  · exact ⟨1, [0x7008#64], by decide, ⟨⟨2, [0x7008#64]⟩, by decide, by decide, rfl⟩,
      by decide +kernel⟩

/-- `DW_OP_deref_size 1` in a value expression over a CFA of `0x703f`, the last byte of the
window `[0x7000, 0x7040)`: the machine yields that byte, the evaluator fails. -/
theorem guDwarfOpsEval_fails_at_last_byte :
    let mem : Mem := fun a => ([0x94#8, 0x01#8][a - 0x1000]?).getD 0#8
    let block : Block := ⟨2#64, 0x1000#64⟩
    let list : List DwarfOp := [.bare .callFrameCfa, ⟨.derefSize, 1#64, 0#64, 0#64⟩,
      ⟨.stackValue, 0#64, 0#64, 2#64⟩]
    let cfaOps : List DwarfOp := [⟨.bregx, 7#64, 0x3f#64, 0#64⟩]
    guCfiInitOpsFromBlock mem block .valExpression false = some list ∧
      guDwarfOpsEval sampleEnv cfaOps 1 cfaOps .clear = .ok 0x703f#64 .clear ∧
      BlockYields sampleEnv mem block .valExpression false 0x703f#64 0#64 ∧
      ∃ r, guDwarfOpsEval sampleEnv cfaOps 2 list .clear = .fail r := by
  refine ⟨by decide +kernel, by decide +kernel, ?_, ?_⟩
  · exact ⟨1, [0#64], by decide, ⟨⟨2, [0#64]⟩, by decide +kernel, by decide, rfl⟩, by decide⟩
  · exact ⟨⟨true, 0x703f#64, 0x7000#64, 0x7040#64, 0x7000#64⟩, by decide +kernel⟩

end Gunwinder
