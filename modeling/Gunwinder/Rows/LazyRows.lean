import Gunwinder.Rows.CfaTag
import Gunwinder.Rows.SavedStates
import Gunwinder.Semantics.Rows

/-!
# Lazy execution finds the row of a pc

`init_calc_ctx_by_ins` is related step by step to the execution of the whole stream on rows. The
relation does not fix how states are saved: any store that gives back what was saved last will
do.
-/

namespace Gunwinder

open Gunwinder.Core

/-! ## Rules and rows -/

/-- The DWARF number of an unwound column. -/
def RegType.number (arch : Arch) : RegType → Nat
  | .rip => arch.pcRegno
  | .rbp => arch.regNameRbp
  | .rsp => arch.regNameRsp

/-- The register a DWARF number stands for: on arm64 the numbers of the link register and
of the pc both name the return address. -/
def canonicalReg (arch : Arch) (n : Nat) : Nat := if n = arch.regNameRip then arch.pcRegno else n

/-- A number has the column of the register it stands for. -/
theorem transRegType_eq_some {arch : Arch} {n : Nat} {t : RegType} :
    transRegType arch n = some t ↔ t.number arch = canonicalReg arch n := by
  cases arch <;> cases t <;>
    simp only [transRegType, canonicalReg, RegType.number, Arch.regNameRsp, Arch.regNameRip,
      Arch.regNameRbp, Arch.regNameLr, Arch.pcRegno, Option.map_none, Option.map_some,
      Option.some.injEq] <;>
    grind

/-- A small register number survives the conversion to `int`. -/
theorem toInt_small {w : Word} (h : w.toNat < 2 ^ 31) : toInt w = w.toNat := by
  have hw : (w.setWidth 32).toNat = w.toNat := by
    rw [BitVec.toNat_setWidth]
    omega
  rw [toInt, BitVec.toInt_eq_toNat_of_lt (by omega), hw]

/-- What a stored register rule says. -/
def FrameRegister.meaning (reg : FrameRegister) : RegRule :=
  match reg.rule with
  | .unspecified => .unspecified
  | .undefined => .undefined
  | .sameValue => .sameValue
  | .offset => .offset reg.word.toInt
  | .valOffset => .valOffset reg.word.toInt
  | .register => .register reg.word.toNat
  | .expression => .expression reg.word.toNat
  | .valExpression => .valExpression reg.word.toNat

/-- The CFA rule of a context is this one. -/
def CfaDef.Holds (rules : CalcRules) : CfaDef → Prop
  | .undefined => rules.cfaRule = .undefined
  | .regOffset reg offset =>
    rules.cfaRule = .offset ∧ rules.cfaData.offset = ⟨.bregx, BitVec.ofNat 64 reg, offset, 0#64⟩
  | .expr block => rules.cfaRule = .expr ∧ rules.cfaData.expr = block

/-- A row projected to the unwound columns: the context has its CFA and, in each column,
the rule of the column's register. -/
structure Row.Describes (arch : Arch) (row : Row) (rules : CalcRules) : Prop where
  cfa : row.cfa.Holds rules
  regs : ∀ t, (rules.regs.get t).meaning = row.regs (t.number arch)

/-- The operands the interpreter has room for: register numbers of 31 bits, and scaled
offsets of 61 bits. -/
def CfaIns.InRange (dataFactor : Int) : CfaIns → Prop
  | .undefined reg | .sameValue reg | .expression reg _ | .valExpression reg _ | .restore reg =>
    reg.toNat < 2 ^ 31
  | .offset reg n | .valOffset reg n => reg.toNat < 2 ^ 31 ∧ FitsField (n.toNat * dataFactor)
  | .offsetSf reg n | .valOffsetSf reg n =>
    reg.toNat < 2 ^ 31 ∧ FitsField (n.toInt * dataFactor)
  | .negativeOffset reg n => reg.toNat < 2 ^ 31 ∧ FitsField (-n.toNat * dataFactor)
  | .register reg other => reg.toNat < 2 ^ 31 ∧ other.toNat < 2 ^ 31
  | _ => True

/-- The parameters of the two executions say the same. -/
structure ParamsAgree (rowPar : RowParams) (par : InsParams) : Prop where
  codeFactor : rowPar.codeFactor = par.codeAlignmentFactor.toNat
  dataFactor : rowPar.dataFactor = par.dataAlignmentFactor.toInt
  reg : rowPar.reg = canonicalReg par.arch
  notInCie : par.inCie = false
  initial : ∀ t, (par.initialRegs.get t).meaning = rowPar.initial.regs (t.number par.arch)

section Rule

variable {arch : Arch} {row row' : Row} {rules : CalcRules} {rowPar : RowParams} {par : InsParams}
  {ins : CfaIns}

section

variable (h : row.Describes arch rules)
include h

/-- The rule of a register without a column is not kept. -/
theorem Row.Describes.set_none {n : Nat} (hnone : transRegType arch n = none) (rule : RegRule) :
    (row.setReg (canonicalReg arch n) rule).Describes arch rules := by
  refine ⟨h.cfa, fun t => ?_⟩
  have hne : t.number arch ≠ canonicalReg arch n := by
    intro heq
    rw [transRegType_eq_some.mpr heq] at hnone
    cases hnone
  simp only [Row.setReg, Function.update_of_ne hne, h.regs t]

/-- The rule of a register with a column is kept there. -/
theorem Row.Describes.set_some {n : Nat} {u : RegType} (hsome : transRegType arch n = some u)
    {reg : FrameRegister} {rule : RegRule} (hrule : reg.meaning = rule) :
    (row.setReg (canonicalReg arch n) rule).Describes arch
      { rules with regs := rules.regs.set u reg } := by
  refine ⟨h.cfa, fun t => ?_⟩
  have hu := transRegType_eq_some.mp hsome
  by_cases htu : t = u
  · subst htu
    simp [Row.setReg, hu, hrule]
  · have hne : t.number arch ≠ canonicalReg arch n := by
      intro heq
      rw [transRegType_eq_some.mpr heq] at hsome
      exact htu (Option.some.inj hsome)
    simp only [Row.setReg, Function.update_of_ne hne, Columns.get_set, if_neg htu, h.regs t]

private theorem Row.Describes.setReg {regno : Word} (hsmall : regno.toNat < 2 ^ 31)
    {reg : FrameRegister} {rule : RegRule} (hrule : reg.meaning = rule) :
    (row.setReg (canonicalReg arch regno.toNat) rule).Describes arch
      (rules.setReg arch regno reg) := by
  unfold CalcRules.setReg
  rw [toInt_small hsmall]
  split
  · rename_i hnone
    exact h.set_none hnone rule
  · rename_i t hsome
    exact h.set_some hsome hrule

end

/-- `DW_CFA_restore` outside a CIE stores the rule of the initial row. -/
theorem Row.Describes.restoreReg (h : row.Describes par.arch rules) (hpar : ParamsAgree rowPar par)
    {operand : Word} (hsmall : operand.toNat < 2 ^ 31) :
    (row.setReg (rowPar.reg operand.toNat)
      (rowPar.initial.regs (rowPar.reg operand.toNat))).Describes par.arch
      (rules.restoreReg par operand) := by
  unfold CalcRules.restoreReg
  rw [hpar.notInCie, if_neg Bool.false_ne_true, toInt_small hsmall, hpar.reg]
  split
  · rename_i hnone
    exact h.set_none hnone _
  · rename_i t hsome
    refine h.set_some hsome ?_
    rw [hpar.initial t, transRegType_eq_some.mp hsome]

/-- An offset rule whose value is the image of an integer in range. -/
theorem meaning_offset {w : Word} {n : Int} (hw : w = BitVec.ofInt 64 n) (hn : FitsField n) :
    (FrameRegister.of .offset w).meaning = .offset n ∧
      (FrameRegister.of .valOffset w).meaning = .valOffset n := by
  subst hw
  exact ⟨congrArg RegRule.offset (FrameRegister.word_of hn .offset),
    congrArg RegRule.valOffset (FrameRegister.word_of hn .valOffset)⟩

/-- Scaling by the data alignment factor, on unsigned and on signed operands. -/
theorem mul_eq_ofInt_toNat (w f : Word) : w * f = BitVec.ofInt 64 (w.toNat * f.toInt) := by
  rw [BitVec.ofInt_mul, BitVec.ofInt_toInt]
  simp

private theorem mul_eq_ofInt_toInt (w f : Word) : w * f = BitVec.ofInt 64 (w.toInt * f.toInt) := by
  rw [BitVec.ofInt_mul, BitVec.ofInt_toInt, BitVec.ofInt_toInt]

private theorem neg_mul_eq_ofInt (w f : Word) : -w * f = BitVec.ofInt 64 (-w.toNat * f.toInt) := by
  rw [BitVec.ofInt_mul, BitVec.ofInt_toInt, BitVec.ofInt_neg]
  simp

/-- A CFA set to a register and an offset. -/
theorem CfaDef.holds_setBregx (rules : CalcRules) (number number2 : Word) :
    (CfaDef.regOffset number.toNat number2).Holds
      { rules with cfaRule := .offset, cfaData := rules.cfaData.setBregx number number2 } :=
  ⟨rfl, by simp [rules.cfaData.setBregx_offset]⟩

/-- The register of a CFA given by a register and an offset is replaced. -/
theorem CfaDef.Holds.setNumber {reg : Nat} {offset : Word}
    (h : (CfaDef.regOffset reg offset).Holds rules) (number : Word) :
    (CfaDef.regOffset number.toNat offset).Holds
      { rules with cfaData := rules.cfaData.setNumber number } := by
  refine ⟨h.1, ?_⟩
  change { rules.cfaData.offset with number := number } = _
  rw [h.2]
  simp

/-- The offset of a CFA given by a register and an offset is replaced. -/
theorem CfaDef.Holds.setNumber2 {reg : Nat} {offset : Word}
    (h : (CfaDef.regOffset reg offset).Holds rules) (number2 : Word) :
    (CfaDef.regOffset reg number2).Holds
      { rules with cfaData := rules.cfaData.setNumber2 number2 } := by
  refine ⟨h.1, ?_⟩
  change { rules.cfaData.offset with number2 := number2 } = _
  rw [h.2]

/-- An instruction that is executed in a row is executed on the context it describes. -/
theorem Row.Describes.execRule (h : row.Describes par.arch rules) (hpar : ParamsAgree rowPar par)
    (hrange : ins.InRange rowPar.dataFactor)
    (hplace : ∀ reg place, ins = .expression reg place ∨ ins = .valExpression reg place →
      place.toNat < 2 ^ 60)
    (hrow : rowRule rowPar row ins = some row') :
    row'.Describes par.arch (execRule par rules ins) := by
  have hdata := hpar.dataFactor
  have hreg := hpar.reg
  cases ins with
  | defCfa reg offset =>
    cases hrow
    exact ⟨CfaDef.holds_setBregx rules reg offset, h.regs⟩
  | defCfaSf reg offset =>
    cases hrow
    rw [hdata, ← mul_eq_ofInt_toInt]
    exact ⟨CfaDef.holds_setBregx rules reg _, h.regs⟩
  -- the partial updates do not look at the rule, but the row says it is an offset
  | defCfaRegister reg =>
    simp only [rowRule] at hrow
    split at hrow
    · rename_i hcfa
      cases hrow
      exact ⟨(hcfa ▸ h.cfa).setNumber reg, h.regs⟩
    · cases hrow
  | defCfaOffset offset =>
    simp only [rowRule] at hrow
    split at hrow
    · rename_i hcfa
      cases hrow
      exact ⟨(hcfa ▸ h.cfa).setNumber2 offset, h.regs⟩
    · cases hrow
  | defCfaOffsetSf offset =>
    simp only [rowRule] at hrow
    split at hrow
    · rename_i hcfa
      cases hrow
      rw [hdata, ← mul_eq_ofInt_toInt]
      exact ⟨(hcfa ▸ h.cfa).setNumber2 _, h.regs⟩
    · cases hrow
  | defCfaExpression block =>
    cases hrow
    exact ⟨⟨rfl, rfl⟩, h.regs⟩
  | undefined reg =>
    cases hrow
    rw [hreg]
    exact h.setReg hrange rfl
  | sameValue reg =>
    cases hrow
    rw [hreg]
    exact h.setReg hrange rfl
  | offset reg n =>
    cases hrow
    rw [hreg]
    rw [hdata] at hrange ⊢
    exact h.setReg hrange.1 (meaning_offset (mul_eq_ofInt_toNat _ _) hrange.2).1
  | offsetSf reg n =>
    cases hrow
    rw [hreg]
    rw [hdata] at hrange ⊢
    exact h.setReg hrange.1 (meaning_offset (mul_eq_ofInt_toInt _ _) hrange.2).1
  | negativeOffset reg n =>
    cases hrow
    rw [hreg]
    rw [hdata] at hrange ⊢
    exact h.setReg hrange.1 (meaning_offset (neg_mul_eq_ofInt _ _) hrange.2).1
  | valOffset reg n =>
    cases hrow
    rw [hreg]
    rw [hdata] at hrange ⊢
    exact h.setReg hrange.1 (meaning_offset (mul_eq_ofInt_toNat _ _) hrange.2).2
  | valOffsetSf reg n =>
    cases hrow
    rw [hreg]
    rw [hdata] at hrange ⊢
    exact h.setReg hrange.1 (meaning_offset (mul_eq_ofInt_toInt _ _) hrange.2).2
  | register reg other =>
    cases hrow
    rw [hreg]
    refine h.setReg hrange.1 ?_
    exact congrArg (fun w : Word => RegRule.register w.toNat)
      (FrameRegister.word_of_nat (hrange.2.trans (by omega)) .register)
  | expression reg place =>
    cases hrow
    rw [hreg]
    refine h.setReg hrange ?_
    exact congrArg (fun w : Word => RegRule.expression w.toNat)
      (FrameRegister.word_of_nat (hplace reg place (.inl rfl)) .expression)
  | valExpression reg place =>
    cases hrow
    rw [hreg]
    refine h.setReg hrange ?_
    exact congrArg (fun w : Word => RegRule.valExpression w.toNat)
      (FrameRegister.word_of_nat (hplace reg place (.inr rfl)) .valExpression)
  | restore reg =>
    cases hrow
    exact h.restoreReg hpar hrange
  | nop | argsSize _ => exact Option.some.inj hrow ▸ h
  | advanceLoc _ | setLoc _ | rememberState | restoreState | unknown _ => cases hrow

end Rule

/-! ## Saved states -/

/-- A store that gives back what was saved last. `Holds heap prev saved` says what was
saved behind `prev` and not restored yet, the last one first. -/
structure SavedStates.Lawful {H P : Type} (S : SavedStates H P)
    (Holds : H → P → List CalcRules → Prop) : Prop where
  save : ∀ {heap prev saved}, Holds heap prev saved → ∀ rules, ∃ heap' prev',
    S.save heap rules prev = (heap', some prev') ∧ Holds heap' prev' (rules :: saved)
  restore : ∀ {heap prev rules saved}, Holds heap prev (rules :: saved) → ∃ heap' prev',
    S.restore heap prev = some (heap', rules, prev') ∧ Holds heap' prev' saved

/-- Values are saved on top of any others. -/
theorem savedValues_lawful (floor : List CalcRules) :
    savedValues.Lawful fun _ prev saved => prev = saved ++ floor where
  save := by
    rintro heap prev saved rfl rules
    exact ⟨(), rules :: (saved ++ floor), rfl, rfl⟩
  restore := by
    rintro heap prev rules saved rfl
    exact ⟨(), saved ++ floor, rfl, rfl⟩

/-- Nodes above the pointer `floor`, in a heap that refuses no request. -/
structure NodesHold (floor : Option Nat) (heap : Heap CalcRules) (prev : Option Nat)
    (saved : List CalcRules) : Prop where
  chain : Heap.Chain 0 floor heap prev saved
  granted : ∀ n, heap.granted n = true
  floor : ∀ a, floor = some a → a < heap.nodes.length

/-- Nodes are saved on top of any others, whatever became of those. -/
theorem savedNodes_lawful (floor : Option Nat) : savedNodes.Lawful (NodesHold floor) where
  save := by
    intro heap prev saved h rules
    have habove : Heap.Above 0 heap (heap.push rules prev).1 := Heap.push_above (Nat.zero_le _)
    have hpush : (heap.push rules prev).2 = some heap.nodes.length := by simp [Heap.push, h.granted]
    refine ⟨(heap.push rules prev).1, some heap.nodes.length, ?_, ?_, ?_, ?_⟩
    · exact Prod.ext rfl (congrArg (Option.map some) hpush)
    · exact (Heap.push_chain (Nat.zero_le _) h.chain h.floor).2 _ hpush
    · exact habove.granted ▸ h.granted
    · exact fun a ha => (h.floor a ha).trans_le habove.grown
  restore := by
    intro heap prev rules saved h
    obtain ⟨heap', link, hpop, hchain, habove, -⟩ := h.chain.pop
    exact ⟨heap', link, hpop, hchain, habove.granted ▸ h.granted,
      fun a ha => (h.floor a ha).trans_le habove.grown⟩

/-! ## Steps and runs -/

/-- The loop and the execution on rows are at the same place. -/
structure RowAgrees {H P : Type} (Holds : H → P → List CalcRules → Prop) (arch : Arch)
    (s : InsState H P) (st : RowState) : Prop where
  loc : s.loc.toNat = st.loc
  row : st.row.Describes arch s.ctx.rules
  saved : ∃ saved, Holds s.heap s.ctx.prev saved ∧
    List.Forall₂ (Row.Describes arch) st.stack saved

section Run

variable {H P : Type} {S : SavedStates H P} {Holds : H → P → List CalcRules → Prop}
  {rowPar : RowParams} {par : InsParams} {s : InsState H P} {st st' : RowState} {ins : CfaIns}
  {sec : Section} {insEnd : Nat} {fdeEncoding : Byte} {findPc : Word}

/-- An instruction executed on rows is executed by the interpreter. -/
theorem RowAgrees.execIns (h : RowAgrees Holds par.arch s st) (hS : S.Lawful Holds)
    (hpar : ParamsAgree rowPar par) (hrange : ins.InRange rowPar.dataFactor)
    (hplace : ∀ reg place, ins = .expression reg place ∨ ins = .valExpression reg place →
      place.toNat < 2 ^ 60)
    (hstep : rowStep rowPar st ins = some st') (next : Nat) :
    ∃ ctx heap, execIns S par s.ctx s.heap ins = .ok (ctx, heap) ∧
      RowAgrees Holds par.arch ⟨next, s.loc, ctx, heap⟩ st' := by
  obtain ⟨saved, hholds, hstack⟩ := h.saved
  unfold rowStep at hstep
  split at hstep
  · cases hstep
    obtain ⟨heap', prev', hsave, hholds'⟩ := hS.save hholds s.ctx.rules
    refine ⟨⟨s.ctx.rules, prev'⟩, heap', ?_, h.loc, h.row, _, hholds', .cons h.row hstack⟩
    simp only [Gunwinder.execIns, hsave]
  · split at hstep
    · cases hstep
    · rename_i row stack hst
      cases hstep
      rw [hst] at hstack
      cases hstack with
      | cons hrow hrest =>
        rename_i rules saved'
        obtain ⟨heap', prev', hrestore, hholds'⟩ := hS.restore hholds
        refine ⟨⟨rules, prev'⟩, heap', ?_, h.loc, hrow, _, hholds', hrest⟩
        simp only [Gunwinder.execIns, hrestore]
  · rename_i hne hne'
    obtain ⟨row, hrow, rfl⟩ := Option.map_eq_some_iff.mp hstep
    exact ⟨_, s.heap, execIns_rule S par s.ctx s.heap hne hne', h.loc,
      h.row.execRule hpar hrange hplace hrow, saved, hholds, hstack⟩

/-- An instruction that moves the location of a row moves that of the interpreter, and does
nothing else. -/
theorem RowAgrees.execLoc (h : RowAgrees Holds par.arch s st) (hpar : ParamsAgree rowPar par)
    {loc : Nat} (hloc : rowLoc rowPar st.loc ins = some loc) (hwrap : loc < 2 ^ 64) :
    (∃ w : Word, execLoc par s.loc ins = some w ∧ w.toNat = loc) ∧
      Gunwinder.execIns S par s.ctx s.heap ins = .ok (s.ctx, s.heap) := by
  have hstart := h.loc
  unfold rowLoc at hloc
  split at hloc
  · rename_i delta
    cases hloc
    refine ⟨⟨_, rfl, ?_⟩, rfl⟩
    rw [hpar.codeFactor] at hwrap ⊢
    rw [BitVec.toNat_add, BitVec.toNat_mul, Nat.add_mod_mod, hstart, Nat.mod_eq_of_lt hwrap]
  · exact ⟨⟨_, rfl, Option.some.inj hloc⟩, rfl⟩
  · cases hloc

private theorem execLoc_of_rowLoc_none {loc : Nat} (hloc : rowLoc rowPar loc ins = none)
    (w : Word) : execLoc par w ins = none := by
  cases ins <;> first | rfl | cases hloc

/-- The place of an expression in the section fits the bit-field. -/
theorem CfaIns.Inside.place {at' : Nat} (h : ins.Inside sec at' insEnd) (hhi : insEnd ≤ sec.fin) :
    ∀ reg place, ins = .expression reg place ∨ ins = .valExpression reg place →
      place.toNat < 2 ^ 60 := by
  have hspace := sec.inSpace
  unfold Section.fin at hhi
  have hbound {p : Nat} (hp : p < insEnd) : (BitVec.ofNat 64 (p - sec.dBuf)).toNat < 2 ^ 60 := by
    rw [BitVec.toNat_ofNat]
    omega
  rintro reg place (rfl | rfl)
  · obtain ⟨p, -, hp, rfl⟩ := h
    exact hbound hp
  · obtain ⟨p, -, hp, rfl⟩ := h
    exact hbound hp

/-- From a place of agreement, the loop ends with the pc's row in the table that is left. -/
theorem RowAgrees.run (hS : S.Lawful Holds) (hpar : ParamsAgree rowPar par)
    (hhi : insEnd ≤ sec.fin) (n : Nat) {is : List CfaIns} {table : List (Nat × Row)}
    (h : RowAgrees Holds par.arch s st)
    (hread : readAll sec fdeEncoding insEnd n s.ins = some is)
    (hrange : ∀ i ∈ is, i.InRange rowPar.dataFactor)
    (htable : rowTable rowPar st is = some table)
    (hsorted : table.Pairwise fun a b => a.1 ≤ b.1) (hwrap : ∀ entry ∈ table, entry.1 < 2 ^ 64)
    (hpc : st.loc ≤ findPc.toNat) :
    let r := loop (insTurn S sec par fdeEncoding insEnd findPc) insOut n s
    ∃ row, rowAt table findPc.toNat = some row ∧ r.ok = true ∧
      row.Describes par.arch r.ctx.rules := by
  have hend : insEnd < 2 ^ 64 := by
    have := sec.inSpace
    unfold Section.fin at hhi
    omega
  induction n generalizing s st is table with
  | zero =>
    unfold readAll at hread
    split at hread
    · cases hread
    · cases hread
      cases htable
      exact ⟨st.row, rowAt_first hpc nofun, rfl, h.row⟩
  | succ n ih =>
    unfold readAll at hread
    split at hread
    · rename_i hlt
      split at hread
      · cases hread
      rename_i ins next hins
      obtain ⟨rest, hrest, rfl⟩ := Option.map_eq_some_iff.mp hread
      obtain ⟨-, -, hinside⟩ := readIns_spec hend hlt hins
      have hrest' : ∀ i ∈ rest, i.InRange rowPar.dataFactor :=
        fun i hi => hrange i (List.mem_cons_of_mem _ hi)
      rcases rowTable_cons htable with ⟨loc, tail, hloc, htail, rfl⟩ | ⟨hloc, st', hstep, htail⟩
      · obtain ⟨row, tail, rfl⟩ := rowTable_head htail
        obtain ⟨hfirst, hsorted'⟩ := List.pairwise_cons.mp hsorted
        have hwrap' := fun entry hentry => hwrap entry (List.mem_cons_of_mem _ hentry)
        obtain ⟨⟨w, hw, hwloc⟩, hexec⟩ := h.execLoc (S := S) hpar hloc (hwrap' _ List.mem_cons_self)
        by_cases hpast : findPc < w
        · -- The pc lies before the location, so the row that was just closed is its row.
          have hturn : insTurn S sec par fdeEncoding insEnd findPc s =
              .stop ⟨true, s.ctx, s.heap⟩ := by
            simp only [insTurn, if_pos hlt, hins, hexec, hw, if_pos hpast]
          have hpast' : findPc.toNat < loc := hwloc ▸ hpast
          rw [loop_stop hturn]
          refine ⟨st.row, rowAt_first hpc fun entry hentry => ?_, rfl, h.row⟩
          rcases List.mem_cons.mp hentry with rfl | hentry
          · exact hpast'
          · exact hpast'.trans_le ((List.pairwise_cons.mp hsorted').1 entry hentry)
        · have hturn : insTurn S sec par fdeEncoding insEnd findPc s =
              .next ⟨next, w, s.ctx, s.heap⟩ := by
            simp only [insTurn, if_pos hlt, hins, hexec, hw, if_neg hpast]
          have hpc' : loc ≤ findPc.toNat := hwloc ▸ BitVec.not_lt.mp hpast
          have hagrees : RowAgrees Holds par.arch ⟨next, w, s.ctx, s.heap⟩ { st with loc } :=
            ⟨hwloc, h.row, h.saved⟩
          rw [loop_next hturn]
          obtain ⟨found, hfound, hok, hdesc⟩ := ih hagrees hrest hrest' htail hsorted' hwrap' hpc'
          exact ⟨found, rowAt_later hfound, hok, hdesc⟩
      · obtain ⟨ctx, heap, hexec, hagrees⟩ := h.execIns hS hpar (hrange ins List.mem_cons_self)
          (hinside.place hhi) hstep next
        have hturn : insTurn S sec par fdeEncoding insEnd findPc s =
            .next ⟨next, s.loc, ctx, heap⟩ := by
          simp only [insTurn, if_pos hlt, hins, hexec, execLoc_of_rowLoc_none hloc]
        rw [loop_next hturn]
        exact ih hagrees hrest hrest' htail hsorted hwrap (rowStep_loc hstep ▸ hpc)
    · rename_i hge
      cases hread
      cases htable
      have hturn : insTurn S sec par fdeEncoding insEnd findPc s = .stop ⟨true, s.ctx, s.heap⟩ := by
        simp only [insTurn, if_neg hge]
      rw [loop_stop hturn]
      exact ⟨st.row, rowAt_first hpc nofun, rfl, h.row⟩

end Run

/-! ## Initial rows -/

/-- What the instructions of an FDE take from the CIE, with a row for its initial state. -/
def Cie.rowParams {P : Type} (cie : Cie P) (arch : Arch) (initial : Row) : RowParams where
  codeFactor := cie.codeAlignmentFactor.toNat
  dataFactor := cie.dataAlignmentFactor.toInt
  reg := canonicalReg arch
  initial := initial

/-- The instructions of an FDE decode to a stream whose table, from the row of the CIE's
initial state, is `table`; its operands are in range and its locations do not decrease or
wrap. -/
structure Fde.HasTable {P : Type} (fde : Fde P) (arch : Arch) (sec : Section) (cie : Cie P)
    (initial : Row) (table : List (Nat × Row)) : Prop where
  inside : fde.instructionsEnd ≤ sec.fin
  ownBytes : fde.instructions ≠ cie.initialInstructions
  rows : ∃ is, readAll sec cie.fdeEncoding fde.instructionsEnd
      (fde.instructionsEnd - fde.instructions) fde.instructions = some is ∧
    (∀ i ∈ is, i.InRange cie.dataAlignmentFactor.toInt) ∧
    rowTable (cie.rowParams arch initial) ⟨fde.start.toNat, initial, []⟩ is = some table
  sorted : table.Pairwise fun a b => a.1 ≤ b.1
  noWrap : ∀ entry ∈ table, entry.1 < 2 ^ 64

/-- For every pc of an FDE, the interpreter started from the CIE's initial state succeeds
with the CFA and the three columns of the last row at or below the pc. -/
theorem initCalcCtxByIns_finds_row (arch : Arch) (sec : Section) (cie : Cie (Option Nat))
    (fde : Fde (Option Nat)) (heap : Heap CalcRules) (initial : Row) (table : List (Nat × Row))
    (pc : Word) (hgranted : ∀ n, heap.granted n = true)
    (hprev : ∀ a, cie.cieCalcCtx.prev = some a → a < heap.nodes.length)
    (hinitial : initial.Describes arch cie.cieCalcCtx.rules)
    (htable : fde.HasTable arch sec cie initial table) (hpc : fde.start ≤ pc ∧ pc < fde.fin) :
    let run := initCalcCtxByIns savedNodes arch sec cie cie.cieCalcCtx heap fde.instructions
      fde.instructionsEnd fde.start pc
    ∃ row, rowAt table pc.toNat = some row ∧ run.ok = true ∧
      row.Describes arch run.ctx.rules := by
  obtain ⟨is, hread, hrange, hrows⟩ := htable.rows
  have hpar : ParamsAgree (cie.rowParams arch initial) (cie.params arch fde.instructions) :=
    ⟨rfl, rfl, rfl, decide_eq_false htable.ownBytes, hinitial.regs⟩
  have hagrees : RowAgrees (NodesHold cie.cieCalcCtx.prev) arch
      ⟨fde.instructions, fde.start, cie.cieCalcCtx, heap⟩ ⟨fde.start.toNat, initial, []⟩ :=
    ⟨rfl, hinitial, [], ⟨.nil, hgranted, hprev⟩, .nil⟩
  exact RowAgrees.run (savedNodes_lawful cie.cieCalcCtx.prev) hpar htable.inside _ hagrees hread
    hrange hrows htable.sorted htable.noWrap hpc.1

/-- The row of `callerCie`, with no rules for the registers that are not unwound. -/
def callerRow : Row where
  cfa := .regOffset 7 8#64
  regs reg := if reg = 16 then .offset (-8) else if reg = 6 then .sameValue
    else if reg = 7 then .valOffset 0 else .unspecified

private theorem callerRow_describes :
    callerRow.Describes .x86 (callerCie (none : Option Nat)).cieCalcCtx.rules := by
  refine ⟨⟨rfl, CfaData.setBregx_offset CfaData.zero 7#64 8#64⟩, fun t => ?_⟩
  cases t <;> decide +kernel

/-- A frame set up and torn down: CFA offset 16 and `rbp` saved at -16 from 0x401 on, the CFA
on `rbp` from 0x404 on, the remembered state again from 0x408 on. -/
def pushFrameSection : Section :=
  bytesSection [0x41#8, 0x0e#8, 0x10#8, 0x86#8, 0x02#8, 0x0a#8, 0x43#8, 0x0d#8, 0x06#8, 0x44#8,
    0x0b#8] (by decide)

def pushFrameStream : List CfaIns :=
  [.advanceLoc 1#64, .defCfaOffset 16#64, .offset 6#64 2#64, .rememberState, .advanceLoc 3#64,
    .defCfaRegister 6#64, .advanceLoc 4#64, .restoreState]

def pushFrameFde : Fde (Option Nat) := ⟨some (callerCie none), 0x400#64, 0x410#64, 0x1000, 0x100b⟩

private theorem pushFrameFde_hasTable :
    ∃ table, pushFrameFde.HasTable .x86 pushFrameSection (callerCie none) callerRow table := by
  have hread : readAll pushFrameSection (callerCie (none : Option Nat)).fdeEncoding
      pushFrameFde.instructionsEnd (pushFrameFde.instructionsEnd - pushFrameFde.instructions)
      pushFrameFde.instructions = some pushFrameStream := by decide +kernel
  have hfactor : (callerCie (none : Option Nat)).dataAlignmentFactor.toInt = -8 := by decide
  have hrange : ∀ i ∈ pushFrameStream,
      i.InRange (callerCie (none : Option Nat)).dataAlignmentFactor.toInt := by
    simp [pushFrameStream, CfaIns.InRange, FitsField, hfactor]
  have hlocs : (rowTable ((callerCie (none : Option Nat)).rowParams .x86 callerRow)
      ⟨pushFrameFde.start.toNat, callerRow, []⟩ pushFrameStream).map (·.map Prod.fst) =
      some [0x400, 0x401, 0x404, 0x408] := by decide +kernel
  obtain ⟨table, hrows, hfst⟩ := Option.map_eq_some_iff.mp hlocs
  have hsorted : (table.map Prod.fst).Pairwise (· ≤ ·) := by
    rw [hfst]
    decide
  have hwrap : ∀ loc ∈ table.map Prod.fst, loc < 2 ^ 64 := by
    rw [hfst]
    decide
  exact ⟨table, by decide, by decide, ⟨pushFrameStream, hread, hrange, hrows⟩,
    List.pairwise_map.mp hsorted, fun entry hentry => hwrap entry.1 (List.mem_map_of_mem hentry)⟩

/-- A pc with the CFA on `rbp`. -/
theorem initCalcCtxByIns_finds_row_pushFrame :
    ∃ table row, pushFrameFde.HasTable .x86 pushFrameSection (callerCie none) callerRow table ∧
      rowAt table (0x405#64).toNat = some row ∧
      row.Describes .x86 (initCalcCtxByIns savedNodes .x86 pushFrameSection (callerCie none)
        (callerCie none).cieCalcCtx (.empty fun _ => true) pushFrameFde.instructions
        pushFrameFde.instructionsEnd pushFrameFde.start 0x405#64).ctx.rules := by
  obtain ⟨table, htable⟩ := pushFrameFde_hasTable
  obtain ⟨row, hrow, -, hdesc⟩ := initCalcCtxByIns_finds_row .x86 pushFrameSection (callerCie none)
    pushFrameFde (.empty fun _ => true) callerRow table 0x405#64 (fun _ => rfl) nofun
    callerRow_describes htable (by decide)
  exact ⟨table, row, htable, hrow, hdesc⟩

end Gunwinder
