import Gunwinder.Decoding.Bounds
import Gunwinder.Rows.CfaTag

/-!
# Recorded expression blocks

`init_calc_ctx_by_ins` records expression blocks after checking them against the end of the
instructions. What the context and the remembered states then hold lies between the first and the
last instruction byte, or came with the context, unless `DW_CFA_def_cfa_register` has overwritten
the address of the CFA's block.
-/

namespace Gunwinder

open Gunwinder.Core

/-! ## Blocks of the rules -/

/-- The block of a column lies between two addresses: its length is read at the recorded section
offset, and its bytes follow. -/
def FrameRegister.BlockInside (sec : Section) (lo hi : Nat) (reg : FrameRegister) : Prop :=
  lo ≤ sec.dBuf + reg.word.toNat ∧ ∃ length data,
    decodeReadChecked sec.mem (sec.dBuf + reg.word.toNat) hi dwEhPeUleb128 = some (length, data) ∧
      data + length.toNat ≤ hi

/-- Every expression block of the rules lies between two addresses or stands in given rules. -/
structure CalcRules.BlocksInside (sec : Section) (lo hi : Nat) (given : List CalcRules)
    (rules : CalcRules) : Prop where
  cfa : rules.cfaRule = .expr →
    (lo ≤ rules.cfaData.expr.start ∧ rules.cfaData.expr.fin ≤ hi) ∨
      ∃ r ∈ given, r.cfaRule = .expr ∧ r.cfaData.expr = rules.cfaData.expr
  column : ∀ type, (rules.regs.get type).IsExpression →
    (rules.regs.get type).BlockInside sec lo hi ∨
      ∃ r ∈ given, r.regs.get type = rules.regs.get type

/-- What an instruction records: a block between two addresses. A column's is given by the
position of its length. -/
def CfaIns.RecordsInside (sec : Section) (lo hi : Nat) : CfaIns → Prop
  | .defCfaExpression block => lo ≤ block.start ∧ block.fin ≤ hi
  | .expression _ off | .valExpression _ off =>
    ∃ p length data, off = BitVec.ofNat 64 (p - sec.dBuf) ∧ lo ≤ p ∧ p < hi ∧
      decodeReadChecked sec.mem p hi dwEhPeUleb128 = some (length, data) ∧
      data + length.toNat ≤ hi
  | _ => True

section Records

variable {sec : Section} {lo insEnd ins next : Nat} {i : CfaIns}

/-- An instruction without a block records none. -/
theorem CfaIns.BlockFree.recordsInside (h : i.BlockFree) : i.RecordsInside sec lo insEnd := by
  cases i with
  | defCfaExpression _ | expression _ _ | valExpression _ _ => exact h.elim
  | _ => trivial

/-- The operands of an instruction are checked before it is executed. -/
theorem readIns_recordsInside {fdeEncoding : Byte} (hend : insEnd < 2 ^ 64) (hlo : lo ≤ ins)
    (hins : ins < insEnd) (h : readIns sec insEnd fdeEncoding ins = some (i, next)) :
    i.RecordsInside sec lo insEnd := by
  rcases readIns_cases hins h with ⟨hfree, -⟩ | hexpr | hreg | hreg
  · exact hfree.recordsInside
  · obtain ⟨length, data, hread, rfl, rfl, hfin⟩ := readCfaExpression_spec hexpr
    have hb := decodeReadChecked_bounds hread
    simp only [CfaIns.RecordsInside, Block.start, Block.fin, BitVec.toNat_ofNat,
      Nat.mod_eq_of_lt (hb.2.trans_lt hend)]
    exact ⟨by omega, hfin⟩
  all_goals
    obtain ⟨regno, p, length, data, hread, hread2, rfl, rfl, hfin⟩ := readRegExpression_spec hreg
    have hb := decodeReadChecked_bounds hread
    have hb2 := decodeReadChecked_bounds hread2
    exact ⟨p, length, data, rfl, by omega, by omega, hread2, hfin⟩

/-- A section offset is read back from the bit-field it is stored in. -/
theorem blockInside_of {p hi : Nat} {length : Word} {data : Nat} (rule : FrameRule)
    (hdBuf : sec.dBuf ≤ lo) (hhi : hi ≤ sec.fin) (hlo : lo ≤ p) (hp : p < hi)
    (hread : decodeReadChecked sec.mem p hi dwEhPeUleb128 = some (length, data))
    (hfin : data + length.toNat ≤ hi) :
    (FrameRegister.of rule (BitVec.ofNat 64 (p - sec.dBuf))).BlockInside sec lo hi := by
  have hspace := sec.inSpace
  unfold Section.fin at hhi
  have hoff : (BitVec.ofNat 64 (p - sec.dBuf)).toNat = p - sec.dBuf := by
    rw [BitVec.toNat_ofNat]
    omega
  have hword : (FrameRegister.of rule (BitVec.ofNat 64 (p - sec.dBuf))).word.toNat =
      p - sec.dBuf := by rw [FrameRegister.word_of_nat (by omega), hoff]
  unfold FrameRegister.BlockInside
  rw [hword, Nat.add_sub_cancel' (hdBuf.trans hlo)]
  exact ⟨hlo, length, data, hread, hfin⟩

end Records

section Rules

variable {sec : Section} {lo hi : Nat} {given : List CalcRules} {rules : CalcRules}

namespace CalcRules.BlocksInside

/-- The blocks of given rules stand in given rules. -/
theorem of_mem (h : rules ∈ given) : rules.BlocksInside sec lo hi given :=
  ⟨fun hexpr => .inr ⟨rules, h, hexpr, rfl⟩, fun _ _ => .inr ⟨rules, h, rfl⟩⟩

/-- A column gets a rule whose block, if any, is accounted for. -/
theorem set (h : rules.BlocksInside sec lo hi given) (type : RegType) {reg : FrameRegister}
    (hreg : reg.IsExpression →
      reg.BlockInside sec lo hi ∨ ∃ r ∈ given, r.regs.get type = reg) :
    ({ rules with regs := rules.regs.set type reg } : CalcRules).BlocksInside sec lo hi given := by
  refine ⟨h.cfa, fun type' hexpr => ?_⟩
  simp only [Columns.get_set] at hexpr ⊢
  split at hexpr
  · rename_i heq
    simpa only [heq, if_true] using hreg hexpr
  · rename_i hne
    simpa only [if_neg hne] using h.column type' hexpr

/-- An instruction with checked operands records blocks between the bounds, unless it is
`DW_CFA_def_cfa_register` on an expression. -/
theorem execRule (h : rules.BlocksInside sec lo hi given) {par : InsParams} {initial : CalcRules}
    (hinitial : initial ∈ given) (hregs : par.initialRegs = initial.regs) {i : CfaIns}
    (hdBuf : sec.dBuf ≤ lo) (hhi : hi ≤ sec.fin) (hrec : i.RecordsInside sec lo hi)
    (hkeep : ∀ operand, i = .defCfaRegister operand → rules.cfaRule ≠ .expr) :
    (execRule par rules i).BlocksInside sec lo hi given := by
  have hchange := execRule_change par rules i
  generalize Gunwinder.execRule par rules i = after at hchange ⊢
  cases hchange with
  | same => exact h
  | defCfa number number2 => exact ⟨nofun, h.column⟩
  | cfaRegister operand hi => exact ⟨fun hexpr => absurd hexpr (hkeep operand hi), h.column⟩
  -- the second number of the operation is no part of a block
  | cfaOffset number2 => exact ⟨h.cfa, h.column⟩
  | cfaExpression block hi =>
    subst hi
    exact ⟨fun _ => .inl hrec, h.column⟩
  | column type reg hplain => exact h.set type fun hexpr => absurd hexpr hplain
  | expression type rule regno offset hi =>
    rcases hi with rfl | rfl <;>
    · obtain ⟨p, length, data, rfl, hlo, hp, hread, hfin⟩ := hrec
      exact h.set type fun _ => .inl (blockInside_of rule hdBuf hhi hlo hp hread hfin)
  | restored type => exact h.set type fun _ => .inr ⟨initial, hinitial, by rw [hregs]⟩

end CalcRules.BlocksInside

end Rules

/-! ## Blocks of a run -/

/-- A property of the current rules and of every remembered state on the heap. -/
structure AllRules (I : CalcRules → Prop) (ctx : CalcCtx (Option Nat)) (heap : Heap CalcRules) :
    Prop where
  rules : I ctx.rules
  remembered : ∀ rules ∈ heap.payloads, I rules

section Run

variable {I : CalcRules → Prop} {par : InsParams} {ctx ctx' : CalcCtx (Option Nat)}
  {heap heap' : Heap CalcRules} {i : CfaIns}

/-- A property that an instruction keeps on the current rules is kept everywhere. -/
theorem AllRules.of_ok (h : AllRules I ctx heap) (hrule : I (execRule par ctx.rules i))
    (hexec : execIns savedNodes par ctx heap i = .ok (ctx', heap')) : AllRules I ctx' heap' := by
  rcases execIns_ok hexec with ⟨-, hsave, hrules⟩ | ⟨-, hrestore⟩ | ⟨-, -, rfl, rfl⟩
  · have hheap : (heap.push ctx.rules ctx.prev).1 = heap' := congrArg Prod.fst hsave
    refine ⟨hrules ▸ h.rules, fun r hr => ?_⟩
    rw [← hheap] at hr
    rcases Heap.mem_payloads_push hr with hold | rfl
    · exact h.remembered r hold
    · exact h.rules
  · obtain ⟨hmem, hsame⟩ := Heap.payloads_pop hrestore
    exact ⟨h.remembered _ hmem, fun r hr => h.remembered r (hsame ▸ hr)⟩
  · exact ⟨hrule, h.remembered⟩

/-- An instruction that fails changes no rules. -/
theorem AllRules.of_error (h : AllRules I ctx heap)
    (hexec : execIns savedNodes par ctx heap i = .error heap') : AllRules I ctx heap' := by
  rcases execIns_error hexec with ⟨-, hsave⟩ | ⟨-, -, rfl⟩
  · have hheap : (heap.push ctx.rules ctx.prev).1 = heap' := congrArg Prod.fst hsave
    refine ⟨h.rules, fun r hr => ?_⟩
    rw [← hheap] at hr
    rcases Heap.mem_payloads_push hr with hold | rfl
    · exact h.remembered r hold
    · exact h.rules
  · exact h

end Run

/-- The rules a run is given: those of the context, of the CIE and of the remembered states. -/
def givenRules (cie : Cie (Option Nat)) (ctx : CalcCtx (Option Nat)) (heap : Heap CalcRules) :
    List CalcRules :=
  ctx.rules :: cie.cieCalcCtx.rules :: heap.payloads

/-- The expression blocks that executing `[insStart, insEnd)` records lie there: those of the
context and of the remembered states, at the head of every turn and in the end. -/
structure InsRecords (arch : Arch) (sec : Section) (cie : Cie (Option Nat))
    (ctx : CalcCtx (Option Nat)) (heap : Heap CalcRules) (insStart insEnd : Nat)
    (loc findPc : Word) : Prop where
  turns : ∀ n s, headState (insTurn savedNodes sec (cie.params arch insStart) cie.fdeEncoding
      insEnd findPc) n ⟨insStart, loc, ctx, heap⟩ = some s →
    AllRules (CalcRules.BlocksInside sec insStart insEnd (givenRules cie ctx heap)) s.ctx s.heap
  result :
    let result := initCalcCtxByIns savedNodes arch sec cie ctx heap insStart insEnd loc findPc
    AllRules (CalcRules.BlocksInside sec insStart insEnd (givenRules cie ctx heap)) result.ctx
      result.heap

section Run

variable {arch : Arch} {sec : Section} {cie : Cie (Option Nat)} {ctx : CalcCtx (Option Nat)}
  {heap : Heap CalcRules} {insStart insEnd : Nat} {loc findPc : Word}

/-- One instruction of the run: what it records is checked against the end. -/
theorem blocksInside_execRule (hdBuf : sec.dBuf ≤ insStart) (hhi : insEnd ≤ sec.fin)
    {s : InsState (Heap CalcRules) (Option Nat)} {i : CfaIns} {next : Nat}
    (hins : insStart ≤ s.ins) (hlt : s.ins < insEnd)
    (hread : readIns sec insEnd cie.fdeEncoding s.ins = some (i, next))
    (hkeeps : KeepsBlock sec insEnd cie.fdeEncoding s)
    (h : s.ctx.rules.BlocksInside sec insStart insEnd (givenRules cie ctx heap)) :
    (execRule (cie.params arch insStart) s.ctx.rules i).BlocksInside sec insStart insEnd
      (givenRules cie ctx heap) := by
  have hend : insEnd < 2 ^ 64 := by
    have := sec.inSpace
    unfold Section.fin at hhi
    omega
  have hinitial : cie.cieCalcCtx.rules ∈ givenRules cie ctx heap :=
    List.mem_cons_of_mem _ List.mem_cons_self
  refine h.execRule hinitial rfl hdBuf hhi (readIns_recordsInside hend hins hlt hread) ?_
  rintro operand rfl
  exact hkeeps operand next hlt hread

/-- Without `DW_CFA_def_cfa_register` under an expression rule, a run records blocks of its
own bytes. -/
theorem insRecords_of_keepsBlock (hdBuf : sec.dBuf ≤ insStart) (hhi : insEnd ≤ sec.fin)
    (hkeeps : RunKeepsBlock savedNodes sec (cie.params arch insStart) cie.fdeEncoding insEnd findPc
      ⟨insStart, loc, ctx, heap⟩) :
    InsRecords arch sec cie ctx heap insStart insEnd loc findPc := by
  have hturns : ∀ n s, headState (insTurn savedNodes sec (cie.params arch insStart)
      cie.fdeEncoding insEnd findPc) n ⟨insStart, loc, ctx, heap⟩ = some s →
      AllRules (CalcRules.BlocksInside sec insStart insEnd (givenRules cie ctx heap)) s.ctx
        s.heap := by
    intro n s hhead
    refine headState_invariant (fun _ s => AllRules (CalcRules.BlocksInside sec insStart insEnd
      (givenRules cie ctx heap)) s.ctx s.heap) ⟨.of_mem List.mem_cons_self, fun r hr =>
        .of_mem (List.mem_cons_of_mem _ (List.mem_cons_of_mem _ hr))⟩ ?_ hhead
    intro n s s' hhead hall hnext
    obtain ⟨hlt, i, hread, hexec, -⟩ := insTurn_next hnext
    have hins : insStart + n ≤ s.ins := headState_consumed hhead
    exact hall.of_ok (blocksInside_execRule hdBuf hhi (by omega) hlt hread (hkeeps n s hhead)
      hall.rules) hexec
  refine ⟨hturns, ?_⟩
  rcases loop_ends (insTurn savedNodes sec (cie.params arch insStart) cie.fdeEncoding insEnd
    findPc) insOut (insEnd - insStart) ⟨insStart, loc, ctx, heap⟩
    with ⟨k, -, s, hhead, hstop⟩ | ⟨s, hhead, hout⟩
  · have hall := hturns k s hhead
    have hins : insStart + k ≤ s.ins := headState_consumed hhead
    change AllRules _ (runIns ..).ctx (runIns ..).heap
    unfold runIns
    rcases insTurn_stop hstop with ⟨-, hr⟩ | ⟨-, -, hr⟩ | ⟨i, next, hlt, hread, hrun⟩
    · rw [hr]
      exact hall
    · rw [hr]
      exact hall
    · rcases hrun with ⟨heap', hexec, hr⟩ | ⟨ctx', heap', loc', hexec, -, -, hr⟩
      · rw [hr]
        exact hall.of_error hexec
      · rw [hr]
        exact hall.of_ok (blocksInside_execRule hdBuf hhi (by omega) hlt hread
          (hkeeps k s hhead) hall.rules) hexec
  · change AllRules _ (runIns ..).ctx (runIns ..).heap
    unfold runIns
    rw [hout]
    exact hturns _ s hhead

end Run

/-! ## Both decoders -/

/-- Executing the instructions in `[insStart, insEnd)` stays there. -/
structure InsInside {H P : Type} (S : SavedStates H P) (arch : Arch) (sec : Section)
    (cie : Cie P) (ctx : CalcCtx P) (heap : H) (insStart insEnd : Nat) (loc findPc : Word) :
    Prop where
  /-- With one turn per byte, or more, the loop ends by itself and fetches these bytes only. -/
  reads : ∀ n, insEnd - insStart ≤ n → Reads sec.mem insStart insEnd
    (fetchCalcCtxByIns S arch sec.dBuf cie ctx heap insStart insEnd loc findPc n)
    (initCalcCtxByIns S arch sec cie ctx heap insStart insEnd loc findPc)
  /-- A turn that goes on consumes a byte. -/
  consumes : ∀ s s', insTurn S sec (cie.params arch insStart) cie.fdeEncoding insEnd findPc s =
    .next s' → s.ins < s'.ins ∧ s'.ins ≤ insEnd

/-- Decoding an expression block stays in the block and in the static buffer. -/
structure BlockInside (mem : Mem) (block : Block) (rule : FrameRule) (cfa : Bool) : Prop where
  /-- With one turn per byte, or more, the loop ends by itself, fetches bytes of the block only
  and stores at most `DWARF_OPS_MAX` operations. -/
  reads : ∀ n, block.length.toNat ≤ n → Reads mem block.start block.fin
    (fetchInitOpsFromBlock block rule cfa n).run (guCfiInitOpsFromBlock mem block rule cfa)
  /-- A turn that goes on consumes a byte. -/
  consumes : ∀ data op next, data < block.fin →
    decodeOp mem block.start block.fin data = some (op, next) → data < next ∧ next ≤ block.fin
  /-- What is returned fits the buffer. -/
  bounded : ∀ ops, guCfiInitOpsFromBlock mem block rule cfa = some ops →
    ops.length ≤ dwarfOpsMax

/-- Both decoders stay inside their bytes and progress, whatever the bytes are. What the
instructions record lies inside too, as long as no `DW_CFA_def_cfa_register` is executed under
an expression rule. -/
theorem decoding_inside (arch : Arch) (sec : Section) (cie : Cie (Option Nat))
    (ctx : CalcCtx (Option Nat)) (heap : Heap CalcRules) (insStart insEnd loc findPc : Word)
    (mem : Mem) (block : Block) (rule : FrameRule) (cfa : Bool) :
    InsInside savedNodes arch sec cie ctx heap insStart.toNat insEnd.toNat loc findPc ∧
      (sec.dBuf ≤ insStart.toNat → insEnd.toNat ≤ sec.fin →
        RunKeepsBlock savedNodes sec (cie.params arch insStart.toNat) cie.fdeEncoding insEnd.toNat
          findPc ⟨insStart.toNat, loc, ctx, heap⟩ →
        InsRecords arch sec cie ctx heap insStart.toNat insEnd.toNat loc findPc) ∧
      BlockInside mem block rule cfa ∧
      ∀ buf fin type value next,
        decodeReadChecked mem buf fin type = some (value, next) → buf < next ∧ next ≤ fin := by
  refine ⟨⟨?_, ?_⟩, insRecords_of_keepsBlock, ⟨?_, ?_, ?_⟩, ?_⟩
  · intro n hn
    exact reads_fetchCalcCtxByIns arch cie ctx heap loc hn
  · intro s s' hnext
    exact insTurn_consumes hnext
  · intro n hn
    exact reads_fetchInitOpsFromBlock mem block rule cfa hn
  · intro data op next hlt hop
    exact decodeOp_bounds hlt hop
  · intro ops hops
    exact guCfiInitOpsFromBlock_length hops
  · intro buf fin type value next hread
    exact decodeReadChecked_bounds hread

/-- `DW_CFA_def_cfa_expression` with a one-byte block and `DW_CFA_expression` for register 6 with
another: both blocks are recorded, inside the instructions. -/
theorem decoding_inside_two_blocks :
    let sec := bytesSection [0x0f#8, 0x01#8, 0x96#8, 0x10#8, 0x06#8, 0x01#8, 0x96#8] (by decide)
    let result := initCalcCtxByIns savedNodes .x86 sec (callerCie none)
      (callerCie none).cieCalcCtx (.empty fun _ => true) 0x1000 0x1007 0#64 0#64
    (result.ok = true ∧ result.ctx.rules.cfaRule = .expr ∧
      result.ctx.rules.regs.rbp.rule = .expression) ∧
      InsRecords .x86 sec (callerCie none) (callerCie none).cieCalcCtx (.empty fun _ => true)
        0x1000 0x1007 0#64 0#64 := by
  intro sec result
  refine ⟨by decide +kernel, ?_⟩
  exact (decoding_inside .x86 sec (callerCie none) (callerCie none).cieCalcCtx
    (.empty fun _ => true) 0x1000#64 0x1007#64 0#64 0#64 sec.mem ⟨1#64, 0x1002#64⟩ .unspecified
    true).2.1 (by decide) (by decide) (RunKeepsBlock.of_test (n := 3) (by decide +kernel))

/-- `DW_CFA_def_cfa_expression` with a one-byte block, then `DW_CFA_def_cfa_register 7`: the run
succeeds and the CFA's block, which no given rules have, is recorded at address 7. -/
theorem defCfaRegister_moves_recorded_block :
    let sec := bytesSection [0x0f#8, 0x01#8, 0x96#8, 0x0d#8, 0x07#8] (by decide)
    let result := initCalcCtxByIns savedNodes .x86 sec (callerCie none)
      (callerCie none).cieCalcCtx (.empty fun _ => true) 0x1000 0x1005 0#64 0#64
    (result.ok = true ∧ result.ctx.rules.cfaRule = .expr ∧
      result.ctx.rules.cfaData.expr = ⟨1#64, 7#64⟩) ∧
      ¬InsRecords .x86 sec (callerCie none) (callerCie none).cieCalcCtx (.empty fun _ => true)
        0x1000 0x1005 0#64 0#64 := by
  intro sec result
  have hrun : result.ok = true ∧ result.ctx.rules.cfaRule = .expr ∧
      result.ctx.rules.cfaData.expr = ⟨1#64, 7#64⟩ := by decide +kernel
  refine ⟨hrun, fun h => ?_⟩
  have hblocks : result.ctx.rules.BlocksInside sec 0x1000 0x1005
      (givenRules (callerCie none) (callerCie none).cieCalcCtx (.empty fun _ => true)) :=
    h.result.rules
  rcases hblocks.cfa hrun.2.1 with ⟨hlo, -⟩ | ⟨r, hmem, hexpr, -⟩
  · rw [hrun.2.2] at hlo
    exact absurd hlo (by decide)
  · have hgiven : ∀ r ∈ givenRules (callerCie none) (callerCie none).cieCalcCtx
        (.empty fun _ => true), r.cfaRule = .offset := by decide
    rw [hgiven r hmem] at hexpr
    cases hexpr

end Gunwinder
