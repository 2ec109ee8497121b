import Gunwinder.Native.Parse

/-!
# The CFA rule and its payload

The rule tag says which member of the union holds the payload. `DW_CFA_def_cfa_register` writes the
word that is the block's data pointer and does not look at the tag: executed on an expression it
leaves a block at an address taken from the instruction stream.
-/

namespace Gunwinder

open Gunwinder.Core

/-- Tag and payload fit: an expression is a block of the section, an offset rule holds a
`DW_OP_bregx` operation. -/
structure CalcRules.WellFormed (sec : Section) (rules : CalcRules) : Prop where
  expr : rules.cfaRule = .expr →
    sec.dBuf ≤ rules.cfaData.expr.start ∧ rules.cfaData.expr.fin ≤ sec.fin
  offset : rules.cfaRule = .offset → rules.cfaData.offset.atom = .bregx

/-- A working context is well formed when its rules and all its saved rules are. -/
structure CalcCtx.WellFormed (sec : Section) (ctx : CalcCtx (List CalcRules)) : Prop where
  rules : ctx.rules.WellFormed sec
  saved : ∀ rules ∈ ctx.prev, rules.WellFormed sec

/-- Rules whose CFA was just set to a register and an offset. -/
theorem setBregx_wellFormed (sec : Section) (d : CfaData) (number number2 : Word)
    (regs : Columns FrameRegister) :
    CalcRules.WellFormed sec ⟨.offset, d.setBregx number number2, regs⟩ :=
  ⟨nofun, fun _ => congrArg DwarfOp.atom (d.setBregx_offset number number2)⟩

variable {sec : Section} {rules : CalcRules}

/-- An instruction of the section keeps tag and payload together, unless it is
`DW_CFA_def_cfa_register` on an expression. -/
theorem CalcRules.WellFormed.execRule (h : rules.WellFormed sec) (par : InsParams)
    {ins insEnd : Nat} {i : CfaIns} (hin : i.Inside sec ins insEnd) (hlo : sec.dBuf ≤ ins)
    (hhi : insEnd ≤ sec.fin)
    (hreg : ∀ operand, i = .defCfaRegister operand → rules.cfaRule ≠ .expr) :
    (execRule par rules i).WellFormed sec := by
  have hchange := execRule_change par rules i
  generalize Gunwinder.execRule par rules i = after at hchange ⊢
  cases hchange with
  | same => exact h
  | defCfa number number2 => exact setBregx_wellFormed ..
  | cfaRegister operand hi => exact ⟨fun he => absurd he (hreg operand hi), h.offset⟩
  | cfaOffset number2 | column type reg _ | expression type rule regno offset _ =>
    exact ⟨h.expr, h.offset⟩
  | cfaExpression block hi =>
    subst hi
    obtain ⟨h1, h2⟩ := hin
    exact ⟨fun _ => ⟨(hlo.trans_lt h1).le, h2.trans hhi⟩, nofun⟩
  | restored type => exact ⟨h.expr, h.offset⟩

/-- One instruction on the whole context. -/
theorem CalcCtx.WellFormed.execIns {ctx ctx' : CalcCtx (List CalcRules)} {heap heap' : Unit}
    (h : ctx.WellFormed sec) (par : InsParams) {ins insEnd : Nat} {i : CfaIns}
    (hin : i.Inside sec ins insEnd) (hlo : sec.dBuf ≤ ins) (hhi : insEnd ≤ sec.fin)
    (hreg : ∀ operand, i = .defCfaRegister operand → ctx.rules.cfaRule ≠ .expr)
    (hexec : execIns savedValues par ctx heap i = .ok (ctx', heap')) :
    ctx'.WellFormed sec := by
  have hall : CalcCtx.All (CalcRules.WellFormed sec) ctx := ⟨h.rules, h.saved⟩
  have hall' := hall.execIns (fun hrules => hrules.execRule par hin hlo hhi hreg) hexec
  exact ⟨hall'.rules, hall'.saved⟩

section Run

variable {par : InsParams} {fdeEncoding : Byte} {insEnd : Nat} {findPc : Word}

section Keeps

variable {H P : Type}

/-- The instruction at the head of a turn does not overwrite the data pointer of an
expression: it is not `DW_CFA_def_cfa_register` under an expression rule. -/
def KeepsBlock (sec : Section) (insEnd : Nat) (fdeEncoding : Byte) (s : InsState H P) : Prop :=
  ∀ operand next, s.ins < insEnd →
    readIns sec insEnd fdeEncoding s.ins = some (.defCfaRegister operand, next) →
    s.ctx.rules.cfaRule ≠ .expr

/-- Every turn of the run from `s` keeps the block of an expression. -/
def RunKeepsBlock (S : SavedStates H P) (sec : Section) (par : InsParams) (fdeEncoding : Byte)
    (insEnd : Nat) (findPc : Word) (s : InsState H P) : Prop :=
  ∀ n s', headState (insTurn S sec par fdeEncoding insEnd findPc) n s = some s' →
    KeepsBlock sec insEnd fdeEncoding s'

/-- Test of `RunKeepsBlock` that follows the run for at most `n` turns. -/
def keepsBlockFor (S : SavedStates H P) (sec : Section) (par : InsParams) (fdeEncoding : Byte)
    (insEnd : Nat) (findPc : Word) : Nat → InsState H P → Bool
  | 0, _ => false
  | n + 1, s =>
    (match readIns sec insEnd fdeEncoding s.ins with
      | some (.defCfaRegister _, _) => s.ctx.rules.cfaRule != .expr
      | _ => true) &&
    match insTurn S sec par fdeEncoding insEnd findPc s with
    | .next s' => keepsBlockFor S sec par fdeEncoding insEnd findPc n s'
    | .stop _ => true

/-- A run that passes the test keeps its blocks. -/
theorem RunKeepsBlock.of_test {S : SavedStates H P} {n : Nat} {s : InsState H P}
    (h : keepsBlockFor S sec par fdeEncoding insEnd findPc n s = true) :
    RunKeepsBlock S sec par fdeEncoding insEnd findPc s := by
  induction n generalizing s with
  | zero => cases h
  | succ n ih =>
    obtain ⟨hhead, hrest⟩ := Bool.and_eq_true_iff.mp h
    intro k s' hs'
    cases k with
    | zero =>
      cases hs'
      intro operand next _ hread
      simpa [hread] using hhead
    | succ k =>
      cases hturn : insTurn S sec par fdeEncoding insEnd findPc s with
      | next t =>
        rw [hturn] at hrest
        exact ih hrest k s' ((headState_next hturn k).symm.trans hs')
      | stop r => rw [headState_stop hturn k] at hs'; cases hs'

end Keeps

/-- Invariant of the loop: the instruction pointer is in the section, the context is well
formed and so will be every later one. -/
structure TagInvariant (sec : Section) (par : InsParams) (fdeEncoding : Byte) (insEnd : Nat)
    (findPc : Word) (s : InsState Unit (List CalcRules)) : Prop where
  inside : sec.dBuf ≤ s.ins
  wellFormed : s.ctx.WellFormed sec
  keeps : RunKeepsBlock savedValues sec par fdeEncoding insEnd findPc s

variable {s : InsState Unit (List CalcRules)}

variable (h : TagInvariant sec par fdeEncoding insEnd findPc s) (hhi : insEnd ≤ sec.fin)
include h hhi

private theorem TagInvariant.exec {ins : CfaIns} {next : Nat} {ctx : CalcCtx (List CalcRules)}
    {heap : Unit}
    (hlt : s.ins < insEnd) (hread : readIns sec insEnd fdeEncoding s.ins = some (ins, next))
    (hexec : execIns savedValues par s.ctx s.heap ins = .ok (ctx, heap)) :
    s.ins < next ∧ ctx.WellFormed sec := by
  have hend : insEnd < 2 ^ 64 := by
    have := sec.inSpace
    unfold Section.fin at hhi
    omega
  obtain ⟨hnext, -, hin⟩ := readIns_spec hend hlt hread
  refine ⟨hnext, h.wellFormed.execIns par hin h.inside hhi ?_ hexec⟩
  rintro operand rfl
  exact h.keeps 0 s rfl operand next hlt hread

/-- A turn keeps the invariant. -/
theorem TagInvariant.next {s' : InsState Unit (List CalcRules)}
    (hturn : insTurn savedValues sec par fdeEncoding insEnd findPc s = .next s') :
    TagInvariant sec par fdeEncoding insEnd findPc s' := by
  obtain ⟨hlt, ins, hread, hexec, -, -⟩ := insTurn_next hturn
  obtain ⟨hnext, hwf⟩ := h.exec hhi hlt hread hexec
  refine ⟨h.inside.trans hnext.le, hwf, fun n t ht => ?_⟩
  exact h.keeps (n + 1) t ((headState_next hturn n).trans ht)

private theorem TagInvariant.stop {r : InsResult Unit (List CalcRules)}
    (hturn : insTurn savedValues sec par fdeEncoding insEnd findPc s = .stop r) :
    r.ctx.WellFormed sec := by
  rcases insTurn_stop hturn with ⟨-, rfl⟩ | ⟨-, -, rfl⟩ | ⟨ins, next, hlt, hread, hrun⟩
  · exact h.wellFormed
  · exact h.wellFormed
  · rcases hrun with ⟨heap, -, rfl⟩ | ⟨ctx, heap, loc, hexec, -, -, rfl⟩
    · exact h.wellFormed
    · exact (h.exec hhi hlt hread hexec).2

end Run

/-- `gu_cfi_get_cfa_ops` on well-formed rules reads bytes of the section only. -/
theorem guCfiGetCfaOps_congr (h : rules.WellFormed sec) {mem' : Mem}
    (hagree : AgreeOn sec.dBuf sec.fin sec.mem mem') :
    guCfiGetCfaOps sec.mem rules = guCfiGetCfaOps mem' rules := by
  unfold guCfiGetCfaOps
  cases hrule : rules.cfaRule with
  | undefined => rfl
  | offset => rfl
  | invalid => rfl
  | expr =>
    obtain ⟨hlo, hhi⟩ := h.expr hrule
    exact guCfiInitOpsFromBlock_congr (hagree.mono hlo hhi) _ _

/-- A run over instructions of the section that never executes `DW_CFA_def_cfa_register`
under an expression rule takes well-formed contexts to well-formed ones, and the CFA
operations of the result depend on the bytes of the section only. -/
theorem initCalcCtxByIns_wellFormed (arch : Arch) (sec : Section) (cie : Cie (List CalcRules))
    (ctx : CalcCtx (List CalcRules)) (insStart insEnd : Nat) (loc findPc : Word)
    (hlo : sec.dBuf ≤ insStart) (hhi : insEnd ≤ sec.fin) (hwf : ctx.WellFormed sec)
    (hkeeps : RunKeepsBlock savedValues sec (cie.params arch insStart) cie.fdeEncoding insEnd findPc
      ⟨insStart, loc, ctx, ()⟩) :
    let result := initCalcCtxByIns savedValues arch sec cie ctx () insStart insEnd loc findPc
    result.ctx.WellFormed sec ∧
      ∀ mem', AgreeOn sec.dBuf sec.fin sec.mem mem' →
        guCfiGetCfaOps sec.mem result.ctx.rules = guCfiGetCfaOps mem' result.ctx.rules := by
  intro result
  have hresult : result.ctx.WellFormed sec :=
    loop_invariant (TagInvariant sec (cie.params arch insStart) cie.fdeEncoding insEnd findPc)
      (fun r => r.ctx.WellFormed sec) (fun _ _ h ht => h.next hhi ht)
      (fun _ _ h ht => h.stop hhi ht) (fun _ h => h.wellFormed) _ ⟨hlo, hwf, hkeeps⟩
  exact ⟨hresult, fun mem' hagree => guCfiGetCfaOps_congr hresult.rules hagree⟩

private theorem callerCie_wellFormed (sec : Section) : (callerCie []).cieCalcCtx.WellFormed sec :=
  ⟨setBregx_wellFormed sec CfaData.zero 7#64 8#64 _, fun _ h => absurd h List.not_mem_nil⟩

/-- The frame set-up `DW_CFA_def_cfa_offset 16; DW_CFA_def_cfa_register 6` on an offset rule. -/
theorem initCalcCtxByIns_wellFormed_pushFrame :
    let sec := bytesSection [0x0e#8, 0x10#8, 0x0d#8, 0x06#8] (by decide)
    let result := initCalcCtxByIns savedValues .x86 sec (callerCie []) (callerCie []).cieCalcCtx ()
      0x1000 0x1004 0#64 0#64
    result.ok = true ∧ result.ctx.WellFormed sec := by
  refine ⟨by decide +kernel, ?_⟩
  exact (initCalcCtxByIns_wellFormed .x86 _ (callerCie []) (callerCie []).cieCalcCtx 0x1000 0x1004
    0#64 0#64 (by decide) (by decide) (callerCie_wellFormed _)
    (RunKeepsBlock.of_test (n := 3) (by decide +kernel))).1

/-- `DW_CFA_def_cfa_expression` with a one-byte block, then `DW_CFA_def_cfa_register 7`:
the run succeeds and the CFA is the block at address 7, outside the section. -/
theorem defCfaRegister_leaves_section :
    let sec := bytesSection [0x0f#8, 0x01#8, 0x96#8, 0x0d#8, 0x07#8] (by decide)
    let result := initCalcCtxByIns savedValues .x86 sec (callerCie []) (callerCie []).cieCalcCtx ()
      0x1000 0x1005 0#64 0#64
    (callerCie []).cieCalcCtx.WellFormed sec ∧ result.ok = true ∧ ¬ result.ctx.WellFormed sec ∧
      ∃ mem', AgreeOn sec.dBuf sec.fin sec.mem mem' ∧
        guCfiGetCfaOps sec.mem result.ctx.rules ≠ guCfiGetCfaOps mem' result.ctx.rules := by
  intro sec result
  refine ⟨callerCie_wellFormed _, by decide +kernel, fun h => ?_,
    fun a => if a < 0x1000 then 0x96#8 else sec.mem a, fun a hlo _ => ?_, by decide +kernel⟩
  · have hstart := (h.rules.expr (by decide +kernel)).1
    exact absurd hstart (by decide +kernel)
  · exact (if_neg (Nat.not_lt.mpr hlo)).symm

end Gunwinder
