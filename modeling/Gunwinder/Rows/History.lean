import Gunwinder.Native.Cie
import Gunwinder.Semantics.Rows

/-!
# Default rules and history

The default rules are computed once per process, with the data alignment factor of the CIE
that happens to come first; a CIE whose own instructions leave such a rule in place gets it from
its predecessor. Two runs that start from different defaults are the same run with a hole for the
rule, filled in two ways.
-/

namespace Gunwinder

open Gunwinder.Core

/-! ## Where the default rule stays -/

variable (arch : Arch)

/-- The instruction gives the return address a rule. -/
def CfaIns.setsRa : CfaIns → Bool
  | .undefined reg | .sameValue reg | .offset reg _ | .offsetSf reg _ | .negativeOffset reg _
  | .valOffset reg _ | .valOffsetSf reg _ | .register reg _ | .expression reg _
  | .valExpression reg _ => transRegType arch (toInt reg) = some .rip
  | _ => false

/-- Follow the default rule of the return address through the current state and the remembered
ones; `none` when there is nothing to restore. -/
def markRa (marks : Bool × List Bool) : CfaIns → Option (Bool × List Bool)
  | .rememberState => some (marks.1, marks.1 :: marks.2)
  | .restoreState =>
    match marks.2 with
    | [] => none
    | mark :: saved => some (mark, saved)
  | ins => some (marks.1 && !ins.setsRa arch, marks.2)

/-- The marks behind the initial instructions of a CIE, if they are accepted. -/
def DwarfCie.marks (sec : Section) (cie : DwarfCie) : Option (Bool × List Bool) :=
  (readAll sec (cieHeader savedValues sec 0#64 cie).fdeEncoding cie.initialInstructionsEnd
    (cie.initialInstructionsEnd - cie.initialInstructions) cie.initialInstructions).bind fun is =>
      is.foldlM (markRa arch) (true, [])

/-- The CIE is accepted, and a state it leaves has the default rule for the return address. -/
def DwarfCie.inheritsRa (sec : Section) (cie : DwarfCie) : Bool :=
  match cie.marks arch sec with
  | none => false
  | some (now, saved) => now || saved.any id

/-! ## Rules with a hole -/

/-- The rules with another rule for the return address. -/
def CalcRules.withRa (rules : CalcRules) (reg : FrameRegister) : CalcRules :=
  { rules with regs := rules.regs.set .rip reg }

/-- Fill the hole of a marked state. -/
def CalcRules.fill (reg : FrameRegister) (mark : Bool) (rules : CalcRules) : CalcRules :=
  if mark then rules.withRa reg else rules

/-- Fill all holes of a context. -/
def fillCtx (reg : FrameRegister) (marks : Bool × List Bool) (base : CalcCtx (List CalcRules)) :
    CalcCtx (List CalcRules) :=
  ⟨base.rules.fill reg marks.1, List.zipWith (CalcRules.fill reg) marks.2 base.prev⟩

private theorem CalcRules.fill_setReg (reg : FrameRegister) (mark : Bool) (rules : CalcRules)
    (arch : Arch) (regno : Word) (value : FrameRegister) :
    (rules.fill reg mark).setReg arch regno value =
      (rules.setReg arch regno value).fill reg
        (mark && !decide (transRegType arch (toInt regno) = some .rip)) := by
  unfold CalcRules.setReg
  cases htype : transRegType arch (toInt regno) with
  | none => simp
  | some t => cases t <;> cases mark <;> simp [fill, withRa, Columns.set]

/-- An instruction of a CIE treats the hole as a value. -/
theorem execRule_fill {par : InsParams} (hcie : par.inCie = true) (reg : FrameRegister)
    (mark : Bool) (rules : CalcRules) (ins : CfaIns) :
    execRule par (rules.fill reg mark) ins =
      (execRule par rules ins).fill reg (mark && !ins.setsRa par.arch) := by
  cases ins with
  | undefined _ | sameValue _ | offset _ _ | offsetSf _ _ | negativeOffset _ _ | valOffset _ _
  | valOffsetSf _ _ | register _ _ | expression _ _ | valExpression _ _ =>
    exact CalcRules.fill_setReg reg mark rules par.arch _ _
  | restore operand => simp [execRule, CalcRules.restoreReg, hcie, CfaIns.setsRa]
  | _ => cases mark <;> rfl

section Run

variable {sec : Section} {par : InsParams} {fdeEncoding : Byte} {insEnd : Nat}
  {marks : Bool × List Bool} {base : CalcCtx (List CalcRules)}

/-- One instruction on a context with holes: whether it fails does not depend on what fills
them. -/
theorem execIns_fill (hcie : par.inCie = true) (hlen : marks.2.length = base.prev.length)
    (ins : CfaIns) :
    (markRa par.arch marks ins = none ∧
      ∀ reg, execIns savedValues par (fillCtx reg marks base) () ins = .error ()) ∨
    ∃ marks' base', markRa par.arch marks ins = some marks' ∧
      marks'.2.length = base'.prev.length ∧
      ∀ reg, execIns savedValues par (fillCtx reg marks base) () ins =
        .ok (fillCtx reg marks' base', ()) := by
  obtain ⟨now, saved⟩ := marks
  obtain ⟨rules, prev⟩ := base
  by_cases hremember : ins = .rememberState
  · subst hremember
    exact .inr ⟨(now, now :: saved), ⟨rules, rules :: prev⟩, rfl, congrArg Nat.succ hlen,
      fun _ => rfl⟩
  by_cases hrestore : ins = .restoreState
  · subst hrestore
    cases saved with
    | nil => exact .inl ⟨rfl, fun _ => rfl⟩
    | cons mark saved =>
      cases prev with
      | nil => cases hlen
      | cons old prev =>
        exact .inr ⟨(mark, saved), ⟨old, prev⟩, rfl, Nat.succ.inj hlen, fun _ => rfl⟩
  · refine .inr ⟨(now && !ins.setsRa par.arch, saved), ⟨execRule par rules ins, prev⟩, ?_, hlen,
      fun reg => ?_⟩
    · unfold markRa
      split
      · exact absurd rfl hremember
      · exact absurd rfl hrestore
      · rfl
    · rw [execIns_rule savedValues par _ () hremember hrestore]
      simp only [fillCtx, execRule_fill hcie]

/-- The marks of the rest follow those of the first instruction. -/
theorem readAll_marks {n ins next : Nat} {i : CfaIns} (hlt : ins < insEnd)
    (hread : readIns sec insEnd fdeEncoding ins = some (i, next)) :
    (readAll sec fdeEncoding insEnd (n + 1) ins).bind (List.foldlM (markRa par.arch) marks) =
      (readAll sec fdeEncoding insEnd n next).bind fun is =>
        (markRa par.arch marks i).bind fun marks' => is.foldlM (markRa par.arch) marks' := by
  simp only [readAll, if_pos hlt, hread]
  cases readAll sec fdeEncoding insEnd n next with
  | none => rfl
  | some is => rfl

/-- No location is above the largest pc. -/
theorem not_maxPc_lt (loc : Word) : ¬(-1#64) < loc := by
  intro hlt
  have hlt : (2 ^ 64 - 1 : Nat) < loc.toNat := hlt
  have := loc.isLt
  omega

/-- An instruction that is executed leads to the next turn. -/
theorem insTurn_maxPc {s : InsState Unit (List CalcRules)} {i : CfaIns} {next : Nat}
    {ctx : CalcCtx (List CalcRules)} (hlt : s.ins < insEnd)
    (hread : readIns sec insEnd fdeEncoding s.ins = some (i, next))
    (hexec : execIns savedValues par s.ctx s.heap i = .ok (ctx, ())) :
    insTurn savedValues sec par fdeEncoding insEnd (-1#64) s =
      .next ⟨next, (execLoc par s.loc i).getD s.loc, ctx, ()⟩ := by
  simp only [insTurn, if_pos hlt, hread, hexec]
  cases execLoc par s.loc i with
  | none => rfl
  | some loc => exact if_neg (not_maxPc_lt loc)

/-- Whether the whole run is accepted, and where the holes are, follows from the decoded
instructions. -/
theorem runIns_fill (sec : Section) (fdeEncoding : Byte) (insEnd : Nat) (hcie : par.inCie = true)
    (n ins : Nat) (loc : Word) (hn : insEnd - ins ≤ n) (marks : Bool × List Bool)
    (base : CalcCtx (List CalcRules)) (hlen : marks.2.length = base.prev.length) :
    ((readAll sec fdeEncoding insEnd n ins).bind (List.foldlM (markRa par.arch) marks) = none ∧
      ∀ reg, (loop (insTurn savedValues sec par fdeEncoding insEnd (-1#64)) insOut n
        ⟨ins, loc, fillCtx reg marks base, ()⟩).ok = false) ∨
    ∃ marks' base',
      (readAll sec fdeEncoding insEnd n ins).bind (List.foldlM (markRa par.arch) marks) =
        some marks' ∧ marks'.2.length = base'.prev.length ∧
      ∀ reg, loop (insTurn savedValues sec par fdeEncoding insEnd (-1#64)) insOut n
        ⟨ins, loc, fillCtx reg marks base, ()⟩ = ⟨true, fillCtx reg marks' base', ()⟩ := by
  induction n generalizing ins loc marks base with
  | zero =>
    have hge : ¬ins < insEnd := by omega
    refine .inr ⟨marks, base, ?_, hlen, fun _ => rfl⟩
    rw [readAll, if_neg hge]
    rfl
  | succ n ih =>
    by_cases hlt : ins < insEnd
    · cases hread : readIns sec insEnd fdeEncoding ins with
      | none =>
        refine .inl ⟨?_, fun reg => ?_⟩
        · simp only [readAll, if_pos hlt, hread, Option.bind_none]
        · rw [loop_stop (r := ⟨false, fillCtx reg marks base, ()⟩)]
          simp only [insTurn, if_pos hlt, hread]
      | some read =>
        obtain ⟨i, next⟩ := read
        have hprogress := (readIns_bounds hlt hread).1
        rcases execIns_fill hcie hlen i with ⟨hmark, hexec⟩ | ⟨marks', base', hmark, hlen', hexec⟩
        · refine .inl ⟨?_, fun reg => ?_⟩
          · rw [readAll_marks hlt hread, hmark]
            exact Option.bind_fun_none _
          · rw [loop_stop (r := ⟨false, fillCtx reg marks base, ()⟩)]
            simp only [insTurn, if_pos hlt, hread, hexec]
        · have hturn (reg : FrameRegister) : insTurn savedValues sec par fdeEncoding insEnd (-1#64)
              ⟨ins, loc, fillCtx reg marks base, ()⟩ =
              .next ⟨next, (execLoc par loc i).getD loc, fillCtx reg marks' base', ()⟩ :=
            insTurn_maxPc hlt hread (hexec reg)
          simp only [readAll_marks hlt hread, hmark, Option.bind_some, loop_next (hturn _)]
          exact ih next _ (by omega) marks' base' hlen'
    · refine .inr ⟨marks, base, ?_, hlen, fun reg => ?_⟩
      · rw [readAll, if_neg hlt]
        rfl
      · rw [loop_stop (r := ⟨true, fillCtx reg marks base, ()⟩)]
        simp only [insTurn, if_neg hlt]

end Run

/-! ## The default rules -/

/-- The instruction only changes the current rules. -/
def CfaIns.plain : CfaIns → Bool
  | .advanceLoc _ | .setLoc _ | .rememberState | .restoreState => false
  | _ => true

/-- A stream of such instructions is a fold over the rules. -/
theorem runIns_plain {H P : Type} (S : SavedStates H P) {sec : Section} (par : InsParams)
    {fdeEncoding : Byte} {insEnd : Nat} (findPc : Word) (n : Nat) {s : InsState H P}
    {is : List CfaIns} (hread : readAll sec fdeEncoding insEnd n s.ins = some is)
    (hplain : ∀ i ∈ is, i.plain = true) :
    loop (insTurn S sec par fdeEncoding insEnd findPc) insOut n s =
      ⟨true, { s.ctx with rules := is.foldl (execRule par) s.ctx.rules }, s.heap⟩ := by
  induction n generalizing s is with
  | zero =>
    unfold readAll at hread
    split at hread
    · cases hread
    · cases hread
      rfl
  | succ n ih =>
    unfold readAll at hread
    split at hread
    · rename_i hlt
      split at hread
      · cases hread
      rename_i i next hins
      obtain ⟨rest, hrest, rfl⟩ := Option.map_eq_some_iff.mp hread
      have hi := hplain i List.mem_cons_self
      have hloc : execLoc par s.loc i = none := by cases i <;> first | rfl | cases hi
      have hexec : execIns S par s.ctx s.heap i =
          .ok (⟨execRule par s.ctx.rules i, s.ctx.prev⟩, s.heap) :=
        execIns_rule S par s.ctx s.heap (by rintro rfl; cases hi) (by rintro rfl; cases hi)
      have hturn : insTurn S sec par fdeEncoding insEnd findPc s =
          .next ⟨next, s.loc, ⟨execRule par s.ctx.rules i, s.ctx.prev⟩, s.heap⟩ := by
        simp only [insTurn, if_pos hlt, hins, hexec, hloc]
      rw [loop_next hturn]
      exact ih hrest fun j hj => hplain j (List.mem_cons_of_mem i hj)
    · rename_i hge
      cases hread
      exact loop_stop (by simp only [insTurn, if_neg hge]; rfl) _ _

/-- `_default_init_cfi` decoded. -/
def defaultIns : Arch → List CfaIns
  | .x86 => [.defCfa 7#64 8#64, .offset 16#64 1#64, .sameValue 6#64, .valOffset 7#64 0#64]
  | .arm64 => [.sameValue 6#64, .valOffset 7#64 0#64]

variable (cie : Cie (List CalcRules))

private theorem defaultRules_none :
    (defaultRules savedValues arch cie none ()).1 =
      (defaultIns arch).foldl (execRule (cie.params arch (defaultSection arch).dBuf)) .zero := by
  have hread : readAll (defaultSection arch) cie.fdeEncoding (defaultSection arch).fin
      ((defaultSection arch).fin - (defaultSection arch).dBuf) (defaultSection arch).dBuf =
      some (defaultIns arch) := by
    cases arch <;> rfl
  have hplain : ∀ i ∈ defaultIns arch, i.plain = true := by cases arch <;> decide
  have hrun := runIns_plain savedValues (cie.params arch (defaultSection arch).dBuf) (-1#64) _
    (s := ⟨(defaultSection arch).dBuf, 0#64, ⟨.zero, []⟩, ()⟩) hread hplain
  exact congrArg (fun r => r.ctx.rules) hrun

/-- The default rules of x86_64 with a hole for the return address. -/
def defaultBase : CalcRules :=
  ⟨.offset, CfaData.zero.setBregx 7#64 8#64,
    ⟨.of .unspecified 0#64, .of .sameValue 0#64, .of .valOffset 0#64⟩⟩

private theorem defaultRules_x86 :
    (defaultRules savedValues .x86 cie none ()).1 =
      defaultBase.withRa (.of .offset cie.dataAlignmentFactor) := by
  have hone : 1#64 * cie.dataAlignmentFactor = cie.dataAlignmentFactor := BitVec.one_mul _
  have hzero : 0#64 * cie.dataAlignmentFactor = 0#64 := BitVec.zero_mul
  rw [defaultRules_none, ← hone]
  change (⟨.offset, CfaData.zero.setBregx 7#64 8#64, ⟨.of .offset (1#64 * cie.dataAlignmentFactor),
    .of .sameValue 0#64, .of .valOffset (0#64 * cie.dataAlignmentFactor)⟩⟩ : CalcRules) = _
  rw [hzero]
  rfl

/-- On arm64 the default instructions name no unwound register. -/
theorem defaultRules_arm64 : (defaultRules savedValues .arm64 cie none ()).1 = .zero := by
  rw [defaultRules_none]
  rfl

/-! ## Two histories -/

/-- The rules a CIE ends with are those of its marks, with the holes filled by the default
rule. -/
theorem initCieFromBuf_fill (sec : Section) (cieOff : Word) (cie : DwarfCie) (base : CalcRules) :
    (cie.marks arch sec = none ∧ ∀ reg, (initCieFromBuf savedValues arch sec cieOff cie
      (some (base.withRa reg)) ()).cie = none) ∨
    ∃ marks base', cie.marks arch sec = some marks ∧ marks.2.length = base'.prev.length ∧
      ∀ reg, (initCieFromBuf savedValues arch sec cieOff cie (some (base.withRa reg)) ()).cie =
        some { cieHeader savedValues sec cieOff cie with
          cieCalcCtx := fillCtx reg marks base' } := by
  let header := cieHeader savedValues sec cieOff cie
  have hcie : (header.params arch header.initialInstructions).inCie = true := decide_eq_true rfl
  have hfill : ∀ reg, (initCieFromBuf savedValues arch sec cieOff cie
      (some (base.withRa reg)) ()).cie =
      let run := loop (insTurn savedValues sec (header.params arch header.initialInstructions)
        header.fdeEncoding header.initialInstructionsEnd (-1#64)) insOut
        (header.initialInstructionsEnd - header.initialInstructions)
        ⟨header.initialInstructions, 0#64, fillCtx reg (true, []) ⟨base, []⟩, ()⟩
      if run.ok then some { header with cieCalcCtx := run.ctx } else none := fun _ => rfl
  rcases runIns_fill sec header.fdeEncoding header.initialInstructionsEnd hcie _
    header.initialInstructions 0#64 (Nat.le_refl _) (true, []) ⟨base, []⟩ rfl with
    ⟨hmarks, hrun⟩ | ⟨marks, base', hmarks, hlen, hrun⟩
  · refine .inl ⟨hmarks, fun reg => ?_⟩
    rw [hfill]
    simp only [hrun, Bool.false_eq_true, if_false]
  · refine .inr ⟨marks, base', hmarks, hlen, fun reg => ?_⟩
    rw [hfill]
    simp only [hrun, if_true]
    rfl

variable {reg reg' : FrameRegister}

/-- Two fillings of one state differ when it has the hole. -/
theorem CalcRules.fill_eq_iff {mark : Bool} {rules : CalcRules} :
    rules.fill reg mark = rules.fill reg' mark ↔ reg = reg' ∨ mark = false := by
  cases mark with
  | false => simp [fill]
  | true =>
    refine ⟨fun h => .inl ?_, fun h => ?_⟩
    · exact congrArg (fun r : CalcRules => r.regs.rip) h
    · rw [h.resolve_right Bool.false_ne_true.symm]

private theorem zipWith_fill_eq_iff {saved : List Bool} {prev : List CalcRules}
    (hlen : saved.length = prev.length) :
    List.zipWith (CalcRules.fill reg) saved prev = List.zipWith (CalcRules.fill reg') saved prev ↔
      reg = reg' ∨ saved.any id = false := by
  induction saved generalizing prev with
  | nil => simp
  | cons mark saved ih =>
    cases prev with
    | nil => cases hlen
    | cons rules prev =>
      have hmarks : (mark :: saved).any id = false ↔ mark = false ∧ saved.any id = false := by
        rw [List.any_cons, Bool.or_eq_false_iff]
        rfl
      rw [List.zipWith_cons_cons, List.zipWith_cons_cons, List.cons.injEq, CalcRules.fill_eq_iff,
        ih (Nat.succ.inj hlen), hmarks, or_and_left]

/-- Two fillings of a context differ when a state has the hole. -/
theorem fillCtx_eq_iff {marks : Bool × List Bool} {base : CalcCtx (List CalcRules)}
    (hlen : marks.2.length = base.prev.length) :
    fillCtx reg marks base = fillCtx reg' marks base ↔
      reg = reg' ∨ (marks.1 || marks.2.any id) = false := by
  rw [fillCtx, fillCtx, CalcCtx.mk.injEq, CalcRules.fill_eq_iff, zipWith_fill_eq_iff hlen,
    Bool.or_eq_false_iff, or_and_left]

/-- What a CIE is initialised to is the same whether or not another CIE came before it, if and
only if the default rules do not differ or the CIE keeps none of what differs. -/
theorem initCieFromBuf_history_independent_iff (arch : Arch) (sec sec' : Section)
    (cieOff cieOff' : Word) (first cie : DwarfCie) :
    (initCieFromBuf savedValues arch sec cieOff cie
        (initCieFromBuf savedValues arch sec' cieOff' first none ()).defaults ()).cie =
      (initCieFromBuf savedValues arch sec cieOff cie none ()).cie ↔
    arch = .arm64 ∨
      first.dataAlignmentFactor.setWidth 61 = cie.dataAlignmentFactor.setWidth 61 ∨
      cie.inheritsRa arch sec = false := by
  have hafter : (initCieFromBuf savedValues arch sec' cieOff' first none ()).defaults = some
      (defaultRules savedValues arch (cieHeader savedValues sec' cieOff' first) none ()).1 := rfl
  have halone : (initCieFromBuf savedValues arch sec cieOff cie none ()).cie =
      (initCieFromBuf savedValues arch sec cieOff cie (some (defaultRules savedValues arch
        (cieHeader savedValues sec cieOff cie) none ()).1) ()).cie := rfl
  rw [hafter, halone]
  cases arch with
  | arm64 => simp only [defaultRules_arm64, true_or]
  | x86 =>
    have hfield : FrameRegister.of .offset (cieHeader savedValues sec' cieOff'
          first).dataAlignmentFactor =
        FrameRegister.of .offset (cieHeader savedValues sec cieOff cie).dataAlignmentFactor ↔
        first.dataAlignmentFactor.setWidth 61 = cie.dataAlignmentFactor.setWidth 61 :=
      ⟨congrArg FrameRegister.value, congrArg (FrameRegister.mk .offset)⟩
    rw [defaultRules_x86, defaultRules_x86, ← hfield]
    rcases initCieFromBuf_fill .x86 sec cieOff cie defaultBase with
      ⟨hmarks, hnone⟩ | ⟨marks, base, hmarks, hlen, hsome⟩
    · simp only [hnone, DwarfCie.inheritsRa, hmarks, or_true]
    · simp only [hsome, DwarfCie.inheritsRa, hmarks, Option.some.injEq, Cie.mk.injEq, true_and,
        fillCtx_eq_iff hlen, reduceCtorEq, false_or]

/-- A CIE without instructions of its own. -/
def bareCie (dataAlignmentFactor : Word) : DwarfCie where
  codeAlignmentFactor := 1#64
  dataAlignmentFactor := dataAlignmentFactor
  returnAddressRegister := 16#64
  initialInstructions := 0x1000
  initialInstructionsEnd := 0x1000
  augmentation := []
  augmentationData := 0x1000

/-- The return address of the second CIE is looked for at the factor of the first. -/
theorem initCieFromBuf_takes_first_factor :
    let sec := bytesSection [] (by decide)
    let first := initCieFromBuf savedValues .x86 sec 0#64 (bareCie (-4#64)) none ()
    let ra := fun r : CieResult Unit (List CalcRules) =>
      r.cie.map fun cie => cie.cieCalcCtx.rules.regs.rip
    ra (initCieFromBuf savedValues .x86 sec 0#64 (bareCie (-8#64)) none ()) =
      some (.of .offset (-8#64)) ∧
    ra (initCieFromBuf savedValues .x86 sec 0#64 (bareCie (-8#64)) first.defaults ()) =
      some (.of .offset (-4#64)) := by
  decide +kernel

end Gunwinder
