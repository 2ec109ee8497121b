import Gunwinder.Cache.Runs
import Gunwinder.Evaluation.RuleValue
import Gunwinder.Walks.Turn

/-!
# A turn of the DWARF loop is a step of virtual unwinding

The state at the head of a turn stands for three registers. On a row whose rules name these
registers only, a turn with a caller replaces them by what the rules give on the old values,
although the block is written in three places and the rules are read from a cache and from global
lists.
-/

namespace Gunwinder

open Gunwinder.Core

/-- A walk with saved states as values. -/
abbrev ValueWalk := Walk (List CalcRules)

/-- The head of a turn with saved states as values. -/
abbrev ValueState := DwarfState Unit (List CalcRules)

/-- Every cached row is a fresh parse. -/
def cachedRows : CfiProperty (List CalcRules) where
  holds cfi := CacheSound cfi.data cfi.cache
  fresh cfi hcache := hcache ▸ CacheSound.empty cfi.data

/-- Calls keep the cached rows right. -/
theorem cachedRows_kept : cachedRows.Kept savedValues :=
  fun cfi ops heap pc h => (guCfiParseCfiEx_sound ⟨cfi.cache, ops, heap⟩ h pc).2.2

/-! ## The mapping of a pc -/

/-- The mapping a record stands for. -/
def GuContext.mapping (ctx : GuContext (List CalcRules)) (item : Interval (Option MapCtx)) :
    Option Mapping := do
  let mapCtx ← item.payload
  let elfCtx ← ctx.elf mapCtx.elfCtx
  return ⟨item.start, item.fin, item.start - mapCtx.mapExecVirtAddr, elfCtx.guCfi.map GuCfi.data,
    fun pc => isStackBottomSymbol (guLookupElfSymbol elfCtx pc).1⟩

/-- The mappings of the walked process. -/
def Walk.mappings (v : ValueWalk) : List Mapping :=
  match v.entry with
  | .error _ => []
  | .ok pidCtx => pidCtx.items.filterMap v.ctx.mapping

section Locate

variable {P : Type} {v v' : Walk P} {w : World P} {pc : Word}

private theorem PerPidCtx.contains_of_search {pidCtx : PerPidCtx} {item : Interval (Option MapCtx)}
    (h : pidCtx.search pc = some item) : item.Contains pc := by
  unfold PerPidCtx.search at h
  split at h
  · cases h
  · obtain ⟨⟨i, found⟩, hsearch, rfl⟩ := Option.map_eq_some_iff.mp h
    exact (guIntervalArraySearch_sound hsearch).2

/-- The Go hint leaves the sample. -/
theorem hintGolang_sample (pidCtx : PerPidCtx) (info : StackInfo) :
    info.SameSample (hintGolang pidCtx info) := by
  unfold hintGolang
  split <;> exact ⟨rfl, rfl, rfl⟩

private theorem reloadAndSearch_spec (w : World P) (v : Walk P) (pidCtx : PerPidCtx) (pc : Word) :
    (∀ item ∈ (reloadAndSearch w v pidCtx pc).elfItem, item.Contains pc) ∧
      v.info.SameSample (reloadAndSearch w v pidCtx pc).info := by
  unfold reloadAndSearch guReloadPidCtx
  dsimp only
  split
  · rename_i heq
    split at heq
    · obtain ⟨-, rfl, -⟩ := Prod.mk.inj heq
      exact ⟨nofun, rfl, rfl, rfl⟩
    · cases heq
  · rename_i heq
    split at heq
    · cases heq
    · obtain ⟨-, rest⟩ := Prod.mk.inj heq
      cases rest
      exact ⟨fun item hitem => PerPidCtx.contains_of_search hitem, hintGolang_sample _ _⟩

/-- What a search leaves in hand holds the pc, and the sample keeps registers and stack. -/
theorem guSearchPidElfCtx_spec (h : guSearchPidElfCtx w v pc = .ok v') :
    (∀ item ∈ v'.elfItem, item.Contains pc) ∧ v.info.SameSample v'.info := by
  cases hentry : v.entry with
  | error stuck =>
    simp only [guSearchPidElfCtx, hentry, bind, Except.bind] at h
    cases h
  | ok pidCtx =>
    obtain ⟨v'', hsearch, hend⟩ := guSearchPidElfCtx_ends w hentry pc
    cases hsearch.symm.trans h
    have hnone : ∀ item ∈ (none : Option (Interval (Option MapCtx))), item.Contains pc := by
      rintro _ ⟨⟩
    cases hend with
    | found hitem =>
      refine ⟨?_, rfl, rfl, rfl⟩
      rintro _ ⟨⟩
      exact PerPidCtx.contains_of_search hitem
    | missed | postponed | exited => exact ⟨hnone, rfl, rfl, rfl⟩
    | reloaded => exact reloadAndSearch_spec w _ pidCtx pc

/-- The mapping found holds the pc. -/
theorem Walk.locate_spec (h : v.locate w pc = .ok v') :
    (∀ item ∈ v'.elfItem, item.Contains pc) ∧ v.info.SameSample v'.info := by
  unfold Walk.locate at h
  split at h
  · rename_i hcovers
    cases h
    refine ⟨fun item hitem => ?_, rfl, rfl, rfl⟩
    have hitem' : v.elfItem = some item := hitem
    simp only [Walk.covers, hitem', Bool.and_eq_true, decide_eq_true_eq] at hcovers
    exact hcovers.2
  · exact guSearchPidElfCtx_spec h

end Locate

/-- The item in hand is a record of the walked process. -/
theorem Walk.Sound.entry_of_held {P : Type} {Q : CfiProperty P} {v : Walk P} (h : v.Sound Q)
    {item : Interval (Option MapCtx)} (hitem : v.elfItem = some item) :
    ∃ pidCtx, v.entry = .ok pidCtx ∧ item ∈ pidCtx.items := by
  obtain ⟨pid, hpid, pidCtx, hfound, hheld⟩ := h.held item hitem
  exact ⟨pidCtx, Walk.entry_ok hpid hfound, hheld⟩

/-- The entry in hand is that of a mapping that holds the pc. -/
theorem Walk.Sound.located {v : ValueWalk} {pc bias : Word} {elfCtx : PerElfCtx (List CalcRules)}
    (h : v.Sound cachedRows) (hcovers : ∀ item ∈ v.elfItem, item.Contains pc)
    (hmapped : guGetElfCtxFromItem v = .ok (some (elfCtx, bias))) :
    ∃ m ∈ v.mappings, m.Contains pc ∧ m.bias = bias ∧ m.cfi = elfCtx.guCfi.map GuCfi.data ∧
      m.bottom = fun pc => isStackBottomSymbol (guLookupElfSymbol elfCtx pc).1 := by
  unfold guGetElfCtxFromItem at hmapped
  split at hmapped
  · cases hmapped
  rename_i item hitem
  split at hmapped
  · cases hmapped
  rename_i mapCtx hpayload
  split at hmapped
  · cases hmapped
  rename_i elf helf
  obtain ⟨rfl, rfl⟩ := Prod.mk.inj (Option.some.inj (Except.ok.inj hmapped))
  obtain ⟨pidCtx, hentry, hheld⟩ := h.entry_of_held hitem
  have hmapping : v.ctx.mapping item = some ⟨item.start, item.fin,
      item.start - mapCtx.mapExecVirtAddr, elf.guCfi.map GuCfi.data,
      fun pc => isStackBottomSymbol (guLookupElfSymbol elf pc).1⟩ := by
    simp only [GuContext.mapping, hpayload, helf, Option.bind_eq_bind, Option.bind_some,
      Option.pure_def]
  have hmappings : v.mappings = pidCtx.items.filterMap v.ctx.mapping := by
    simp only [Walk.mappings, hentry]
  have hmem := List.mem_filterMap.mpr ⟨item, hheld, hmapping⟩
  rw [← hmappings] at hmem
  exact ⟨_, hmem, hcovers item hitem, rfl, rfl, rfl⟩

/-! ## The row of a pc -/

/-- Through its caches a walk reads the row a fresh parse gives. -/
theorem parseElf_fresh {cfi : GuCfi (List CalcRules)} (h : CacheSound cfi.data cfi.cache)
    (ctx : GuContext (List CalcRules)) (globals : Globals Unit) (id : Nat) (pc : Word) :
    (parseElf savedValues ctx globals id cfi pc).1 = freshParse cfi.data pc ∧
      (parseElf savedValues ctx globals id cfi pc).2.2.ops = (freshParse cfi.data pc).ops := by
  obtain ⟨hout, hops, -⟩ := guCfiParseCfiEx_sound ⟨cfi.cache, globals.ops, globals.heap⟩ h pc
  exact ⟨hout, hops⟩

/-- A parse succeeds on a row whose operations can be listed. -/
theorem freshParse_ok {cfi : ValueCfi} {pc : Word} (h : (freshParse cfi pc).ok = true) :
    ∃ rules, freshRow cfi pc = some (rules, (freshParse cfi pc).signalFrame) ∧
      rowOps cfi.sec rules = some (freshParse cfi pc).ops := by
  cases hfind : findFde cfi pc with
  | none => simp [freshParse, parseMiss, hfind] at h
  | some found =>
    obtain ⟨fde, cie⟩ := found
    simp only [freshParse, parseMiss, freshRow, hfind] at h ⊢
    split at h
    · rename_i hrun
      rw [if_pos hrun]
      split at h
      · cases h
      · rename_i ops hops
        simp only [hrun, if_true]
        exact ⟨_, rfl, hops⟩
    · cases h

variable {sec : Section} {rules : CalcRules} {ops : Scratch} {env : EvalEnv}

/-- The lists of a row. -/
theorem rowOps_columns (h : rowOps sec rules = some ops) :
    guCfiGetCfaOps sec.mem rules = some ops.cfa ∧
      ops.regs.rip = (guCfiGetRegsOps sec .rip rules).getD [] ∧
      ops.regs.rbp = (guCfiGetRegsOps sec .rbp rules).getD [] ∧
      ops.regs.rsp = (guCfiGetRegsOps sec .rsp rules).getD ops.cfa := by
  unfold rowOps at h
  split at h
  · cases h
  · rename_i cfa hcfa
    cases h
    exact ⟨hcfa, rfl, rfl, rfl⟩

/-- A column without operations has no value. -/
theorem ruleValue_eq_column (type : RegType) :
    ruleValue env sec ops.cfa rules type =
      opsValue env ops.cfa ((guCfiGetRegsOps sec type rules).getD []) := by
  rw [ruleValue_eq_opsValue]
  cases guCfiGetRegsOps sec type rules with
  | none => exact opsValue_nil.symm
  | some list => rfl

/-- A lenient unwinder takes the stack pointer from its column. -/
theorem RefWorld.spValue_eq_column {w : RefWorld} (hlenient : w.lenient = true) :
    w.spValue env sec ops.cfa rules =
      opsValue env ops.cfa ((guCfiGetRegsOps sec .rsp rules).getD ops.cfa) := by
  unfold RefWorld.spValue
  cases hops : guCfiGetRegsOps sec .rsp rules with
  | none =>
    rw [if_pos (.inr ⟨hlenient, rfl⟩)]
    exact opsValue_self.symm
  | some list =>
    have hrecovers : rules.regs.rsp.rule.recovers = true := by
      by_contra hnot
      have hnone : guCfiGetRegsOps sec .rsp rules = none :=
        guCfiGetRegsOps_of_not_recovers (Bool.eq_false_iff.mpr hnot)
      rw [hnone] at hops
      cases hops
    rw [if_neg (by simp [hrecovers])]
    rw [ruleValue_eq_column, hops]
    rfl

/-- The caller by the lists of a row. -/
def Scratch.caller (ops : Scratch) (env : EvalEnv) (bp : Word) (signalFrame : Bool) :
    Option RefState := do
  let ra ← opsValue env ops.cfa ops.regs.rip
  let sp ← opsValue env ops.cfa ops.regs.rsp
  return ⟨ra, sp, (opsValue env ops.cfa ops.regs.rbp).getD bp, signalFrame⟩

/-- A lenient unwinder reads the caller off the lists of the row. -/
theorem RefWorld.caller_eq {w : RefWorld} {s : RefState} {m : Mapping} {cfi : ValueCfi}
    (hlenient : w.lenient = true) (hcfi : m.cfi = some cfi)
    (hok : (freshParse cfi (w.lookupPc s m.bias)).ok = true) :
    w.caller s m = (freshParse cfi (w.lookupPc s m.bias)).ops.caller (w.env s m.bias) s.bp
      (freshParse cfi (w.lookupPc s m.bias)).signalFrame := by
  obtain ⟨rules, hrow, hops⟩ := freshParse_ok hok
  obtain ⟨hcfa, hrip, hrbp, hrsp⟩ := rowOps_columns hops
  simp only [RefWorld.caller, hcfi, hrow, hcfa, Option.bind_eq_bind, Option.bind_some,
    ruleValue_eq_column, RefWorld.spValue_eq_column hlenient, Scratch.caller, hrip, hrbp, hrsp]

/-! ## What the loop recovers -/

/-- On the lists of a row `gen_reg` evaluates the column of its register. -/
theorem guCfiGetOps_column (hrow : rowOps sec rules = some ops) (type : RegType) :
    guCfiGetOps ops (some type) false = some (ops.regs.get type) := by
  obtain ⟨-, -, -, hrsp⟩ := rowOps_columns hrow
  unfold guCfiGetOps
  dsimp only
  split
  · rename_i h
    obtain ⟨rfl, hnil⟩ : type = .rsp ∧ ops.regs.get type = [] := by simpa using h
    -- an empty column is that of a stack pointer without a rule, and then the CFA list
    cases hops : guCfiGetRegsOps sec .rsp rules with
    | none => rw [Columns.get, hrsp, hops, Option.getD_none]
    | some list =>
      rw [Columns.get, hrsp, hops, Option.getD_some] at hnil
      exact absurd hnil (guCfiGetRegsOps_ne_nil hops)
  · rfl

variable {globals globals' : Globals Unit} {depth : Nat}

/-- A recovered register has its column's value. -/
theorem recoverReg_column {regno : Nat} {type : RegType} {result : Except UnwindReason Word}
    (hrow : rowOps sec rules = some globals.ops)
    (htype : transRegType env.target.arch regno = some type)
    (h : recoverReg depth env globals regno = .ok (result, globals')) :
    result.toOption = opsValue env globals.ops.cfa (globals.ops.regs.get type) ∧
      globals'.ops = globals.ops := by
  unfold recoverReg at h
  split at h
  · cases h
  rename_i result' oor hgen
  cases h
  refine ⟨genReg_value ?_ hgen, rfl⟩
  rw [htype]
  exact guCfiGetOps_column hrow type

variable (arch : Arch)

/-- The column of the return address. -/
theorem transRegType_pcRegno : transRegType arch arch.pcRegno = some .rip := by
  cases arch <;> rfl

/-- The column of the stack pointer. -/
theorem transRegType_regNameRsp : transRegType arch arch.regNameRsp = some .rsp := by
  cases arch <;> rfl

private theorem transRegType_regNameRbp : transRegType arch arch.regNameRbp = some .rbp := by
  cases arch <;> rfl

/-- Unless the sampled register stands in for it, a return address that goes through is the
value of its rule. -/
theorem orSampled_ok {arch : Arch} {info : StackInfo} {initialFrame : Bool}
    {ra : Except UnwindReason Word} {val : Word}
    (h : orSampled arch info initialFrame ra = .ok val)
    (hvalue : initialFrame = true → ra.toOption.isSome) : ra = .ok val := by
  unfold orSampled at h
  cases ra with
  | ok val' => exact h
  | error reason =>
    dsimp only at h
    split at h
    · cases hvalue rfl
    · cases h

/-- The recovered registers are those of the caller by the lists of the row. -/
theorem recoverCaller_value {initialFrame : Bool} {r : Recovered}
    (hrow : rowOps sec rules = some globals.ops)
    (h : recoverCaller depth env initialFrame globals = .ok (.ok r, globals'))
    (hvalue : initialFrame = true →
      (opsValue env globals.ops.cfa globals.ops.regs.rip).isSome) (bp : Word)
    (signalFrame : Bool) :
    globals.ops.caller env bp signalFrame =
      some ⟨r.ra, r.sp, r.bp.toOption.getD bp, signalFrame⟩ := by
  obtain ⟨ra, globals₁, globals₂, hra, hsampled, hsp, hbp⟩ := recoverCaller_ok h
  obtain ⟨hra, h₁⟩ := recoverReg_column hrow (transRegType_pcRegno _) hra
  obtain ⟨hsp, h₂⟩ := recoverReg_column (h₁ ▸ hrow) (transRegType_regNameRsp _) hsp
  obtain ⟨hbp, -⟩ := recoverReg_column (h₂ ▸ h₁ ▸ hrow) (transRegType_regNameRbp _) hbp
  rw [h₂, h₁] at hbp
  rw [h₁] at hsp
  obtain rfl := orSampled_ok hsampled fun hinitial => hra ▸ hvalue hinitial
  simp only [Columns.get, Except.toOption] at hra hsp hbp
  simp only [Scratch.caller, ← hra, ← hsp, ← hbp, Option.bind_eq_bind, Option.bind_some,
    Except.toOption, Option.pure_def]

/-! ## The three registers -/

/-- The lists of a row name tracked registers only. -/
def Scratch.Tracked (ops : Scratch) : Prop :=
  OpsTracked arch ops.cfa ∧ ∀ type, OpsTracked arch (ops.regs.get type)

/-- The caller depends on the tracked registers only. -/
theorem EvalEnv.Agrees.caller {env' : EvalEnv} (h : env.Agrees env')
    (hops : ops.Tracked env.target.arch) (bp : Word) (signalFrame : Bool) :
    ops.caller env bp signalFrame = ops.caller env' bp signalFrame := by
  have hcolumn (type) := h.opsValue hops.1 (hops.2 type)
  have hrip := hcolumn .rip
  have hrsp := hcolumn .rsp
  have hrbp := hcolumn .rbp
  simp only [Columns.get] at hrip hrsp hrbp
  simp only [Scratch.caller, hrip, hrsp, hrbp]

/-- The head of turn `k` stands for a state of the reference unwinder. -/
structure Simulates (snapshot : StackInfo) (k : Nat) (s : ValueState) (r : RefState) : Prop where
  sound : s.walk.Sound cachedRows
  count : s.loopCount = k
  pc : s.pc = r.pc
  exactPc : r.exactPc = (s.loopCount == 0 || s.currentSignalFrame)
  stackSize : s.walk.info.stackSize = snapshot.stackSize
  stackData : s.walk.info.stackData = snapshot.stackData
  block : s.walk.info.regs.isSome
  regs : ∀ n, arch.Tracked n → getRegs arch s.walk.info n = some (r.block arch n)

/-- A tracked register is one of the build. -/
theorem Arch.Tracked.lt {arch : Arch} {n : Nat} (h : arch.Tracked n) : n < arch.regCount := by
  obtain rfl | rfl | ⟨rfl, -⟩ := h <;> cases arch <;> decide

/-- The registers of a reference state as a sample. -/
theorem RefWorld.env_getRegs (w : RefWorld) (r : RefState) (bias : Word) {n : Nat}
    (h : w.target.arch.Tracked n) :
    (w.env r bias).getRegs n = some (r.block w.target.arch n) := by
  have hlt : ¬((w.target.arch.regCount : Int) ≤ n) := by
    have := h.lt
    omega
  simp only [RefWorld.env, EvalEnv.getRegs, getRegs, Int.natCast_nonneg, Int.not_lt.mpr, if_false,
    Int.toNat_natCast]
  exact if_neg hlt

/-- The reference unwinder on the sample a walk starts with. -/
def UnwindEnv.refWorld {H P : Type} (e : UnwindEnv H P) (start : DwarfState H P)
    (tables : Nat → List Mapping) (lenient : Bool) : RefWorld :=
  ⟨e.target, start.walk.info, start.sp, tables, lenient⟩

section Step

variable {e : UnwindEnv Unit (List CalcRules)} {start s : ValueState} {k : Nat} {r : RefState}
  (tables : Nat → List Mapping)

/-- Both look the row up at the same pc. -/
theorem Simulates.lookupPc (h : Simulates e.target.arch start.walk.info k s r) (bias : Word) :
    s.lookupPc bias = (e.refWorld start tables true).lookupPc r bias := by
  simp only [DwarfState.lookupPc, guFrameLookupPcForReturnAddress, RefWorld.lookupPc,
    UnwindEnv.refWorld, h.exactPc, h.pc, beq_iff_eq, Bool.or_eq_true, true_and]
  by_cases hexact : s.loopCount = 0 ∨ s.currentSignalFrame = true
  · rw [if_pos (.inl hexact), if_pos hexact]
  rw [if_neg hexact]
  by_cases hzero : r.pc - bias = 0#64
  · rw [if_pos (.inr hzero), if_pos hzero, hzero]
  · rw [if_neg (not_or.mpr ⟨hexact, hzero⟩), if_neg hzero]

/-- Both evaluate on the same stack and, where it matters, on the same registers. -/
theorem Simulates.agrees (h : Simulates e.target.arch start.walk.info k s r) {info : StackInfo}
    (hsame : s.walk.info.SameSample info) (bias : Word) :
    EvalEnv.Agrees ⟨e.target, bias, start.sp, info⟩
      ((e.refWorld start tables true).env r bias) := by
  refine ⟨rfl, rfl, rfl, hsame.stackSize.trans h.stackSize, hsame.stackData.trans h.stackData, ?_⟩
  intro n hn
  have hinfo : getRegs e.target.arch info n = getRegs e.target.arch s.walk.info n := by
    simp only [getRegs, hsame.regs]
  rw [RefWorld.env_getRegs (e.refWorld start tables true) r bias hn]
  exact hinfo.trans (h.regs n hn)

/-- Writing the frame pointer keeps the rest of the sample. -/
theorem writeFramePointer_sample (info : StackInfo) (bp : Except UnwindReason Word) :
    (writeFramePointer arch info bp).regs.isSome = info.regs.isSome ∧
      (writeFramePointer arch info bp).stackSize = info.stackSize ∧
      (writeFramePointer arch info bp).stackData = info.stackData := by
  cases bp with
  | ok bp => exact ⟨writeRegs_isSome .., writeRegs_stackSize .., writeRegs_stackData ..⟩
  | error reason => exact ⟨rfl, rfl, rfl⟩

/-- Frame pointer, stack pointer and pc are written to the block in three places. -/
theorem Caller.info_regs (c : Caller e start.sp s) (hblock : c.walk.info.regs.isSome)
    (hregs : ∀ n, e.target.arch.Tracked n →
      getRegs e.target.arch c.walk.info n = some (r.block e.target.arch n))
    (signalFrame : Bool) {n : Nat} (hn : e.target.arch.Tracked n) :
    getRegs e.target.arch c.info n = some (RefState.block e.target.arch
      ⟨c.recovered.ra, c.recovered.sp, c.recovered.bp.toOption.getD r.bp, signalFrame⟩ n) := by
  have hbp (n : Nat) (hn : e.target.arch.Tracked n) : getRegs e.target.arch
      (writeFramePointer e.target.arch c.walk.info c.recovered.bp) n =
        if n = e.target.arch.regNameRbp then some (c.recovered.bp.toOption.getD r.bp)
        else some (r.block e.target.arch n) := by
    cases c.recovered.bp with
    | ok bp =>
      rw [writeFramePointer, getRegs_writeRegs hblock (Arch.Tracked.lt (.inr (.inl rfl))),
        hregs n hn]
      rfl
    | error reason =>
      rw [writeFramePointer, hregs n hn]
      split
      · rename_i heq
        subst heq
        cases e.target.arch <;> rfl
      · rfl
  have hblock' := (writeFramePointer_sample e.target.arch c.walk.info c.recovered.bp).1.trans hblock
  have hpc : e.target.arch.pcRegno < e.target.arch.regCount := by
    cases e.target.arch <;> decide
  rw [Caller.info, getRegs_writeRegs (by simpa only [writeRegs_isSome] using hblock') hpc,
    getRegs_writeRegs hblock' (Arch.Tracked.lt (.inl rfl)), hbp n hn]
  obtain rfl | rfl | ⟨rfl, hrip⟩ := hn
  · cases e.target.arch <;> rfl
  · cases e.target.arch <;> rfl
  · rw [if_pos hrip.symm]
    cases e.target.arch <;> rfl

/-- The head of the next turn stands for the recovered registers. -/
theorem Simulates.caller (h : Simulates e.target.arch start.walk.info k s r)
    (hkept : cachedRows.Kept e.saved) (hverbose : e.verbose = true) (c : Caller e start.sp s) :
    Simulates e.target.arch start.walk.info (k + 1) c.next ⟨c.recovered.ra, c.recovered.sp,
      c.recovered.bp.toOption.getD r.bp, c.outcome.signalFrame⟩ := by
  obtain ⟨-, hsame⟩ := Walk.locate_spec c.located
  obtain ⟨hsome, hsize, hdata⟩ := writeFramePointer_sample e.target.arch c.walk.info c.recovered.bp
  have hblock : c.walk.info.regs.isSome := hsame.regs ▸ h.block
  have hturn := dwarfTurn_keeps (Walk.Sound.invariant e.world hkept) start.sp s h.sound
  rw [c.turn] at hturn
  have hcount : c.next.loopCount = s.loopCount + 1 := by simp only [Caller.next, hverbose, if_true]
  refine ⟨hturn, hcount.trans (congrArg (· + 1) h.count), rfl, ?_, ?_, ?_, ?_, ?_⟩
  · rw [hcount]
    rfl
  · simp only [Caller.next, Caller.info, writeRegs_stackSize, hsize]
    exact hsame.stackSize.trans h.stackSize
  · simp only [Caller.next, Caller.info, writeRegs_stackData, hdata]
    exact hsame.stackData.trans h.stackData
  · simpa only [Caller.next, Caller.info, writeRegs_isSome, hsome] using hblock
  · intro n hn
    refine c.info_regs hblock (fun n hn => ?_) _ hn
    have hregs := h.regs n hn
    simpa only [getRegs, hsame.regs] using hregs

/-- A turn with a caller is a step of the lenient reference unwinder, by a mapping that holds
the pc. -/
theorem Simulates.step (h : Simulates e.target.arch start.walk.info k s r)
    (hsaved : e.saved = savedValues) (c : Caller e start.sp s)
    (hrow : ∀ m ∈ c.walk.mappings, m.Contains r.pc → ∀ cfi ∈ m.cfi,
      let row := freshParse cfi ((e.refWorld start tables true).lookupPc r m.bias)
      row.ok = true → row.ops.Tracked e.target.arch ∧ (k = 0 → (opsValue
        ((e.refWorld start tables true).env r m.bias) row.ops.cfa row.ops.regs.rip).isSome)) :
    ∃ m ∈ c.walk.mappings, m.Contains r.pc ∧
      (e.refWorld start tables true).caller r m = some ⟨c.recovered.ra, c.recovered.sp,
        c.recovered.bp.toOption.getD r.bp, c.outcome.signalFrame⟩ := by
  have hlocate := h.sound.locate e.world s.pc
  rw [c.located] at hlocate
  have hsound := hlocate.1
  obtain ⟨hcovers, hsame⟩ := Walk.locate_spec c.located
  rw [h.pc] at hcovers
  obtain ⟨m, hm, hcontains, hbias, hcfi, -⟩ := hsound.located hcovers c.mapped
  have helf := hsound.elfCtx
  rw [c.mapped] at helf
  rw [c.has_cfi, Option.map_some] at hcfi
  -- the row the loop works on is the one the reference unwinder looks up
  have hpc : (e.refWorld start tables true).lookupPc r m.bias = s.lookupPc c.bias := by
    rw [hbias, h.lookupPc tables]
  obtain ⟨hout, hops⟩ := parseElf_fresh (hsound.refs.cfis _ (helf _ rfl) c.cfi c.has_cfi)
    c.walk.ctx s.globals c.elfCtx.id (s.lookupPc c.bias)
  rw [← hsaved] at hout hops
  have hok := c.parsed
  rw [hout] at hok
  obtain ⟨rules, -, hrules⟩ := freshParse_ok hok
  obtain ⟨htracked, hvalue⟩ := hrow m hm hcontains c.cfi.data hcfi (hpc ▸ hok)
  have hagrees := h.agrees tables hsame m.bias
  rw [hpc] at htracked hvalue
  refine ⟨m, hm, hcontains, ?_⟩
  rw [RefWorld.caller_eq rfl hcfi (hpc ▸ hok), hpc, ← hagrees.caller htracked]
  have hrip := hagrees.opsValue htracked.1 (htracked.2 .rip)
  simp only [Columns.get] at hrip
  rw [← hrip] at hvalue
  rw [← hops] at hrules hvalue ⊢
  rw [hbias] at hvalue ⊢
  rw [Caller.outcome, ← hout]
  refine recoverCaller_value hrules c.recovers (fun hinitial => hvalue ?_) r.bp _
  rw [← h.count]
  exact eq_of_beq hinitial

end Step

end Gunwinder
