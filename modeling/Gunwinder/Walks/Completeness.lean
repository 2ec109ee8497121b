import Mathlib.Data.List.Chain
import Gunwinder.Walks.Refinement
import Gunwinder.Walks.Tables

/-!
# Complete walks

The reverse of the refinement. A chain of the reference unwinder, with a larger stack pointer
in every caller, is emitted by the DWARF loop as a whole unless two return addresses that
follow each other are equal: the guard against walking in circles takes a function that calls
itself from one place for a circle.
-/

namespace Gunwinder

open Gunwinder.Core

/-! ## Evaluation of a row with a CFA -/

section Recover

variable {env : EvalEnv} {depth : Nat} {globals : Globals Unit}

private theorem not_reachesCall_of_cfaValue {cfaOps : List DwarfOp}
    (h : (cfaValue env cfaOps).isSome) : ¬ReachesCall env cfaOps := by
  intro hreach
  have hnone : cfaValue env cfaOps = none := evalBody_value_of_reachesCall (fun _ => rfl) hreach
  rw [hnone] at h
  cases h

/-- With a CFA every register is recovered or given up. -/
theorem recoverReg_returns (hcfa : (cfaValue env globals.ops.cfa).isSome) (hdepth : 2 ≤ depth)
    (regno : Nat) :
    ∃ result globals', recoverReg depth env globals regno = .ok (result, globals') ∧
      ∀ reason, result = .error reason → reason ≠ .noProgress := by
  obtain ⟨depth, rfl⟩ := Nat.exists_eq_add_of_le' hdepth
  obtain ⟨⟨result, oor⟩, hgen⟩ :
      ∃ result, ∀ d, genReg env globals.ops (d + 2) regno globals.oor = some result :=
    genReg_stable (fun _ _ hreach => not_reachesCall_of_cfaValue hcfa hreach.2) globals.oor
  refine ⟨result, { globals with oor := oor }, ?_, ?_⟩
  · simp only [recoverReg, hgen depth]
  · rintro _ rfl rfl
    exact absurd (genReg_error_mem (hgen depth)) (by decide)

/-- With a CFA the caller is recovered, or given up when the reference unwinder has none. -/
theorem recoverCaller_returns {sec : Section} {rules : CalcRules} {initialFrame : Bool}
    (hrow : rowOps sec rules = some globals.ops) (hcfa : (cfaValue env globals.ops.cfa).isSome)
    (hdepth : 2 ≤ depth)
    (hvalue : initialFrame = true → (opsValue env globals.ops.cfa globals.ops.regs.rip).isSome) :
    ∃ result globals', recoverCaller depth env initialFrame globals = .ok (result, globals') ∧
      ∀ reason, result = .error reason → reason ≠ .noProgress ∧
        ∀ bp signalFrame, globals.ops.caller env bp signalFrame = none := by
  obtain ⟨ra, globals₁, hra, hra_error⟩ := recoverReg_returns hcfa hdepth env.target.arch.pcRegno
  obtain ⟨hripValue, hops₁⟩ := recoverReg_column hrow (transRegType_pcRegno _) hra
  rw [Columns.get] at hripValue
  cases ra with
  | error reason =>
    -- only in the initial frame the sampled register would stand in
    have hlater : initialFrame = false := by
      by_contra hinitial
      have hsome := hvalue (Bool.not_eq_false _ ▸ hinitial)
      rw [← hripValue] at hsome
      cases hsome
    refine ⟨.error reason, globals₁, ?_, ?_⟩
    · simp only [recoverCaller, hra, hlater, orSampled, bind, Except.bind]
      rfl
    · rintro _ ⟨⟩
      refine ⟨hra_error reason rfl, fun bp signalFrame => ?_⟩
      simp only [Scratch.caller, ← hripValue, Except.toOption, Option.bind_eq_bind,
        Option.bind_none]
  | ok ra =>
    obtain ⟨sp, globals₂, hsp, hsp_error⟩ :=
      recoverReg_returns (hops₁ ▸ hcfa) hdepth env.target.arch.regNameRsp
    obtain ⟨hspValue, hops₂⟩ := recoverReg_column (hops₁ ▸ hrow) (transRegType_regNameRsp _) hsp
    rw [Columns.get, hops₁] at hspValue
    cases sp with
    | error reason =>
      refine ⟨.error reason, globals₂, ?_, ?_⟩
      · simp only [recoverCaller, hra, hsp, orSampled, bind, Except.bind]
        rfl
      · rintro _ ⟨⟩
        refine ⟨hsp_error reason rfl, fun bp signalFrame => ?_⟩
        simp only [Scratch.caller, ← hripValue, ← hspValue, Except.toOption, Option.bind_eq_bind,
          Option.bind_some, Option.bind_none]
    | ok sp =>
      obtain ⟨bp, globals₃, hbp, -⟩ :=
        recoverReg_returns (hops₂ ▸ hops₁ ▸ hcfa) hdepth env.target.arch.regNameRbp
      refine ⟨.ok ⟨ra, sp, bp⟩, globals₃, ?_, ?_⟩
      · simp only [recoverCaller, hra, hsp, hbp, orSampled, bind, Except.bind]
        rfl
      · rintro _ ⟨⟩

end Recover

/-! ## Chains of the reference unwinder -/

variable {chain : List RefState}

namespace RefWorld

variable (w : RefWorld)

/-- The row a step selects has a CFA. -/
def HasCfa (s : RefState) (m : Mapping) : Prop :=
  ∀ cfi ∈ m.cfi, ∀ row ∈ freshRow cfi (w.lookupPc s m.bias),
    ∀ cfaOps ∈ guCfiGetCfaOps cfi.sec.mem row.1, (cfaValue (w.env s m.bias) cfaOps).isSome

instance (s : RefState) (m : Mapping) : Decidable (w.HasCfa s m) :=
  inferInstanceAs (Decidable (∀ cfi ∈ m.cfi, ∀ row ∈ freshRow cfi (w.lookupPc s m.bias),
    ∀ cfaOps ∈ guCfiGetCfaOps cfi.sec.mem row.1, _))

/-- A frame in an ELF mapping and under no stack-bottom symbol has a caller with a larger
stack pointer and a return address that is not zero. -/
def CalledFrom (k : Nat) (s s' : RefState) : Prop :=
  ∃ m ∈ w.tables k, m.Contains s.pc ∧ m.bottom (w.lookupPc s m.bias) = false ∧
    w.RowSupported k s m ∧ w.HasCfa s m ∧ w.caller s m = some s' ∧ s'.pc ≠ 0#64 ∧ s.sp < s'.sp

/-- A frame in an ELF mapping is under a stack-bottom symbol or has no caller. -/
def Outermost (k : Nat) (s : RefState) : Prop :=
  ∃ m ∈ w.tables k, m.Contains s.pc ∧ (m.bottom (w.lookupPc s m.bias) = true ∨
    (w.RowSupported k s m ∧ w.HasCfa s m ∧ ∀ s' ∈ w.caller s m, s'.pc = 0#64))

instance (k : Nat) (s s' : RefState) : Decidable (w.CalledFrom k s s') :=
  inferInstanceAs (Decidable (∃ m ∈ w.tables k, _ ∧ _))

instance (k : Nat) (s : RefState) : Decidable (w.Outermost k s) :=
  inferInstanceAs (Decidable (∃ m ∈ w.tables k, _ ∧ (_ ∨ (_ ∧ _ ∧ ∀ s' ∈ w.caller s m, _))))

/-- The list is the whole chain of frames from step `k` on. -/
inductive Chain : Nat → RefState → List RefState → Prop where
  | last {k : Nat} {s : RefState} (h : w.Outermost k s) : Chain k s [s]
  | caller {k : Nat} {s s' : RefState} {rest : List RefState} (h : w.CalledFrom k s s')
      (hrest : Chain (k + 1) s' rest) : Chain k s (s :: rest)

private theorem Chain.head {w : RefWorld} {k : Nat} {s : RefState} (h : w.Chain k s chain) :
    chain = s :: chain.tail := by
  cases h <;> rfl

/-- The return address of the first caller is not zero. -/
theorem Chain.tail_head {w : RefWorld} {k : Nat} {s : RefState} (h : w.Chain k s chain) :
    ∀ pc ∈ (chain.tail.map RefState.pc).head?, 0#64 ≠ pc := by
  cases h with
  | last => rintro pc ⟨⟩
  | caller h hrest =>
    obtain ⟨m, -, -, -, -, -, -, hra, -⟩ := h
    rw [List.tail_cons, hrest.head]
    rintro pc ⟨⟩
    exact hra.symm

end RefWorld

/-! ## The mapping of a frame -/

/-- The records of the walked process are disjoint ranges. -/
def Walk.Disjoint (v : ValueWalk) : Prop :=
  ∀ pidCtx ∈ v.entry.toOption, ∀ array ∈ pidCtx.elfCtxList, array.Disjoint

instance (v : ValueWalk) : Decidable v.Disjoint :=
  inferInstanceAs (Decidable (∀ pidCtx ∈ v.entry.toOption, ∀ array ∈ pidCtx.elfCtxList,
    array.Disjoint))

/-- The mapping of the pc of a turn is found. -/
structure Located (e : UnwindEnv Unit (List CalcRules)) (s : ValueState) (m : Mapping) where
  item : Interval (Option MapCtx)
  elfCtx : PerElfCtx (List CalcRules)
  located : s.walk.locate e.world s.pc = .ok { s.walk with elfItem := some item }
  mapped : guGetElfCtxFromItem { s.walk with elfItem := some item } = .ok (some (elfCtx, m.bias))
  cfi : m.cfi = elfCtx.guCfi.map GuCfi.data
  bottom : m.bottom = fun pc => isStackBottomSymbol (guLookupElfSymbol elfCtx pc).1
  rows : ∀ cfi ∈ elfCtx.guCfi, CacheSound cfi.data cfi.cache

/-- A mapping of the table that holds the pc is found without a reload. -/
theorem Walk.Sound.exists_located {e : UnwindEnv Unit (List CalcRules)} {s : ValueState}
    {m : Mapping} (h : s.walk.Sound cachedRows) (hmaps : s.walk.Disjoint)
    (hm : m ∈ s.walk.mappings) (hcontains : m.Contains s.pc) : Nonempty (Located e s m) := by
  cases hentry : s.walk.entry with
  | error stuck =>
    rw [Walk.mappings, hentry] at hm
    cases hm
  | ok pidCtx =>
    rw [Walk.mappings, hentry] at hm
    obtain ⟨item, hitem, hmapping⟩ := List.mem_filterMap.mp hm
    simp only [GuContext.mapping, Option.bind_eq_bind, Option.bind_eq_some_iff,
      Option.pure_def, Option.some.injEq] at hmapping
    obtain ⟨mapCtx, hpayload, elfCtx, helf, rfl⟩ := hmapping
    obtain ⟨array, harray, hmem⟩ : ∃ array, pidCtx.elfCtxList = some array ∧
        item ∈ array.items := by
      cases hlist : pidCtx.elfCtxList with
      | none => simp [PerPidCtx.items, hlist] at hitem
      | some array => exact ⟨array, rfl, by simpa [PerPidCtx.items, hlist] using hitem⟩
    have hdisjoint := hmaps pidCtx (by rw [hentry]; rfl) array harray
    have haddr : item.Contains s.pc := hcontains
    obtain ⟨index, hsearch⟩ := hdisjoint.search hmem haddr
    have hmapped : (pidCtx.search s.pc).isSome = true := by
      simp only [PerPidCtx.search, harray, hsearch, Option.map_some, Option.isSome_some]
    obtain ⟨found, hfound, hholds, hlocate⟩ := h.locate_mapped e.world hentry hmapped
    simp only [PerPidCtx.items, harray, Option.map_some, Option.getD_some] at hfound
    obtain rfl := hdisjoint.eq_of_contains hfound hmem hholds haddr
    refine ⟨⟨found, elfCtx, hlocate, ?_, rfl, rfl, ?_⟩⟩
    · simp only [guGetElfCtxFromItem, hpayload, helf]
    · intro cfi hcfi
      exact h.refs.cfis elfCtx (mem_of_lookup helf).1 cfi hcfi

/-! ## A turn on a chain -/

/-- A parse writes nothing but a cache. -/
theorem parseElf_mapping (S : SavedStates Unit (List CalcRules)) (ctx : GuContext (List CalcRules))
    (globals : Globals Unit) (id : Nat) (cfi : GuCfi (List CalcRules)) (pc : Word) :
    (parseElf S ctx globals id cfi pc).2.1.mapping = ctx.mapping := by
  funext item
  unfold GuContext.mapping
  cases item.payload with
  | none => rfl
  | some mapCtx =>
    simp only [Option.bind_eq_bind, Option.bind_some, GuContext.elf, parseElf, GuContext.modifyElf]
    rw [lookup_update]
    · cases lookup PerElfCtx.id ctx.elfCtxList mapCtx.elfCtx with
      | none => rfl
      | some elfCtx =>
        simp only [Option.map_some, Option.bind_some]
        split
        · cases elfCtx.guCfi <;> rfl
        · rfl
    · exact fun _ => rfl

/-- The reference unwinder on the table a walk starts with. -/
abbrev startWorld (e : UnwindEnv Unit (List CalcRules)) (start : ValueState) : RefWorld :=
  e.refWorld start (fun _ => start.walk.mappings) true

/-- The head of turn `k` stands for a state of the reference unwinder, and the walk still has
the table it started with. -/
structure Follows (e : UnwindEnv Unit (List CalcRules)) (start : ValueState) (k : Nat)
    (s : ValueState) (r : RefState) : Prop
    extends Simulates e.target.arch start.walk.info k s r where
  entry : s.walk.entry = start.walk.entry
  mapping : s.walk.ctx.mapping = start.walk.ctx.mapping
  prevSp : s.prevSp = r.sp

section Turn

variable {e : UnwindEnv Unit (List CalcRules)} {start s : ValueState} {k : Nat} {r : RefState}
  {m : Mapping}

private theorem Follows.exists_located (h : Follows e start k s r) (hmaps : start.walk.Disjoint)
    (hm : m ∈ start.walk.mappings) (hcontains : m.Contains r.pc) : Nonempty (Located e s m) := by
  refine h.sound.exists_located ?_ ?_ (h.pc ▸ hcontains)
  · simpa only [Walk.Disjoint, h.entry] using hmaps
  · simpa only [Walk.mappings, h.entry, h.mapping] using hm

namespace Located

variable (l : Located e s m)

/-- The walk with the mapping in hand. -/
def walk : ValueWalk := { s.walk with elfItem := some l.item }

private theorem turn (rawSp : Word) : dwarfTurn e rawSp s =
    emitFrame e rawSp (s.loopCount == 0) { s with
      walk := l.walk
      level := s.level + 1
      loopCount := if e.verbose then s.loopCount + 1 else s.loopCount } l.elfCtx m.bias := by
  simp only [dwarfTurn, l.located, l.mapped]
  rfl

include l in
/-- A turn that stops has emitted the frame. -/
theorem emits {rawSp : Word} {done : DwarfEnd Unit (List CalcRules)}
    (h : dwarfTurn e rawSp s = .stop (.ok done)) :
    done.frames.map FrameRecord.absPc = s.frames.map FrameRecord.absPc ++ [s.pc] := by
  rw [l.turn] at h
  rw [(emitFrame_stop h).frames, List.map_append, List.map_singleton, elfFrame_absPc]

/-- The state behind the emitted frame. -/
def emitted : ValueState :=
  let found := guLookupElfSymbol l.elfCtx (s.lookupPc m.bias)
  { s with
    walk := l.walk
    level := s.level + 1
    loopCount := if e.verbose then s.loopCount + 1 else s.loopCount
    frames := s.frames ++
      [elfFrame s.walk.ctx l.elfCtx s.pc (s.pc - m.bias) found.2 found.1] }

/-- What the parse of the row leaves. -/
def parse (cfi : GuCfi (List CalcRules)) :
    ParseOutcome × GuContext (List CalcRules) × Globals Unit :=
  parseElf e.saved s.walk.ctx s.globals l.elfCtx.id cfi (s.lookupPc m.bias)

variable (h : Follows e start k s r)
include h

private theorem bottom_eq : m.bottom ((startWorld e start).lookupPc r m.bias) =
    isStackBottomSymbol (guLookupElfSymbol l.elfCtx (s.lookupPc m.bias)).1 := by
  rw [l.bottom, h.lookupPc]

variable (hsaved : e.saved = savedValues) {cfi : GuCfi (List CalcRules)}
  (hcfi : l.elfCtx.guCfi = some cfi)
include hsaved hcfi

/-- The row the loop works on is the one the reference unwinder looks up. -/
theorem parse_fresh :
    (l.parse cfi).1 = freshParse cfi.data ((startWorld e start).lookupPc r m.bias) ∧
      (l.parse cfi).2.2.ops =
        (freshParse cfi.data ((startWorld e start).lookupPc r m.bias)).ops := by
  obtain ⟨hout, hops⟩ :=
    parseElf_fresh (l.rows cfi hcfi) s.walk.ctx s.globals l.elfCtx.id (s.lookupPc m.bias)
  rw [parse, hsaved, ← h.lookupPc]
  exact ⟨hout, hops⟩

/-- On a row with a CFA the loop recovers the caller of the reference unwinder. -/
theorem recovers (hdepth : 2 ≤ e.depth) (hok : (l.parse cfi).1.ok = true)
    (hrow : (startWorld e start).RowSupported k r m) (hcfa : (startWorld e start).HasCfa r m) :
    ∃ result globals, recoverCaller e.depth ⟨e.target, m.bias, start.sp, s.walk.info⟩
        (s.loopCount == 0) (l.parse cfi).2.2 = .ok (result, globals) ∧
      (∀ reason, result = .error reason →
        reason ≠ .noProgress ∧ (startWorld e start).caller r m = none) ∧
      ∀ recovered, result = .ok recovered → (startWorld e start).caller r m =
        some ⟨recovered.ra, recovered.sp, recovered.bp.toOption.getD r.bp,
          (l.parse cfi).1.signalFrame⟩ := by
  obtain ⟨hout, hops⟩ := l.parse_fresh h hsaved hcfi
  have hdata : m.cfi = some cfi.data := by rw [l.cfi, hcfi, Option.map_some]
  rw [hout] at hok
  obtain ⟨rules, hfresh, hrules⟩ := freshParse_ok hok
  obtain ⟨hcfaOps, -⟩ := rowOps_columns hrules
  obtain ⟨htracked, hvalue⟩ := hrow.lists hdata hok
  have hagrees := h.agrees (fun _ => start.walk.mappings) ⟨rfl, rfl, rfl⟩ m.bias
  have hrip := hagrees.opsValue htracked.1 (htracked.2 .rip)
  simp only [Columns.get] at hrip
  have hcfaSome := hcfa cfi.data hdata _ hfresh _ hcfaOps
  rw [← hagrees.cfaValue htracked.1, ← hops] at hcfaSome
  rw [← hrip] at hvalue
  rw [RefWorld.caller_eq rfl hdata hok, ← hagrees.caller htracked, ← hops, hout]
  rw [← hops] at hrules hvalue
  have hinitial : (s.loopCount == 0) = true → k = 0 := fun hzero => h.count ▸ eq_of_beq hzero
  obtain ⟨result, globals, hrecover, herror⟩ := recoverCaller_returns hrules hcfaSome hdepth
    fun hzero => hvalue (hinitial hzero)
  refine ⟨result, globals, hrecover, fun reason hreason => ?_, fun recovered hok => ?_⟩
  · obtain ⟨hne, hnone⟩ := herror reason hreason
    exact ⟨hne, hnone r.bp _⟩
  · subst hok
    exact recoverCaller_value hrules hrecover (fun hzero => hvalue (hinitial hzero)) r.bp _

end Located

/-- A parse succeeds on a row with a CFA rule that can be listed. -/
theorem freshParse_of_row {cfi : ValueCfi} {pc : Word} {row : CalcRules × Bool}
    {cfaOps : List DwarfOp} (hrow : freshRow cfi pc = some row)
    (hcfa : guCfiGetCfaOps cfi.sec.mem row.1 = some cfaOps) : (freshParse cfi pc).ok = true := by
  unfold freshRow at hrow
  split at hrow
  · cases hrow
  rename_i fde cie hfind
  dsimp only at hrow
  split at hrow
  · rename_i hrun
    cases hrow
    simp only [freshParse, parseMiss, hfind, hrun, if_true, rowOps, hcfa]
  · cases hrow

/-- A frame with a caller has a row with a CFA rule that can be listed. -/
theorem RefWorld.caller_row {w : RefWorld} {s s' : RefState} {m : Mapping}
    (h : w.caller s m = some s') :
    ∃ cfi ∈ m.cfi, (freshParse cfi (w.lookupPc s m.bias)).ok = true := by
  simp only [RefWorld.caller, Option.bind_eq_bind, Option.bind_eq_some_iff] at h
  obtain ⟨cfi, hcfi, row, hrow, cfaOps, hcfa, -⟩ := h
  exact ⟨cfi, hcfi, freshParse_of_row hrow hcfa⟩

variable {recovered : Recovered}

private theorem enterCaller_zero {arch : Arch} {signalFrame : Bool} (h : recovered.ra = 0#64) :
    ∃ done : DwarfEnd Unit (List CalcRules),
      enterCaller arch s signalFrame recovered = .stop (.ok done) ∧ done.reason = .endOfStack := by
  unfold enterCaller
  dsimp only
  rw [if_pos h]
  exact ⟨_, rfl, rfl⟩

private theorem enterCaller_repeats {arch : Arch} {signalFrame : Bool} (hra : recovered.ra ≠ 0#64)
    (h : recovered.ra = s.prevPc) :
    ∃ done : DwarfEnd Unit (List CalcRules),
      enterCaller arch s signalFrame recovered = .stop (.ok done) ∧ done.reason = .noProgress := by
  unfold enterCaller
  dsimp only
  rw [if_neg hra, if_pos (.inr h)]
  exact ⟨_, rfl, rfl⟩

section Steps

variable (h : Follows e start k s r) (l : Located e s m)
include h l

/-- A turn under a stack-bottom symbol. -/
theorem Follows.turn_bottom (hbottom : m.bottom ((startWorld e start).lookupPc r m.bias) = true) :
    ∃ done, dwarfTurn e start.sp s = .stop (.ok done) ∧ done.reason ≠ .noProgress := by
  rw [l.bottom_eq h, DwarfState.lookupPc] at hbottom
  rw [l.turn]
  unfold emitFrame
  dsimp only
  rw [if_pos hbottom]
  refine ⟨_, rfl, ?_⟩
  rintro ⟨⟩

variable (hbottom : m.bottom ((startWorld e start).lookupPc r m.bias) = false)
include hbottom

private theorem Follows.turn_unwinds : dwarfTurn e start.sp s =
    unwindFrame e start.sp (s.loopCount == 0) l.emitted l.elfCtx m.bias := by
  rw [l.bottom_eq h, DwarfState.lookupPc] at hbottom
  rw [l.turn]
  unfold emitFrame
  dsimp only
  rw [if_neg (Bool.eq_false_iff.mp hbottom)]
  rfl

/-- A turn that parses no row. -/
theorem Follows.turn_unparsed
    (hrow : ∀ cfi ∈ l.elfCtx.guCfi, (l.parse cfi).1.ok = false) :
    ∃ done, dwarfTurn e start.sp s = .stop (.ok done) ∧ done.reason ≠ .noProgress := by
  rw [h.turn_unwinds l hbottom]
  unfold unwindFrame
  cases hcfi : l.elfCtx.guCfi with
  | none => exact ⟨_, rfl, nofun⟩
  | some cfi =>
    have hok := hrow cfi hcfi
    dsimp only
    split
    · rename_i hparsed
      exact absurd hparsed (Bool.eq_false_iff.mp hok)
    · exact ⟨_, rfl, nofun⟩

variable {cfi : GuCfi (List CalcRules)} (hcfi : l.elfCtx.guCfi = some cfi)
  (hok : (l.parse cfi).1.ok = true) {globals : Globals Unit}
include hcfi hok

/-- A turn that recovers no caller. -/
theorem Follows.turn_error {reason : UnwindReason}
    (hrecover : recoverCaller e.depth ⟨e.target, m.bias, start.sp, s.walk.info⟩
      (s.loopCount == 0) (l.parse cfi).2.2 = .ok (.error reason, globals)) :
    ∃ done, dwarfTurn e start.sp s = .stop (.ok done) ∧ done.reason = reason := by
  rw [h.turn_unwinds l hbottom]
  simp only [Located.parse, DwarfState.lookupPc] at hok hrecover
  simp only [unwindFrame, hcfi, guCfiLookupPcForFrame, Located.emitted, Located.walk, hok, if_true,
    hrecover]
  exact ⟨_, rfl, rfl⟩

/-- A turn that recovers a caller. -/
theorem Follows.turn_recovered
    (hrecover : recoverCaller e.depth ⟨e.target, m.bias, start.sp, s.walk.info⟩
      (s.loopCount == 0) (l.parse cfi).2.2 = .ok (.ok recovered, globals)) :
    ∃ s₁ : ValueState, dwarfTurn e start.sp s =
      enterCaller e.target.arch s₁ (l.parse cfi).1.signalFrame recovered ∧
        s₁.prevPc = s.prevPc := by
  rw [h.turn_unwinds l hbottom]
  simp only [Located.parse, DwarfState.lookupPc] at hok hrecover ⊢
  simp only [unwindFrame, hcfi, guCfiLookupPcForFrame, Located.emitted, Located.walk, hok, if_true,
    hrecover]
  exact ⟨_, rfl, rfl⟩

end Steps

section Chain

variable (h : Follows e start k s r) (hsaved : e.saved = savedValues) (hdepth : 2 ≤ e.depth)
  (l : Located e s m)
include h hsaved hdepth l

/-- A turn on a frame without a caller stops, and not for a lack of progress. -/
theorem Follows.stops (hrow : (startWorld e start).RowSupported k r m)
    (hcfa : (startWorld e start).HasCfa r m)
    (hlast : ∀ r' ∈ (startWorld e start).caller r m, r'.pc = 0#64) :
    ∃ done, dwarfTurn e start.sp s = .stop (.ok done) ∧ done.reason ≠ .noProgress := by
  cases hbottom : m.bottom ((startWorld e start).lookupPc r m.bias) with
  | true => exact h.turn_bottom l hbottom
  | false =>
    by_cases hparsed : ∃ cfi ∈ l.elfCtx.guCfi, (l.parse cfi).1.ok = true
    · obtain ⟨cfi, hcfi, hok⟩ := hparsed
      obtain ⟨result, globals, hrecover, herror, hvalue⟩ :=
        l.recovers h hsaved hcfi hdepth hok hrow hcfa
      cases result with
      | error reason =>
        obtain ⟨done, hturn, rfl⟩ := h.turn_error l hbottom hcfi hok hrecover
        exact ⟨done, hturn, (herror _ rfl).1⟩
      | ok recovered =>
        obtain ⟨s₁, hturn, -⟩ := h.turn_recovered l hbottom hcfi hok hrecover
        obtain ⟨done, hzero, hreason⟩ := enterCaller_zero (hlast _ (hvalue recovered rfl))
        exact ⟨done, hturn.trans hzero, by simp [hreason]⟩
    · refine h.turn_unparsed l hbottom fun cfi hcfi => Bool.eq_false_iff.mpr fun hok => ?_
      exact hparsed ⟨cfi, hcfi, hok⟩

variable {r' : RefState} (hbottom : m.bottom ((startWorld e start).lookupPc r m.bias) = false)
  (hrow : (startWorld e start).RowSupported k r m) (hcfa : (startWorld e start).HasCfa r m)
  (hcaller : (startWorld e start).caller r m = some r') (hra : r'.pc ≠ 0#64)
include hrow hcfa hcaller

/-- The loop recovers the caller of the reference unwinder. -/
theorem Follows.exists_recovered : ∃ cfi recovered globals, l.elfCtx.guCfi = some cfi ∧
    (l.parse cfi).1.ok = true ∧
    recoverCaller e.depth ⟨e.target, m.bias, start.sp, s.walk.info⟩ (s.loopCount == 0)
      (l.parse cfi).2.2 = .ok (.ok recovered, globals) ∧
    r' = ⟨recovered.ra, recovered.sp, recovered.bp.toOption.getD r.bp,
      (l.parse cfi).1.signalFrame⟩ := by
  obtain ⟨data, hdata, hfresh⟩ := RefWorld.caller_row hcaller
  rw [l.cfi] at hdata
  obtain ⟨cfi, hcfi, rfl⟩ := Option.map_eq_some_iff.mp hdata
  have hok : (l.parse cfi).1.ok = true := by
    rw [(l.parse_fresh h hsaved hcfi).1]
    exact hfresh
  obtain ⟨result, globals, hrecover, herror, hvalue⟩ :=
    l.recovers h hsaved hcfi hdepth hok hrow hcfa
  cases result with
  | error reason =>
    rw [(herror reason rfl).2] at hcaller
    cases hcaller
  | ok recovered =>
    have hsome := hcaller.symm.trans (hvalue recovered rfl)
    exact ⟨cfi, recovered, globals, hcfi, hok, hrecover, Option.some.inj hsome⟩

include hbottom hra

/-- A return address that repeats the one before stops the walk. -/
theorem Follows.repeats (hpc : r'.pc = s.prevPc) :
    ∃ done, dwarfTurn e start.sp s = .stop (.ok done) ∧ done.reason = .noProgress := by
  obtain ⟨cfi, recovered, globals, hcfi, hok, hrecover, rfl⟩ :=
    h.exists_recovered hsaved hdepth l hrow hcfa hcaller
  obtain ⟨s₁, hturn, hprev⟩ := h.turn_recovered l hbottom hcfi hok hrecover
  obtain ⟨done, hstop, hreason⟩ := enterCaller_repeats hra (hpc.trans hprev.symm)
  exact ⟨done, hturn.trans hstop, hreason⟩

/-- Any other return address is followed. -/
theorem Follows.continues (hverbose : e.verbose = true) (hsp : r.sp < r'.sp)
    (hpc : r'.pc ≠ s.prevPc) :
    ∃ c : Caller e start.sp s, Follows e start (k + 1) c.next r' := by
  obtain ⟨cfi, recovered, globals, hcfi, hok, hrecover, rfl⟩ :=
    h.exists_recovered hsaved hdepth l hrow hcfa hcaller
  rw [l.bottom_eq h] at hbottom
  let c : Caller e start.sp s :=
    ⟨_, l.elfCtx, m.bias, cfi, recovered, globals, l.located, l.mapped, hbottom, hcfi, hok,
      hrecover, hra, by rw [h.prevSp]; exact hsp, hpc⟩
  have hnext := h.toSimulates.caller (hsaved ▸ cachedRows_kept) hverbose c
  refine ⟨c, hnext, h.entry, ?_, rfl⟩
  exact (parseElf_mapping ..).trans h.mapping

end Chain

end Turn

/-! ## Whole walks -/

section Run

variable {e : UnwindEnv Unit (List CalcRules)} {start : ValueState}

/-- The loop emits the frames of a chain and does not stop for a lack of progress. -/
def Completes (result : Except Stuck (DwarfEnd Unit (List CalcRules))) (pcs : List Word) : Prop :=
  ∃ done, result = .ok done ∧ done.frames.map FrameRecord.absPc = pcs ∧ done.reason ≠ .noProgress

private theorem completes_of_stop {s : ValueState} {k : Nat} {r : RefState} {m : Mapping}
    (h : Follows e start k s r) (l : Located e s m)
    (hstops : ∃ done, dwarfTurn e start.sp s = .stop (.ok done) ∧ done.reason ≠ .noProgress)
    (out : ValueState → Except Stuck (DwarfEnd Unit (List CalcRules))) (n : Nat) :
    Completes (loop (dwarfTurn e start.sp) out (n + 1) s)
      (s.frames.map FrameRecord.absPc ++ [r.pc]) := by
  obtain ⟨done, hturn, hreason⟩ := hstops
  refine ⟨done, loop_stop hturn out n, ?_, hreason⟩
  rw [l.emits hturn, h.pc]

/-- A walk along a chain completes it exactly when no return address equals the one before. -/
theorem loop_completes_iff (hsaved : e.saved = savedValues) (hverbose : e.verbose = true)
    (hdepth : 2 ≤ e.depth) (hmaps : start.walk.Disjoint) {k : Nat} {r : RefState}
    (hchain : (startWorld e start).Chain k r chain) {s : ValueState} (h : Follows e start k s r)
    {n : Nat} (hn : chain.length ≤ n)
    (out : ValueState → Except Stuck (DwarfEnd Unit (List CalcRules))) :
    Completes (loop (dwarfTurn e start.sp) out n s)
        (s.frames.map FrameRecord.absPc ++ chain.map RefState.pc) ↔
      (s.prevPc :: chain.tail.map RefState.pc).IsChain (· ≠ ·) := by
  induction hchain generalizing s n with
  | last hlast =>
    obtain ⟨m, hm, hcontains, hlast⟩ := hlast
    obtain ⟨l⟩ := h.exists_located hmaps hm hcontains
    obtain ⟨n, rfl⟩ := Nat.exists_eq_add_of_le' hn
    refine iff_of_true (completes_of_stop h l ?_ out n) (List.isChain_singleton _)
    obtain hbottom | ⟨hrow, hcfa, hcaller⟩ := hlast
    · exact h.turn_bottom l hbottom
    · exact h.stops hsaved hdepth l hrow hcfa hcaller
  | @caller k r r' rest hcalled hrest ih =>
    obtain ⟨m, hm, hcontains, hbottom, hrow, hcfa, hcaller, hra, hsp⟩ := hcalled
    obtain ⟨l⟩ := h.exists_located hmaps hm hcontains
    obtain ⟨n, rfl⟩ := Nat.exists_eq_add_of_le' (Nat.le_of_add_left_le hn)
    obtain ⟨tail, rfl⟩ : ∃ tail, rest = r' :: tail := ⟨_, hrest.head⟩
    rw [List.tail_cons, List.map_cons, List.map_cons, List.isChain_cons_cons]
    by_cases hpc : r'.pc = s.prevPc
    · -- the guard stops the walk in front of the caller
      obtain ⟨done, hturn, hreason⟩ := h.repeats hsaved hdepth l hbottom hrow hcfa hcaller hra hpc
      refine iff_of_false ?_ fun hne => hne.1 hpc.symm
      rintro ⟨done', hdone, -, hnot⟩
      rw [loop_stop hturn] at hdone
      cases hdone
      exact hnot hreason
    · obtain ⟨c, hnext⟩ :=
        h.continues hsaved hdepth l hbottom hrow hcfa hcaller hra hverbose hsp hpc
      have hprev : c.next.prevPc = r'.pc := hnext.pc
      have hframes : c.next.frames.map FrameRecord.absPc =
          s.frames.map FrameRecord.absPc ++ [r.pc] := by
        have hframe : c.frame.absPc = r.pc := (elfFrame_absPc ..).trans h.pc
        rw [Caller.next, List.map_append, List.map_singleton, hframe]
      have hrest := ih hnext (Nat.le_of_succ_le_succ hn)
      rw [hframes, hprev, List.append_assoc, List.singleton_append, List.map_cons,
        List.tail_cons] at hrest
      rw [loop_next c.turn, hrest]
      exact ⟨fun hne => ⟨fun heq => hpc heq.symm, hne⟩, And.right⟩

variable {ctx : GuContext (List CalcRules)} {globals : Globals Unit} {info : StackInfo}

/-- On every reachable context, and with the turn counter advanced once per turn, a chain of at
most 512 frames in disjoint mappings is emitted as a whole exactly when no two return addresses
that follow each other are equal. -/
theorem dwarfLoop_completes_iff (hctx : Reachable savedValues ctx)
    (hsaved : e.saved = savedValues) (hverbose : e.verbose = true) (hdepth : 2 ≤ e.depth)
    (hstart : dwarfStart e ctx globals info = some start) (hmaps : start.walk.Disjoint)
    {chain : List RefState}
    (hchain : (startWorld e start).Chain 0 (start.refStart e.target.arch) chain)
    (hlength : chain.length ≤ maxBacktraceLevel) :
    Completes (dwarfLoop e start) (chain.map RefState.pc) ↔
      (chain.tail.map RefState.pc).IsChain (· ≠ ·) := by
  have hinit := dwarfStart_init hstart
  have hsim := dwarfStart_simulates (hctx.references cachedRows_kept) hstart
  have hsp : start.prevSp = start.sp := by
    rw [hinit]
    rfl
  have hpc : start.prevPc = 0#64 := by
    rw [hinit]
    rfl
  have hiff := loop_completes_iff hsaved hverbose hdepth hmaps hchain ⟨hsim, rfl, rfl, hsp⟩ hlength
    fun s => .ok { s.leave (if s.reason = .unknown then .truncated else s.reason) false with
      level := s.level + 1 }
  rw [dwarfStart_frames hstart, hpc, List.map_nil, List.nil_append, List.isChain_cons] at hiff
  exact hiff.trans (and_iff_right hchain.tail_head)

end Run

/-! ## A function that calls itself -/

/-- How a walk ends: the pcs of its frames and the reason. -/
def walkEnd (e : UnwindEnv Unit (List CalcRules)) (start : ValueState) :
    Except Stuck (List Word × UnwindReason) :=
  (dwarfLoop e start).map fun done => (done.frames.map FrameRecord.absPc, done.reason)

/-- The chain of the sample in `leaf`. -/
def leafChain : List RefState :=
  [⟨0x400110#64, 0x7000#64, 0#64, true⟩, ⟨0x400200#64, 0x7008#64, 0#64, false⟩]

/-- A chain of two frames. -/
theorem dwarfLoop_completes_iff_leaf :
    (startWorld (leafEnv.log true) leafStart).Chain 0 (leafStart.refStart .x86) leafChain ∧
    Completes (dwarfLoop (leafEnv.log true) leafStart) [0x400110#64, 0x400200#64] := by
  have hfirst : leafStart.refStart .x86 = ⟨0x400110#64, 0x7000#64, 0#64, true⟩ := by decide +kernel
  have hcalled : (startWorld (leafEnv.log true) leafStart).CalledFrom 0
      ⟨0x400110#64, 0x7000#64, 0#64, true⟩ ⟨0x400200#64, 0x7008#64, 0#64, false⟩ := by
    decide +kernel
  have hchain : (startWorld (leafEnv.log true) leafStart).Chain 0 (leafStart.refStart .x86)
      leafChain := by
    rw [hfirst]
    exact .caller hcalled (.last (by decide +kernel))
  have hstart : firstHead (leafEnv.log true) leafSample = some leafStart := (Option.some_get _).symm
  exact ⟨hchain, (dwarfLoop_completes_iff (.init false false false) rfl rfl (by decide) hstart
    (by decide +kernel) hchain (by decide)).mpr (by decide)⟩

/-- A sample in `leaf`, called by a function that has called itself from one place. -/
def recursionSample : StackInfo :=
  { leafSample with
    stackData := some fun i => [0x00#8, 0x02#8, 0x40#8, 0#8, 0#8, 0#8, 0#8, 0#8, 0x00#8, 0x02#8,
      0x40#8].getD i 0#8 }

def recursionStart : ValueState :=
  (firstHead (leafEnv.log true) recursionSample).get (by decide +kernel)

/-- The guard takes the recursion for a circle: of the three frames two are emitted. -/
theorem dwarfLoop_stops_in_recursion :
    (startWorld (leafEnv.log true) recursionStart).Chain 0 (recursionStart.refStart .x86)
      [⟨0x400110#64, 0x7000#64, 0#64, true⟩, ⟨0x400200#64, 0x7008#64, 0#64, false⟩,
        ⟨0x400200#64, 0x7010#64, 0#64, false⟩] ∧
    walkEnd (leafEnv.log true) recursionStart = .ok ([0x400110#64, 0x400200#64], .noProgress) ∧
    ¬Completes (dwarfLoop (leafEnv.log true) recursionStart)
      [0x400110#64, 0x400200#64, 0x400200#64] := by
  have hfirst : recursionStart.refStart .x86 = ⟨0x400110#64, 0x7000#64, 0#64, true⟩ := by
    decide +kernel
  have hcalled : (startWorld (leafEnv.log true) recursionStart).CalledFrom 0
      ⟨0x400110#64, 0x7000#64, 0#64, true⟩ ⟨0x400200#64, 0x7008#64, 0#64, false⟩ := by
    decide +kernel
  have hrecursive : (startWorld (leafEnv.log true) recursionStart).CalledFrom 1
      ⟨0x400200#64, 0x7008#64, 0#64, false⟩ ⟨0x400200#64, 0x7010#64, 0#64, false⟩ := by
    decide +kernel
  have hend : walkEnd (leafEnv.log true) recursionStart =
      .ok ([0x400110#64, 0x400200#64], .noProgress) := by decide +kernel
  refine ⟨?_, hend, ?_⟩
  · rw [hfirst]
    exact .caller hcalled (.caller hrecursive (.last (by decide +kernel)))
  · rintro ⟨done, hdone, -, hreason⟩
    rw [walkEnd, hdone] at hend
    obtain ⟨-, hnot⟩ := Prod.mk.inj (Except.ok.inj hend)
    exact hreason hnot

end Gunwinder
