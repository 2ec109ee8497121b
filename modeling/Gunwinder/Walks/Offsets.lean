import Gunwinder.Intervals.SymbolTable
import Gunwinder.Walks.Provenance

/-!
# Symbols, offsets and function entries in records

A record carries the pc of its frame, and the offset of the pc its symbol was looked up at. The two
differ for return addresses. In build-id-only mode the record of a Go frame is to carry the
entry of its function instead, which only the walk along the sampler's chain computes.
-/

namespace Gunwinder

open Gunwinder.Core

variable {H P : Type}

namespace FrameSite

/-! ## Lookups -/

/-- The relative pc at which the symbol of a place is searched. -/
def lookupPc (verbose : Bool) (site : FrameSite P) (bias : Word) : Reporter → Word
  | .byFp => site.pc - bias
  | .dwarfLoop => guFrameLookupPcForReturnAddress (site.pc - bias)
      ((if verbose then site.turn else 0) == 0) site.signalFrame
  | .appendPcFrame =>
    guFrameLookupPcForReturnAddress (site.pc - bias) (site.turn == 0) site.signalFrame

/-- The pc of the place is not taken for a return address. -/
def Exact (verbose : Bool) (site : FrameSite P) (bias : Word) : Reporter → Prop
  | .byFp => True
  | .dwarfLoop => (verbose = true → site.turn = 0) ∨ site.signalFrame = true ∨ site.pc - bias = 0#64
  | .appendPcFrame => site.turn = 0 ∨ site.signalFrame = true ∨ site.pc - bias = 0#64

private theorem guFrameLookupPcForReturnAddress_eq_iff (pc : Word)
    (initialFrame signalFrame : Bool) :
    guFrameLookupPcForReturnAddress pc initialFrame signalFrame = pc ↔
      initialFrame = true ∨ signalFrame = true ∨ pc = 0#64 := by
  have hne : pc - 1#64 ≠ pc := by bv_omega
  unfold guFrameLookupPcForReturnAddress
  cases initialFrame <;> cases signalFrame <;> simp [hne]

private theorem lookupPc_eq_iff (verbose : Bool) (site : FrameSite P) (bias : Word)
    (reporter : Reporter) :
    site.lookupPc verbose bias reporter = site.pc - bias ↔ site.Exact verbose bias reporter := by
  cases reporter with
  | byFp => simp [lookupPc, Exact]
  | dwarfLoop =>
    rw [lookupPc, guFrameLookupPcForReturnAddress_eq_iff, Exact]
    cases verbose <;> simp
  | appendPcFrame =>
    rw [lookupPc, guFrameLookupPcForReturnAddress_eq_iff, Exact, beq_iff_eq]

/-- The interval in which the symbol of a place was found. -/
structure Found (e : UnwindEnv H P) (site : FrameSite P) (reporter : Reporter) (name : String) where
  walk : Walk P
  elfCtx : PerElfCtx P
  bias : Word
  symbols : IntervalArray (Option String)
  index : Nat
  item : Interval (Option String)
  elf : site.elf e.world = some (walk, elfCtx, bias)
  table : elfCtx.symbols = some symbols
  search : guIntervalArraySearch symbols (site.lookupPc e.verbose bias reporter) =
    some (index, item)
  payload : item.payload = some name

variable {elfCtx : PerElfCtx P} {name : String}

private theorem guLookupElfSymbol_some {pc : Word}
    (h : (guLookupElfSymbol elfCtx pc).1 = some name) :
    ∃ symbols index item, elfCtx.symbols = some symbols ∧
      guIntervalArraySearch symbols pc = some (index, item) ∧ item.payload = some name ∧
      (guLookupElfSymbol elfCtx pc).2 = pc - item.start := by
  unfold guLookupElfSymbol at h ⊢
  cases hsymbols : elfCtx.symbols with
  | none => simp [hsymbols] at h
  | some symbols =>
    simp only [hsymbols] at h
    cases hsearch : guIntervalArraySearch symbols pc with
    | none => simp [hsearch] at h
    | some found =>
      obtain ⟨index, item⟩ := found
      simp only [hsearch] at h
      cases hpayload : item.payload with
      | none => simp [hpayload] at h
      | some symbol =>
        simp only [hpayload, Option.some.injEq] at h
        exact ⟨symbols, index, item, rfl, hsearch, h ▸ hpayload, by simp [hsearch, hpayload]⟩

/-- A name the walk along the sampler's chain finds is the one the other walks find. -/
theorem fpSymbol_eq {pc : Word} (h : (fpSymbol elfCtx pc).1 = some name) :
    fpSymbol elfCtx pc = guLookupElfSymbol elfCtx pc := by
  unfold fpSymbol at h ⊢
  unfold guLookupElfSymbol
  cases hsymbols : elfCtx.symbols with
  | none => rfl
  | some symbols =>
    simp only [hsymbols] at h ⊢
    cases hsearch : guIntervalArraySearch symbols pc with
    | none => rfl
    | some found =>
      simp only [hsearch] at h ⊢
      simp only [h]

/-- A record with a name is the plain one. -/
theorem elfFrame_symbol {ctx : GuContext P} {pc relativePc funcOffset : Word} {sym : Option String}
    (h : (elfFrame ctx elfCtx pc relativePc funcOffset sym).symbol = some name) :
    sym = some name ∧ (elfFrame ctx elfCtx pc relativePc funcOffset sym).pc = relativePc ∧
      (elfFrame ctx elfCtx pc relativePc funcOffset sym).offset = funcOffset := by
  unfold elfFrame at h ⊢
  split at h
  · rename_i hplain
    rw [if_pos hplain]
    exact ⟨h, rfl, rfl⟩
  · cases h

/-! ## Symbol and offset -/

variable {allowUnknown : Bool} {reporter : Reporter} {site : FrameSite P} {e : UnwindEnv H P}
  {r : FrameRecord}

private theorem mem_records (h : r ∈ site.recordsBy e allowUnknown reporter) :
    r ∈ site.records e.world e.verbose allowUnknown := by
  unfold records
  cases reporter with
  | byFp => exact List.mem_append_left _ (List.mem_append_left _ h)
  | dwarfLoop => exact List.mem_append_left _ (List.mem_append_right _ h)
  | appendPcFrame => exact List.mem_append_right _ h

/-- At address 0 only the DWARF loop emits. -/
theorem pc_ne_zero (h : r ∈ site.recordsBy e allowUnknown reporter)
    (hreporter : reporter ≠ .dwarfLoop) : site.pc ≠ 0#64 := by
  intro hpc
  cases reporter with
  | byFp => simp [recordsBy, fpRecords, fpTurn, hpc] at h
  | dwarfLoop => exact hreporter rfl
  | appendPcFrame => simp [recordsBy, tailRecords, guAppendPcFrame, hpc] at h

/-- A record with a name comes from an interval, at the offset of the lookup. -/
theorem exists_found (hr : r ∈ site.recordsBy e allowUnknown reporter)
    (hname : r.symbol = some name) :
    ∃ found : site.Found e reporter name, r.pc = site.pc - found.bias ∧
      r.offset = site.lookupPc e.verbose found.bias reporter - found.item.start := by
  cases helf : site.elf e.world with
  | none =>
    rw [records_of_no_elf helf r (mem_records hr)] at hname
    cases hname
  | some mapped =>
    obtain ⟨walk, elfCtx, bias⟩ := mapped
    cases reporter with
    | byFp =>
      have hpc := pc_ne_zero hr (by decide)
      rw [recordsBy, fpRecords_elf helf hpc] at hr
      obtain rfl := List.mem_singleton.mp hr
      obtain ⟨hsym, hpc, hoffset⟩ := elfFrame_symbol hname
      have hsame := fpSymbol_eq hsym
      obtain ⟨symbols, index, item, htable, hsearch, hpayload, hfound⟩ :=
        guLookupElfSymbol_some (hsame ▸ hsym)
      rw [← hsame] at hfound
      exact ⟨⟨walk, elfCtx, bias, symbols, index, item, helf, htable, hsearch, hpayload⟩, hpc,
        hoffset.trans hfound⟩
    | dwarfLoop =>
      simp only [recordsBy, dwarfRecords, helf, List.mem_singleton] at hr
      subst r
      obtain ⟨hsym, hpc, hoffset⟩ := elfFrame_symbol hname
      obtain ⟨symbols, index, item, htable, hsearch, hpayload, hfound⟩ :=
        guLookupElfSymbol_some hsym
      exact ⟨⟨walk, elfCtx, bias, symbols, index, item, helf, htable, hsearch, hpayload⟩, hpc,
        hoffset.trans hfound⟩
    | appendPcFrame =>
      have hpc := pc_ne_zero hr (by decide)
      rw [recordsBy, tailRecords_elf helf hpc] at hr
      obtain rfl := List.mem_singleton.mp hr
      obtain ⟨symbols, index, item, htable, hsearch, hpayload, hfound⟩ :=
        guLookupElfSymbol_some hname
      exact ⟨⟨walk, elfCtx, bias, symbols, index, item, helf, htable, hsearch, hpayload⟩, rfl,
        hfound⟩

/-- The name and the offset of a record lead to its pc exactly when the pc was looked up itself.
The record is one of the call, emitted at a place of its walk. -/
theorem guUnwind_symbol_offset_iff {e : UnwindEnv H P} {ctx : GuContext P} {globals : Globals H}
    {info : StackInfo} {result : UnwindResult H P}
    (h : guUnwind e ctx globals info = .ok result) {r : FrameRecord} (hr : r ∈ result.frames)
    {name : String} (hname : r.symbol = some name) :
    ∃ pidCtx info' ctx' reporter site,
      openProcess e.world ctx info = (.ok pidCtx, info', ctx') ∧
      Place e (Walk.init ctx' info' pidCtx) globals reporter site ∧
      r ∈ site.recordsBy e (guFlagsIsSet info' guFlagFpAllowUnknown) reporter ∧
      ∃ found : site.Found e reporter name, r.pc = site.pc - found.bias ∧
        (found.item.start + r.offset = r.pc ↔ site.Exact e.verbose found.bias reporter) := by
  obtain ⟨pidCtx, info', ctx', hopen, reporter, site, hplace, hrecord⟩ := guUnwind_reported h hr
  obtain ⟨found, hpc, hoffset⟩ := exists_found hrecord hname
  refine ⟨pidCtx, info', ctx', reporter, site, hopen, hplace, hrecord, found, hpc, ?_⟩
  rw [hpc, hoffset, ← lookupPc_eq_iff]
  generalize site.lookupPc e.verbose found.bias reporter = lookup
  constructor
  · intro heq
    rw [← heq]
    bv_omega
  · intro heq
    rw [heq]
    bv_omega

/-- The frames of the sample in `leaf` with logging on: the sampled one and its caller. -/
theorem leafWalk_frames :
    (leafWalk true).toOption.map UnwindResult.frames =
      some [⟨0x110#64, 0x400110#64, 0x10#64, some "leaf", some 0, 0#64⟩,
        ⟨0x200#64, 0x400200#64, 0x7f#64, some "work", some 0, 0#64⟩] := by
  decide +kernel

/-- The record of `leaf`. -/
theorem guUnwind_symbol_offset_iff_leaf : ∃ result r, leafWalk true = .ok result ∧
    r ∈ result.frames ∧ r.symbol = some "leaf" ∧
    ∃ (reporter : Reporter) (site : FrameSite (List CalcRules))
      (allowUnknown : Bool) (found : site.Found (leafEnv.log true) reporter "leaf"),
      r ∈ site.recordsBy (leafEnv.log true) allowUnknown reporter ∧
      (found.item.start + r.offset = r.pc ↔ site.Exact true found.bias reporter) := by
  have hframes := leafWalk_frames
  cases hresult : leafWalk true with
  | error stuck =>
    rw [hresult] at hframes
    cases hframes
  | ok result =>
    rw [hresult] at hframes
    have hfirst : ⟨0x110#64, 0x400110#64, 0x10#64, some "leaf", some 0, 0#64⟩ ∈ result.frames := by
      rw [Option.some.inj hframes]
      exact List.mem_cons_self
    obtain ⟨-, info', -, reporter, site, -, -, hrecord, found, -, hiff⟩ :=
      guUnwind_symbol_offset_iff hresult hfirst rfl
    exact ⟨result, _, rfl, hfirst, rfl, reporter, site, _, found, hrecord, hiff⟩

/-- The caller is reported one byte short: the interval of `work` starts at `0x180`, and the offset
leads to `0x1ff` instead of `0x200`. -/
theorem symbol_offset_short_of_pc :
    (leafWalk true).toOption.map (fun result => result.frames[1]?) =
      some (some ⟨0x200#64, 0x400200#64, 0x7f#64, some "work", some 0, 0#64⟩) ∧
    ((threeFunctions.elf 0 11 "/bin/tool" none).bind ElfImage.symbols).bind
      (guIntervalArraySearch · 0x1ff#64) = some (1, ⟨0x180#64, 0x200#64, some "work"⟩) ∧
    0x180#64 + 0x7f#64 ≠ 0x200#64 := by
  decide +kernel

/-! ## Function entries in build-id-only mode -/

/-- What the record of a Go frame has for its pc. -/
def goEntry (array : IntervalArray (Option String)) (relativePc : Word) : Reporter → Word
  | .byFp => (guIntervalArraySearch array relativePc).elim relativePc fun (_, item) => item.start
  | _ => relativePc

private theorem recordsBy_go {walk : Walk P} {bias : Word}
    (helf : site.elf e.world = some (walk, elfCtx, bias)) (hmode : walk.ctx.goOnlyBuildid = true)
    (hgo : elfCtx.golang = true) {array : IntervalArray (Option String)}
    (hsymbols : elfCtx.symbols = some array) (hnull : ∀ item ∈ array.items, item.payload = none)
    (hr : r ∈ site.recordsBy e allowUnknown reporter) :
    r.pc = goEntry array (site.pc - bias) reporter ∧ r.offset = 0#64 ∧ r.symbol = none := by
  -- a lookup that takes a NULL name for a miss finds nothing
  have hlookup : ∀ pc, guLookupElfSymbol elfCtx pc = (none, 0#64) := by
    intro pc
    simp only [guLookupElfSymbol, hsymbols]
    split
    · rfl
    · rename_i index item hsearch
      have hitem := List.mem_of_getElem? (guIntervalArraySearch_sound hsearch).1
      simp only [hnull item hitem]
  have hframe : ∀ funcOffset sym, elfFrame walk.ctx elfCtx site.pc (site.pc - bias) funcOffset sym =
      ⟨site.pc - bias - funcOffset, site.pc, 0#64, none, some elfCtx.id, 0#64⟩ := by
    intro funcOffset sym
    simp [elfFrame, hmode, hgo]
  cases reporter with
  | byFp =>
    have hpc := pc_ne_zero hr (by decide)
    rw [recordsBy, fpRecords_elf helf hpc, hframe] at hr
    obtain rfl := List.mem_singleton.mp hr
    refine ⟨?_, rfl, rfl⟩
    simp only [fpSymbol, hsymbols, goEntry]
    cases guIntervalArraySearch array (site.pc - bias) with
    | none => simp
    | some found =>
      simp only [Option.elim_some]
      bv_omega
  | dwarfLoop =>
    simp only [recordsBy, dwarfRecords, helf, dwarfSymbol, hlookup, hframe,
      List.mem_singleton] at hr
    subst r
    exact ⟨by simp [goEntry], rfl, rfl⟩
  | appendPcFrame =>
    have hpc := pc_ne_zero hr (by decide)
    rw [recordsBy, tailRecords_elf helf hpc] at hr
    obtain rfl := List.mem_singleton.mp hr
    rw [tailSymbol, hlookup]
    exact ⟨rfl, rfl, rfl⟩

/-- In build-id-only mode the record of a frame in a Go file carries the start of an interval that
covers the lookup pc exactly when the walk along the sampler's chain has found one, or when one
starts at the pc. -/
theorem go_entry_iff {e : UnwindEnv H P} {allowUnknown : Bool} {site : FrameSite P}
    {walk : Walk P} {elfCtx : PerElfCtx P} {bias : Word}
    (helf : site.elf e.world = some (walk, elfCtx, bias)) (hmode : walk.ctx.goOnlyBuildid = true)
    (hgo : elfCtx.golang = true) {cfg : SymtabConfig} (honly : cfg.onlyBuildid = true)
    {symtab : List (Option ElfSym)} {array : IntervalArray (Option String)}
    (harray : fillSymbolsDebugInfo cfg symtab = some array) (hsymbols : elfCtx.symbols = some array)
    {reporter : Reporter} {r : FrameRecord} (hr : r ∈ site.recordsBy e allowUnknown reporter) :
    ((∃ item ∈ array.items, item.Contains (site.lookupPc e.verbose bias reporter)) →
      ∃ item ∈ array.items, item.Contains (site.lookupPc e.verbose bias reporter) ∧
        r.pc = item.start ∧ r.offset = 0#64 ∧ r.symbol = none) ↔
    ((∃ item ∈ array.items, item.Contains (site.lookupPc e.verbose bias reporter)) →
      (reporter = .byFp ∧ (guIntervalArraySearch array (site.pc - bias)).isSome) ∨
        ∃ item ∈ array.items, item.Contains (site.lookupPc e.verbose bias reporter) ∧
          item.start = site.pc - bias) := by
  refine imp_congr_right fun _ => ?_
  obtain ⟨hpc, hoffset, hsymbol⟩ := recordsBy_go helf hmode hgo hsymbols
    (payload_eq_none honly harray) hr
  rw [hpc]
  cases reporter with
  | byFp =>
    cases hsearch : guIntervalArraySearch array (site.pc - bias) with
    | none =>
      simp only [goEntry, hsearch, Option.elim_none, Option.isSome_none, Bool.false_eq_true,
        and_false, false_or]
      constructor
      · rintro ⟨item, hitem, hcontains, hentry, -⟩
        exact ⟨item, hitem, hcontains, hentry.symm⟩
      · rintro ⟨item, hitem, hcontains, hentry⟩
        exact ⟨item, hitem, hcontains, hentry.symm, hoffset, hsymbol⟩
    | some found =>
      obtain ⟨index, item⟩ := found
      obtain ⟨hitem, hcontains⟩ := guIntervalArraySearch_sound hsearch
      refine ⟨fun _ => .inl ⟨rfl, rfl⟩, fun _ => ?_⟩
      refine ⟨item, List.mem_of_getElem? hitem, hcontains, ?_, hoffset, hsymbol⟩
      simp only [goEntry, hsearch, Option.elim_some]
  | dwarfLoop | appendPcFrame =>
    constructor
    · rintro ⟨item, hitem, hcontains, hentry, -⟩
      exact .inr ⟨item, hitem, hcontains, hentry.symm⟩
    · rintro (⟨hfp, -⟩ | ⟨item, hitem, hcontains, hentry⟩)
      · cases hfp
      · exact ⟨item, hitem, hcontains, hentry.symm, hoffset, hsymbol⟩

/-! ## A Go program -/

/-- The symbols of a Go program with one function, as they are kept in build-id-only mode. -/
def goSymbols : Option (IntervalArray (Option String)) :=
  fillSymbolsDebugInfo ⟨true, some⟩ [some ⟨0x100#64, 0x80#64, .func, true, some "main.main"⟩]

/-- The program, mapped at `0x400000`. -/
def goProgram : World (List CalcRules) :=
  { threeFunctions with
    elf := fun _ _ _ _ => some {
      buildId := [8#8]
      debugScanned := true
      golang := true
      execRanges := []
      execVirtAddr := 0#64
      symbols := goSymbols
      symSearchSize := 0
      cfi := some callerCfi } }

def goEnv : UnwindEnv Unit (List CalcRules) :=
  { leafEnv with world := goProgram, verbose := true }

/-- A frame sampled in the function, in a context that reports build ids only. -/
def goSite : FrameSite (List CalcRules) where
  walk := ⟨(guPreloadPidDebugInfo goProgram (guInit false true false) 11).2, leafSample, some 11,
    none, false⟩
  pc := 0x400110#64
  turn := 0
  signalFrame := false

private theorem goSite_elf :
    (goSite.elf goProgram).map (fun found =>
      (found.1.ctx.goOnlyBuildid, found.2.1.golang, found.2.2)) =
      some (true, true, 0x400000#64) ∧
    (goSite.elf goProgram).map (fun found => found.2.1.symbols) = some goSymbols := by
  decide +kernel

/-- A Go function by its frame pointer. -/
theorem go_entry_iff_byFp : ∃ array r, goSymbols = some array ∧
    r ∈ goSite.recordsBy goEnv true .byFp ∧
    ∃ item ∈ array.items, item.Contains (goSite.lookupPc true 0x400000#64 .byFp) ∧
      r.pc = item.start ∧ r.offset = 0#64 ∧ r.symbol = none := by
  have harray : goSymbols = some ⟨[⟨0x100#64, 0x180#64, none⟩], 0x100#64, 0x180#64⟩ := by
    decide +kernel
  have hrecord : (⟨0x100#64, 0x400110#64, 0#64, none, some 0, 0#64⟩ : FrameRecord) ∈
      goSite.recordsBy goEnv true .byFp := by decide +kernel
  obtain ⟨hfound, hsymbols⟩ := goSite_elf
  obtain ⟨⟨walk, elfCtx, bias⟩, helf, hfound⟩ := Option.map_eq_some_iff.mp hfound
  simp only [Prod.mk.injEq] at hfound
  obtain ⟨hmode, hgo, rfl⟩ := hfound
  rw [helf] at hsymbols
  have hsymbols : elfCtx.symbols = goSymbols := Option.some.inj hsymbols
  have hcovered : (⟨0x100#64, 0x180#64, none⟩ : Interval (Option String)).Contains
      (goSite.lookupPc true 0x400000#64 .byFp) := by decide
  refine ⟨_, _, harray, hrecord, (go_entry_iff helf hmode hgo rfl harray (hsymbols.trans harray)
    hrecord).mpr (fun _ => .inl ⟨rfl, by decide +kernel⟩) ?_⟩
  exact ⟨_, List.mem_cons_self, hcovered⟩

/-- Only the walk along the sampler's chain reports the entry; the other two report the pc. -/
theorem go_entry_only_by_fp :
    goSymbols = some ⟨[⟨0x100#64, 0x180#64, none⟩], 0x100#64, 0x180#64⟩ ∧
    goSite.recordsBy goEnv true .byFp =
      [⟨0x100#64, 0x400110#64, 0#64, none, some 0, 0#64⟩] ∧
    goSite.recordsBy goEnv true .dwarfLoop =
      [⟨0x110#64, 0x400110#64, 0#64, none, some 0, 0#64⟩] ∧
    goSite.recordsBy goEnv true .appendPcFrame =
      [⟨0x110#64, 0x400110#64, 0#64, none, some 0, 0#64⟩] := by
  decide +kernel

end FrameSite

end Gunwinder
