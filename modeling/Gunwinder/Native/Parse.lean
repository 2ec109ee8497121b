import Gunwinder.Native.Cie
import Gunwinder.Native.Eval
import Gunwinder.Native.IntervalArray

/-!
# Parsing the row of a pc

`gu_cfi_parse_cfi_ex` finds the FDE of a pc, runs its instructions from the CIE's initial
rules and turns the row into four operation lists, which it leaves in global scratch
buffers. Short results are kept in a direct-mapped cache of the `gu_cfi` object.
-/

namespace Gunwinder

open Gunwinder.Core

variable {H P : Type}

/-- `struct gu_cfi_fde`. -/
structure Fde (P : Type) where
  cie : Option (Cie P)
  start : Word
  fin : Word
  instructions : Nat
  instructionsEnd : Nat

/-- `struct gu_cfi_parse_cache_entry`, when it is valid. -/
structure ParseCacheEntry where
  pc : Word
  signalFrame : Bool
  ops : Scratch
  deriving DecidableEq, Repr

/-- `parse_cache[]`. -/
abbrev ParseCache := Nat → Option ParseCacheEntry

/-- The cache of a `gu_cfi` object that has parsed nothing yet. -/
def ParseCache.empty : ParseCache := fun _ => none

/-- The part of `struct gu_cfi` that parsing reads and never changes. -/
structure CfiData (P : Type) where
  arch : Arch
  sec : Section
  /-- FDEs by pc; a NULL payload is `none`. -/
  hdrIntervalArray : Option (IntervalArray (Option (Fde P)))

/-- `GU_CFI_PARSE_CACHE_SIZE`. -/
def guCfiParseCacheSize : Nat := 64

/-- `GU_CFI_PARSE_CACHE_OPS_MAX`. -/
def guCfiParseCacheOpsMax : Nat := 8

/-- `gu_cfi_parse_cache_index`. -/
def guCfiParseCacheIndex (pc : Word) : Nat :=
  (((pc >>> 4) ^^^ (pc >>> 12)) &&& (BitVec.ofNat 64 guCfiParseCacheSize - 1#64)).toNat

/-- `gu_cfi_ops_cacheable`. -/
def guCfiOpsCacheable (ops : List DwarfOp) : Bool := ops.length ≤ guCfiParseCacheOpsMax

/-- `gu_cfi_parse_cache_load`. -/
def guCfiParseCacheLoad (cache : ParseCache) (pc : Word) : Option ParseCacheEntry :=
  match cache (guCfiParseCacheIndex pc) with
  | none => none
  | some entry => if entry.pc ≠ pc then none else some entry

/-- `gu_cfi_parse_cache_store`. -/
def guCfiParseCacheStore (cache : ParseCache) (pc : Word) (signalFrame : Bool)
    (ops : Scratch) : ParseCache :=
  if guCfiOpsCacheable ops.cfa && guCfiOpsCacheable ops.regs.rip &&
      guCfiOpsCacheable ops.regs.rbp && guCfiOpsCacheable ops.regs.rsp then
    Function.update cache (guCfiParseCacheIndex pc) (some ⟨pc, signalFrame, ops⟩)
  else cache

/-- `gu_cfi_get_cfa_ops`; `none` is its NULL. -/
def guCfiGetCfaOps (mem : Mem) (rules : CalcRules) : Option (List DwarfOp) :=
  match rules.cfaRule with
  | .undefined => none
  | .offset => some [rules.cfaData.offset]
  | .expr => guCfiInitOpsFromBlock mem rules.cfaData.expr .expression true
  | .invalid => none

/-- `DW_OP_plus_uconst` for a register offset, left out when the offset is zero. -/
def plusOffset (value : Word) : List DwarfOp :=
  if value = 0#64 then [] else [⟨.plusUconst, value, 0#64, 0#64⟩]

/-- `gu_cfi_get_regs_ops`; `none` is its NULL. -/
def guCfiGetRegsOps (sec : Section) (type : RegType) (rules : CalcRules) :
    Option (List DwarfOp) :=
  let reg := rules.regs.get type
  match reg.rule with
  | .unspecified | .undefined | .sameValue => none
  | .offset => some (.bare .callFrameCfa :: plusOffset reg.word)
  | .valOffset => some (.bare .callFrameCfa :: plusOffset reg.word ++ [.bare .stackValue])
  | .register => some [⟨.regx, reg.word, 0#64, 0#64⟩]
  | .valExpression | .expression =>
    if sec.dSize ≤ reg.word.toNat then none
    else
      match decodeReadChecked sec.mem (sec.dBuf + reg.word.toNat) sec.fin dwEhPeUleb128 with
      | none => none
      | some (length, data) =>
        if blockFits data sec.fin length then
          guCfiInitOpsFromBlock sec.mem ⟨length, BitVec.ofNat 64 data⟩ reg.rule false
        else none

/-- The operation lists of a row. Without a rule of its own the stack pointer is the CFA;
the other two columns stay empty. -/
def rowOps (sec : Section) (rules : CalcRules) : Option Scratch :=
  match guCfiGetCfaOps sec.mem rules with
  | none => none
  | some cfa =>
    some ⟨⟨(guCfiGetRegsOps sec .rip rules).getD [], (guCfiGetRegsOps sec .rbp rules).getD [],
      (guCfiGetRegsOps sec .rsp rules).getD cfa⟩, cfa⟩

/-- What a parse reports: the return code (`true` for 0, `false` for -1), `*signal_frame`
and the global operation lists. -/
structure ParseOutcome where
  ok : Bool
  signalFrame : Bool
  ops : Scratch
  deriving DecidableEq, Repr

/-- The FDE a pc is searched for. -/
def findFde (cfi : CfiData P) (pc : Word) : Option (Fde P × Cie P) :=
  match cfi.hdrIntervalArray with
  | none => none
  | some array =>
    match guIntervalArraySearch array pc with
    | none => none
    | some (_, item) =>
      match item.payload with
      | none => none
      | some fde => fde.cie.map fun cie => (fde, cie)

/-- The FDEs of the search table. -/
def CfiData.fdes (cfi : CfiData P) : List (Fde P) :=
  match cfi.hdrIntervalArray with
  | none => []
  | some array => array.items.filterMap Interval.payload

/-- The FDE that is found is one of the table and has a CIE. -/
theorem findFde_sound {cfi : CfiData P} {pc : Word} {fde : Fde P} {cie : Cie P}
    (h : findFde cfi pc = some (fde, cie)) : fde ∈ cfi.fdes ∧ fde.cie = some cie := by
  unfold findFde at h
  split at h
  · cases h
  rename_i array harray
  split at h
  · cases h
  rename_i i item hsearch
  split at h
  · cases h
  rename_i fde' hpayload
  obtain ⟨cie', hcie, heq⟩ := Option.map_eq_some_iff.mp h
  cases heq
  have hitem := List.mem_of_getElem? (guIntervalArraySearch_sound hsearch).1
  refine ⟨?_, hcie⟩
  simp only [CfiData.fdes, harray]
  exact List.mem_filterMap.mpr ⟨item, hitem, hpayload⟩

/-- `gu_cfi_parse_cfi_ex` behind a cache miss. A failed run returns at once and leaves its
saved states behind; a successful one frees what is left of them. -/
def parseMiss (S : SavedStates H P) (cfi : CfiData P) (heap : H) (pc : Word) :
    ParseOutcome × H :=
  match findFde cfi pc with
  | none => (⟨false, false, .empty⟩, heap)
  | some (fde, cie) =>
    let run := initCalcCtxByIns S cfi.arch cfi.sec cie cie.cieCalcCtx heap fde.instructions
      fde.instructionsEnd fde.start pc
    if run.ok then
      let heap := S.discard run.heap run.ctx.prev
      match rowOps cfi.sec run.ctx.rules with
      | none => (⟨false, cie.signalFrame, .empty⟩, heap)
      | some ops => (⟨true, cie.signalFrame, ops⟩, heap)
    else (⟨false, cie.signalFrame, .empty⟩, run.heap)

/-- The store after a parse: a successful run frees what it still holds. -/
theorem parseMiss_heap {S : SavedStates H P} {cfi : CfiData P} {pc : Word} {fde : Fde P}
    {cie : Cie P} (hfind : findFde cfi pc = some (fde, cie)) (heap : H) :
    let run := initCalcCtxByIns S cfi.arch cfi.sec cie cie.cieCalcCtx heap fde.instructions
      fde.instructionsEnd fde.start pc
    (parseMiss S cfi heap pc).2 =
      if run.ok then S.discard run.heap run.ctx.prev else run.heap := by
  intro run
  simp only [parseMiss, hfind]
  change Prod.snd (if run.ok then _ else _) = _
  split
  · split <;> rfl
  · rfl

/-- What a parse changes: the cache of the object, the global lists and the store. -/
structure ParseState (H : Type) where
  cache : ParseCache
  ops : Scratch
  heap : H

/-- `gu_cfi_parse_cfi_ex`. The sizes of the global lists are zeroed first, so nothing is
left of the lists an earlier call filled. -/
def guCfiParseCfiEx (S : SavedStates H P) (cfi : CfiData P) (st : ParseState H) (pc : Word) :
    ParseOutcome × ParseState H :=
  match guCfiParseCacheLoad st.cache pc with
  | some entry => (⟨true, entry.signalFrame, entry.ops⟩, { st with ops := entry.ops })
  | none =>
    let (outcome, heap) := parseMiss S cfi st.heap pc
    let cache := if outcome.ok then
      guCfiParseCacheStore st.cache pc outcome.signalFrame outcome.ops else st.cache
    (outcome, ⟨cache, outcome.ops, heap⟩)

end Gunwinder
