import Gunwinder.Intervals.Lookup
import Gunwinder.Rows.FdeIndex
import Gunwinder.Semantics.FrameTable
import Gunwinder.Walks.Simulation

/-!
# From the bytes of a frame section to the registers of the caller

The parts of a lookup put together: index, bisection, instructions, operation lists and their
evaluation give the values that the unwind table of the section gives.
-/

namespace Gunwinder

open Gunwinder.Core

/-! ## A row and its operations -/

section Row

variable {env : EvalEnv} {sec : Section} {row : Row} {rules : CalcRules}

/-- The CFA operations of the rules are those of the row. -/
theorem Row.Describes.cfaOps {arch : Arch} (h : row.Describes arch rules) (mem : Mem) :
    guCfiGetCfaOps mem rules = row.cfa.ops mem := by
  have hcfa := h.cfa
  unfold guCfiGetCfaOps CfaDef.ops
  cases hrow : row.cfa with
  | undefined =>
    rw [hrow] at hcfa
    rw [show rules.cfaRule = .undefined from hcfa]
  | regOffset reg offset | expr block =>
    rw [hrow] at hcfa
    rw [hcfa.1, hcfa.2]

/-- A row whose CFA has operations can be listed, with these for the CFA. -/
theorem Row.Describes.map_cfa_rowOps {arch : Arch} (h : row.Describes arch rules)
    (sec : Section) :
    (rowOps sec rules).map Scratch.cfa = row.cfa.ops sec.mem := by
  rw [← h.cfaOps, rowOps]
  cases guCfiGetCfaOps sec.mem rules <;> rfl

/-- The operations of an expression stand where the rule says. -/
theorem guCfiGetRegsOps_placed {type : RegType}
    (h : (rules.regs.get type).rule = .expression ∨ (rules.regs.get type).rule = .valExpression) :
    guCfiGetRegsOps sec type rules =
      placedOps sec (rules.regs.get type).rule (rules.regs.get type).word.toNat := by
  unfold guCfiGetRegsOps placedOps
  generalize rules.regs.get type = reg at h ⊢
  obtain ⟨rule, value⟩ := reg
  dsimp only at h
  rcases h with rfl | rfl <;> rfl

/-- A rule of the row has the value of the rule it describes. -/
theorem FrameRegister.value_meaning (env : EvalEnv) (sec : Section) (cfaOps : List DwarfOp)
    (rules : CalcRules) (type : RegType) :
    (rules.regs.get type).meaning.value env sec cfaOps = ruleValue env sec cfaOps rules type := by
  have hplaced := @guCfiGetRegsOps_placed sec rules type
  unfold ruleValue
  dsimp only
  cases hrule : (rules.regs.get type).rule <;> simp_all [FrameRegister.meaning, RegRule.value]

/-- A rule is silent when it has no operations. -/
theorem FrameRegister.silent_meaning (sec : Section) (rules : CalcRules) (type : RegType) :
    (rules.regs.get type).meaning.silent sec = (guCfiGetRegsOps sec type rules).isNone := by
  have hplaced := @guCfiGetRegsOps_placed sec rules type
  cases hrule : (rules.regs.get type).rule <;>
    simp_all [FrameRegister.meaning, RegRule.silent, guCfiGetRegsOps]

/-- The lists of a row give the values of the row. -/
theorem Row.Describes.genReg_value {scratch : Scratch} {regno : Int} {type : RegType}
    {depth : Nat} {oor oor' : OutOfRange} {result : Except UnwindReason Word}
    (h : row.Describes env.target.arch rules) (hops : rowOps sec rules = some scratch)
    (htype : transRegType env.target.arch regno = some type)
    (hgen : genReg env scratch depth regno oor = some (result, oor')) :
    result.toOption = row.callerValue env sec scratch.cfa type := by
  have hvalue : (row.regs (type.number env.target.arch)).value env sec scratch.cfa =
      (guCfiGetRegsOps sec type rules).bind (opsValue env scratch.cfa) := by
    rw [← h.regs, FrameRegister.value_meaning, ruleValue_eq_opsValue]
  have hsilent : (row.regs (type.number env.target.arch)).silent sec =
      (guCfiGetRegsOps sec type rules).isNone := by rw [← h.regs, FrameRegister.silent_meaning]
  obtain ⟨-, hrip, hrbp, hrsp⟩ := rowOps_columns hops
  have hget := guCfiGetOps_column hops type
  rw [← htype] at hget
  rw [Gunwinder.genReg_value hget hgen]
  unfold Row.callerValue
  dsimp only
  rw [hvalue, hsilent]
  cases type with
  | rip =>
    rw [if_neg (by simp), Columns.get, hrip]
    cases guCfiGetRegsOps sec .rip rules with
    | none => exact opsValue_nil
    | some ops => rfl
  | rbp =>
    rw [if_neg (by simp), Columns.get, hrbp]
    cases guCfiGetRegsOps sec .rbp rules with
    | none => exact opsValue_nil
    | some ops => rfl
  | rsp =>
    rw [Columns.get, hrsp]
    cases guCfiGetRegsOps sec .rsp rules with
    | none =>
      rw [if_pos ⟨rfl, rfl⟩]
      exact opsValue_self
    | some ops =>
      rw [if_neg (by simp)]
      rfl

end Row

/-! ## The index -/

namespace EhFrame

variable {frame : EhFrame} {rules : CalcRules} {offsets : List Word}
  {array : Option (IntervalArray (Option (Fde (List CalcRules))))}

/-- The index of a section, from its header or by a scan. -/
inductive IndexedBy (frame : EhFrame) (rules : CalcRules) (offsets : List Word)
    (array : Option (IntervalArray (Option (Fde (List CalcRules))))) : Prop where
  | header {hdr : Section} {addr : Word} (hlists : frame.Lists hdr addr offsets)
      (h : guCfiHdrInitByHdr savedValues frame hdr (some rules) () = .ok array)
  | scan (hnarrow : ∀ off ∈ offsets, Narrow off)
      (h : guCfiHdrInitByScan savedValues frame (some rules) () = .ok array)

/-- The items of the FDEs at some offsets. -/
def items (frame : EhFrame) (rules : CalcRules) (offsets : List Word) :
    List (Interval (Option (Fde (List CalcRules)))) :=
  (offsets.filterMap (frame.fdeAt rules)).map fdeItem

private theorem mem_items {item : Interval (Option (Fde (List CalcRules)))} :
    item ∈ frame.items rules offsets ↔
      ∃ off ∈ offsets, ∃ fde, frame.fdeAt rules off = some fde ∧ fdeItem fde = item := by
  simp only [items, List.mem_map, List.mem_filterMap]
  constructor
  · rintro ⟨fde, ⟨off, hoff, hfde⟩, hitem⟩
    exact ⟨off, hoff, fde, hfde, hitem⟩
  · rintro ⟨off, hoff, fde, hfde, hitem⟩
    exact ⟨fde, ⟨off, hoff, hfde⟩, hitem⟩

/-- Either way the index holds the items of all FDEs. -/
theorem IndexedBy.items (h : frame.IndexedBy rules offsets array)
    (hframe : frame.Indexable rules offsets) :
    ∃ listed, listed.Perm offsets ∧ array = guIntervalArrayInit (frame.items rules listed) := by
  cases h with
  | @header hdr addr hlists h =>
    refine ⟨(List.range offsets.length).map (tableOffset hdr), hlists.perm, ?_⟩
    have hcount : ((load32 hdr.mem (hdr.dBuf + 8)).setWidth 64).toNat = offsets.length := by
      have hlt := (load32 hdr.mem (hdr.dBuf + 8)).isLt
      rw [BitVec.toNat_setWidth, hlists.count, Nat.mod_eq_of_lt]
      rw [hlists.count] at hlt
      omega
    have hloop := hlists.fill hframe (k := 0) (m := offsets.length) (Nat.zero_add _)
      tableSound_empty List.length_nil
    unfold guCfiHdrInitByHdr at h
    rw [hlists.readHdr] at h
    dsimp only at h
    rw [hcount, hloop, ← List.range_eq_range'] at h
    exact (Except.ok.inj h).symm
  | scan hnarrow h =>
    refine ⟨offsets, .refl _, ?_⟩
    have hloop := hframe.chain.scan hnarrow hframe.cie_lt hframe.decodes
      (n := frame.sec.dSize + 1) (by simp) tableSound_empty []
    unfold guCfiHdrInitByScan at h
    rw [hloop] at h
    exact (Except.ok.inj h).symm

/-- The ranges of the FDEs are disjoint, in any order. -/
theorem Indexable.apart (hframe : frame.Indexable rules offsets) {listed : List Word}
    (hperm : listed.Perm offsets) : (frame.items rules listed).Pairwise Interval.Apart := by
  have hsymm : ∀ {a b : Interval (Option (Fde (List CalcRules)))}, a.Apart b → b.Apart a := Or.symm
  refine (((hperm.filterMap _).map _).pairwise_iff hsymm).mpr ?_
  rw [List.pairwise_map, List.pairwise_filterMap]
  exact hframe.disjoint

/-- The FDE that is found for a pc is the one of the section that covers it. -/
theorem IndexedBy.findFde_iff (h : frame.IndexedBy rules offsets array)
    (hframe : frame.Indexable rules offsets) {pc : Word} {fde : Fde (List CalcRules)}
    {cie : Cie (List CalcRules)} :
    findFde ⟨frame.arch, frame.sec, array⟩ pc = some (fde, cie) ↔
      (∃ off ∈ offsets, frame.fdeAt rules off = some fde) ∧ fde.cie = some cie ∧
        fde.start ≤ pc ∧ pc < fde.fin := by
  obtain ⟨listed, hperm, rfl⟩ := h.items hframe
  have hrange : ∀ item ∈ frame.items rules listed, item.start < item.fin := by
    intro item hitem
    obtain ⟨off, hoff, fde, hfde, rfl⟩ := mem_items.mp hitem
    exact hframe.nonempty off (hperm.mem_iff.mp hoff) fde hfde
  constructor
  · intro hfind
    unfold findFde at hfind
    dsimp only at hfind
    split at hfind
    · cases hfind
    rename_i array harray
    obtain ⟨-, hitems⟩ := disjoint_of_init hrange (hframe.apart hperm) harray
    split at hfind
    · cases hfind
    rename_i index item hsearch
    obtain ⟨hstored, hcontains⟩ := guIntervalArraySearch_sound hsearch
    have hmem := (perm_sortedItems _).mem_iff.mp (hitems ▸ List.mem_of_getElem? hstored)
    obtain ⟨off, hoff, found, hfde, rfl⟩ := mem_items.mp hmem
    obtain ⟨cie', hcie, heq⟩ := Option.map_eq_some_iff.mp hfind
    cases heq
    exact ⟨⟨off, hperm.mem_iff.mp hoff, hfde⟩, hcie, hcontains⟩
  · rintro ⟨⟨off, hoff, hfde⟩, hcie, hcontains⟩
    have hmem : fdeItem fde ∈ frame.items rules listed :=
      mem_items.mpr ⟨off, hperm.mem_iff.mpr hoff, fde, hfde, rfl⟩
    obtain ⟨array, harray⟩ : ∃ array,
        guIntervalArrayInit (frame.items rules listed) = some array := by
      refine Option.ne_none_iff_exists'.mp fun hnone => ?_
      rw [guIntervalArrayInit_eq_none] at hnone
      rw [hnone] at hmem
      cases hmem
    obtain ⟨hdisjoint, hitems⟩ := disjoint_of_init hrange (hframe.apart hperm) harray
    have hstored : fdeItem fde ∈ array.items := hitems ▸ (perm_sortedItems _).mem_iff.mpr hmem
    obtain ⟨index, hsearch⟩ := hdisjoint.search hstored hcontains
    simp only [findFde, harray, hsearch, fdeItem, hcie, Option.map_some]

/-! ## The table -/

/-- What the FDE at an offset says about its range, from the row its CIE starts with. -/
structure Tells (frame : EhFrame) (rules : CalcRules) (off : Word) (entry : FrameEntry)
    (fde : Fde (List CalcRules)) (cie : Cie (List CalcRules)) (first : Row) : Prop where
  decoded : frame.fdeAt rules off = some fde
  linked : fde.cie = some cie
  start : entry.start = fde.start
  fin : entry.fin = fde.fin
  signalFrame : entry.signalFrame = cie.signalFrame
  initial : first.Describes frame.arch cie.cieCalcCtx.rules
  rows : fde.HasTable frame.arch frame.sec cie first entry.rows

/-- The entries are the tables of the FDEs at the offsets, in any order. -/
structure Tabled (frame : EhFrame) (rules : CalcRules) (offsets : List Word)
    (entries : List FrameEntry) : Prop where
  told : ∀ entry ∈ entries, ∃ off ∈ offsets, ∃ fde cie first,
    frame.Tells rules off entry fde cie first
  complete : ∀ off ∈ offsets, ∃ entry ∈ entries, ∃ fde cie first,
    frame.Tells rules off entry fde cie first

/-- The interpreter arrives at the row of the table. -/
theorem Tells.row {off pc : Word} {entry : FrameEntry} {fde : Fde (List CalcRules)}
    {cie : Cie (List CalcRules)} {first : Row}
    (h : frame.Tells rules off entry fde cie first) (hpc : fde.start ≤ pc) :
    let run := initCalcCtxByIns savedValues frame.arch frame.sec cie cie.cieCalcCtx ()
      fde.instructions fde.instructionsEnd fde.start pc
    ∃ row, rowAt entry.rows pc.toNat = some row ∧ run.ok = true ∧
      row.Describes frame.arch run.ctx.rules := by
  have htable := h.rows
  obtain ⟨is, hread, hrange, hrows⟩ := htable.rows
  have hpar : ParamsAgree (cie.rowParams frame.arch first)
      (cie.params frame.arch fde.instructions) :=
    ⟨rfl, rfl, rfl, decide_eq_false htable.ownBytes, h.initial.regs⟩
  have hagrees : RowAgrees (fun _ prev saved => prev = saved ++ cie.cieCalcCtx.prev) frame.arch
      ⟨fde.instructions, fde.start, cie.cieCalcCtx, ()⟩ ⟨fde.start.toNat, first, []⟩ :=
    ⟨rfl, h.initial, [], rfl, .nil⟩
  exact RowAgrees.run (savedValues_lawful cie.cieCalcCtx.prev) hpar htable.inside _ hagrees hread
    hrange hrows htable.sorted htable.noWrap hpc

variable {entries : List FrameEntry} {pc : Word}

variable (h : frame.Tabled rules offsets entries) (hindex : frame.IndexedBy rules offsets array)
  (hframe : frame.Indexable rules offsets)
include h hindex hframe

/-- The entry of a pc is that of the FDE that is found. -/
theorem Tabled.find {entry : FrameEntry}
    (hfind : entries.find? (fun entry => entry.covers pc) = some entry) :
    ∃ off fde cie first, frame.Tells rules off entry fde cie first ∧
      findFde ⟨frame.arch, frame.sec, array⟩ pc = some (fde, cie) ∧ fde.start ≤ pc := by
  have hcovers := @List.find?_some _ (fun entry => FrameEntry.covers entry pc) _ _ hfind
  obtain ⟨hstart, hfin⟩ := of_decide_eq_true hcovers
  obtain ⟨off, hoff, fde, cie, first, htells⟩ := h.told entry (List.mem_of_find?_eq_some hfind)
  rw [htells.start] at hstart
  rw [htells.fin] at hfin
  refine ⟨off, fde, cie, first, htells, ?_, hstart⟩
  exact (hindex.findFde_iff hframe).mpr ⟨⟨off, hoff, htells.decoded⟩, htells.linked, hstart, hfin⟩

/-- A pc without an entry has no FDE. -/
theorem Tabled.find_none (hfind : entries.find? (fun entry => entry.covers pc) = none) :
    findFde ⟨frame.arch, frame.sec, array⟩ pc = none := by
  refine Option.eq_none_iff_forall_ne_some.mpr fun ⟨fde, cie⟩ hfound => ?_
  obtain ⟨⟨off, hoff, hfde⟩, -, hrange⟩ := (hindex.findFde_iff hframe).mp hfound
  obtain ⟨entry, hentry, fde', cie', first, htells⟩ := h.complete off hoff
  cases htells.decoded.symm.trans hfde
  refine List.find?_eq_none.mp hfind entry hentry (decide_eq_true ?_)
  rw [htells.start, htells.fin]
  exact hrange

/-- A parse of a section gives the row of the pc. -/
theorem Tabled.parse {row : Row} {signalFrame : Bool}
    (hrow : frameRow entries pc = some (row, signalFrame)) :
    ∃ found, row.Describes frame.arch found ∧
      freshParse ⟨frame.arch, frame.sec, array⟩ pc = match rowOps frame.sec found with
        | none => ⟨false, signalFrame, .empty⟩
        | some ops => ⟨true, signalFrame, ops⟩ := by
  obtain ⟨entry, hfind, hat⟩ := Option.bind_eq_some_iff.mp hrow
  obtain ⟨row', hrowAt, heq⟩ := Option.map_eq_some_iff.mp hat
  cases heq
  obtain ⟨off, fde, cie, first, htells, hfde, hstart⟩ := h.find hindex hframe hfind
  obtain ⟨row, hrowAt', hok, hdescribes⟩ := htells.row hstart
  cases hrowAt.symm.trans hrowAt'
  refine ⟨_, hdescribes, ?_⟩
  unfold freshParse parseMiss
  rw [hfde]
  dsimp only
  rw [if_pos hok, ← htells.signalFrame]
  generalize rowOps frame.sec _ = listed
  cases listed <;> rfl

/-- A pc that has no row cannot be parsed. -/
theorem Tabled.parse_none (hrow : frameRow entries pc = none) :
    (freshParse ⟨frame.arch, frame.sec, array⟩ pc).ok = false := by
  cases hfind : entries.find? (fun entry => entry.covers pc) with
  | none => rw [freshParse, parseMiss, h.find_none hindex hframe hfind]
  | some entry =>
    obtain ⟨off, fde, cie, first, htells, -, hstart⟩ := h.find hindex hframe hfind
    obtain ⟨row, hrowAt, -⟩ := htells.row hstart
    rw [frameRow, hfind, Option.bind_some, hrowAt] at hrow
    cases hrow

/-- A pc whose row has a CFA is parsed to the lists of the row. -/
theorem Tabled.parse_row {row : Row} {signalFrame : Bool} {cfaOps : List DwarfOp}
    (hrow : frameRow entries pc = some (row, signalFrame))
    (hcfa : row.cfa.ops frame.sec.mem = some cfaOps) :
    ∃ found ops, row.Describes frame.arch found ∧ rowOps frame.sec found = some ops ∧
      ops.cfa = cfaOps ∧
      freshParse ⟨frame.arch, frame.sec, array⟩ pc = ⟨true, signalFrame, ops⟩ := by
  obtain ⟨found, hdescribes, hparse⟩ := h.parse hindex hframe hrow
  have hmap := hdescribes.map_cfa_rowOps frame.sec
  rw [hcfa] at hmap
  obtain ⟨ops, hrowOps, hops⟩ := Option.map_eq_some_iff.mp hmap
  rw [hrowOps] at hparse
  exact ⟨found, ops, hdescribes, hrowOps, hops, hparse⟩

/-- The pcs that can be parsed are those that have a row with a CFA. -/
theorem Tabled.parse_ok_iff :
    (freshParse ⟨frame.arch, frame.sec, array⟩ pc).ok = true ↔
      ∃ row signalFrame, frameRow entries pc = some (row, signalFrame) ∧
        (row.cfa.ops frame.sec.mem).isSome = true := by
  constructor
  · intro hok
    cases hrow : frameRow entries pc with
    | none =>
      rw [h.parse_none hindex hframe hrow] at hok
      cases hok
    | some found =>
      obtain ⟨row, signalFrame⟩ := found
      refine ⟨row, signalFrame, rfl, ?_⟩
      obtain ⟨found, hdescribes, hparse⟩ := h.parse hindex hframe hrow
      rw [← hdescribes.map_cfa_rowOps, Option.isSome_map]
      rw [hparse] at hok
      split at hok
      · cases hok
      · next hsome =>
        rw [hsome]
        rfl
  · rintro ⟨row, signalFrame, hrow, hcfa⟩
    obtain ⟨cfaOps, hcfa⟩ := Option.isSome_iff_exists.mp hcfa
    obtain ⟨found, ops, -, -, -, hparse⟩ := h.parse_row hindex hframe hrow hcfa
    rw [hparse]

end EhFrame

/-- A call gives what a parse with nothing cached gives, whatever was called before. -/
theorem Parsers.call_fresh (cfis : Nat → ValueCfi) (stale : Scratch) (history : List (Nat × Word))
    (i : Nat) (pc : Word) :
    let last := (Parsers.calls cfis ⟨fun _ => .empty, stale⟩ history).call cfis i pc
    last.1 = freshParse (cfis i) pc ∧ last.2.ops = (freshParse (cfis i) pc).ops := by
  have hsound : (Parsers.calls cfis ⟨fun _ => .empty, stale⟩ history).Sound cfis :=
    Parsers.Sound.calls (fun j => CacheSound.empty (cfis j)) history
  obtain ⟨hout, hops, -⟩ := guCfiParseCfiEx_sound
    ⟨(Parsers.calls cfis ⟨fun _ => .empty, stale⟩ history).caches i,
      (Parsers.calls cfis ⟨fun _ => .empty, stale⟩ history).ops, ()⟩ (hsound i) pc
  exact ⟨hout, hops⟩

/-- A lookup in a frame section, with whatever was looked up before in this section or in
others, gives what the unwind table of the section says: it succeeds exactly for a pc that has
a row with a CFA, and then `gen_reg` recovers the values the row gives the registers of the
caller, whenever its evaluation ends. -/
theorem parse_recovers_table_row {frame : EhFrame} {rules : CalcRules} {offsets : List Word}
    {array : Option (IntervalArray (Option (Fde (List CalcRules))))} {entries : List FrameEntry}
    (hframe : frame.Indexable rules offsets) (htabled : frame.Tabled rules offsets entries)
    (hindex : frame.IndexedBy rules offsets array) {cfis : Nat → ValueCfi} {i : Nat}
    (hcfi : cfis i = ⟨frame.arch, frame.sec, array⟩) (stale : Scratch)
    (history : List (Nat × Word)) (pc : Word) :
    let last := (Parsers.calls cfis ⟨fun _ => .empty, stale⟩ history).call cfis i pc
    (last.1.ok = true ↔ ∃ row signalFrame, frameRow entries pc = some (row, signalFrame) ∧
      (row.cfa.ops frame.sec.mem).isSome = true) ∧
    ∀ row signalFrame cfaOps, frameRow entries pc = some (row, signalFrame) →
      row.cfa.ops frame.sec.mem = some cfaOps → last.1.signalFrame = signalFrame ∧
      ∀ env : EvalEnv, env.target.arch = frame.arch → ∀ regno type,
        transRegType env.target.arch regno = some type → ∀ depth oor result oor',
        genReg env last.2.ops depth regno oor = some (result, oor') →
        result.toOption = row.callerValue env frame.sec cfaOps type := by
  intro last
  obtain ⟨hlast, hlists⟩ := Parsers.call_fresh cfis stale history i pc
  rw [hcfi] at hlast hlists
  constructor
  · rw [show last.1 = _ from hlast]
    exact htabled.parse_ok_iff hindex hframe
  · intro row signalFrame cfaOps hrow hcfa
    obtain ⟨found, ops, hdescribes, hrowOps, rfl, hparse⟩ :=
      htabled.parse_row hindex hframe hrow hcfa
    rw [hparse] at hlast hlists
    refine ⟨congrArg ParseOutcome.signalFrame hlast, ?_⟩
    intro env harch regno type htype depth oor result oor' hgen
    rw [show last.2.ops = ops from hlists] at hgen
    exact Row.Describes.genReg_value (harch ▸ hdescribes) hrowOps htype hgen

/-! ## A section of one FDE -/

namespace EhFrame

/-- A CIE in the first 24 bytes, and an FDE for `[0x400, 0x410)` that sets up and tears down a
frame. -/
def pushFrame : EhFrame where
  arch := .x86
  sec := bytesSection (List.replicate 16 0#8 ++
    [0x0c#8, 0x07#8, 0x08#8, 0x90#8, 0x01#8, 0#8, 0#8, 0#8] ++ List.replicate 8 0#8 ++
    [0#8, 0x04#8] ++ List.replicate 6 0#8 ++ [0x10#8] ++ List.replicate 7 0#8 ++
    [0x41#8, 0x0e#8, 0x10#8, 0x86#8, 0x02#8, 0x0a#8, 0x43#8, 0x0d#8, 0x06#8, 0x44#8, 0x0b#8] ++
    List.replicate 5 0#8) (by decide)
  shOff := 0x2000#64
  dwarfNextCfi off :=
    if off = 0#64 then
      some (.cie ⟨1#64, -8#64, 16#64, 0x1010, 0x1018, [], 0x1010⟩, 24#64)
    else if off = 24#64 then some (.fde ⟨0#64, 0x1020, 0x1040⟩, 64#64)
    else none
  advances {off nextOff entry} h := by
    split_ifs at h with h0 h1
    all_goals
      cases h
      subst off
      decide

/-- Its FDE and CIE. -/
def pushFde : Fde (List CalcRules) := (pushFrame.fdeAt .zero 24#64).get (by decide +kernel)

def pushCie : Cie (List CalcRules) := pushFde.cie.get (by decide +kernel)

/-- The row its CIE starts with. -/
def pushRow : Row where
  cfa := .regOffset 7 8#64
  regs reg := if reg = 16 then .offset (-8) else .unspecified

/-- The rows of its FDE. -/
def pushRows : List (Nat × Row) :=
  (rowTable (pushCie.rowParams .x86 pushRow) ⟨pushFde.start.toNat, pushRow, []⟩
    (pushFrameStream ++ List.replicate 5 .nop)).get (by decide +kernel)

def pushEntries : List FrameEntry := [⟨0x400#64, 0x410#64, false, pushRows⟩]

private theorem pushFrame_fdeAt : pushFrame.fdeAt .zero 24#64 = some pushFde :=
  (Option.some_get _).symm

private theorem pushFde_cie : pushFde.cie = some pushCie := (Option.some_get _).symm

private theorem pushFde_range :
    pushFde.start = 0x400#64 ∧ pushFde.fin = 0x410#64 := by decide +kernel

private theorem pushFrame_indexable : pushFrame.Indexable .zero [24#64] := by
  refine ⟨.cie rfl (.fde rfl (.done rfl)), ?_, ?_, ?_, ?_, List.pairwise_singleton _ _⟩
  · intro off nextOff fde hentry
    simp only [pushFrame] at hentry
    split_ifs at hentry
    · cases hentry
    · cases hentry
      decide
  · intro off _ fde nextOff hentry
    have hzero : fde.ciePointer = 0#64 := by
      simp only [pushFrame] at hentry
      split_ifs at hentry
      · cases hentry
      · cases hentry
        rfl
    rw [hzero]
    exact .start
  · simp [pushFrame_fdeAt]
  · simp [pushFrame_fdeAt, pushFde_range]

private theorem pushRow_describes : pushRow.Describes .x86 pushCie.cieCalcCtx.rules := by
  refine ⟨⟨by decide +kernel, by decide +kernel⟩, fun t => ?_⟩
  cases t <;> decide +kernel

private theorem pushFde_hasTable :
    pushFde.HasTable .x86 pushFrame.sec pushCie pushRow pushRows := by
  have hfactor : pushCie.dataAlignmentFactor.toInt = -8 := by decide +kernel
  have hlocs : pushRows.map Prod.fst = [0x400, 0x401, 0x404, 0x408] := by decide +kernel
  refine ⟨by decide +kernel, by decide +kernel,
    ⟨pushFrameStream ++ List.replicate 5 .nop, by decide +kernel, ?_, (Option.some_get _).symm⟩,
    ?_, ?_⟩
  · simp [pushFrameStream, CfaIns.InRange, FitsField, hfactor]
  · rw [← List.pairwise_map (f := Prod.fst) (R := (· ≤ ·)), hlocs]
    decide
  · have hwrap : ∀ loc ∈ pushRows.map Prod.fst, loc < 2 ^ 64 := by
      rw [hlocs]
      decide
    exact fun entry hentry => hwrap _ (List.mem_map_of_mem hentry)

private theorem pushFrame_tabled : pushFrame.Tabled .zero [24#64] pushEntries := by
  have htells : pushFrame.Tells .zero 24#64 ⟨0x400#64, 0x410#64, false, pushRows⟩ pushFde pushCie
      pushRow :=
    ⟨pushFrame_fdeAt, pushFde_cie, pushFde_range.1.symm, pushFde_range.2.symm, by decide +kernel,
      pushRow_describes, pushFde_hasTable⟩
  constructor
  · rintro entry hentry
    obtain rfl := List.mem_singleton.mp hentry
    exact ⟨_, List.mem_singleton_self _, _, _, _, htells⟩
  · rintro off hoff
    obtain rfl := List.mem_singleton.mp hoff
    exact ⟨_, List.mem_singleton_self _, _, _, _, htells⟩

end EhFrame

/-- In the middle of the function the return address is at -8 from the CFA, `rbp` plus 16. -/
theorem parse_recovers_table_row_pushFrame : ∃ array,
    guCfiHdrInitByScan savedValues EhFrame.pushFrame (some .zero) () = .ok array ∧
    let cfis : Nat → ValueCfi := fun _ => ⟨.x86, EhFrame.pushFrame.sec, array⟩
    let last := (Parsers.calls cfis ⟨fun _ => .empty, .empty⟩ [(0, 0x400#64)]).call cfis 0 0x405#64
    last.1.ok = true ∧ ∀ env : EvalEnv, env.target.arch = .x86 → ∀ depth oor result oor',
      genReg env last.2.ops depth 16 oor = some (result, oor') →
      result.toOption = (cfaValue env [⟨.bregx, 6#64, 16#64, 0#64⟩]).bind fun cfa =>
        (readAddr env (cfa + BitVec.ofInt 64 (-8)) .clear).1 := by
  have hscanned :
      (guCfiHdrInitByScan savedValues EhFrame.pushFrame (some .zero) ()).isOk = true := by
    decide +kernel
  cases hscan : guCfiHdrInitByScan savedValues EhFrame.pushFrame (some .zero) () with
  | error e =>
    rw [hscan] at hscanned
    cases hscanned
  | ok array =>
    refine ⟨array, rfl, ?_⟩
    intro cfis last
    have hrow : (frameRow EhFrame.pushEntries 0x405#64).map (fun found => (found.1.cfa,
        found.1.regs 16)) = some (.regOffset 6 16#64, .offset (-8)) := by decide +kernel
    obtain ⟨⟨row, signalFrame⟩, hfound, heq⟩ := Option.map_eq_some_iff.mp hrow
    obtain ⟨hcfa, hrule⟩ := Prod.mk.inj heq
    have hops : row.cfa.ops EhFrame.pushFrame.sec.mem = some [⟨.bregx, 6#64, 16#64, 0#64⟩] := by
      rw [hcfa]
      rfl
    obtain ⟨hok, hvalues⟩ := parse_recovers_table_row EhFrame.pushFrame_indexable
      EhFrame.pushFrame_tabled (.scan (by simp [EhFrame.Narrow]) hscan)
      (show cfis 0 = ⟨.x86, EhFrame.pushFrame.sec, array⟩ from rfl) .empty [(0, 0x400#64)] 0x405#64
    refine ⟨hok.mpr ⟨row, signalFrame, hfound, by rw [hops]; rfl⟩, ?_⟩
    intro env harch depth oor result oor' hgen
    have htype : transRegType env.target.arch 16 = some .rip := by
      rw [harch]
      rfl
    obtain ⟨-, hvalue⟩ := hvalues row signalFrame _ hfound hops
    rw [hvalue env harch 16 .rip htype depth oor result oor' hgen, Row.callerValue, harch]
    rw [if_neg (by simp), show row.regs (RegType.number .x86 .rip) = .offset (-8) from hrule,
      RegRule.value]

end Gunwinder
