import Gunwinder.Core.Keyed
import Gunwinder.Native.Parse

/-!
# Building the search table of FDEs

`gu_cfi_hdr_init_by_scan` visits the entries of a section one behind the other,
`gu_cfi_hdr_init_by_hdr` those an `.eh_frame_hdr` lists. Both decode an FDE with
`init_fde_from_entry`. Entries are decoded by `dwarf_next_cfi` of libdw, a function of the section
and the offset.
-/

namespace Gunwinder

open Gunwinder.Core

variable {H P : Type}

/-- `Dwarf_FDE`. -/
structure DwarfFde where
  ciePointer : Word
  start : Nat
  fin : Nat

/-- `Dwarf_CFI_Entry`; the two are told apart by `CIE_id`. -/
inductive CfiEntry where
  | cie (cie : DwarfCie)
  | fde (fde : DwarfFde)

/-- A section of call frame information and what `dwarf_next_cfi` decodes in it: the entry at an
offset and the offset of the next one, or `none` for a return value other than 0. -/
structure EhFrame where
  arch : Arch
  sec : Section
  /-- `sh_addr` of the section. -/
  shOff : Word
  dwarfNextCfi : Word → Option (CfiEntry × Word)
  /-- An entry takes space in the section. -/
  advances : ∀ {off nextOff : Word} {entry : CfiEntry},
    dwarfNextCfi off = some (entry, nextOff) → off < nextOff ∧ nextOff.toNat ≤ sec.dSize

/-! ## One FDE -/

/-- What decoding FDEs changes: `cie_list`, the default rules and the store. -/
structure CieTable (H P : Type) where
  cieList : List (Cie P)
  defaults : Option CalcRules
  heap : H

/-- `HASH_FIND_INT` and `HASH_ADD_INT` read four bytes of an offset. -/
def intKey (offset : Word) : BitVec 32 := offset.setWidth 32

def cieKey (cie : Cie P) : BitVec 32 := intKey cie.offset

variable (S : SavedStates H P) (frame : EhFrame)

/-- The CIE of an FDE in `init_fde_from_entry`. -/
def findCie (table : CieTable H P) (ciePointer : Word) :
    Except Stuck (Option (Cie P) × CieTable H P) :=
  match lookup cieKey table.cieList (intKey ciePointer) with
  | some cie => .ok (some cie, table)
  | none =>
    match frame.dwarfNextCfi ciePointer with
    | some (.cie dwarfCie, _) =>
      let built := initCieFromBuf S frame.arch frame.sec ciePointer dwarfCie table.defaults
        table.heap
      match built.cie with
      -- HASH_ADD_INT writes through the pointer
      | none => .error .nullPointer
      | some cie => .ok (some cie, ⟨table.cieList ++ [cie], built.defaults, built.heap⟩)
    | _ => .ok (none, table)

/-- The augmentation data of an FDE is skipped. -/
def skipAugmentation (mem : Mem) (cie : Cie P) (buf fin : Nat) : Option Nat :=
  if cie.sizedAugmentationData then
    match decodeReadChecked mem buf fin dwEhPeUleb128 with
    | none => none
    | some (len, buf) => if blockFits buf fin len then some (buf + len.toNat) else none
  else if blockFits buf fin (BitVec.ofNat 64 cie.fdeAugmentationDataSize) then
    some (buf + cie.fdeAugmentationDataSize)
  else none

/-- `init_fde_from_entry` once the CIE is known; `none` is a return value other than 0. -/
def fdeOfCie (fde : DwarfFde) (cie : Cie P) : Option (Fde P) := do
  let (pc, buf) ← decodeReadChecked frame.sec.mem fde.start fde.fin cie.fdeEncoding
  let (size, buf) ← decodeReadChecked frame.sec.mem buf fde.fin cie.fdeEncoding
  let instructions ← skipAugmentation frame.sec.mem cie buf fde.fin
  let pc := if cie.fdeEncoding &&& 0x70#8 = dwEhPePcrel then
    frame.shOff + BitVec.ofNat 64 (fde.start - frame.sec.dBuf) + pc else pc
  if pc + size < pc then none else some ⟨some cie, pc, pc + size, instructions, fde.fin⟩

/-- `init_fde_from_entry`. The first word of a CIE is no offset of the section, so a CIE in
place of the FDE is rejected. -/
def initFdeFromEntry (table : CieTable H P) :
    CfiEntry → Except Stuck (Option (Fde P) × CieTable H P)
  | .cie _ => .ok (none, table)
  | .fde fde =>
    match findCie S frame table fde.ciePointer with
    | .error stuck => .error stuck
    | .ok (none, table) => .ok (none, table)
    | .ok (some cie, table) => .ok (fdeOfCie frame fde cie, table)

/-- The item of an FDE. -/
def fdeItem (fde : Fde P) : Interval (Option (Fde P)) := ⟨fde.start, fde.fin, some fde⟩

/-- Locals of the two loops: the CIEs, the items so far, and an offset of the section or a
pointer into the header. -/
structure IndexState (H P κ : Type) where
  pos : κ
  table : CieTable H P
  items : List (Interval (Option (Fde P)))

/-- The end of a turn: the FDE becomes an item, or the loop is left with what it has. -/
def addItem {κ : Type} (s : IndexState H P κ) (entry : CfiEntry) (next : κ) :
    Turn (IndexState H P κ) (Except Stuck (List (Interval (Option (Fde P))))) :=
  match initFdeFromEntry S frame s.table entry with
  | .error stuck => .stop (.error stuck)
  | .ok (none, _) => .stop (.ok s.items)
  | .ok (some fde, table) => .next ⟨next, table, s.items ++ [fdeItem fde]⟩

/-! ## Along the section -/

/-- One turn of the second loop of `gu_cfi_hdr_init_by_scan`. -/
def scanTurn (s : IndexState H P Word) :
    Turn (IndexState H P Word) (Except Stuck (List (Interval (Option (Fde P))))) :=
  match frame.dwarfNextCfi s.pos with
  | none => .stop (.ok s.items)
  | some (.cie _, nextOff) => .next { s with pos := nextOff }
  | some (.fde fde, nextOff) => addItem S frame s (.fde fde) nextOff

/-- `gu_cfi_hdr_init_by_scan`; `none` is its failure on a section without FDEs.
Its first loop only counts. There are fewer entries than bytes. -/
def guCfiHdrInitByScan (defaults : Option CalcRules) (heap : H) :
    Except Stuck (Option (IntervalArray (Option (Fde P)))) := do
  let items ← loop (scanTurn S frame) (fun s => .ok s.items) (frame.sec.dSize + 1)
    ⟨0#64, ⟨[], defaults, heap⟩, []⟩
  return guIntervalArrayInit items

/-! ## Along the header -/

/-- One turn of the loop of `gu_cfi_hdr_init_by_hdr`; the address that stands before the
entry's is read and not used. -/
def hdrTurn (mem : Mem) (fin : Nat) (ehFramePtr fdeCount : Word) (s : IndexState H P Nat) :
    Turn (IndexState H P Nat) (Except Stuck (List (Interval (Option (Fde P))))) :=
  if s.items.length < fdeCount.toNat ∧ s.pos < fin then
    match decodeReadChecked mem s.pos fin dwEhPeSdata4 with
    | none => .stop (.ok s.items)
    | some (_, buf) =>
      match decodeReadChecked mem buf fin dwEhPeSdata4 with
      | none => .stop (.ok s.items)
      | some (addr, buf) =>
        match frame.dwarfNextCfi (addr - (ehFramePtr + 4#64)) with
        | none => .stop (.ok s.items)
        | some (entry, _) => addItem S frame s entry buf
  else .stop (.ok s.items)

/-- `HDR_VERSION`. -/
def hdrVersion : Byte := 1#8

/-- The two numbers in front of the table of an `.eh_frame_hdr`, and where it starts. -/
def readHdr (hdr : Section) : Option (Word × Word × Nat) :=
  let mem := hdr.mem
  let raw := hdr.dBuf
  if hdr.dSize < 4 ∨ mem raw ≠ hdrVersion then none
  else if mem (raw + 1) = dwEhPeOmit ∨ mem (raw + 2) = dwEhPeOmit ∨ mem (raw + 3) = dwEhPeOmit then
    none
  else do
    let (ehFramePtr, buf) ← decodeReadChecked mem (raw + 4) hdr.fin (mem (raw + 1))
    let (fdeCount, buf) ← decodeReadChecked mem buf hdr.fin (mem (raw + 2))
    return (ehFramePtr, fdeCount, buf)

/-- `gu_cfi_hdr_init_by_hdr`; `none` is its failure. -/
def guCfiHdrInitByHdr (hdr : Section) (defaults : Option CalcRules) (heap : H) :
    Except Stuck (Option (IntervalArray (Option (Fde P)))) :=
  match readHdr hdr with
  | none => .ok none
  | some (ehFramePtr, fdeCount, buf) => do
    let items ← loop (hdrTurn S frame hdr.mem hdr.fin ehFramePtr fdeCount)
      (fun s => .ok s.items) fdeCount.toNat ⟨buf, ⟨[], defaults, heap⟩, []⟩
    return guIntervalArrayInit items

end Gunwinder
