import Gunwinder.Native.Elf

/-!
# Executable segments

`gu_elf_exec_ranges_load_from_elf` keeps the executable `PT_LOAD` segments of a file, widened to
their own alignment. `load_elf` takes the first start as the address of mappings that none of
them resolves.
-/

namespace Gunwinder

/-- `align_down`. -/
def alignDown (value align : Word) : Word :=
  if align = 0#64 then value else value - value % align

/-- `align_up`. -/
def alignUp (value align : Word) : Word :=
  if align = 0#64 then value
  else
    let rem := value % align
    if rem = 0#64 then value else value + (align - rem)

/-- The fields of `GElf_Phdr` that are read. -/
structure ProgramHeader where
  /-- `p_type` is `PT_LOAD`. -/
  load : Bool
  /-- `p_flags` has `PF_X`. -/
  exec : Bool
  pOffset : Word
  pVaddr : Word
  pMemsz : Word
  pAlign : Word
  deriving DecidableEq, Repr

/-- The range of a header, if it has one. -/
def ProgramHeader.execRange (phdr : ProgramHeader) : Option ExecRange :=
  if !phdr.load || !phdr.exec || phdr.pMemsz == 0#64 then none
  else
    let start := alignDown phdr.pVaddr phdr.pAlign
    let fin := alignUp (phdr.pVaddr + phdr.pMemsz) phdr.pAlign
    if fin ≤ start then none else some ⟨start, fin, alignDown phdr.pOffset phdr.pAlign⟩

/-- `gu_elf_exec_ranges_load_from_elf`. A header is `none` when `gelf_getphdr` fails on it; the
result is then `none`, its -1. -/
def guElfExecRangesLoadFromElf (phdrs : List (Option ProgramHeader)) : Option (List ExecRange) := do
  let headers ← phdrs.mapM id
  return headers.filterMap ProgramHeader.execRange

/-- `gu_elf_exec_ranges_first_start`. -/
def guElfExecRangesFirstStart : List ExecRange → Word
  | [] => 0#64
  | range :: _ => range.start

/-- `get_elf_exec_virt_addr`. -/
def getElfExecVirtAddr : List (Option ProgramHeader) → Word
  | [] => 0#64
  | none :: _ => 0#64
  | some phdr :: rest =>
    if phdr.load && phdr.exec then alignDown phdr.pVaddr phdr.pAlign else getElfExecVirtAddr rest

/-- `exec_ranges` and `exec_virt_addr` as `load_elf` sets them. -/
def loadExecRanges (phdrs : List (Option ProgramHeader)) : List ExecRange × Word :=
  match guElfExecRangesLoadFromElf phdrs with
  | some ranges => (ranges, guElfExecRangesFirstStart ranges)
  | none => ([], getElfExecVirtAddr phdrs)

/-- All headers can be read. -/
theorem loadExecRanges_map_some (phdrs : List ProgramHeader) :
    loadExecRanges (phdrs.map some) =
      (phdrs.filterMap ProgramHeader.execRange,
        guElfExecRangesFirstStart (phdrs.filterMap ProgramHeader.execRange)) := by
  have hall : (phdrs.map some).mapM id = some phdrs := by
    induction phdrs with
    | nil => rfl
    | cons phdr rest ih => simp [ih]
  simp [loadExecRanges, guElfExecRangesLoadFromElf, hall]

end Gunwinder
