import Gunwinder.Native.Parse

/-!
# ELF images and mappings

What the loader knows about an ELF file and about the executable mappings of a process.
Opening and decoding files is not modelled: a file is what it decodes to. The part that
is computed is the virtual address of a mapping, from which every load bias is derived.
-/

namespace Gunwinder

/-- `struct maps_info`, for an executable mapping. -/
structure MapsInfo where
  path : String
  start : Word
  fin : Word
  offset : Word
  deleted : Bool
  deriving DecidableEq, Repr

/-- The file opened in place of the mapped path. -/
inductive OpenPath where
  /-- `/proc/<pid>/exe`. -/
  | exe
  /-- `/proc/<pid>/map_files/<start>-<end>`. -/
  | mapFiles (start fin : Word)
  deriving DecidableEq, Repr

/-- `struct gu_elf_exec_range`. -/
structure ExecRange where
  start : Word
  fin : Word
  offset : Word
  deriving DecidableEq, Repr

/-- The range of a file offset, if a range holds all of `[offset, offset + size)`. -/
def ExecRange.find (offset size : Word) (range : ExecRange) : Option Word :=
  if range.fin ≤ range.start then none
  else
    let rangeSize := range.fin - range.start
    if uint64Max - rangeSize < range.offset then none
    else if range.offset ≤ offset ∧ offset + size ≤ range.offset + rangeSize then
      some (range.start + (offset - range.offset))
    else none

/-- `gu_elf_exec_ranges_find_by_offset`. -/
def guElfExecRangesFindByOffset (ranges : List ExecRange) (offset size : Word) : Option Word :=
  if size = 0#64 then none
  else if uint64Max - size < offset then none
  else ranges.findSome? (ExecRange.find offset size)

/-- `struct gu_cfi`: what parsing reads, its cache and the memory it is charged for. -/
structure GuCfi (P : Type) where
  data : CfiData P
  cache : ParseCache
  cfiMemUsage : Nat
  cfiDataMemUsage : Nat

/-- What `load_elf` decodes from an ELF file and its debug file. -/
structure ElfImage (P : Type) where
  /-- The build id, or the digest that stands for it. -/
  buildId : List Byte
  /-- The separate debug file, if there is one, was opened and scanned. -/
  debugScanned : Bool
  golang : Bool
  execRanges : List ExecRange
  execVirtAddr : Word
  /-- Symbols by relative pc; a name that is not kept is `none`. -/
  symbols : Option (IntervalArray (Option String))
  symSearchSize : Nat
  /-- Result of `gu_cfi_init`. -/
  cfi : Option (GuCfi P)

/-- `struct per_elf_ctx`. A pointer to it is its `id`. -/
structure PerElfCtx (P : Type) where
  id : Nat
  buildId : List Byte
  golang : Bool
  symbols : Option (IntervalArray (Option String))
  symSearchSize : Nat
  guCfi : Option (GuCfi P)
  refcnt : Nat
  execVirtAddr : Word
  execRanges : List ExecRange
  retired : Bool
  retireDeadlineNs : Word

/-- `struct per_elf_map_ctx`. -/
structure MapCtx where
  elfCtx : Nat
  mapExecVirtAddr : Word
  deriving DecidableEq, Repr

variable {P : Type}

/-- `gu_resolve_map_exec_virt_addr`; 0 stands for no range. -/
def guResolveMapExecVirtAddr (elfCtx : PerElfCtx P) (map : MapsInfo) : Word :=
  if map.fin ≤ map.start then 0#64
  else (guElfExecRangesFindByOffset elfCtx.execRanges map.offset (map.fin - map.start)).getD 0#64

/-- The record `gu_alloc_elf_map_ctx` fills. -/
def guElfMapCtx (elfCtx : PerElfCtx P) (mapExecVirtAddr : Word) : MapCtx where
  elfCtx := elfCtx.id
  mapExecVirtAddr := if mapExecVirtAddr = 0#64 then elfCtx.execVirtAddr else mapExecVirtAddr

end Gunwinder
