import Gunwinder.Core.ByteStream
import Gunwinder.Native.Sample
import Mathlib.Data.List.DropRight

/-!
# Sample dumps

`gu_debug_dump_sample` writes a sample to a file field by field, and `gu_read_stack_dump`
reads it back. Here the register block is its bytes. Files can be opened and take what is
written to them; allocations of the reader are answered one by one. The process files that
are copied beside a dump are not modelled.
-/

namespace Gunwinder

open Gunwinder.Core

/-- `sizeof(struct pt_regs)`. -/
def ptRegsSize : Arch → Nat
  | .x86 => 21 * 8
  | .arm64 => 34 * 8

/-- `struct gu_stack_info`, with the bytes its pointers lead to. -/
structure DumpSample where
  pid : BitVec 32
  stackSize : Word
  regs : List Byte
  regsSize : BitVec 32
  flags : Word
  ustackFp : Nat → Word
  ustackFpLevel : Word
  stackData : List Byte

/-! ## Writing -/

/-- `_trim_trailing_whitespace`. -/
def trimTrailingWhitespace (str : List Char) : List Char :=
  str.rdropWhile fun c => c == '\n' || c == ' '

/-- `gu_path_join`. -/
def guPathJoin (path1 path2 : List Char) : List Char :=
  trimTrailingWhitespace <|
    match path1.getLast? with
    | none => path2
    | some last =>
      if last ≠ '/' ∧ path2.head? ≠ some '/' then path1 ++ '/' :: path2 else path1 ++ path2

/-- `GU_DEBUG_DUMP_VERSION_V1_STR`. -/
def guDebugDumpVersionV1Str : List Char := ".dump".toList

/-- `GU_DEBUG_DUMP_VERSION_V2_STR`. -/
def guDebugDumpVersionV2Str : List Char := ".dump.v2".toList

/-- The name of a dump: pid, time and the number of the dump within its second. -/
def dumpName (pid : BitVec 32) (timestamp : Int) (count : Nat) : List Char :=
  (toString pid.toInt).toList ++ '_' :: (toString timestamp).toList ++ '_' ::
    (toString count).toList ++ guDebugDumpVersionV2Str

/-- The bytes of `ustack_fp`. -/
def DumpSample.fpArray (info : DumpSample) : List Byte :=
  leArray 8 ((List.range (maxFpStackLevel + 1)).map fun i => (info.ustackFp i).toNat)

/-- The calls of `fwrite` in `gu_debug_dump_sample`. -/
def dumpPuts (arch : Arch) (info : DumpSample) : List Put :=
  [⟨leBytes 4 info.pid.toNat, 4, 1⟩,
    ⟨leBytes 8 info.stackSize.toNat, 8, 1⟩,
    ⟨leBytes 8 info.flags.toNat, 8, 1⟩,
    ⟨leBytes 8 (ptRegsSize arch), 8, 1⟩,
    ⟨info.regs, ptRegsSize arch, 1⟩,
    ⟨info.stackData, info.stackSize.toNat, 1⟩,
    ⟨leBytes 8 info.ustackFpLevel.toNat, 8, 1⟩,
    ⟨info.fpArray, 8, info.ustackFpLevel.toNat⟩]

/-- `gu_debug_dump_sample`: the path and the contents of the file it leaves. -/
def guDebugDumpSample (arch : Arch) (path : List Char) (timestamp : Int) (count : Nat)
    (info : DumpSample) : List Char × List Byte :=
  (guPathJoin path (dumpName info.pid timestamp count), putAll [] (dumpPuts arch info))

/-! ## Reading -/

/-- `str_ends_with`. -/
def strEndsWith (str suffix : List Char) : Bool :=
  if str.length < suffix.length then false
  else str.drop (str.length - suffix.length) == suffix

/-- `enum gu_debug_dump_version_type`. -/
inductive GuDebugDumpVersion where
  | error
  | v1
  | v2
  deriving DecidableEq, Repr

/-- `gu_debug_dump_version`. -/
def guDebugDumpVersion (path : List Char) : GuDebugDumpVersion :=
  if strEndsWith path guDebugDumpVersionV2Str then .v2
  else if strEndsWith path guDebugDumpVersionV1Str then .v1
  else .error

/-- `DUMP_V1_FP_FLAGS`. -/
def dumpV1FpFlags : BitVec 32 := 1#32 <<< 3

/-- The flags of a dump; the first version has a type in their place. -/
def readDumpFlags (file : List Byte) : GuDebugDumpVersion → Option (Word × List Byte)
  | .error => none
  | .v1 => do
    let (type, file) ← readLe 4 file
    pure (if BitVec.ofNat 32 type &&& dumpV1FpFlags ≠ 0#32 then guFlagHintSetFp else 0#64, file)
  | .v2 => do
    let (flags, file) ← readLe 8 file
    pure (BitVec.ofNat 64 flags, file)

/-- `ustack_fp_level` as it stands behind a store of these bytes into `ustack_fp`, the 1024 bytes
in front of it. -/
def levelBehind (level : Nat) (bytes : List Byte) : Nat :=
  ofLe ((bytes.drop 1024 ++ (leBytes 8 level).drop (bytes.length - 1024)).take 8)

/-- A store inside the array leaves the length alone. -/
theorem levelBehind_eq {level : Nat} {bytes : List Byte} (hlevel : level < 2 ^ 64)
    (hbytes : bytes.length ≤ 1024) : levelBehind level bytes = level := by
  rw [levelBehind, List.drop_eq_nil_of_le hbytes, Nat.sub_eq_zero_of_le hbytes, List.drop_zero,
    List.nil_append, List.take_of_length_le (by simp), ofLe_leBytes hlevel]

/-- The frame-pointer chain of a dump: its entries, their number, and the stack. In the first
version the chain is the stack. In the second the entries are stored before their number is
compared with the length, which is read again from the memory behind the array; a pointer to
the stack that is overwritten leads to no buffer. -/
def readDumpFps (file stackData : List Byte) (stackSize flags : Word) :
    GuDebugDumpVersion → Option ((Nat → Word) × Word × List Byte)
  | .error => none
  | .v1 =>
    if flags &&& guFlagHintSetFp ≠ 0#64 then
      let bytes := stackData.take (if 127 * 8 < stackSize.toNat then 127 * 8 else stackSize.toNat)
      some (fun i => BitVec.ofNat 64 (leItem 8 bytes i),
        if 127 * 8 < stackSize.toNat then 127#64 else stackSize / 8#64, stackData)
    else some (fun _ => 0#64, 0#64, stackData)
  | .v2 => do
    let (level, file) ← readLe 8 file
    if 0 < level then
      let (items, bytes, _) := fread file 8 level
      if items ≠ levelBehind level bytes then none
      else
        pure (fun i => BitVec.ofNat 64 (leItem 8 bytes i),
          BitVec.ofNat 64 (levelBehind level bytes), if bytes.length ≤ 1032 then stackData else [])
    else pure (fun _ => 0#64, 0#64, stackData)

/-- Bytes that the reader stores into `ustack_fp`. The second version stores what the file has
of the entries asked for, also when it then fails. -/
def fpBytesStored (file : List Byte) (stackSize flags : Word) : GuDebugDumpVersion → Nat
  | .error => 0
  | .v1 =>
    if flags &&& guFlagHintSetFp ≠ 0#64 then
      if 127 * 8 < stackSize.toNat then 127 * 8 else stackSize.toNat
    else 0
  | .v2 =>
    match readLe 8 file with
    | none => 0
    | some (level, file) => if 0 < level then (fread file 8 level).2.1.length else 0

/-- `gu_read_stack_dump`; `none` is its NULL. -/
def guReadStackDump (alloc : Nat → Bool) (path : List Char) (file : List Byte) :
    Option DumpSample := do
  guard (alloc 0)
  let version := guDebugDumpVersion path
  guard (version ≠ .error)
  let (pid, file) ← readLe 4 file
  let (stackSize, file) ← readLe 8 file
  let (flags, file) ← readDumpFlags file version
  let (regsSize, file) ← readLe 8 file
  guard (alloc 1)
  guard (alloc 2)
  let (regs, file) ← freadAll file regsSize 1
  let (stackData, file) ← freadAll file stackSize 1
  let (ustackFp, ustackFpLevel, stackData) ←
    readDumpFps file stackData (BitVec.ofNat 64 stackSize) flags version
  pure { pid := BitVec.ofNat 32 pid
         stackSize := BitVec.ofNat 64 stackSize
         regs
         regsSize := BitVec.ofNat 32 regsSize
         flags
         ustackFp
         ustackFpLevel
         stackData }

/-! ## Access -/

/-- `regs[]`: the word of `struct pt_regs` that `REG_POS_LIST` gives to each register. -/
def regPos : Arch → List Nat
  | .x86 => [10, 12, 11, 5, 13, 14, 4, 19, 9, 8, 7, 6, 3, 2, 1, 0, 16]
  | .arm64 => List.range 33

/-- The sample as `get_regs` and the stack reads see it. -/
def DumpSample.snapshot (arch : Arch) (info : DumpSample) : StackInfo where
  pid := info.pid.toInt
  stackSize := info.stackSize
  uniqueId := 0#64
  regs := some fun n => BitVec.ofNat 64 (leItem 8 info.regs ((regPos arch).getD n 0))
  flags := info.flags
  ustackFp := info.ustackFp
  ustackFpLevel := info.ustackFpLevel
  stackData := some fun i => info.stackData.getD i 0#8

end Gunwinder
