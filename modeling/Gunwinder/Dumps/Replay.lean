import Gunwinder.Native.Dump

/-!
# Replaying a dumped sample

A dump is read back field by field as long as every transfer counts what it was asked for. A stack
of no bytes is one item without bytes: the writer takes it for a failed write and leaves out what
follows, and the reader for a short file.
-/

namespace Gunwinder

open Gunwinder.Core

variable {arch : Arch} {info : DumpSample}

/-! ## The version -/

/-- A name that ends in the version has no white space to trim. -/
theorem trimTrailingWhitespace_version (front : List Char) :
    trimTrailingWhitespace (front ++ guDebugDumpVersionV2Str) =
      front ++ guDebugDumpVersionV2Str := by
  have hlast : front ++ guDebugDumpVersionV2Str = (front ++ ".dump.v".toList) ++ ['2'] := by
    rw [List.append_assoc]
    rfl
  rw [trimTrailingWhitespace, hlast, List.rdropWhile_concat_neg]
  decide

/-- The file that a dump is written to is read as one of the second version. -/
theorem guDebugDumpVersion_dumpName (path : List Char) (pid : BitVec 32) (timestamp : Int)
    (count : Nat) :
    guDebugDumpVersion (guPathJoin path (dumpName pid timestamp count)) = .v2 := by
  have hsuffix : ∀ front, guDebugDumpVersion (trimTrailingWhitespace
      (front ++ guDebugDumpVersionV2Str)) = .v2 := by
    intro front
    rw [trimTrailingWhitespace_version]
    simp [guDebugDumpVersion, strEndsWith]
  unfold guPathJoin dumpName
  split
  · exact hsuffix _
  split
  · rw [← List.cons_append, ← List.append_assoc]
    exact hsuffix _
  · rw [← List.append_assoc]
    exact hsuffix _

/-! ## The fields -/

/-- The entries of the frame-pointer chain. -/
def DumpSample.fps (info : DumpSample) : List Nat :=
  (List.range info.ustackFpLevel.toNat).map fun i => (info.ustackFp i).toNat

/-- The bytes before the stack. -/
def DumpSample.header (arch : Arch) (info : DumpSample) (rest : List Byte) : List Byte :=
  leBytes 4 info.pid.toNat ++ (leBytes 8 info.stackSize.toNat ++ (leBytes 8 info.flags.toNat ++
    (leBytes 8 (ptRegsSize arch) ++ (info.regs.take (ptRegsSize arch) ++ rest))))

/-- The bytes behind the stack. -/
def DumpSample.trailer (info : DumpSample) : List Byte :=
  leBytes 8 info.ustackFpLevel.toNat ++ leArray 8 info.fps

/-- A number is written in full. -/
theorem Put.bytes_leBytes (size : Nat) (hsize : size < 2 ^ 64) (v : Nat) :
    Put.bytes ⟨leBytes size v, size, 1⟩ = leBytes size v := by
  rw [Put.bytes, transferBytes_one hsize]
  exact List.take_of_length_le (Nat.le_of_eq (leBytes_length size v))

/-- A field of four bytes is one item. -/
theorem wholeItems_four : WholeItems 4 1 := wholeItems_one (by decide) (by decide)

/-- A field of eight bytes is one item. -/
theorem wholeItems_eight : WholeItems 8 1 := wholeItems_one (by decide) (by decide)

/-- The register block is not empty and small. -/
theorem ptRegsSize_bounds (arch : Arch) : ptRegsSize arch ≠ 0 ∧ ptRegsSize arch < 2 ^ 64 := by
  cases arch <;> decide

/-- The part of the frame-pointer array that is written. -/
theorem fpArray_take (hlevel : info.ustackFpLevel.toNat ≤ maxFpStackLevel + 1) :
    info.fpArray.take (8 * info.ustackFpLevel.toNat) = leArray 8 info.fps := by
  rw [DumpSample.fpArray, leArray_take, ← List.map_take, List.take_range, Nat.min_eq_left hlevel]
  rfl

/-- With a stack of some bytes every field is written. -/
theorem putAll_dumpPuts (hstack : info.stackData.length = info.stackSize.toNat)
    (hlevel : info.ustackFpLevel.toNat ≤ maxFpStackLevel + 1) (hsize : info.stackSize ≠ 0#64) :
    putAll [] (dumpPuts arch info) = info.header arch (info.stackData ++ info.trailer) := by
  have hsize' : info.stackSize.toNat ≠ 0 := fun h => hsize (BitVec.eq_of_toNat_eq h)
  have hword : info.stackSize.toNat < 2 ^ 64 := info.stackSize.isLt
  obtain ⟨hregs, hregs'⟩ := ptRegsSize_bounds arch
  have hlevel' : 8 * info.ustackFpLevel.toNat < 2 ^ 64 := by
    unfold maxFpStackLevel at hlevel
    omega
  have hchain : WholeItems 8 info.ustackFpLevel.toNat := by
    rw [WholeItems, transferBytes_eq hlevel']
    omega
  have hcomplete : ∀ put ∈ dumpPuts arch info, put.Complete := by
    simp [dumpPuts, Put.Complete, wholeItems_one hsize' hword, wholeItems_one hregs hregs',
      wholeItems_four, wholeItems_eight, hchain]
  have hwritten := putAll_append hcomplete [] []
  rw [List.append_nil, List.nil_append] at hwritten
  rw [hwritten, putAll, dumpPuts]
  simp only [List.flatMap_cons, List.flatMap_nil, List.append_nil,
    Put.bytes_leBytes 4 (by decide), Put.bytes_leBytes 8 (by decide)]
  have hwhole : info.stackData.take (transferBytes info.stackSize.toNat 1) = info.stackData := by
    rw [transferBytes_one hword, ← hstack, List.take_length]
  simp only [Put.bytes, transferBytes_one hregs', hwhole, transferBytes_eq hlevel',
    fpArray_take hlevel, DumpSample.header, DumpSample.trailer]

/-- With a stack of no bytes nothing is written behind the registers. -/
theorem putAll_dumpPuts_empty (hsize : info.stackSize = 0#64) :
    putAll [] (dumpPuts arch info) = info.header arch [] := by
  obtain ⟨hregs, hregs'⟩ := ptRegsSize_bounds arch
  have hzero : info.stackSize.toNat = 0 := by rw [hsize]; rfl
  let before : List Put := (dumpPuts arch info).take 5
  have hcomplete : ∀ put ∈ before, put.Complete := by
    simp [before, dumpPuts, Put.Complete, wholeItems_one hregs hregs',
      wholeItems_four, wholeItems_eight]
  have hwritten := putAll_append hcomplete [] ((dumpPuts arch info).drop 5)
  rw [List.take_append_drop, List.nil_append] at hwritten
  rw [hwritten]
  refine (putAll_short hzero Nat.one_ne_zero _ _).trans ?_
  simp only [before, dumpPuts, List.take_succ_cons, List.take_zero, List.flatMap_cons,
    List.flatMap_nil, List.append_nil, Put.bytes_leBytes 4 (by decide),
    Put.bytes_leBytes 8 (by decide)]
  simp only [Put.bytes, transferBytes_one hregs', DumpSample.header, List.append_nil]

/-! ## Reading back -/

/-- The fields before the stack are read back, whatever follows. -/
theorem guReadStackDump_header {path : List Char} (hversion : guDebugDumpVersion path = .v2)
    (hregs : ptRegsSize arch ≤ info.regs.length) (rest : List Byte) :
    guReadStackDump (fun _ => true) path (info.header arch rest) = (do
      let (stackData, file) ← freadAll rest info.stackSize.toNat 1
      let (ustackFp, ustackFpLevel, stackData) ←
        readDumpFps file stackData info.stackSize info.flags .v2
      pure { pid := info.pid
             stackSize := info.stackSize
             regs := info.regs.take (ptRegsSize arch)
             regsSize := BitVec.ofNat 32 (ptRegsSize arch)
             flags := info.flags
             ustackFp
             ustackFpLevel
             stackData }) := by
  obtain ⟨hsize, hfits⟩ := ptRegsSize_bounds arch
  have hblock : (info.regs.take (ptRegsSize arch)).length = transferBytes (ptRegsSize arch) 1 := by
    rw [List.length_take, Nat.min_eq_left hregs, transferBytes_one hfits]
  have hpid (rest : List Byte) : readLe 4 (leBytes 4 info.pid.toNat ++ rest) =
      some (info.pid.toNat, rest) := readLe_leBytes (by decide) (by decide) info.pid.isLt rest
  have hword (w : Word) (rest : List Byte) : readLe 8 (leBytes 8 w.toNat ++ rest) =
      some (w.toNat, rest) := readLe_leBytes (by decide) (by decide) w.isLt rest
  have hblockSize (rest : List Byte) : readLe 8 (leBytes 8 (ptRegsSize arch) ++ rest) =
      some (ptRegsSize arch, rest) := readLe_leBytes (by decide) (by decide) hfits rest
  have hread := freadAll_append hblock (wholeItems_one hsize hfits) rest
  simp [guReadStackDump, hversion, DumpSample.header, hpid, hword, hblockSize, hread,
    readDumpFlags, guard]

/-- The frame-pointer chain is read back. -/
theorem readDumpFps_trailer (hlevel : info.ustackFpLevel.toNat ≤ 128) (stackData : List Byte)
    (stackSize flags : Word) :
    ∃ ustackFp, readDumpFps info.trailer stackData stackSize flags .v2 =
        some (ustackFp, info.ustackFpLevel, stackData) ∧
      ∀ i < info.ustackFpLevel.toNat, ustackFp i = info.ustackFp i := by
  have hlt : info.ustackFpLevel.toNat < 2 ^ 64 := info.ustackFpLevel.isLt
  have hlen : (leArray 8 info.fps).length = 8 * info.ustackFpLevel.toNat := by simp [DumpSample.fps]
  have hread : readLe 8 info.trailer = some (info.ustackFpLevel.toNat, leArray 8 info.fps) :=
    readLe_leBytes (by decide) (by decide) hlt _
  by_cases hpos : 0 < info.ustackFpLevel.toNat
  · have hbytes : transferBytes 8 info.ustackFpLevel.toNat = 8 * info.ustackFpLevel.toNat :=
      transferBytes_eq (by omega)
    have hfread : fread (leArray 8 info.fps) 8 info.ustackFpLevel.toNat =
        (info.ustackFpLevel.toNat, leArray 8 info.fps, []) := by
      rw [fread, hbytes, ← hlen, List.take_length, List.drop_length, if_neg (by omega),
        if_pos le_rfl]
    have hsame : levelBehind info.ustackFpLevel.toNat (leArray 8 info.fps) =
        info.ustackFpLevel.toNat := levelBehind_eq hlt (by omega)
    have hstack : 8 * info.fps.length ≤ 1032 := by
      rw [leArray_length] at hlen
      omega
    refine ⟨fun i => BitVec.ofNat 64 (leItem 8 (leArray 8 info.fps) i), ?_, fun i hi => ?_⟩
    · simp [readDumpFps, hread, hpos, hfread, hsame, hstack]
    · have hi' : i < info.fps.length := by simpa [DumpSample.fps] using hi
      have hfits : ∀ v ∈ info.fps, v < 256 ^ 8 := fun v hv => by
        obtain ⟨j, -, rfl⟩ := List.mem_map.mp hv
        exact (info.ustackFp j).isLt
      dsimp only
      rw [leItem_leArray hi' hfits]
      simp [DumpSample.fps]
  · refine ⟨fun _ => 0#64, ?_, fun i hi => absurd (Nat.zero_lt_of_lt hi) hpos⟩
    have hzero : 0#64 = info.ustackFpLevel :=
      BitVec.eq_of_toNat_eq (Nat.eq_zero_of_not_pos hpos).symm
    simpa [readDumpFps, hread, hpos]

/-- A sample that was read back has every field that was dumped. -/
structure DumpSample.Replays (arch : Arch) (info out : DumpSample) : Prop where
  pid : out.pid = info.pid
  stackSize : out.stackSize = info.stackSize
  flags : out.flags = info.flags
  regs : out.regs = info.regs.take (ptRegsSize arch)
  stackData : out.stackData = info.stackData
  level : out.ustackFpLevel = info.ustackFpLevel
  fps : ∀ i < info.ustackFpLevel.toNat, out.ustackFp i = info.ustackFp i

/-- A dump is read back if and only if the sample has a stack. -/
theorem guReadStackDump_replays_iff (arch : Arch) (info : DumpSample) (path : List Char)
    (timestamp : Int) (count : Nat) (hregs : ptRegsSize arch ≤ info.regs.length)
    (hstack : info.stackData.length = info.stackSize.toNat)
    (hlevel : info.ustackFpLevel.toNat ≤ 128) :
    (∃ out, guReadStackDump (fun _ => true)
        (guDebugDumpSample arch path timestamp count info).1
        (guDebugDumpSample arch path timestamp count info).2 = some out ∧
      info.Replays arch out) ↔ info.stackSize ≠ 0#64 := by
  have hversion := guDebugDumpVersion_dumpName path info.pid timestamp count
  refine ⟨fun hread hsize => ?_, fun hsize => ?_⟩
  · obtain ⟨out, hread, -⟩ := hread
    have hzero : info.stackSize.toNat = 0 := by rw [hsize]; rfl
    rw [guDebugDumpSample, putAll_dumpPuts_empty hsize, guReadStackDump_header hversion hregs,
      hzero, freadAll_zero Nat.one_ne_zero] at hread
    cases hread
  · have hsize' : info.stackSize.toNat ≠ 0 := fun h => hsize (BitVec.eq_of_toNat_eq h)
    obtain ⟨ustackFp, hfps, hsame⟩ :=
      readDumpFps_trailer hlevel info.stackData info.stackSize info.flags
    have hword : info.stackSize.toNat < 2 ^ 64 := info.stackSize.isLt
    have hdata := freadAll_append (hstack.trans (transferBytes_one hword).symm)
      (wholeItems_one hsize' hword) info.trailer
    rw [guDebugDumpSample, putAll_dumpPuts hstack hlevel hsize,
      guReadStackDump_header hversion hregs, hdata]
    simp only [Option.bind_eq_bind, Option.bind_some, hfps]
    exact ⟨_, rfl, rfl, rfl, rfl, rfl, rfl, rfl, hsame⟩

/-- A sample of a frame-pointer chain of one entry, with a stack of `size` bytes. -/
def chainDump (size : Nat) : DumpSample where
  pid := 11#32
  stackSize := BitVec.ofNat 64 size
  regs := List.replicate (ptRegsSize .x86) 0x5a#8
  regsSize := 168#32
  flags := 1#64
  ustackFp := fun _ => 0x400200#64
  ustackFpLevel := 1#64
  stackData := List.replicate size 7#8

/-- A sample with one byte of stack. -/
theorem guReadStackDump_replays_iff_oneByte :
    ∃ out, guReadStackDump (fun _ => true)
        (guDebugDumpSample .x86 "/tmp".toList 5 0 (chainDump 1)).1
        (guDebugDumpSample .x86 "/tmp".toList 5 0 (chainDump 1)).2 = some out ∧
      (chainDump 1).Replays .x86 out :=
  (guReadStackDump_replays_iff .x86 (chainDump 1) "/tmp".toList 5 0 (by decide +kernel)
    (by decide +kernel) (by decide)).mpr (by decide)

/-- A sample without stack bytes is written up to its registers and cannot be read. -/
theorem guReadStackDump_rejects_empty_stack :
    (guDebugDumpSample .x86 "/tmp".toList 5 0 (chainDump 0)).2.length = 28 + 168 ∧
    (guReadStackDump (fun _ => true)
      (guDebugDumpSample .x86 "/tmp".toList 5 0 (chainDump 0)).1
      (guDebugDumpSample .x86 "/tmp".toList 5 0 (chainDump 0)).2).isNone = true := by
  decide +kernel

end Gunwinder
