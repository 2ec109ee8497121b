import Gunwinder.Evaluation.Snapshot
import Gunwinder.Native.Dump

/-!
# The buffers of a dump

The sizes in a dump are taken as they stand. Two are compared with nothing: the length of the
frame-pointer chain, which in the second version is read into an array of 128 entries, and the
size of the register block. The reader keeps to its buffers exactly if these two fit.
-/

namespace Gunwinder

open Gunwinder.Core

variable {arch : Arch} {alloc : Nat → Bool} {path : List Char} {file : List Byte}

/-! ## The reader in two parts -/

/-- What is known of a dump when its frame-pointer chain is about to be read. -/
structure DumpFront where
  pid : Nat
  stackSize : Nat
  flags : Word
  regsSize : Nat
  regs : List Byte
  stackData : List Byte
  file : List Byte

/-- `gu_read_stack_dump` up to the frame-pointer chain. -/
def readDumpFront (alloc : Nat → Bool) (path : List Char) (file : List Byte) :
    Option DumpFront := do
  guard (alloc 0)
  let version := guDebugDumpVersion path
  guard (version ≠ .error)
  let (pid, file) ← readLe 4 file
  let (stackSize, file) ← readLe 8 file
  let (flags, file) ← readDumpFlags file version
  let (regsSize, file) ← readLe 8 file
  guard (alloc 1)
  guard (alloc 2)
  let (regs, file) ← freadAll file regsSize 1
  let (stackData, file) ← freadAll file stackSize 1
  pure { pid, stackSize, flags, regsSize, regs, stackData, file }

/-- The frame-pointer chain behind the fields read so far. -/
def DumpFront.fps (d : DumpFront) (version : GuDebugDumpVersion) :
    Option ((Nat → Word) × Word × List Byte) :=
  readDumpFps d.file d.stackData (BitVec.ofNat 64 d.stackSize) d.flags version

/-- The sample that the fields make. -/
def DumpFront.sample (d : DumpFront) (fps : (Nat → Word) × Word × List Byte) : DumpSample where
  pid := BitVec.ofNat 32 d.pid
  stackSize := BitVec.ofNat 64 d.stackSize
  regs := d.regs
  regsSize := BitVec.ofNat 32 d.regsSize
  flags := d.flags
  ustackFp := fps.1
  ustackFpLevel := fps.2.1
  stackData := fps.2.2

/-- The reader reads the fields and then the chain. -/
theorem guReadStackDump_eq (alloc : Nat → Bool) (path : List Char) (file : List Byte) :
    guReadStackDump alloc path file = (readDumpFront alloc path file).bind fun d =>
      (d.fps (guDebugDumpVersion path)).map d.sample := by
  simp only [guReadStackDump, readDumpFront, DumpFront.fps, Option.bind_eq_bind,
    Option.bind_assoc, Option.pure_def, Option.bind_some, Option.map_eq_bind]
  rfl

/-- The register block and the stack are as long as their sizes say. -/
theorem readDumpFront_lengths {d : DumpFront} (h : readDumpFront alloc path file = some d) :
    d.regs.length = d.regsSize ∧ d.stackData.length = d.stackSize ∧ d.stackSize < 2 ^ 64 := by
  simp only [readDumpFront, Option.bind_eq_bind, Option.bind_eq_some_iff, Option.pure_def,
    Option.some.injEq] at h
  obtain ⟨-, -, -, -, pid, -, stackSize, hsize, flags, -, regsSize, hregsSize, -, -, -, -,
    regs, hregs, stackData, hstack, rfl⟩ := h
  exact ⟨(freadAll_eq_some hregs).1.trans (transferBytes_one (readLe_lt hregsSize)),
    (freadAll_eq_some hstack).1.trans (transferBytes_one (readLe_lt hsize)), readLe_lt hsize⟩

/-! ## The frame-pointer chain -/

/-- A chain of `level` entries with `rest` bytes behind its length keeps to the array: it has at
most 128 entries, or no bytes in `size_t`, or the file ends within the array before the bytes
asked for. -/
def ChainFits (level rest : Nat) : Prop :=
  level ≤ 128 ∨ 8 * level % 2 ^ 64 = 0 ∨ rest < 8 * level % 2 ^ 64 ∧ rest ≤ 8 * 128

variable {rest : List Byte} {level : Nat}

section Chain

variable {data : List Byte} {stackSize flags : Word} {fps : (Nat → Word) × Word × List Byte}

/-- The chain is stored as far as the file has it. -/
theorem fread_stored (rest : List Byte) (level : Nat) :
    (fread rest 8 level).2.1.length = min (8 * level % 2 ^ 64) rest.length := List.length_take

/-- A chain of the first version has at most 127 entries. -/
theorem readDumpFps_v1 (h : readDumpFps file data stackSize flags .v1 = some fps) :
    fps.2.1.toNat ≤ 127 ∧ fps.2.2 = data := by
  unfold readDumpFps at h
  dsimp only at h
  split at h
  · cases h
    refine ⟨?_, rfl⟩
    dsimp only
    split
    · decide
    · rw [BitVec.toNat_udiv]
      have hdiv : stackSize.toNat / (8#64).toNat = stackSize.toNat / 8 := rfl
      omega
  · cases h
    exact ⟨Nat.zero_le _, rfl⟩

variable (hread : readLe 8 file = some (level, rest))
include hread

/-- A chain whose bytes are stored in the array leaves its length and the stack alone. -/
theorem readDumpFps_stored (hpos : 0 < level) (hstored : (fread rest 8 level).2.1.length ≤ 1024) :
    readDumpFps file data stackSize flags .v2 =
      if (fread rest 8 level).1 ≠ level then none
      else some (fun i => BitVec.ofNat 64 (leItem 8 (fread rest 8 level).2.1 i),
        BitVec.ofNat 64 level, data) := by
  simp only [readDumpFps, hread, Option.bind_eq_bind, Option.bind_some, if_pos hpos,
    levelBehind_eq (readLe_lt hread) hstored, Option.pure_def,
    if_pos (hstored.trans (by decide : 1024 ≤ 1032))]

/-- A chain of the second version that keeps to the array and is complete. -/
theorem readDumpFps_v2 (hfits : ChainFits level rest.length)
    (h : readDumpFps file data stackSize flags .v2 = some fps) :
    fps.2.1.toNat ≤ 128 ∧ fps.2.2 = data := by
  unfold ChainFits at hfits
  rcases Nat.eq_zero_or_pos level with rfl | hpos
  · simp only [readDumpFps, hread, Option.bind_eq_bind, Option.bind_some, lt_irrefl, if_false] at h
    cases h
    exact ⟨Nat.zero_le _, rfl⟩
  · have hstored : (fread rest 8 level).2.1.length ≤ 1024 := by
      rw [fread_stored]
      omega
    rw [readDumpFps_stored hread hpos hstored] at h
    split at h
    · cases h
    rename_i hitems
    -- all bytes asked for are there, so the chain is no longer than the array
    obtain ⟨hcount, hthere⟩ := fread_items_iff.mp (not_not.mp hitems)
    unfold WholeItems at hcount
    unfold transferBytes at hcount hthere
    cases h
    refine ⟨?_, rfl⟩
    rw [BitVec.toNat_ofNat]
    omega

/-- A chain of more than 128 entries whose bytes are all there, and few, is returned. -/
theorem readDumpFps_long (hlevel : 128 < level) (hzero : 8 * level % 2 ^ 64 ≠ 0)
    (hthere : 8 * level % 2 ^ 64 ≤ rest.length) (hstored : 8 * level % 2 ^ 64 ≤ 1024) :
    ∃ fps, readDumpFps file data stackSize flags .v2 = some fps ∧ 128 < fps.2.1.toNat := by
  have hword : level < 2 ^ 64 := readLe_lt hread
  have hitems : (fread rest 8 level).1 = level := fread_items_iff.mpr ⟨.inl hzero, hthere⟩
  have hbytes : (fread rest 8 level).2.1.length ≤ 1024 := by
    rw [fread_stored]
    omega
  have hlevel' : (BitVec.ofNat 64 level).toNat = level := Nat.mod_eq_of_lt hword
  rw [readDumpFps_stored hread (by omega) hbytes, if_neg (not_not.mpr hitems)]
  exact ⟨_, rfl, by rwa [hlevel']⟩

end Chain

/-! ## The register block -/

/-- The end of the last word that `regs[]` names: the stack pointer, and on arm64 the program
counter. -/
def regsEnd : Arch → Nat
  | .x86 => 160
  | .arm64 => 264

/-- The word of a register lies in the block. -/
def RegInside (arch : Arch) (regs : List Byte) (n : Nat) : Prop :=
  8 * (regPos arch).getD n 0 + 8 ≤ regs.length

/-- Every register has its word in the block if and only if the last word is in it. -/
theorem regInside_iff (arch : Arch) (regs : List Byte) :
    (∀ n < arch.regCount, RegInside arch regs n) ↔ regsEnd arch ≤ regs.length := by
  have hlast : ∀ n < arch.regCount, 8 * (regPos arch).getD n 0 + 8 ≤ regsEnd arch := by
    cases arch <;> decide
  refine ⟨fun h => ?_, fun h n hn => Nat.le_trans (hlast n hn) h⟩
  cases arch with
  | x86 => exact h 7 (by decide)
  | arm64 => exact h 32 (by decide)

/-- `get_regs` takes the registers of the table. -/
theorem getRegs_snapshot_isSome (arch : Arch) (info : DumpSample) (regno : Int) :
    (getRegs arch (info.snapshot arch) regno).isSome ↔ 0 ≤ regno ∧ regno < arch.regCount := by
  unfold getRegs
  dsimp only [DumpSample.snapshot]
  split
  · simp only [Option.isSome_none, Bool.false_eq_true, false_iff]
    omega
  · split
    · simp only [Option.isSome_none, Bool.false_eq_true, false_iff]
      omega
    · simp only [Option.isSome_some, true_iff]
      omega

/-! ## The stack -/

/-- An address that the window admits has its eight bytes in the window. -/
theorem window_inside {start size addr : Word}
    (h : ¬(addr < start ∨ start + size ≤ addr ∨ addr + 8#64 < addr ∨
      start + size - addr < 8#64)) : (addr - start).toNat + 8 ≤ size.toNat := by
  obtain ⟨hlow, hhigh, -⟩ := (window_iff start size addr).mp h
  rw [window_index hlow]
  omega

/-- A stack read of a walk lies in the stack. -/
theorem readAddr_inside {env : EvalEnv} {addr word : Word} {oor oor' : OutOfRange}
    (h : readAddr env addr oor = (some word, oor')) :
    (addr - env.stackStart).toNat + 8 ≤ env.info.stackSize.toNat := by
  unfold readAddr at h
  split at h
  · cases h
  · rename_i hwindow
    exact window_inside hwindow

/-- So does one of the frame-pointer tail. -/
theorem guStackSnapshotReadU64_inside {target : Target} {info : StackInfo}
    {rawSp addr word : Word} (h : guStackSnapshotReadU64 target info rawSp addr = some word) :
    (addr - (rawSp - rawSp % target.pageSize)).toNat + 8 ≤ info.stackSize.toNat := by
  unfold guStackSnapshotReadU64 at h
  split at h
  · cases h
  dsimp only at h
  split at h
  · cases h
  · rename_i hwindow
    exact window_inside hwindow

/-! ## The whole reader -/

/-- Bytes that a call of `gu_read_stack_dump` stores into `ustack_fp`. -/
def dumpFpBytes (alloc : Nat → Bool) (path : List Char) (file : List Byte) : Nat :=
  match readDumpFront alloc path file with
  | none => 0
  | some d => fpBytesStored d.file (BitVec.ofNat 64 d.stackSize) d.flags (guDebugDumpVersion path)

/-- A sample can be walked inside of its buffers: an entry of the chain is one of the array, a
register that `get_regs` takes is in the block, and a stack read that succeeds is in the stack. -/
structure DumpSample.Inside (arch : Arch) (info : DumpSample) : Prop where
  level : info.ustackFpLevel.toNat ≤ 128
  regs : ∀ regno, (getRegs arch (info.snapshot arch) regno).isSome →
    RegInside arch info.regs regno.toNat
  stack : ∀ target bias rawSp addr oor word oor',
    readAddr ⟨target, bias, rawSp, info.snapshot arch⟩ addr oor = (some word, oor') →
      (addr - (rawSp - rawSp % target.pageSize)).toNat + 8 ≤ info.stackData.length
  tail : ∀ target rawSp addr word,
    guStackSnapshotReadU64 target (info.snapshot arch) rawSp addr = some word →
      (addr - (rawSp - rawSp % target.pageSize)).toNat + 8 ≤ info.stackData.length

/-- The reader keeps to its buffers, and so does a walk over what it returns. -/
structure DumpInside (arch : Arch) (alloc : Nat → Bool) (path : List Char) (file : List Byte) :
    Prop where
  stored : dumpFpBytes alloc path file ≤ 8 * 128
  returned : ∀ info, guReadStackDump alloc path file = some info → info.Inside arch

/-- The sizes of a dump fit: where the length of a chain is read, the chain keeps to the array,
and a dump that is complete has a block up to its last register. -/
structure DumpFront.Fits (arch : Arch) (version : GuDebugDumpVersion) (d : DumpFront) : Prop where
  chain : version = .v2 → ∀ level rest, readLe 8 d.file = some (level, rest) →
    ChainFits level rest.length
  block : (d.fps version).isSome → regsEnd arch ≤ d.regsSize

section Stored

variable {stackSize flags : Word} {version : GuDebugDumpVersion}

/-- The bytes stored fit the array where the chain does. -/
theorem fpBytesStored_le (h : version = .v2 → ∀ level rest, readLe 8 file = some (level, rest) →
    ChainFits level rest.length) : fpBytesStored file stackSize flags version ≤ 8 * 128 := by
  unfold fpBytesStored
  cases version with
  | error => exact Nat.zero_le _
  | v1 =>
    dsimp only
    split
    · split <;> omega
    · exact Nat.zero_le _
  | v2 =>
    dsimp only
    split
    · exact Nat.zero_le _
    rename_i level rest hread
    have hfits := h rfl level rest hread
    unfold ChainFits at hfits
    rw [fread_stored]
    split <;> omega

/-- A chain that is stored in the array and returned with at most 128 entries keeps to it. -/
theorem chainFits_of_inside {data : List Byte} (hread : readLe 8 file = some (level, rest))
    (hstored : fpBytesStored file stackSize flags .v2 ≤ 8 * 128)
    (hreturned : ∀ fps, readDumpFps file data stackSize flags .v2 = some fps →
      fps.2.1.toNat ≤ 128) : ChainFits level rest.length := by
  simp only [fpBytesStored, hread, fread_stored] at hstored
  unfold ChainFits
  by_contra hout
  push Not at hout
  obtain ⟨hlevel, hzero, hend⟩ := hout
  rw [if_pos (by omega)] at hstored
  have hthere : 8 * level % 2 ^ 64 ≤ rest.length := by omega
  obtain ⟨fps, hfps, hlong⟩ : ∃ fps, readDumpFps file data stackSize flags .v2 = some fps ∧
      128 < fps.2.1.toNat := readDumpFps_long hread hlevel hzero hthere (by omega)
  exact absurd (hreturned fps hfps) (Nat.not_le.mpr hlong)

end Stored

/-- A complete dump whose sizes fit is a sample that can be walked. -/
theorem DumpFront.Fits.inside {d : DumpFront} {fps : (Nat → Word) × Word × List Byte}
    {version : GuDebugDumpVersion} (h : d.Fits arch version) (hfps : d.fps version = some fps)
    (hregs : d.regs.length = d.regsSize) (hstack : d.stackData.length = d.stackSize)
    (hsize : d.stackSize < 2 ^ 64) : (d.sample fps).Inside arch := by
  have hchain : fps.2.1.toNat ≤ 128 ∧ fps.2.2 = d.stackData := by
    cases version with
    | error => cases hfps
    | v1 => exact ⟨Nat.le_succ_of_le (readDumpFps_v1 hfps).1, (readDumpFps_v1 hfps).2⟩
    | v2 =>
      obtain ⟨⟨level, rest⟩, hread, -⟩ := Option.bind_eq_some_iff.mp hfps
      exact readDumpFps_v2 hread (h.chain rfl level rest hread) hfps
  have hlen : (BitVec.ofNat 64 d.stackSize).toNat = fps.2.2.length := by
    rw [BitVec.toNat_ofNat, Nat.mod_eq_of_lt hsize, hchain.2, hstack]
  refine ⟨hchain.1, fun regno hsome => ?_, fun target bias rawSp addr oor word oor' hread => ?_,
    fun target rawSp addr word hread => ?_⟩
  · obtain ⟨hnonneg, hlt⟩ := (getRegs_snapshot_isSome arch _ regno).mp hsome
    have hblock : regsEnd arch ≤ (d.sample fps).regs.length :=
      (h.block (by rw [hfps]; rfl)).trans_eq hregs.symm
    exact (regInside_iff arch _).mpr hblock _ (by omega)
  · exact (readAddr_inside hread).trans_eq hlen
  · exact (guStackSnapshotReadU64_inside hread).trans_eq hlen

/-- The reader keeps to its buffers if and only if the length of the chain and the size of the
register block fit. -/
theorem guReadStackDump_inside_iff (arch : Arch) (alloc : Nat → Bool) (path : List Char)
    (file : List Byte) :
    DumpInside arch alloc path file ↔
      ∀ d, readDumpFront alloc path file = some d → d.Fits arch (guDebugDumpVersion path) := by
  constructor
  · rintro ⟨hstored, hreturned⟩ d hd
    obtain ⟨hregs, -, -⟩ := readDumpFront_lengths hd
    rw [dumpFpBytes, hd] at hstored
    have hinside (fps : (Nat → Word) × Word × List Byte)
        (hfps : d.fps (guDebugDumpVersion path) = some fps) : (d.sample fps).Inside arch :=
      hreturned _ (by rw [guReadStackDump_eq, hd]; simp [hfps])
    refine ⟨fun hversion level rest hread => ?_, fun hsome => ?_⟩
    · rw [hversion] at hstored hinside
      exact chainFits_of_inside hread hstored fun fps hfps => (hinside fps hfps).level
    obtain ⟨fps, hfps⟩ := Option.isSome_iff_exists.mp hsome
    have hblock : ∀ n < arch.regCount, RegInside arch d.regs n := fun n hn =>
      (hinside fps hfps).regs n ((getRegs_snapshot_isSome arch _ n).mpr ⟨by omega, by omega⟩)
    rw [← hregs]
    exact (regInside_iff arch d.regs).mp hblock
  · intro h
    refine ⟨?_, fun info hinfo => ?_⟩
    · unfold dumpFpBytes
      split
      · exact Nat.zero_le _
      · rename_i d hd
        exact fpBytesStored_le (h d hd).chain
    · rw [guReadStackDump_eq] at hinfo
      obtain ⟨d, hd, hinfo⟩ := Option.bind_eq_some_iff.mp hinfo
      obtain ⟨fps, hfps, rfl⟩ := Option.map_eq_some_iff.mp hinfo
      obtain ⟨hregs, hstack, hsize⟩ := readDumpFront_lengths hd
      exact (h d hd).inside hfps hregs hstack hsize

/-- A dump of the second version with `regsSize` bytes of registers, one byte of stack and the
length of a chain in front of `count` entries that hold it, too. -/
def sizedDump (regsSize level count : Nat) : List Byte :=
  leBytes 4 11 ++ leBytes 8 1 ++ leBytes 8 1 ++ leBytes 8 regsSize ++
    List.replicate regsSize 0x5a#8 ++ [7#8] ++ leBytes 8 level ++
    leArray 8 (List.replicate count level)

/-- The reader on such a dump: bytes stored into `ustack_fp`, and the length and the size of the
register block of what it returns. -/
def readSized (regsSize level count : Nat) : Nat × Option (Word × Nat) :=
  (dumpFpBytes (fun _ => true) ".dump.v2".toList (sizedDump regsSize level count),
    (guReadStackDump (fun _ => true) ".dump.v2".toList (sizedDump regsSize level count)).map
      fun info => (info.ustackFpLevel, info.regs.length))

/-- A chain of 129 entries is stored over the end of the array and over its length, and returned.
A length of `2 ^ 61 + 1` asks for eight bytes and is returned. A block of one word is returned,
and the stack pointer is word 19. -/
theorem guReadStackDump_overruns :
    readSized 168 129 129 = (1032, some (129#64, 168)) ∧
    readSized 168 (2 ^ 61 + 1) 1 = (8, some (0x2000000000000001#64, 168)) ∧
    readSized 8 1 1 = (8, some (1#64, 8)) ∧ (regPos .x86)[7]? = some 19 := by
  decide +kernel

end Gunwinder
