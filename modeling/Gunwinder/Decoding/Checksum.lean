import Gunwinder.Native.Debuglink

/-!
# The checksum of a debug link candidate

The table step of `gu_crc32_update` takes the eight bits of a byte, so the register after some
blocks is the one of the bitwise check after their bytes. The complement on the way out of one
block and on the way into the next cancel, so only the bytes matter and not how `read` splits
them.
-/

namespace Gunwinder

open Gunwinder.Core

/-! ## The table -/

private theorem low_bit_ne_zero (c : BitVec 32) : c &&& 1 ≠ 0 ↔ c.getLsbD 0 = true := by
  have hbit : c &&& 1 = BitVec.setWidth 32 (BitVec.ofBool (c.getLsbD 0)) :=
    BitVec.and_one_eq_setWidth_ofBool_getLsbD
  rw [hbit]
  cases c.getLsbD 0 <;> decide

private theorem guCrc32Entry_eq (i : BitVec 32) : guCrc32Entry i = crcShifts crc32Poly 8 i := by
  have hturn : (fun (c : BitVec 32) (_ : Nat) =>
      if c &&& 1 ≠ 0 then crc32Poly ^^^ (c >>> 1) else c >>> 1) =
      fun c _ => crcShift crc32Poly c := by
    funext c _
    simp only [low_bit_ne_zero, crcShift]
  rw [guCrc32Entry, hturn]
  rfl

private theorem guCrc32Table_getD {i : BitVec 32} (hi : i.toNat < 256) :
    guCrc32Table.getD i.toNat 0 = crcShifts crc32Poly 8 i := by
  rw [guCrc32Table, List.getD_eq_getElem?_getD, List.getElem?_map, List.getElem?_range hi,
    Option.map_some, Option.getD_some, guCrc32Entry_eq, BitVec.ofNat_toNat, BitVec.setWidth_eq]

private theorem isLowMask_ff : IsLowMask 8 (0xff : BitVec 32) := by
  unfold IsLowMask
  decide

private theorem and_ff_lt (x : BitVec 32) : (x &&& 0xff).toNat < 256 := by
  rw [BitVec.toNat_and]
  exact Nat.lt_of_le_of_lt Nat.and_le_right (by decide)

/-- A byte in the low places of a word. -/
private theorem byte_clear (byte : Byte) (i : Nat) (hi : 8 ≤ i) :
    (byte.setWidth 32).getLsbD i = false := by
  rw [BitVec.getLsbD_setWidth, BitVec.getLsbD_of_ge byte i hi, Bool.and_false]

/-- The table step takes the bits of the byte. -/
theorem guCrc32Step_eq (reg : BitVec 32) (byte : Byte) :
    guCrc32Step reg byte = (lowBits 8 byte).foldl (crcBit crc32Poly) reg := by
  have hbits : lowBits 8 byte = lowBits 8 (byte.setWidth 32) := by simp [lowBits]
  have hgone : byte.setWidth 32 >>> 8 = 0#32 := by
    apply BitVec.eq_of_getLsbD_eq
    intro i _
    rw [BitVec.getLsbD_ushiftRight, byte_clear byte (8 + i) (by omega), BitVec.getLsbD_zero]
  rw [guCrc32Step, guCrc32Table_getD (and_ff_lt _), hbits,
    foldl_lowBits crc32Poly (by decide) (byte_clear byte),
    crcShifts_split crc32Poly isLowMask_ff (reg ^^^ byte.setWidth 32),
    BitVec.ushiftRight_xor_distrib, hgone, BitVec.xor_zero]

/-! ## Blocks -/

private theorem guCrc32Update_eq (crc : BitVec 32) (buf : List Byte) :
    guCrc32Update crc buf =
      ~~~((buf.flatMap (lowBits 8)).foldl (crcBit crc32Poly) (~~~crc)) := by
  have hsteps : ∀ reg : BitVec 32, buf.foldl guCrc32Step reg =
      (buf.flatMap (lowBits 8)).foldl (crcBit crc32Poly) reg := by
    induction buf with
    | nil => exact fun _ => rfl
    | cons byte buf ih =>
      intro reg
      rw [List.foldl_cons, guCrc32Step_eq, ih, List.flatMap_cons, List.foldl_append]
  rw [guCrc32Update, hsteps]

/-- Two blocks count as one. -/
theorem guCrc32Update_append (crc : BitVec 32) (a b : List Byte) :
    guCrc32Update (guCrc32Update crc a) b = guCrc32Update crc (a ++ b) := by
  simp only [guCrc32Update, BitVec.not_not, List.foldl_append]

/-- The calls of `read` that deliver a content to a buffer of 65536 bytes: blocks that are not
empty, any number of interrupted calls, and the end of the file. -/
inductive Delivers : List Byte → List ReadResult → Prop where
  | eof (later : List ReadResult) : Delivers [] (.data [] :: later)
  | eintr {content : List Byte} {reads : List ReadResult} (h : Delivers content reads) :
      Delivers content (.eintr :: reads)
  | block {content : List Byte} {reads : List ReadResult} (byte : Byte) (bytes : List Byte)
      (hfits : (byte :: bytes).length ≤ 65536) (h : Delivers content reads) :
      Delivers (byte :: bytes ++ content) (.data (byte :: bytes) :: reads)

/-- The loop ends with the checksum of everything it was given. -/
theorem debuglinkCrc_of_delivers {content : List Byte} {reads : List ReadResult}
    (h : Delivers content reads) (crc : BitVec 32) :
    debuglinkCrc reads crc = some (some (guCrc32Update crc content)) := by
  induction h generalizing crc with
  | eof later =>
    rw [debuglinkCrc, guCrc32Update, List.foldl_nil, BitVec.not_not]
  | eintr _ ih => exact ih crc
  | block byte bytes _ _ ih =>
    rw [debuglinkCrc, ih, guCrc32Update_append]
    simp

/-- The candidate is compared by the CRC-32 of its content however `read` splits it, and
updating the checksum with two blocks is updating it with their concatenation. -/
theorem guDebuglinkCrcMatches_eq_crc :
    (∀ (content : List Byte) (reads : List ReadResult), Delivers content reads →
      debuglinkCrc reads 0 = some (some (crc crc32Poly content)) ∧
      ∀ expectedCrc, guDebuglinkCrcMatches (some reads) expectedCrc =
        some (decide (crc crc32Poly content = expectedCrc))) ∧
    ∀ (c : BitVec 32) (a b : List Byte),
      guCrc32Update (guCrc32Update c a) b = guCrc32Update c (a ++ b) := by
  refine ⟨fun content reads h => ?_, guCrc32Update_append⟩
  have hvalue : debuglinkCrc reads 0 = some (some (crc crc32Poly content)) := by
    rw [debuglinkCrc_of_delivers h, guCrc32Update_eq]
    rfl
  refine ⟨hvalue, fun expectedCrc => ?_⟩
  rw [guDebuglinkCrcMatches, hvalue, Option.map_some]
  simp [beq_eq_decide]

/-- The check value of the nine digits, delivered in three blocks around an interrupted call. -/
theorem guDebuglinkCrcMatches_digits :
    guDebuglinkCrcMatches (some [.data [0x31, 0x32], .eintr, .data [0x33, 0x34, 0x35],
      .data [0x36, 0x37, 0x38, 0x39], .data []]) 0xcbf43926 = some true := by
  have hlast := Delivers.block 0x36 [0x37, 0x38, 0x39] (by decide) (.eof [])
  have hreads := Delivers.block 0x31 [0x32] (by decide)
    (.eintr (.block 0x33 [0x34, 0x35] (by decide) hlast))
  rw [(guDebuglinkCrcMatches_eq_crc.1 _ _ hreads).2 0xcbf43926]
  decide +kernel

end Gunwinder
