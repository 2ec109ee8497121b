import Gunwinder.Core.Crc
import Gunwinder.Native.Target

/-!
# Checksums of debug link candidates

A debug link names a file and its CRC-32. The candidate is read in blocks until `read` reports
the end of the file, and the checksum is carried from block to block.
-/

namespace Gunwinder

/-- The polynomial in `gu_crc32_table_init`. -/
def crc32Poly : BitVec 32 := 0xedb88320

/-- The entry that `gu_crc32_table_init` computes for an index. -/
def guCrc32Entry (i : BitVec 32) : BitVec 32 :=
  (List.range 8).foldl
    (fun c _ => if c &&& 1 ≠ 0 then crc32Poly ^^^ (c >>> 1) else c >>> 1) i

/-- `gu_crc32_table`, as `gu_crc32_table_init` leaves it. -/
def guCrc32Table : List (BitVec 32) :=
  (List.range 256).map fun i => guCrc32Entry (BitVec.ofNat 32 i)

/-- A turn of the loop of `gu_crc32_update`. -/
def guCrc32Step (crc : BitVec 32) (byte : Byte) : BitVec 32 :=
  guCrc32Table.getD ((crc ^^^ byte.setWidth 32) &&& 0xff).toNat 0 ^^^ (crc >>> 8)

/-- `gu_crc32_update`. -/
def guCrc32Update (crc : BitVec 32) (buf : List Byte) : BitVec 32 :=
  ~~~(buf.foldl guCrc32Step (~~~crc))

/-- What a call of `read` returns; no bytes is the end of the file. -/
inductive ReadResult where
  | data (bytes : List Byte)
  | eintr
  | error
  deriving DecidableEq

/-- The loop of `gu_debuglink_crc_matches` over the results of its calls of `read`: the checksum
it compares, or `none` when a call fails. The outer `none` is a loop that is still reading. -/
def debuglinkCrc : List ReadResult → BitVec 32 → Option (Option (BitVec 32))
  | [], _ => none
  | .eintr :: reads, crc => debuglinkCrc reads crc
  | .error :: _, _ => some none
  | .data [] :: _, crc => some (some crc)
  | .data bytes :: reads, crc => debuglinkCrc reads (guCrc32Update crc bytes)

/-- `gu_debuglink_crc_matches`; no reads at all is a failed `open`. -/
def guDebuglinkCrcMatches (reads : Option (List ReadResult)) (expectedCrc : BitVec 32) :
    Option Bool :=
  match reads with
  | none => some false
  | some reads => (debuglinkCrc reads 0).map fun crc => crc == some expectedCrc

end Gunwinder
