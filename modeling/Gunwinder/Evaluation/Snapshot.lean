import Gunwinder.Decoding.Bounds
import Gunwinder.Native.FramePointer

/-!
# Reads from the captured stack

The evaluator and the frame-pointer tail read the snapshot through two copies of one test, in
words that wrap. The two functions are written once more as programs that fetch every byte, so
that what they look at is a result of running them on the captured bytes alone.
-/

namespace Gunwinder

open Gunwinder.Core

/-! ## The window -/

/-- The page that an address is in. -/
def pageOf (page : Nat) (addr : Nat) : Nat := addr / page * page

/-- A read of eight bytes at `addr` from a window of `size` bytes at `base`. -/
def snapshotRead (base size : Nat) (data : Nat → Byte) (addr : Nat) : Option Word :=
  if base ≤ addr ∧ addr + 8 ≤ base + size ∧ base + size < 2 ^ 64 then
    some (load64 data (addr - base))
  else none

/-- Rounding down to a page does not wrap. -/
theorem pageStart_toNat (rawSp page : Word) :
    (rawSp - rawSp % page).toNat = pageOf page.toNat rawSp.toNat := by
  have hle : rawSp % page ≤ rawSp := by
    rw [BitVec.le_def, BitVec.toNat_umod]
    exact Nat.mod_le _ _
  rw [BitVec.toNat_sub_of_le hle, BitVec.toNat_umod, pageOf, Nat.div_mul_self_eq_mod_sub_self]

/-- What the four comparisons of a read exclude. -/
theorem window_iff (start size addr : Word) :
    ¬(addr < start ∨ start + size ≤ addr ∨ addr + 8#64 < addr ∨ start + size - addr < 8#64) ↔
      start.toNat ≤ addr.toNat ∧ addr.toNat + 8 ≤ start.toNat + size.toNat ∧
        start.toNat + size.toNat < 2 ^ 64 := by
  bv_omega

/-- The index of an address in the window. -/
theorem window_index {start addr : Word} (h : start.toNat ≤ addr.toNat) :
    (addr - start).toNat = addr.toNat - start.toNat :=
  BitVec.toNat_sub_of_le h

/-! ## The two readers -/

/-- `read_addr_from_info` as a program over the captured bytes. -/
def fetchAddrFromInfo (env : EvalEnv) (addr : Word) : Fetch Byte (Option Word) :=
  if addr < env.stackStart ∨ env.stackEnd ≤ addr ∨ addr + 8#64 < addr ∨
      env.stackEnd - addr < 8#64 then
    pure none
  else do
    let val ← fetch64 (addr - env.stackStart).toNat
    pure (some val)

/-- `gu_stack_snapshot_read_u64` as a program over the captured bytes. -/
def fetchSnapshotU64 (target : Target) (info : StackInfo) (rawSp addr : Word) :
    Fetch Byte (Option Word) :=
  let stackStart := rawSp - rawSp % target.pageSize
  let stackEnd := stackStart + info.stackSize
  if addr < stackStart ∨ stackEnd ≤ addr ∨ addr + 8#64 < addr ∨ stackEnd - addr < 8#64 then
    pure none
  else do
    let val ← fetch64 (addr - stackStart).toNat
    pure (some val)

/-- The test and the load in words are the read of the window in natural numbers. -/
theorem load_eq_snapshotRead (start size addr : Word) (data : Nat → Byte) :
    (if addr < start ∨ start + size ≤ addr ∨ addr + 8#64 < addr ∨ start + size - addr < 8#64 then
      none else some (load64 data (addr - start).toNat)) =
      snapshotRead start.toNat size.toNat data addr.toNat := by
  have hwindow := window_iff start size addr
  unfold snapshotRead
  split
  · rename_i hout
    rw [if_neg (fun hin => hwindow.mpr hin hout)]
  · rename_i hin
    rw [if_pos (hwindow.mp hin), window_index (hwindow.mp hin).1]

/-- The program fetches bytes of the window only. -/
theorem reads_window (start size addr : Word) (data : Nat → Byte) :
    Reads data 0 size.toNat
      (if addr < start ∨ start + size ≤ addr ∨ addr + 8#64 < addr ∨ start + size - addr < 8#64 then
        pure none
      else do
        let val ← fetch64 (addr - start).toNat
        pure (some val))
      (snapshotRead start.toNat size.toNat data addr.toNat) := by
  rw [← load_eq_snapshotRead]
  split
  · exact reads_pure none
  rename_i hin
  obtain ⟨hlow, hhigh, -⟩ := (window_iff start size addr).mp hin
  have hindex := window_index hlow
  exact (reads_fetch64 (Nat.zero_le _) (by omega)).bind (reads_pure _)

private theorem readAddr_eq_snapshotRead {env : EvalEnv} {data : Nat → Byte}
    (hdata : env.info.stackData = some data) (addr : Word) (oor : OutOfRange) :
    (readAddr env addr oor).1 = snapshotRead (pageOf env.target.pageSize.toNat env.rawSp.toNat)
      env.info.stackSize.toNat data addr.toNat := by
  have hbytes : env.stackBytes = data := by rw [EvalEnv.stackBytes, hdata, Option.getD_some]
  rw [← pageStart_toNat, ← load_eq_snapshotRead, readAddr, hbytes, apply_ite Prod.fst]
  rfl

private theorem guStackSnapshotReadU64_eq_snapshotRead {info : StackInfo} {data : Nat → Byte}
    (hdata : info.stackData = some data) (target : Target) (rawSp addr : Word) :
    guStackSnapshotReadU64 target info rawSp addr =
      snapshotRead (pageOf target.pageSize.toNat rawSp.toNat) info.stackSize.toNat data
        addr.toNat := by
  rw [← pageStart_toNat, ← load_eq_snapshotRead, guStackSnapshotReadU64, hdata]

/-- Both readers return the eight bytes of the window exactly when they stand in it and it does
not wrap, and run on the captured bytes alone. -/
theorem snapshot_reads_exact (env : EvalEnv) (data : Nat → Byte) (addr : Word) (oor : OutOfRange)
    (hdata : env.info.stackData = some data) :
    let read := snapshotRead (pageOf env.target.pageSize.toNat env.rawSp.toNat)
      env.info.stackSize.toNat data addr.toNat
    (readAddr env addr oor).1 = read ∧
    guStackSnapshotReadU64 env.target env.info env.rawSp addr = read ∧
    Reads data 0 env.info.stackSize.toNat (fetchAddrFromInfo env addr) read ∧
    Reads data 0 env.info.stackSize.toNat
      (fetchSnapshotU64 env.target env.info env.rawSp addr) read := by
  have hreads := reads_window (env.rawSp - env.rawSp % env.target.pageSize) env.info.stackSize addr
    data
  rw [pageStart_toNat] at hreads
  exact ⟨readAddr_eq_snapshotRead hdata addr oor,
    guStackSnapshotReadU64_eq_snapshotRead hdata env.target env.rawSp addr, hreads, hreads⟩

/-- A snapshot of sixteen bytes one page below the end of the address space. -/
def lastPageEnv : EvalEnv where
  target := ⟨.x86, 4096#64⟩
  bias := 0#64
  rawSp := -4088#64
  info := ⟨7, 16#64, 0#64, none, 0#64, fun _ => 0#64, 0#64, some fun i => BitVec.ofNat 8 i⟩

/-- The second word of the snapshot is read by both. -/
theorem snapshot_reads_exact_lastPage :
    (readAddr lastPageEnv (-4088#64) .clear).1 = some 0x0f0e0d0c0b0a0908#64 ∧
    guStackSnapshotReadU64 lastPageEnv.target lastPageEnv.info lastPageEnv.rawSp (-4088#64) =
      some 0x0f0e0d0c0b0a0908#64 := by
  obtain ⟨heval, htail, -, -⟩ := snapshot_reads_exact lastPageEnv _ (-4088#64) .clear rfl
  exact ⟨heval.trans (by decide), htail.trans (by decide)⟩

end Gunwinder
