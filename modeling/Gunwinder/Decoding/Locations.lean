import Gunwinder.Native.CfiIndex

/-!
# Locations in instructions and in FDEs

The operand of `DW_CFA_set_loc` and the start of an FDE are pointers in the encoding of the
CIE. `init_fde_from_entry` adds the address of the operand to a pc-relative one. The
instruction takes it as it is.
-/

namespace Gunwinder

open Gunwinder.Core

variable {H P : Type}

/-- The address of a position in the section, which a pc-relative pointer is relative to. -/
def EhFrame.address (frame : EhFrame) (position : Nat) : Word :=
  frame.shOff + BitVec.ofNat 64 (position - frame.sec.dBuf)

/-- The start address that `init_fde_from_entry` computes from the bytes between two positions. -/
def fdeLocation (frame : EhFrame) (encoding : Byte) (start fin : Nat) : Option Word :=
  (decodeReadChecked frame.sec.mem start fin encoding).map fun (pc, _) =>
    if encoding &&& 0x70#8 = dwEhPePcrel then frame.address start + pc else pc

/-- The location that the instruction at `ins` assigns in `init_calc_ctx_by_ins`. -/
def insLocation (frame : EhFrame) (cie : Cie P) (insStart insEnd : Nat) (loc : Word) (ins : Nat) :
    Option Word :=
  (readIns frame.sec insEnd cie.fdeEncoding ins).bind fun (i, _) =>
    execLoc (cie.params frame.arch insStart) loc i

/-- The operand of `DW_CFA_set_loc` is assigned as it is read. -/
theorem insLocation_setLoc {frame : EhFrame} {ins : Nat} (hop : frame.sec.mem ins = 0x01#8)
    (cie : Cie P) (insStart insEnd : Nat) (loc : Word) :
    insLocation frame cie insStart insEnd loc ins =
      (decodeReadChecked frame.sec.mem (ins + 1) insEnd cie.fdeEncoding).map Prod.fst := by
  have hread : readIns frame.sec insEnd cie.fdeEncoding ins =
      readOne frame.sec insEnd cie.fdeEncoding (ins + 1) .setLoc := by simp [readIns, hop]
  rw [insLocation, hread, readOne]
  cases decodeReadChecked frame.sec.mem (ins + 1) insEnd cie.fdeEncoding <;> rfl

/-- `DW_CFA_set_loc` assigns the start address an FDE would have at its operand exactly when the
operand does not decode, is not pc-relative or stands at address 0. -/
theorem setLoc_eq_fdeLocation_iff (frame : EhFrame) (cie : Cie P) (insStart insEnd ins : Nat)
    (loc : Word) (hop : frame.sec.mem ins = 0x01#8) :
    insLocation frame cie insStart insEnd loc ins =
        fdeLocation frame cie.fdeEncoding (ins + 1) insEnd ↔
      decodeReadChecked frame.sec.mem (ins + 1) insEnd cie.fdeEncoding = none ∨
        cie.fdeEncoding &&& 0x70#8 ≠ dwEhPePcrel ∨ frame.address (ins + 1) = 0#64 := by
  rw [insLocation_setLoc hop, fdeLocation]
  cases decodeReadChecked frame.sec.mem (ins + 1) insEnd cie.fdeEncoding with
  | none => simp
  | some read =>
    by_cases hrel : cie.fdeEncoding &&& 0x70#8 = dwEhPePcrel
    · simp only [hrel, Option.map_some, Option.some.injEq, ite_true, reduceCtorEq, ne_eq,
        not_true_eq_false, false_or]
      constructor
      · intro h
        exact BitVec.self_eq_add_left.mp h
      · intro h
        rw [h, BitVec.zero_add]
    · simp [hrel]

/-- A section at address `0x2000` that holds `DW_CFA_set_loc` with a four-byte operand. -/
def setLocFrame : EhFrame where
  arch := .x86
  sec := bytesSection [0x01, 0x10, 0, 0, 0] (by decide)
  shOff := 0x2000#64
  dwarfNextCfi _ := none
  advances h := by cases h

/-- With an absolute encoding both are the operand. -/
theorem setLoc_eq_fdeLocation_absolute :
    insLocation setLocFrame { callerCie () with fdeEncoding := dwEhPeUdata4 } 0 0x1005 0#64 0x1000 =
      fdeLocation setLocFrame dwEhPeUdata4 0x1001 0x1005 :=
  (setLoc_eq_fdeLocation_iff setLocFrame { callerCie () with fdeEncoding := dwEhPeUdata4 } 0 0x1005
    0x1000 0#64 (by decide)).mpr (.inr (.inl (by decide)))

/-- With the encoding that compilers use the instruction assigns `0x10`, where an FDE with the
same bytes would start at `0x2011`. -/
theorem setLoc_ignores_pcrel :
    insLocation setLocFrame { callerCie () with fdeEncoding := 0x1b } 0 0x1005 0#64 0x1000 =
      some 0x10#64 ∧
    fdeLocation setLocFrame 0x1b 0x1001 0x1005 = some 0x2011#64 := by
  decide +kernel

end Gunwinder
