import Mathlib.Algebra.Order.Ring.Int

/-!
# Target and tracked registers

The library is built for x86_64 or for arm64. The two builds differ in the register
numbering of `REG_POS_LIST`, in the register that carries the return address and in the
default rules of a CIE. Three columns are unwound: return address, frame pointer and
stack pointer.
-/

namespace Gunwinder

/-- Addresses, register contents and DWARF words. -/
abbrev Word := BitVec 64

abbrev Byte := BitVec 8

/-- Memory of the unwinding process; a pointer is its address. -/
abbrev Mem := Nat → Byte

/-- The two builds, `GUNWINDER_X86` and `GUNWINDER_ARM64`. -/
inductive Arch where
  | x86
  | arm64
  deriving DecidableEq, Repr

namespace Arch

/-- Entries of `REG_POS_LIST`. -/
def regCount : Arch → Nat
  | x86 => 17
  | arm64 => 33

def regNameRip : Arch → Nat
  | x86 => 16
  | arm64 => 32

def regNameRsp : Arch → Nat
  | x86 => 7
  | arm64 => 31

def regNameRbp : Arch → Nat
  | x86 => 6
  | arm64 => 29

/-- The link register exists on arm64 only. -/
def regNameLr : Arch → Option Nat
  | x86 => none
  | arm64 => some 30

/-- The register the DWARF loop recovers the return address from and writes it to. -/
def pcRegno : Arch → Nat
  | x86 => 16
  | arm64 => 30

end Arch

/-- What stops a run besides returning: a NULL or a stale pointer is followed, or the
evaluation of a rule nests deeper than the bound of the model. -/
inductive Stuck where
  | nullPointer
  | stalePointer
  | tooDeep
  deriving DecidableEq, Repr

/-- What the build and the system fix: the architecture and `getpagesize()`. -/
structure Target where
  arch : Arch
  pageSize : Word
  deriving DecidableEq, Repr

/-- `enum cfi_reg_type`, the three unwound columns. -/
inductive RegType where
  | rip
  | rbp
  | rsp
  deriving DecidableEq, Repr

/-- Conversion of a DWARF word to the C `int` of a register number. -/
def toInt (w : Word) : Int := (w.setWidth 32).toInt

/-- `trans_reg_type`; `none` is `REG_TYPE_MAX`. -/
def transRegType (arch : Arch) (regno : Int) : Option RegType :=
  if regno = arch.regNameRsp then some .rsp
  else if arch.regNameLr.map Int.ofNat = some regno then some .rip
  else if regno = arch.regNameRip then some .rip
  else if regno = arch.regNameRbp then some .rbp
  else none

/-- One value per unwound column. -/
structure Columns (α : Type) where
  rip : α
  rbp : α
  rsp : α
  deriving DecidableEq, Repr

namespace Columns

variable {α : Type}

def get (c : Columns α) : RegType → α
  | .rip => c.rip
  | .rbp => c.rbp
  | .rsp => c.rsp

def set (c : Columns α) (t : RegType) (a : α) : Columns α :=
  match t with
  | .rip => { c with rip := a }
  | .rbp => { c with rbp := a }
  | .rsp => { c with rsp := a }

@[simp] theorem get_set (c : Columns α) (t u : RegType) (a : α) :
    (c.set t a).get u = if u = t then a else c.get u := by
  cases t <;> cases u <;> rfl

end Columns

end Gunwinder
