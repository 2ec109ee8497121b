import Gunwinder.Native.CalcCtx

/-!
# Common information entries

`init_cie_from_buf` reads the augmentation of a CIE and runs its initial instructions on
top of the default rules. The default rules are computed once per process, from the
alignment factors of the first CIE that is initialised, and kept in a global.
-/

namespace Gunwinder

open Gunwinder.Core

/-- `Dwarf_CIE` as the ELF library delivers it. -/
structure DwarfCie where
  codeAlignmentFactor : Word
  dataAlignmentFactor : Word
  returnAddressRegister : Word
  initialInstructions : Nat
  initialInstructionsEnd : Nat
  /-- The bytes of the string before its terminator. -/
  augmentation : List Byte
  augmentationData : Nat

/-- `get_encoding_size`. -/
def getEncodingSize (mem : Mem) (type : Byte) (testBuf : Nat) : Nat :=
  if type = dwEhPeOmit then 0
  else
    match ptrFormat type with
    | some .uleb128 => (decodeUleb128 mem testBuf).2
    | some .sleb128 => (decodeSleb128 mem testBuf).2
    | some .udata2 | some .sdata2 => 2
    | some .udata4 | some .sdata4 => 4
    | some .udata8 | some .sdata8 | some .absptr => 8
    | none => 0

/-- What the augmentation string sets. -/
structure Augmentation where
  fdeAugmentationDataSize : Nat
  sizedAugmentationData : Bool
  signalFrame : Bool
  fdeEncoding : Byte
  lsdaEncoding : Byte
  deriving DecidableEq, Repr

/-- The augmentation loop of `init_cie_from_buf`, with `data` behind what it has read. -/
def readAugmentation (mem : Mem) : List Byte → Nat → Augmentation → Augmentation
  | [], _, aug => aug
  | c :: rest, data, aug =>
    match c.toNat with
    | 0x7a => readAugmentation mem rest data { aug with sizedAugmentationData := true }
    | 0x53 => readAugmentation mem rest data { aug with signalFrame := true }
    | 0x4c =>
      let lsdaEncoding := mem data
      let size := if aug.sizedAugmentationData then 0
        else getEncodingSize mem lsdaEncoding (data + 1)
      readAugmentation mem rest (data + 1) { aug with
        lsdaEncoding
        fdeAugmentationDataSize := aug.fdeAugmentationDataSize + size }
    | 0x52 => readAugmentation mem rest (data + 1) { aug with fdeEncoding := mem data }
    | 0x50 =>
      readAugmentation mem rest (data + 1 + getEncodingSize mem (mem data) (data + 1)) aug
    | _ => if aug.sizedAugmentationData then readAugmentation mem rest data aug else aug

/-- `_default_init_cfi`. -/
def defaultInitCfi : Arch → List Byte
  | .x86 => [0x0c#8, 7#8, 8#8, 0x90#8, 1#8, 0x08#8, 6#8, 0x14#8, 7#8, 0#8]
  | .arm64 => [0x08#8, 6#8, 0x14#8, 7#8, 0#8]

/-- The default instructions as bytes in memory, away from the null address. -/
def defaultSection (arch : Arch) : Section where
  mem a := ((defaultInitCfi arch)[a - 1]?).getD 0#8
  dBuf := 1
  dSize := (defaultInitCfi arch).length
  inSpace := by cases arch <;> decide

variable {H P : Type}

/-- The run behind `_default_calc_ctx`, with the factors of `cie`. -/
def defaultCalcCtx (S : SavedStates H P) (arch : Arch) (cie : Cie P) (heap : H) : InsResult H P :=
  let sec := defaultSection arch
  initCalcCtxByIns S arch sec cie ⟨.zero, S.null⟩ heap sec.dBuf sec.fin 0#64 (-1#64)

/-- The CIE as the augmentation sets it, before its instructions are run. -/
def cieHeader (S : SavedStates H P) (sec : Section) (cieOff : Word) (dwarfCie : DwarfCie) :
    Cie P :=
  let aug := readAugmentation sec.mem dwarfCie.augmentation dwarfCie.augmentationData
    ⟨0, false, false, dwEhPeAbsptr, dwEhPeOmit⟩
  { offset := cieOff
    codeAlignmentFactor := dwarfCie.codeAlignmentFactor
    dataAlignmentFactor := dwarfCie.dataAlignmentFactor
    returnAddressRegister := dwarfCie.returnAddressRegister
    fdeAugmentationDataSize := aug.fdeAugmentationDataSize
    initialInstructions := dwarfCie.initialInstructions
    initialInstructionsEnd := dwarfCie.initialInstructionsEnd
    fdeEncoding :=
      if aug.fdeEncoding &&& 0xf#8 = dwEhPeAbsptr then aug.fdeEncoding ||| dwEhPeUdata8
      else aug.fdeEncoding
    lsdaEncoding := aug.lsdaEncoding
    sizedAugmentationData := aug.sizedAugmentationData
    signalFrame := aug.signalFrame
    cieCalcCtx := ⟨.zero, S.null⟩ }

/-- The default rules; `none` until `_default_init`, then those of the first CIE. -/
def defaultRules (S : SavedStates H P) (arch : Arch) (cie : Cie P) (defaults : Option CalcRules)
    (heap : H) : CalcRules × H :=
  match defaults with
  | some rules => (rules, heap)
  | none =>
    let run := defaultCalcCtx S arch cie heap
    (run.ctx.rules, run.heap)

/-- What `init_cie_from_buf` leaves: the CIE unless it was rejected, the default rules
and the store. -/
structure CieResult (H P : Type) where
  cie : Option (Cie P)
  defaults : Option CalcRules
  heap : H

/-- `init_cie_from_buf`. -/
def initCieFromBuf (S : SavedStates H P) (arch : Arch) (sec : Section) (cieOff : Word)
    (dwarfCie : DwarfCie) (defaults : Option CalcRules) (heap : H) : CieResult H P :=
  let cie := cieHeader S sec cieOff dwarfCie
  let (rules, heap) := defaultRules S arch cie defaults heap
  let run := initCalcCtxByIns S arch sec cie ⟨rules, S.null⟩ heap cie.initialInstructions
    cie.initialInstructionsEnd 0#64 (-1#64)
  ⟨if run.ok then some { cie with cieCalcCtx := run.ctx } else none, some rules, run.heap⟩

/-- A CIE whose initial CFA is `rsp + 8`, with the return address saved below it. -/
def callerCie {P : Type} (prev : P) : Cie P where
  offset := 0#64
  codeAlignmentFactor := 1#64
  dataAlignmentFactor := -8#64
  returnAddressRegister := 16#64
  fdeAugmentationDataSize := 0
  initialInstructions := 0
  initialInstructionsEnd := 0
  fdeEncoding := dwEhPeUdata8
  lsdaEncoding := dwEhPeOmit
  sizedAugmentationData := false
  signalFrame := false
  cieCalcCtx := ⟨⟨.offset, CfaData.zero.setBregx 7#64 8#64,
    ⟨.of .offset (-8#64), .of .sameValue 0#64, .of .valOffset 0#64⟩⟩, prev⟩

end Gunwinder
