import Gunwinder.Core.LinkedStack
import Gunwinder.Core.Loop
import Gunwinder.Native.Operation

/-!
# Call frame instructions

`init_calc_ctx_by_ins` executes call frame instructions on a working context. One turn of its loop
is split into reading an instruction with its operands (`readIns`) and executing it (`execIns`).

`cfa_data` is a union: an operation of four words whose first byte is the opcode, laid over a block
of a length word and a data word. Some instructions write one member without looking at the rule
tag, so it is modelled by its words. The interpreter is written over an abstract `SavedStates`
store, which is instantiated with heap nodes and with plain values.
-/

namespace Gunwinder

open Gunwinder.Core

/-- `enum dwarf_cfa_rule`. -/
inductive CfaRule where
  | undefined
  | offset
  | expr
  | invalid
  deriving DecidableEq, Repr

/-- The union `cfa_data` as its four words. -/
structure CfaData where
  word0 : Word
  word1 : Word
  word2 : Word
  word3 : Word
  deriving DecidableEq, Repr

/-- `DW_OP_bregx`. -/
def dwOpBregx : Byte := 0x92#8

namespace CfaData

/-- All bytes zero. -/
def zero : CfaData := ⟨0#64, 0#64, 0#64, 0#64⟩

/-- Member `offset` read as an operation. -/
def offset (d : CfaData) : DwarfOp :=
  ⟨Atom.ofByte (d.word0.setWidth 8), d.word1, d.word2, d.word3⟩

/-- Member `expr` read as a block. -/
def expr (d : CfaData) : Block := ⟨d.word0, d.word1⟩

def setNumber (d : CfaData) (number : Word) : CfaData := { d with word1 := number }

def setNumber2 (d : CfaData) (number2 : Word) : CfaData := { d with word2 := number2 }

/-- The opcode is the first byte of the union; the bytes behind it are padding. -/
def setAtom (d : CfaData) (atom : Byte) : CfaData :=
  { d with word0 := (d.word0 &&& ~~~0xff#64) ||| atom.setWidth 64 }

def setOffset (d : CfaData) (offset : Word) : CfaData := { d with word3 := offset }

/-- The four assignments of `DW_CFA_def_cfa`. -/
def setBregx (d : CfaData) (number number2 : Word) : CfaData :=
  (((d.setNumber number).setNumber2 number2).setAtom dwOpBregx).setOffset 0#64

/-- The operation written by `DW_CFA_def_cfa` is read back. -/
theorem setBregx_offset (d : CfaData) (number number2 : Word) :
    (d.setBregx number number2).offset = ⟨.bregx, number, number2, 0#64⟩ := by
  have hbyte : ((d.word0 &&& ~~~0xff#64) ||| dwOpBregx.setWidth 64).setWidth 8 = 0x92#8 := by
    rw [BitVec.setWidth_or, BitVec.setWidth_and]
    simp [dwOpBregx]
  have hatom : Atom.ofByte 0x92#8 = .bregx := by decide
  simp only [setBregx, setOffset, setAtom, offset, setNumber, setNumber2, hbyte, hatom]

/-- The two assignments of `DW_CFA_def_cfa_expression`. -/
def setExpr (d : CfaData) (block : Block) : CfaData :=
  { d with word0 := block.length, word1 := block.data }

end CfaData

/-- `struct dwarf_frame_register`: the value is a signed bit-field of 61 bits. -/
structure FrameRegister where
  rule : FrameRule
  value : BitVec 61
  deriving DecidableEq, Repr

/-- Store a 64-bit value into the bit-field. -/
def FrameRegister.of (rule : FrameRule) (value : Word) : FrameRegister :=
  ⟨rule, value.setWidth 61⟩

/-- Read the bit-field as a `Dwarf_Sword`. -/
def FrameRegister.word (reg : FrameRegister) : Word := reg.value.signExtend 64

/-- The values a bit-field of 61 bits holds. -/
def FitsField (n : Int) : Prop := -2 ^ 60 ≤ n ∧ n < 2 ^ 60

/-- A value in range is read back from the bit-field. -/
theorem FrameRegister.word_of {n : Int} (h : FitsField n) (rule : FrameRule) :
    (FrameRegister.of rule (BitVec.ofInt 64 n)).word.toInt = n := by
  obtain ⟨hlo, hhi⟩ := h
  have hfield : (BitVec.ofInt 64 n).setWidth 61 = BitVec.ofInt 61 n := by
    apply BitVec.eq_of_toNat_eq
    rw [BitVec.toNat_setWidth, BitVec.toNat_ofInt, BitVec.toNat_ofInt]
    omega
  unfold FrameRegister.word FrameRegister.of
  rw [BitVec.toInt_signExtend_of_le (by omega), hfield, BitVec.toInt_ofInt,
    Int.bmod_eq_of_le (by omega) (by omega)]

/-- So is a word below the sign of the bit-field. -/
theorem FrameRegister.word_of_nat {w : Word} (h : w.toNat < 2 ^ 60) (rule : FrameRule) :
    (FrameRegister.of rule w).word = w := by
  have hfield : FitsField w.toNat := ⟨by omega, by omega⟩
  have hint : w.toInt = w.toNat := BitVec.toInt_eq_toNat_of_lt (by omega)
  have hword := FrameRegister.word_of hfield rule
  rw [← hint, BitVec.ofInt_toInt] at hword
  exact BitVec.eq_of_toInt_eq hword

/-- `struct gu_cfi_calc_ctx` without `prev`: the part that is saved and restored. -/
structure CalcRules where
  cfaRule : CfaRule
  cfaData : CfaData
  regs : Columns FrameRegister
  deriving DecidableEq, Repr

/-- All bytes zero. -/
def CalcRules.zero : CalcRules :=
  ⟨.undefined, .zero, ⟨.of .unspecified 0#64, .of .unspecified 0#64, .of .unspecified 0#64⟩⟩

/-- `struct gu_cfi_calc_ctx`, with the saved states behind `prev`. -/
structure CalcCtx (P : Type) where
  rules : CalcRules
  prev : P
  deriving DecidableEq, Repr

/-! ## Saved states -/

/-- A store of saved states: `H` is what the process shares, `P` is the pointer `prev`. -/
structure SavedStates (H P : Type) where
  /-- `NULL`. -/
  null : P
  /-- Allocate a node holding the rules and the pointer; `none` when that fails. -/
  save : H → CalcRules → P → H × Option P
  /-- Read and free the node behind the pointer; `none` for `NULL`. -/
  restore : H → P → Option (H × CalcRules × P)
  /-- Free every node behind the pointer. -/
  discard : H → P → H

/-- Saved states as values. -/
def savedValues : SavedStates Unit (List CalcRules) where
  null := []
  save _ rules prev := ((), some (rules :: prev))
  restore _
    | [] => none
    | rules :: prev => some ((), rules, prev)
  discard _ _ := ()

/-- Saved states as heap nodes. -/
def savedNodes : SavedStates (Heap CalcRules) (Option Nat) where
  null := none
  save heap rules prev := (heap.push rules prev).map id (Option.map some)
  restore := Heap.pop
  discard heap prev := heap.clear heap.nodes.length prev

/-! ## Instructions -/

/-- An instruction with the operands as they are read. Encodings that only differ in how
an operand is read share a constructor. -/
inductive CfaIns where
  | advanceLoc (operand : Word)
  | setLoc (loc : Word)
  | defCfa (operand offset : Word)
  | defCfaSf (operand sfOffset : Word)
  | defCfaRegister (operand : Word)
  | defCfaOffset (offset : Word)
  | defCfaOffsetSf (sfOffset : Word)
  | defCfaExpression (block : Block)
  | undefined (regno : Word)
  | sameValue (regno : Word)
  | rememberState
  | restoreState
  | offset (operand offset : Word)
  | offsetSf (operand sfOffset : Word)
  | negativeOffset (operand offset : Word)
  | valOffset (operand offset : Word)
  | valOffsetSf (operand sfOffset : Word)
  | register (regno operand : Word)
  /-- The second operand is the section offset of the block's length. -/
  | expression (regno offset : Word)
  | valExpression (regno offset : Word)
  | restore (operand : Word)
  | nop
  | argsSize (operand : Word)
  | unknown (op : Byte)
  deriving DecidableEq, Repr

/-- `cfi_data`: the section in memory. A mapped section lies below `2 ^ 56`. -/
structure Section where
  mem : Mem
  dBuf : Nat
  dSize : Nat
  inSpace : dBuf + dSize ≤ 2 ^ 56

/-- The end of the section. -/
def Section.fin (sec : Section) : Nat := sec.dBuf + sec.dSize

/-- A section at `0x1000` with the given bytes. -/
def bytesSection (bytes : List Byte) (h : bytes.length ≤ 4096) : Section where
  mem a := if a < 0x1000 then 0#8 else (bytes[a - 0x1000]?).getD 0#8
  dBuf := 0x1000
  dSize := bytes.length
  inSpace := by omega

section Read

variable (sec : Section) (insEnd : Nat)

/-- An instruction with one encoded operand. -/
def readOne (type : Byte) (ins : Nat) (make : Word → CfaIns) : Option (CfaIns × Nat) := do
  let (operand, ins) ← decodeReadChecked sec.mem ins insEnd type
  pure (make operand, ins)

/-- An instruction with two encoded operands. -/
def readTwo (type type2 : Byte) (ins : Nat) (make : Word → Word → CfaIns) :
    Option (CfaIns × Nat) := do
  let (operand, ins) ← decodeReadChecked sec.mem ins insEnd type
  let (operand2, ins) ← decodeReadChecked sec.mem ins insEnd type2
  pure (make operand operand2, ins)

/-- A register rule given by an expression block. -/
def readRegExpression (ins : Nat) (make : Word → Word → CfaIns) : Option (CfaIns × Nat) := do
  let (regno, ins) ← decodeReadChecked sec.mem ins insEnd dwEhPeUleb128
  let (length, data) ← decodeReadChecked sec.mem ins insEnd dwEhPeUleb128
  if blockFits data insEnd length then
    pure (make regno (BitVec.ofNat 64 (ins - sec.dBuf)), data + length.toNat)
  else none

/-- `DW_CFA_def_cfa_expression`. -/
def readCfaExpression (ins : Nat) : Option (CfaIns × Nat) := do
  let (length, data) ← decodeReadChecked sec.mem ins insEnd dwEhPeUleb128
  if blockFits data insEnd length then
    pure (.defCfaExpression ⟨length, BitVec.ofNat 64 data⟩, data + length.toNat)
  else none

/-- Read the instruction whose opcode is at `ins`; `none` is a failed operand read.
`DW_CFA_set_loc` reads its operand with the CIE's pointer encoding. -/
def readIns (fdeEncoding : Byte) (ins : Nat) : Option (CfaIns × Nat) :=
  let op := sec.mem ins
  let operand : Word := (op &&& 0x3f#8).setWidth 64
  let ins := ins + 1
  if 0x40 ≤ op.toNat ∧ op.toNat ≤ 0x7f then some (.advanceLoc operand, ins)
  else if 0x80 ≤ op.toNat ∧ op.toNat ≤ 0xbf then
    readOne sec insEnd dwEhPeUleb128 ins (.offset operand)
  else if 0xc0 ≤ op.toNat then some (.restore operand, ins)
  else
    match op.toNat with
    | 0x00 => some (.nop, ins)
    | 0x01 => readOne sec insEnd fdeEncoding ins .setLoc
    | 0x02 =>
      if insEnd ≤ ins then none
      else some (.advanceLoc ((sec.mem ins).setWidth 64), ins + 1)
    | 0x03 => readOne sec insEnd dwEhPeUdata2 ins .advanceLoc
    | 0x04 => readOne sec insEnd dwEhPeUdata4 ins .advanceLoc
    | 0x05 => readTwo sec insEnd dwEhPeUleb128 dwEhPeUleb128 ins .offset
    | 0x06 => readOne sec insEnd dwEhPeUleb128 ins .restore
    | 0x07 => readOne sec insEnd dwEhPeUleb128 ins .undefined
    | 0x08 => readOne sec insEnd dwEhPeUleb128 ins .sameValue
    | 0x09 => readTwo sec insEnd dwEhPeUleb128 dwEhPeUleb128 ins .register
    | 0x0a => some (.rememberState, ins)
    | 0x0b => some (.restoreState, ins)
    | 0x0c => readTwo sec insEnd dwEhPeUleb128 dwEhPeUleb128 ins .defCfa
    | 0x0d => readOne sec insEnd dwEhPeUleb128 ins .defCfaRegister
    | 0x0e => readOne sec insEnd dwEhPeUleb128 ins .defCfaOffset
    | 0x0f => readCfaExpression sec insEnd ins
    | 0x10 => readRegExpression sec insEnd ins .expression
    | 0x11 => readTwo sec insEnd dwEhPeUleb128 dwEhPeSleb128 ins .offsetSf
    | 0x12 => readTwo sec insEnd dwEhPeUleb128 dwEhPeSleb128 ins .defCfaSf
    | 0x13 => readOne sec insEnd dwEhPeSleb128 ins .defCfaOffsetSf
    | 0x14 => readTwo sec insEnd dwEhPeUleb128 dwEhPeUleb128 ins .valOffset
    | 0x15 => readTwo sec insEnd dwEhPeUleb128 dwEhPeSleb128 ins .valOffsetSf
    | 0x16 => readRegExpression sec insEnd ins .valExpression
    | 0x1d => readOne sec insEnd dwEhPeUdata8 ins .advanceLoc
    | 0x2e => readOne sec insEnd dwEhPeUleb128 ins .argsSize
    | 0x2f => readTwo sec insEnd dwEhPeUleb128 dwEhPeUleb128 ins .negativeOffset
    | _ => some (.unknown op, ins)

end Read

/-- What a read instruction says about the bytes: an expression block lies behind the
opcode and before the end. -/
def CfaIns.Inside (sec : Section) (ins insEnd : Nat) : CfaIns → Prop
  | .defCfaExpression block => ins < block.start ∧ block.fin ≤ insEnd
  | .expression _ off | .valExpression _ off =>
    ∃ p, ins < p ∧ p < insEnd ∧ off = BitVec.ofNat 64 (p - sec.dBuf)
  | _ => True

section ReadSpec

variable {sec : Section} {insEnd ins ins0 next : Nat} {i : CfaIns}

private theorem readOne_spec {type : Byte} {make : Word → CfaIns}
    (h : readOne sec insEnd type ins make = some (i, next)) :
    ins < next ∧ next ≤ insEnd ∧ ∃ operand, i = make operand := by
  obtain ⟨⟨operand, last⟩, hread, hret⟩ := Option.bind_eq_some_iff.mp h
  cases hret
  have hb := decodeReadChecked_bounds hread
  exact ⟨hb.1, hb.2, operand, rfl⟩

private theorem readTwo_spec {type type2 : Byte} {make : Word → Word → CfaIns}
    (h : readTwo sec insEnd type type2 ins make = some (i, next)) :
    ins < next ∧ next ≤ insEnd ∧ ∃ operand operand2, i = make operand operand2 := by
  obtain ⟨⟨operand, mid⟩, hread, hrest⟩ := Option.bind_eq_some_iff.mp h
  obtain ⟨⟨operand2, last⟩, hread2, hret⟩ := Option.bind_eq_some_iff.mp hrest
  cases hret
  have hb := decodeReadChecked_bounds hread
  have hb2 := decodeReadChecked_bounds hread2
  exact ⟨hb.1.trans hb2.1, hb2.2, operand, operand2, rfl⟩

/-- A register expression: the position that is recorded is that of the block's length. -/
theorem readRegExpression_spec {make : Word → Word → CfaIns}
    (h : readRegExpression sec insEnd ins make = some (i, next)) :
    ∃ regno p length data,
      decodeReadChecked sec.mem ins insEnd dwEhPeUleb128 = some (regno, p) ∧
      decodeReadChecked sec.mem p insEnd dwEhPeUleb128 = some (length, data) ∧
      i = make regno (BitVec.ofNat 64 (p - sec.dBuf)) ∧ next = data + length.toNat ∧
      next ≤ insEnd := by
  obtain ⟨⟨regno, p⟩, hread, hrest⟩ := Option.bind_eq_some_iff.mp h
  obtain ⟨⟨length, data⟩, hread2, hret⟩ := Option.bind_eq_some_iff.mp hrest
  dsimp only at hread2 hret
  split at hret
  · rename_i hfits
    cases hret
    exact ⟨regno, p, length, data, hread, hread2, rfl, rfl, blockFits_bounds hfits⟩
  · cases hret

/-- The block behind a CFA expression. -/
theorem readCfaExpression_spec (h : readCfaExpression sec insEnd ins = some (i, next)) :
    ∃ length data, decodeReadChecked sec.mem ins insEnd dwEhPeUleb128 = some (length, data) ∧
      i = .defCfaExpression ⟨length, BitVec.ofNat 64 data⟩ ∧ next = data + length.toNat ∧
      next ≤ insEnd := by
  obtain ⟨⟨length, data⟩, hread, hret⟩ := Option.bind_eq_some_iff.mp h
  dsimp only at hret
  split at hret
  · rename_i hfits
    cases hret
    exact ⟨length, data, hread, rfl, rfl, blockFits_bounds hfits⟩
  · cases hret

/-- An instruction without an expression block. -/
def CfaIns.BlockFree : CfaIns → Prop
  | .defCfaExpression _ | .expression _ _ | .valExpression _ _ => False
  | _ => True

private theorem CfaIns.BlockFree.inside (h : i.BlockFree) : i.Inside sec ins insEnd := by
  cases i with
  | defCfaExpression _ | expression _ _ | valExpression _ _ => exact h.elim
  | _ => trivial

variable {fdeEncoding : Byte}

section

variable (hins : ins < insEnd) (h : readIns sec insEnd fdeEncoding ins = some (i, next))
include hins h

/-- What is read is an instruction without a block, or one of the three with one. -/
theorem readIns_cases :
    (i.BlockFree ∧ ins < next ∧ next ≤ insEnd) ∨
      readCfaExpression sec insEnd (ins + 1) = some (i, next) ∨
      readRegExpression sec insEnd (ins + 1) .expression = some (i, next) ∨
      readRegExpression sec insEnd (ins + 1) .valExpression = some (i, next) := by
  have hsimple {j : CfaIns} (hj : some (j, ins + 1) = some (i, next)) (hfree : j.BlockFree) :
      i.BlockFree ∧ ins < next ∧ next ≤ insEnd := by
    cases hj
    exact ⟨hfree, by omega, by omega⟩
  have hone {type : Byte} {make : Word → CfaIns}
      (hr : readOne sec insEnd type (ins + 1) make = some (i, next))
      (hfree : ∀ w, (make w).BlockFree) : i.BlockFree ∧ ins < next ∧ next ≤ insEnd := by
    obtain ⟨h1, h2, w, rfl⟩ := readOne_spec hr
    exact ⟨hfree w, by omega, h2⟩
  have htwo {type type2 : Byte} {make : Word → Word → CfaIns}
      (hr : readTwo sec insEnd type type2 (ins + 1) make = some (i, next))
      (hfree : ∀ v w, (make v w).BlockFree) : i.BlockFree ∧ ins < next ∧ next ≤ insEnd := by
    obtain ⟨h1, h2, v, w, rfl⟩ := readTwo_spec hr
    exact ⟨hfree v w, by omega, h2⟩
  unfold readIns at h
  dsimp only at h
  split at h
  · exact .inl (hsimple h trivial)
  split at h
  · exact .inl (hone h fun _ => trivial)
  split at h
  · exact .inl (hsimple h trivial)
  split at h
  -- `DW_CFA_advance_loc1` checks its one operand byte by hand
  case h_3 =>
    split at h
    · cases h
    · cases h
      exact .inl ⟨trivial, by omega, by omega⟩
  case h_16 => exact .inr (.inl h)
  case h_17 => exact .inr (.inr (.inl h))
  case h_23 => exact .inr (.inr (.inr h))
  all_goals first
    | exact .inl (hsimple h trivial)
    | exact .inl (hone h fun _ => trivial)
    | exact .inl (htwo h fun _ _ => trivial)

/-- Reading an instruction moves forward inside the range. -/
theorem readIns_bounds : ins < next ∧ next ≤ insEnd := by
  have hreg {make : Word → Word → CfaIns}
      (hr : readRegExpression sec insEnd (ins + 1) make = some (i, next)) :
      ins < next ∧ next ≤ insEnd := by
    obtain ⟨regno, p, length, data, hread, hread2, -, rfl, hfin⟩ := readRegExpression_spec hr
    have hb := decodeReadChecked_bounds hread
    have hb2 := decodeReadChecked_bounds hread2
    exact ⟨by omega, hfin⟩
  rcases readIns_cases hins h with ⟨-, hb⟩ | hexpr | hr | hr
  · exact hb
  · obtain ⟨length, data, hread, -, rfl, hfin⟩ := readCfaExpression_spec hexpr
    have hb := decodeReadChecked_bounds hread
    exact ⟨by omega, hfin⟩
  · exact hreg hr
  · exact hreg hr

end

/-- What an instruction names lies in the range, behind its opcode. -/
theorem readIns_spec (hend : insEnd < 2 ^ 64) (hins : ins < insEnd)
    (h : readIns sec insEnd fdeEncoding ins = some (i, next)) :
    ins < next ∧ next ≤ insEnd ∧ i.Inside sec ins insEnd := by
  obtain ⟨h1, h2⟩ := readIns_bounds hins h
  refine ⟨h1, h2, ?_⟩
  rcases readIns_cases hins h with ⟨hfree, -⟩ | hexpr | hreg | hreg
  · exact hfree.inside
  · obtain ⟨length, data, hread, rfl, rfl, hfin⟩ := readCfaExpression_spec hexpr
    have hb := decodeReadChecked_bounds hread
    simp only [CfaIns.Inside, Block.start, Block.fin, BitVec.toNat_ofNat,
      Nat.mod_eq_of_lt (hb.2.trans_lt hend)]
    exact ⟨by omega, hfin⟩
  all_goals
    obtain ⟨regno, p, length, data, hread, hread2, rfl, -⟩ := readRegExpression_spec hreg
    have hb := decodeReadChecked_bounds hread
    have hb2 := decodeReadChecked_bounds hread2
    exact ⟨p, by omega, by omega, rfl⟩

end ReadSpec

/-! ## Execution -/

/-- What the instructions take from the CIE. -/
structure InsParams where
  arch : Arch
  codeAlignmentFactor : Word
  dataAlignmentFactor : Word
  /-- `ins_start == cie->initial_instructions`. -/
  inCie : Bool
  /-- `cie->cie_calc_ctx.regs`. -/
  initialRegs : Columns FrameRegister

/-- Store a rule into the column of a DWARF register number, if it has one. -/
def CalcRules.setReg (rules : CalcRules) (arch : Arch) (regno : Word) (reg : FrameRegister) :
    CalcRules :=
  match transRegType arch (toInt regno) with
  | none => rules
  | some t => { rules with regs := rules.regs.set t reg }

/-- `DW_CFA_restore` and `DW_CFA_restore_extended`. -/
def CalcRules.restoreReg (rules : CalcRules) (par : InsParams) (operand : Word) : CalcRules :=
  if par.inCie then rules
  else
    match transRegType par.arch (toInt operand) with
    | none => rules
    | some t => { rules with regs := rules.regs.set t (par.initialRegs.get t) }

/-- The instructions that change the rules in place. -/
def execRule (par : InsParams) (rules : CalcRules) : CfaIns → CalcRules
  | .defCfa operand offset =>
    { rules with cfaRule := .offset, cfaData := rules.cfaData.setBregx operand offset }
  | .defCfaSf operand sfOffset =>
    { rules with
      cfaRule := .offset
      cfaData := rules.cfaData.setBregx operand (sfOffset * par.dataAlignmentFactor) }
  -- the two partial updates do not look at the rule
  | .defCfaRegister operand => { rules with cfaData := rules.cfaData.setNumber operand }
  | .defCfaOffset offset => { rules with cfaData := rules.cfaData.setNumber2 offset }
  | .defCfaOffsetSf sfOffset =>
    { rules with cfaData := rules.cfaData.setNumber2 (sfOffset * par.dataAlignmentFactor) }
  | .defCfaExpression block =>
    { rules with cfaRule := .expr, cfaData := rules.cfaData.setExpr block }
  | .undefined regno => rules.setReg par.arch regno (.of .undefined 0#64)
  | .sameValue regno => rules.setReg par.arch regno (.of .sameValue 0#64)
  | .offset operand offset =>
    rules.setReg par.arch operand (.of .offset (offset * par.dataAlignmentFactor))
  | .offsetSf operand sfOffset =>
    rules.setReg par.arch operand (.of .offset (sfOffset * par.dataAlignmentFactor))
  | .negativeOffset operand offset =>
    rules.setReg par.arch operand (.of .offset (-offset * par.dataAlignmentFactor))
  | .valOffset operand offset =>
    rules.setReg par.arch operand (.of .valOffset (offset * par.dataAlignmentFactor))
  | .valOffsetSf operand sfOffset =>
    rules.setReg par.arch operand (.of .valOffset (sfOffset * par.dataAlignmentFactor))
  | .register regno operand => rules.setReg par.arch regno (.of .register operand)
  | .expression regno offset => rules.setReg par.arch regno (.of .expression offset)
  | .valExpression regno offset => rules.setReg par.arch regno (.of .valExpression offset)
  | .restore operand => rules.restoreReg par operand
  | .advanceLoc _ | .setLoc _ | .rememberState | .restoreState | .nop | .argsSize _
  | .unknown _ => rules

/-- The column is restored by evaluating an expression. -/
def FrameRegister.IsExpression (reg : FrameRegister) : Prop :=
  reg.rule = .expression ∨ reg.rule = .valExpression

/-- What an instruction can do to the rules. -/
inductive RuleChange (par : InsParams) (rules : CalcRules) (i : CfaIns) : CalcRules → Prop where
  | same : RuleChange par rules i rules
  | defCfa (number number2 : Word) : RuleChange par rules i
      { rules with cfaRule := .offset, cfaData := rules.cfaData.setBregx number number2 }
  | cfaRegister (operand : Word) (h : i = .defCfaRegister operand) :
      RuleChange par rules i { rules with cfaData := rules.cfaData.setNumber operand }
  | cfaOffset (number2 : Word) :
      RuleChange par rules i { rules with cfaData := rules.cfaData.setNumber2 number2 }
  | cfaExpression (block : Block) (h : i = .defCfaExpression block) :
      RuleChange par rules i { rules with cfaRule := .expr, cfaData := rules.cfaData.setExpr block }
  | column (type : RegType) (reg : FrameRegister) (h : ¬reg.IsExpression) :
      RuleChange par rules i { rules with regs := rules.regs.set type reg }
  | expression (type : RegType) (rule : FrameRule) (regno offset : Word)
      (h : i = .expression regno offset ∨ i = .valExpression regno offset) :
      RuleChange par rules i { rules with regs := rules.regs.set type (.of rule offset) }
  | restored (type : RegType) :
      RuleChange par rules i { rules with regs := rules.regs.set type (par.initialRegs.get type) }

/-- Every instruction makes one of these changes. -/
theorem execRule_change (par : InsParams) (rules : CalcRules) (i : CfaIns) :
    RuleChange par rules i (execRule par rules i) := by
  have hset {regno : Word} {reg : FrameRegister}
      (h : ∀ type, RuleChange par rules i { rules with regs := rules.regs.set type reg }) :
      RuleChange par rules i (rules.setReg par.arch regno reg) := by
    unfold CalcRules.setReg
    split
    · exact .same
    · exact h _
  have hplain {rule : FrameRule} {value : Word} (hne : rule ≠ .expression)
      (hne' : rule ≠ .valExpression) (type : RegType) :
      RuleChange par rules i { rules with regs := rules.regs.set type (.of rule value) } :=
    .column type _ fun h => h.elim hne hne'
  cases i with
  | defCfa operand offset | defCfaSf operand sfOffset => exact .defCfa ..
  | defCfaRegister operand => exact .cfaRegister operand rfl
  | defCfaOffset offset => exact .cfaOffset offset
  | defCfaOffsetSf sfOffset => exact .cfaOffset _
  | defCfaExpression block => exact .cfaExpression block rfl
  | undefined _ | sameValue _ | offset _ _ | offsetSf _ _ | negativeOffset _ _ | valOffset _ _
  | valOffsetSf _ _ | register _ _ => exact hset (hplain nofun nofun)
  | expression regno offset => exact hset fun type => .expression type _ regno offset (.inl rfl)
  | valExpression regno offset => exact hset fun type => .expression type _ regno offset (.inr rfl)
  | restore operand =>
    simp only [execRule, CalcRules.restoreReg]
    split
    · exact .same
    · split
      · exact .same
      · exact .restored _
  | advanceLoc _ | setLoc _ | rememberState | restoreState | nop | argsSize _ | unknown _ =>
    exact .same

/-- The location behind an instruction that moves it; the others `continue` past the test. -/
def execLoc (par : InsParams) (loc : Word) : CfaIns → Option Word
  | .advanceLoc operand => some (loc + operand * par.codeAlignmentFactor)
  | .setLoc loc => some loc
  | _ => none

variable {H P : Type}

/-- Locals of the loop: the instruction pointer, the location, the context and the store. -/
structure InsState (H P : Type) where
  ins : Nat
  loc : Word
  ctx : CalcCtx P
  heap : H

/-- Execute an instruction on the context; `error` is `return -1`. -/
def execIns (S : SavedStates H P) (par : InsParams) (ctx : CalcCtx P) (heap : H) :
    CfaIns → Except H (CalcCtx P × H)
  | .rememberState =>
    match S.save heap ctx.rules ctx.prev with
    | (heap, none) => .error heap
    | (heap, some prev) => .ok ({ ctx with prev }, heap)
  | .restoreState =>
    match S.restore heap ctx.prev with
    | none => .error heap
    | some (heap, rules, prev) => .ok (⟨rules, prev⟩, heap)
  | ins => .ok ({ ctx with rules := execRule par ctx.rules ins }, heap)

/-- Return value of `init_calc_ctx_by_ins` with the context and the store it leaves. -/
structure InsResult (H P : Type) where
  ok : Bool
  ctx : CalcCtx P
  heap : H

/-- One turn of the loop of `init_calc_ctx_by_ins`. -/
def insTurn (S : SavedStates H P) (sec : Section) (par : InsParams) (fdeEncoding : Byte)
    (insEnd : Nat) (findPc : Word) (s : InsState H P) : Turn (InsState H P) (InsResult H P) :=
  if s.ins < insEnd then
    match readIns sec insEnd fdeEncoding s.ins with
    | none => .stop ⟨false, s.ctx, s.heap⟩
    | some (ins, next) =>
      match execIns S par s.ctx s.heap ins with
      | .error heap => .stop ⟨false, s.ctx, heap⟩
      | .ok (ctx, heap) =>
        match execLoc par s.loc ins with
        | none => .next ⟨next, s.loc, ctx, heap⟩
        | some loc =>
          if findPc < loc then .stop ⟨true, ctx, heap⟩ else .next ⟨next, loc, ctx, heap⟩
  else .stop ⟨true, s.ctx, s.heap⟩

/-- The loop behind the last instruction. -/
def insOut (s : InsState H P) : InsResult H P := ⟨true, s.ctx, s.heap⟩

/-- The loop of `init_calc_ctx_by_ins`: every turn consumes a byte. -/
def runIns (S : SavedStates H P) (sec : Section) (par : InsParams) (fdeEncoding : Byte)
    (insStart insEnd : Nat) (loc findPc : Word) (ctx : CalcCtx P) (heap : H) : InsResult H P :=
  loop (insTurn S sec par fdeEncoding insEnd findPc) insOut (insEnd - insStart)
    ⟨insStart, loc, ctx, heap⟩

variable {ins : CfaIns} {par : InsParams}

/-- What executing an instruction can do to the context and the store. -/
theorem execIns_ok {S : SavedStates H P} {ctx ctx' : CalcCtx P} {heap heap' : H}
    (h : execIns S par ctx heap ins = .ok (ctx', heap')) :
    (ins = .rememberState ∧ S.save heap ctx.rules ctx.prev = (heap', some ctx'.prev) ∧
      ctx'.rules = ctx.rules) ∨
    (ins = .restoreState ∧ S.restore heap ctx.prev = some (heap', ctx'.rules, ctx'.prev)) ∨
    (ins ≠ .rememberState ∧ ins ≠ .restoreState ∧
      ctx' = ⟨execRule par ctx.rules ins, ctx.prev⟩ ∧ heap' = heap) := by
  unfold execIns at h
  split at h
  · split at h
    · cases h
    · rename_i hsave
      cases h
      exact .inl ⟨rfl, hsave, rfl⟩
  · split at h
    · cases h
    · rename_i hrestore
      cases h
      exact .inr (.inl ⟨rfl, hrestore⟩)
  · rename_i hne hne'
    cases h
    exact .inr (.inr ⟨hne, hne', rfl, rfl⟩)

/-- Executing fails when a node is refused or there is nothing to restore. -/
theorem execIns_error {S : SavedStates H P} {ctx : CalcCtx P} {heap heap' : H}
    (h : execIns S par ctx heap ins = .error heap') :
    (ins = .rememberState ∧ S.save heap ctx.rules ctx.prev = (heap', none)) ∨
    (ins = .restoreState ∧ S.restore heap ctx.prev = none ∧ heap' = heap) := by
  unfold execIns at h
  split at h
  · split at h
    · rename_i hsave
      exact .inl ⟨rfl, Except.error.inj h ▸ hsave⟩
    · cases h
  · split at h
    · rename_i hrestore
      exact .inr ⟨rfl, hrestore, (Except.error.inj h).symm⟩
    · cases h
  · cases h

/-- Every other instruction acts on the rules only. -/
theorem execIns_rule (S : SavedStates H P) (par : InsParams) (ctx : CalcCtx P) (heap : H)
    (hne : ins ≠ .rememberState) (hne' : ins ≠ .restoreState) :
    execIns S par ctx heap ins = .ok (⟨execRule par ctx.rules ins, ctx.prev⟩, heap) := by
  unfold execIns
  split
  · exact absurd rfl hne
  · exact absurd rfl hne'
  · rfl

/-- A property of the current rules and of all saved ones. -/
structure CalcCtx.All (I : CalcRules → Prop) (ctx : CalcCtx (List CalcRules)) : Prop where
  rules : I ctx.rules
  saved : ∀ rules ∈ ctx.prev, I rules

/-- A property the instruction keeps on the rules is kept on the remembered ones. -/
theorem CalcCtx.All.execIns {I : CalcRules → Prop} {ctx ctx' : CalcCtx (List CalcRules)}
    {heap heap' : Unit} (h : ctx.All I) (hrule : I ctx.rules → I (execRule par ctx.rules ins))
    (hexec : execIns savedValues par ctx heap ins = .ok (ctx', heap')) : ctx'.All I := by
  rcases execIns_ok hexec with ⟨-, hsave, hrules⟩ | ⟨-, hrestore⟩ | ⟨-, -, rfl, -⟩
  · obtain ⟨-, hprev⟩ := Prod.mk.inj hsave
    refine ⟨hrules ▸ h.rules, fun rules hmem => ?_⟩
    rw [← Option.some.inj hprev] at hmem
    rcases List.mem_cons.mp hmem with rfl | hmem
    · exact h.rules
    · exact h.saved rules hmem
  · cases hprev : ctx.prev with
    | nil => simp [savedValues, hprev] at hrestore
    | cons rules prev =>
      simp only [savedValues, hprev, Option.some.injEq, Prod.mk.injEq] at hrestore
      obtain ⟨-, hrules, hprev'⟩ := hrestore
      refine ⟨hrules ▸ h.saved rules (by simp [hprev]), fun r hr => ?_⟩
      exact h.saved r (by rw [hprev]; exact List.mem_cons_of_mem _ (hprev' ▸ hr))
  · exact ⟨hrule h.rules, h.saved⟩

section Turns

variable {S : SavedStates H P} {sec : Section} {par : InsParams} {fdeEncoding : Byte}
  {insEnd : Nat} {findPc : Word} {s s' : InsState H P} {r : InsResult H P}

/-- A turn that goes on has read and executed an instruction. -/
theorem insTurn_next (h : insTurn S sec par fdeEncoding insEnd findPc s = .next s') :
    s.ins < insEnd ∧ ∃ ins, readIns sec insEnd fdeEncoding s.ins = some (ins, s'.ins) ∧
      execIns S par s.ctx s.heap ins = .ok (s'.ctx, s'.heap) ∧
      s'.loc = (execLoc par s.loc ins).getD s.loc ∧
      ∀ loc, execLoc par s.loc ins = some loc → loc ≤ findPc := by
  unfold insTurn at h
  split at h
  · rename_i hlt
    split at h
    · cases h
    rename_i ins next hread
    split at h
    · cases h
    rename_i ctx heap hexec
    split at h
    · rename_i hloc
      obtain rfl := Turn.next.inj h
      exact ⟨hlt, ins, hread, hexec, by simp [hloc], by simp [hloc]⟩
    · rename_i loc hloc
      split at h
      · cases h
      rename_i hpc
      obtain rfl := Turn.next.inj h
      refine ⟨hlt, ins, hread, hexec, by simp [hloc], ?_⟩
      rintro loc' hloc'
      rw [hloc] at hloc'
      exact Option.some.inj hloc' ▸ BitVec.not_lt.mp hpc
  · cases h

/-- A turn that stops is at the end, fails, or has moved the location past the pc. -/
theorem insTurn_stop (h : insTurn S sec par fdeEncoding insEnd findPc s = .stop r) :
    (insEnd ≤ s.ins ∧ r = ⟨true, s.ctx, s.heap⟩) ∨
    (s.ins < insEnd ∧ readIns sec insEnd fdeEncoding s.ins = none ∧
      r = ⟨false, s.ctx, s.heap⟩) ∨
    ∃ ins next, s.ins < insEnd ∧ readIns sec insEnd fdeEncoding s.ins = some (ins, next) ∧
      ((∃ heap, execIns S par s.ctx s.heap ins = .error heap ∧ r = ⟨false, s.ctx, heap⟩) ∨
        ∃ ctx heap loc, execIns S par s.ctx s.heap ins = .ok (ctx, heap) ∧
          execLoc par s.loc ins = some loc ∧ findPc < loc ∧ r = ⟨true, ctx, heap⟩) := by
  unfold insTurn at h
  split at h
  · rename_i hlt
    split at h
    · rename_i hread
      exact .inr (.inl ⟨hlt, hread, (Turn.stop.inj h).symm⟩)
    · rename_i ins next hread
      refine .inr (.inr ⟨ins, next, hlt, hread, ?_⟩)
      split at h
      · rename_i heap hexec
        exact .inl ⟨heap, hexec, (Turn.stop.inj h).symm⟩
      · rename_i ctx heap hexec
        split at h
        · cases h
        rename_i loc hloc
        split at h
        · rename_i hpc
          exact .inr ⟨ctx, heap, loc, hexec, hloc, hpc, (Turn.stop.inj h).symm⟩
        · cases h
  · rename_i hge
    exact .inl ⟨Nat.not_lt.mp hge, (Turn.stop.inj h).symm⟩

end Turns

/-- `struct gu_cfi_cie`. -/
structure Cie (P : Type) where
  offset : Word
  codeAlignmentFactor : Word
  dataAlignmentFactor : Word
  returnAddressRegister : Word
  fdeAugmentationDataSize : Nat
  initialInstructions : Nat
  initialInstructionsEnd : Nat
  fdeEncoding : Byte
  lsdaEncoding : Byte
  sizedAugmentationData : Bool
  signalFrame : Bool
  cieCalcCtx : CalcCtx P

/-- What instructions starting at `insStart` take from the CIE. -/
def Cie.params (cie : Cie P) (arch : Arch) (insStart : Nat) : InsParams where
  arch := arch
  codeAlignmentFactor := cie.codeAlignmentFactor
  dataAlignmentFactor := cie.dataAlignmentFactor
  inCie := insStart = cie.initialInstructions
  initialRegs := cie.cieCalcCtx.rules.regs

/-- `init_calc_ctx_by_ins`. -/
def initCalcCtxByIns (S : SavedStates H P) (arch : Arch) (sec : Section) (cie : Cie P)
    (ctx : CalcCtx P) (heap : H) (insStart insEnd : Nat) (loc findPc : Word) : InsResult H P :=
  runIns S sec (cie.params arch insStart) cie.fdeEncoding insStart insEnd loc findPc ctx heap

end Gunwinder
