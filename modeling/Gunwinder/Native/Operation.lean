import Gunwinder.Native.Pointer

/-!
# Expression operations and their decoder

`gu_cfi_init_ops_from_block` turns an expression block into a list of operations. Its switch
groups opcodes by operand format, so the format of an opcode is a table (`operandForm`). The list
is the part in use of the static buffer of `DWARF_OPS_MAX` operations.
-/

namespace Gunwinder

/-- The `DW_OP_*` opcodes the decoder or the evaluator names. Opcodes of a numbered
range carry their offset in the range; every remaining byte is `other`. -/
inductive Atom where
  | addr | deref
  | const1u | const1s | const2u | const2s | const4u | const4s | const8u | const8s
  | constu | consts
  | dup | drop | over | pick | swap | rot | xderef
  | abs | and | div | minus | mod | mul | neg | not | or | plus | plusUconst
  | shl | shr | shra | xor
  | bra | eq | ge | gt | le | lt | ne | skip
  | lit (n : BitVec 5) | reg (n : BitVec 5) | breg (n : BitVec 5)
  | regx | fbreg | bregx | piece | derefSize | xderefSize | nop
  | pushObjectAddress | call2 | call4 | callRef | formTlsAddress | callFrameCfa | bitPiece
  | stackValue | implicitPointer | addrx | constx
  | regvalType | derefType | xderefType | convert | reinterpret
  | gnuPushTlsAddress | gnuUninit | gnuImplicitPointer | gnuRegvalType | gnuDerefType
  | gnuConvert | gnuReinterpret | gnuParameterRef | gnuAddrIndex | gnuConstIndex
  | gnuVariableValue
  | other (b : Byte)
  deriving DecidableEq, Repr

/-- Opcode bytes outside the three numbered ranges. -/
def atomTable : List (Nat × Atom) :=
  [(0x03, .addr), (0x06, .deref),
   (0x08, .const1u), (0x09, .const1s), (0x0a, .const2u), (0x0b, .const2s),
   (0x0c, .const4u), (0x0d, .const4s), (0x0e, .const8u), (0x0f, .const8s),
   (0x10, .constu), (0x11, .consts), (0x12, .dup), (0x13, .drop), (0x14, .over),
   (0x15, .pick), (0x16, .swap), (0x17, .rot), (0x18, .xderef), (0x19, .abs),
   (0x1a, .and), (0x1b, .div), (0x1c, .minus), (0x1d, .mod), (0x1e, .mul), (0x1f, .neg),
   (0x20, .not), (0x21, .or), (0x22, .plus), (0x23, .plusUconst), (0x24, .shl),
   (0x25, .shr), (0x26, .shra), (0x27, .xor), (0x28, .bra), (0x29, .eq), (0x2a, .ge),
   (0x2b, .gt), (0x2c, .le), (0x2d, .lt), (0x2e, .ne), (0x2f, .skip),
   (0x90, .regx), (0x91, .fbreg), (0x92, .bregx), (0x93, .piece), (0x94, .derefSize),
   (0x95, .xderefSize), (0x96, .nop), (0x97, .pushObjectAddress), (0x98, .call2),
   (0x99, .call4), (0x9a, .callRef), (0x9b, .formTlsAddress), (0x9c, .callFrameCfa),
   (0x9d, .bitPiece), (0x9f, .stackValue), (0xa0, .implicitPointer), (0xa1, .addrx),
   (0xa2, .constx), (0xa5, .regvalType), (0xa6, .derefType), (0xa7, .xderefType),
   (0xa8, .convert), (0xa9, .reinterpret), (0xe0, .gnuPushTlsAddress), (0xf0, .gnuUninit),
   (0xf2, .gnuImplicitPointer), (0xf5, .gnuRegvalType), (0xf6, .gnuDerefType),
   (0xf7, .gnuConvert), (0xf9, .gnuReinterpret), (0xfa, .gnuParameterRef),
   (0xfb, .gnuAddrIndex), (0xfc, .gnuConstIndex), (0xfd, .gnuVariableValue)]

/-- The opcode a byte stands for. -/
def Atom.ofByte (b : Byte) : Atom :=
  if 0x30 ≤ b.toNat ∧ b.toNat ≤ 0x4f then .lit ((b - 0x30#8).setWidth 5)
  else if 0x50 ≤ b.toNat ∧ b.toNat ≤ 0x6f then .reg ((b - 0x50#8).setWidth 5)
  else if 0x70 ≤ b.toNat ∧ b.toNat ≤ 0x8f then .breg ((b - 0x70#8).setWidth 5)
  else (atomTable.lookup b.toNat).getD (.other b)

/-- `Dwarf_Op`. -/
structure DwarfOp where
  atom : Atom
  number : Word
  number2 : Word
  offset : Word
  deriving DecidableEq, Repr

/-- An operation given by its opcode alone. -/
def DwarfOp.bare (atom : Atom) : DwarfOp := ⟨atom, 0#64, 0#64, 0#64⟩

/-- `Dwarf_Block`: a pointer and a length. -/
structure Block where
  length : Word
  data : Word
  deriving DecidableEq, Repr

/-- First byte of the block. -/
def Block.start (b : Block) : Nat := b.data.toNat

/-- The byte behind the block. -/
def Block.fin (b : Block) : Nat := b.data.toNat + b.length.toNat

/-- Operand formats of the decoder's switch. -/
inductive OperandForm where
  | none
  /-- One unsigned byte. -/
  | byte
  /-- One signed byte. -/
  | sbyte
  /-- One value read by `decode_read_checked`. -/
  | one (type : Byte)
  | two (type type2 : Byte)
  /-- An unsigned byte, then an encoded value. -/
  | byteThen (type : Byte)
  deriving DecidableEq, Repr

/-- The operand format of an opcode; `none` is the default case, which rejects the block. -/
def operandForm : Atom → Option OperandForm
  | .addr | .callRef | .gnuVariableValue => some (.one dwEhPeUdata8)
  | .deref | .dup | .drop | .over | .swap | .rot | .xderef | .abs | .and | .div | .minus
  | .mod | .mul | .neg | .not | .or | .plus | .shl | .shr | .shra | .xor | .eq | .ge | .gt
  | .le | .lt | .ne | .lit _ | .reg _ | .nop | .pushObjectAddress | .callFrameCfa
  | .formTlsAddress | .gnuPushTlsAddress | .stackValue | .gnuUninit => some .none
  | .const1u | .pick | .derefSize | .xderefSize => some .byte
  | .const1s => some .sbyte
  | .const2u => some (.one dwEhPeUdata2)
  | .const2s | .skip | .bra | .call2 => some (.one dwEhPeSdata2)
  | .const4u => some (.one dwEhPeUdata4)
  | .const4s | .call4 | .gnuParameterRef => some (.one dwEhPeSdata4)
  | .const8u => some (.one dwEhPeUdata8)
  | .const8s => some (.one dwEhPeSdata8)
  | .constu | .plusUconst | .regx | .piece | .convert | .gnuConvert | .reinterpret
  | .gnuReinterpret | .addrx | .gnuAddrIndex | .constx | .gnuConstIndex =>
    some (.one dwEhPeUleb128)
  | .consts | .breg _ | .fbreg => some (.one dwEhPeSleb128)
  | .bregx => some (.two dwEhPeUleb128 dwEhPeSleb128)
  | .bitPiece | .regvalType | .gnuRegvalType => some (.two dwEhPeUleb128 dwEhPeUleb128)
  | .implicitPointer | .gnuImplicitPointer => some (.two dwEhPeUdata8 dwEhPeUdata8)
  | .derefType | .gnuDerefType | .xderefType => some (.byteThen dwEhPeUdata8)
  | .other _ => none

/-- Read the operands at `data`: `number`, `number2` and the pointer behind them. -/
def readOperands (mem : Mem) (data fin : Nat) : OperandForm → Option (Word × Word × Nat)
  | .none => some (0#64, 0#64, data)
  | .byte => if fin ≤ data then none else some ((mem data).setWidth 64, 0#64, data + 1)
  | .sbyte => if fin ≤ data then none else some ((mem data).signExtend 64, 0#64, data + 1)
  | .one type =>
    match decodeReadChecked mem data fin type with
    | none => none
    | some (number, data) => some (number, 0#64, data)
  | .two type type2 =>
    match decodeReadChecked mem data fin type with
    | none => none
    | some (number, data) =>
      match decodeReadChecked mem data fin type2 with
      | none => none
      | some (number2, data) => some (number, number2, data)
  | .byteThen type =>
    if fin ≤ data then none
    else
      match decodeReadChecked mem (data + 1) fin type with
      | none => none
      | some (number2, next) => some ((mem data).setWidth 64, number2, next)

/-- One turn of the decoder: the operation at `data` of a block starting at `base`. -/
def decodeOp (mem : Mem) (base fin data : Nat) : Option (DwarfOp × Nat) :=
  match operandForm (Atom.ofByte (mem data)) with
  | none => none
  | some form =>
    match readOperands mem (data + 1) fin form with
    | none => none
    | some (number, number2, next) =>
      some (⟨Atom.ofByte (mem data), number, number2, BitVec.ofNat 64 (data - base)⟩, next)

/-- The decoding loop with room for `n` more operations; it also returns where it stopped. -/
def decodeOps (mem : Mem) (base fin : Nat) : Nat → Nat → Option (List DwarfOp × Nat)
  | 0, data => some ([], data)
  | n + 1, data =>
    if data < fin then
      match decodeOp mem base fin data with
      | none => none
      | some (op, next) =>
        match decodeOps mem base fin n next with
        | none => none
        | some (ops, last) => some (op :: ops, last)
    else some ([], data)

/-- `DWARF_OPS_MAX`. -/
def dwarfOpsMax : Nat := 256

/-- `enum dwarf_frame_rule`. -/
inductive FrameRule where
  | unspecified
  | undefined
  | sameValue
  | offset
  | valOffset
  | register
  | expression
  | valExpression
  deriving DecidableEq, Repr

/-- The operation put in front of a register rule's block. -/
def opsPrologue (cfa : Bool) : List DwarfOp := if cfa then [] else [.bare .callFrameCfa]

/-- The operation put behind a `val_expression` block of `len` bytes. -/
def opsEpilogue (rule : FrameRule) (len : Nat) : List DwarfOp :=
  if rule = .valExpression then [⟨.stackValue, 0#64, 0#64, BitVec.ofNat 64 len⟩] else []

/-- `gu_cfi_init_ops_from_block`; `none` is its NULL. -/
def guCfiInitOpsFromBlock (mem : Mem) (block : Block) (rule : FrameRule) (cfa : Bool) :
    Option (List DwarfOp) :=
  if block.length = 0#64 then none
  else
    match decodeOps mem block.start block.fin (dwarfOpsMax - (opsPrologue cfa).length)
        block.start with
    | none => none
    | some (ops, last) =>
      if last < block.fin ∨ dwarfOpsMax ≤ (opsPrologue cfa).length + ops.length then none
      else some (opsPrologue cfa ++ ops ++ opsEpilogue rule (last - block.start))

/-! ## What decoding guarantees -/

variable {next data fin : Nat} {mem : Mem}

/-- Operands never move the pointer back, nor past the end of the block. -/
theorem readOperands_bounds {form : OperandForm} {number number2 : Word} (hd : data ≤ fin)
    (h : readOperands mem data fin form = some (number, number2, next)) :
    data ≤ next ∧ next ≤ fin := by
  cases form with
  | none =>
    simp only [readOperands, Option.some.injEq, Prod.mk.injEq] at h
    omega
  | byte | sbyte =>
    simp only [readOperands] at h
    split at h
    · simp at h
    · simp only [Option.some.injEq, Prod.mk.injEq] at h
      omega
  | one type =>
    simp only [readOperands] at h
    split at h
    · simp at h
    rename_i hr
    have := decodeReadChecked_bounds hr
    simp only [Option.some.injEq, Prod.mk.injEq] at h
    omega
  | two type type2 =>
    simp only [readOperands] at h
    split at h
    · simp at h
    rename_i hr
    have h1 := decodeReadChecked_bounds hr
    split at h
    · simp at h
    rename_i hr2
    have h2 := decodeReadChecked_bounds hr2
    simp only [Option.some.injEq, Prod.mk.injEq] at h
    omega
  | byteThen type =>
    simp only [readOperands] at h
    split at h
    · simp at h
    split at h
    · simp at h
    rename_i hr
    have := decodeReadChecked_bounds hr
    simp only [Option.some.injEq, Prod.mk.injEq] at h
    omega

variable {base : Nat}

/-- Each turn of the decoder consumes at least the opcode byte. -/
theorem decodeOp_bounds {op : DwarfOp} (hd : data < fin)
    (h : decodeOp mem base fin data = some (op, next)) : data < next ∧ next ≤ fin := by
  unfold decodeOp at h
  split at h
  · simp at h
  split at h
  · simp at h
  rename_i hr
  have := readOperands_bounds hd hr
  simp only [Option.some.injEq, Prod.mk.injEq] at h
  omega

/-- A decoded operation records its opcode and the byte offset it starts at. -/
theorem decodeOp_offset {op : DwarfOp} (h : decodeOp mem base fin data = some (op, next)) :
    op.atom = Atom.ofByte (mem data) ∧ op.offset = BitVec.ofNat 64 (data - base) := by
  unfold decodeOp at h
  split at h
  · simp at h
  split at h
  · simp at h
  · simp only [Option.some.injEq, Prod.mk.injEq] at h
    obtain ⟨rfl, -⟩ := h
    exact ⟨rfl, rfl⟩

/-- The operands of a decoded operation are read in the format of its opcode. -/
theorem decodeOp_operands {op : DwarfOp} (h : decodeOp mem base fin data = some (op, next)) :
    ∃ form, operandForm op.atom = some form ∧
      readOperands mem (data + 1) fin form = some (op.number, op.number2, next) := by
  unfold decodeOp at h
  split at h
  · cases h
  rename_i form hform
  split at h
  · cases h
  · rename_i number number2 last hargs
    cases h
    exact ⟨form, hform, hargs⟩

/-- Decoding ends inside the block. -/
theorem decodeOps_bounds {n last : Nat} {ops : List DwarfOp} (hd : data ≤ fin)
    (h : decodeOps mem base fin n data = some (ops, last)) : data ≤ last ∧ last ≤ fin := by
  induction n generalizing data ops with
  | zero =>
    simp only [decodeOps, Option.some.injEq, Prod.mk.injEq] at h
    omega
  | succ n ih =>
    simp only [decodeOps] at h
    split at h
    · rename_i hlt
      split at h
      · simp at h
      rename_i hop
      have h1 := decodeOp_bounds hlt hop
      split at h
      · simp at h
      rename_i hrest
      simp only [Option.some.injEq, Prod.mk.injEq] at h
      obtain ⟨-, rfl⟩ := h
      have h2 := ih h1.2 hrest
      omega
    · simp only [Option.some.injEq, Prod.mk.injEq] at h
      omega

/-! ## Decoding reads the block only -/

private theorem readOperands_congr {m m' : Mem} (h : AgreeOn data fin m m') (form : OperandForm) :
    readOperands m data fin form = readOperands m' data fin form := by
  cases form with
  | none => rfl
  | byte | sbyte =>
    simp only [readOperands]
    split
    · rfl
    · rw [h data le_rfl (by omega)]
  | one type => simp only [readOperands, decodeReadChecked_congr h]
  | two type type2 =>
    simp only [readOperands, decodeReadChecked_congr h]
    split
    · rfl
    · rename_i hr
      rw [decodeReadChecked_congr (h.mono (decodeReadChecked_bounds hr).1.le le_rfl)]
  | byteThen type =>
    simp only [readOperands]
    split
    · rfl
    · rw [h data le_rfl (by omega), decodeReadChecked_congr (h.mono (Nat.le_succ data) le_rfl)]

private theorem decodeOp_congr {m m' : Mem} (h : AgreeOn data fin m m') (hd : data < fin) :
    decodeOp m base fin data = decodeOp m' base fin data := by
  simp only [decodeOp, h data le_rfl hd, readOperands_congr (h.mono (Nat.le_succ data) le_rfl)]

private theorem decodeOps_congr {m m' : Mem} (n data : Nat) (h : AgreeOn data fin m m') :
    decodeOps m base fin n data = decodeOps m' base fin n data := by
  induction n generalizing data with
  | zero => rfl
  | succ n ih =>
    simp only [decodeOps]
    by_cases hlt : data < fin
    · simp only [hlt, ite_true, decodeOp_congr h hlt]
      cases hop : decodeOp m' base fin data with
      | none => rfl
      | some p =>
        obtain ⟨op, next⟩ := p
        have hb := decodeOp_bounds hlt hop
        simp only [ih next (h.mono hb.1.le le_rfl)]
    · simp only [hlt, ite_false]

/-- Decoding an expression block reads no byte outside the block. -/
theorem guCfiInitOpsFromBlock_congr {m m' : Mem} {block : Block}
    (h : AgreeOn block.start block.fin m m') (rule : FrameRule) (cfa : Bool) :
    guCfiInitOpsFromBlock m block rule cfa = guCfiInitOpsFromBlock m' block rule cfa := by
  simp only [guCfiInitOpsFromBlock, decodeOps_congr _ _ h]

end Gunwinder
