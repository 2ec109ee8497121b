import Gunwinder.Core.Leb128
import Gunwinder.Native.Pointer

/-!
# LEB128 operands

`decode_uleb128` and `decode_sleb128` against the encoders of the library's own stress
test, byte by byte. The unsigned decoder shifts a promoted byte, which holds 31 bits of value,
and the signed one extends the sign by a shift that a ten-byte sequence drives past the word.
-/

namespace Gunwinder

open Gunwinder.Core

/-! ## The encoders -/

variable (value : Word)

private theorem toNat_low7 : ((value &&& 0x7f#64).setWidth 8).toNat = value.toNat % 128 := by
  rw [BitVec.toNat_setWidth, BitVec.toNat_and]
  have hmask : (0x7f#64).toNat = 2 ^ 7 - 1 := rfl
  rw [hmask, Nat.and_two_pow_sub_one_eq_mod]
  omega

private theorem toNat_shr7 : (value >>> 7).toNat = value.toNat / 128 := by
  rw [BitVec.toNat_ushiftRight, Nat.shiftRight_eq_div_pow]

private theorem toInt_sar7 : (value.sshiftRight 7).toInt = value.toInt / 128 := by
  rw [BitVec.toInt_sshiftRight, Int.shiftRight_eq_div_pow]
  rfl

variable {b : Byte}

/-- A byte with its continuation bit set. -/
theorem or_continuation {n : Nat} (h : b.toNat = n % 128) :
    b ||| 0x80#8 = BitVec.ofNat 8 (n % 128 + 128) := by
  have hlt : n % 128 < 2 ^ 7 := Nat.mod_lt _ (by decide)
  have hor := Nat.two_pow_add_eq_or_of_lt hlt 1
  apply BitVec.eq_of_toNat_eq
  calc (b ||| 0x80#8).toNat = 2 ^ 7 * 1 ||| n % 128 := by
        rw [BitVec.toNat_or, h, Nat.or_comm]
        rfl
    _ = (BitVec.ofNat 8 (n % 128 + 128)).toNat := by
        rw [← hor, BitVec.toNat_ofNat]
        omega

/-- `emit_uleb`. -/
def emitUleb (value : Word) : List Byte :=
  let byte := (value &&& 0x7f#64).setWidth 8
  if value >>> 7 ≠ 0#64 then (byte ||| 0x80#8) :: emitUleb (value >>> 7) else [byte]
termination_by value.toNat
decreasing_by
  rename_i hne
  have hne : (value >>> 7).toNat ≠ 0 := fun h => hne (BitVec.eq_of_toNat_eq h)
  rw [toNat_shr7] at hne ⊢
  omega

private theorem emitUleb_eq : emitUleb value = uleb value.toNat := by
  fun_induction emitUleb value with
  | case1 value byte hne ih =>
    have hne : (value >>> 7).toNat ≠ 0 := fun h => hne (BitVec.eq_of_toNat_eq h)
    rw [toNat_shr7] at hne
    rw [uleb_large (by omega), ih, toNat_shr7, or_continuation (toNat_low7 value)]
  | case2 value byte heq =>
    have heq : (value >>> 7).toNat = 0 := by
      rw [not_not.mp heq]
      rfl
    rw [toNat_shr7] at heq
    rw [uleb_small (by omega)]
    congr 1
    apply BitVec.eq_of_toNat_eq
    rw [toNat_low7, BitVec.toNat_ofNat]
    omega

/-- `emit_sleb`, on the bits of its signed argument. -/
def emitSleb (value : Word) : List Byte :=
  let byte := (value &&& 0x7f#64).setWidth 8
  let sign := byte &&& 0x40#8 ≠ 0#8
  let rest := value.sshiftRight 7
  if (rest = 0#64 ∧ ¬sign) ∨ (rest = -1#64 ∧ sign) then [byte]
  else (byte ||| 0x80#8) :: emitSleb rest
termination_by value.toInt.natAbs
decreasing_by
  rename_i hmore
  have hzero : value ≠ 0#64 := by
    rintro rfl
    exact hmore (by decide)
  have hones : value ≠ -1#64 := by
    rintro rfl
    exact hmore (by decide)
  have hzero : value.toInt ≠ 0 := fun h => hzero (BitVec.eq_of_toInt_eq h)
  have hones : value.toInt ≠ -1 := fun h => hones (BitVec.eq_of_toInt_eq h)
  rw [toInt_sar7]
  omega

private theorem emod_toInt : (value.toInt % 128).toNat = value.toNat % 128 := by
  rw [BitVec.toInt_eq_toNat_cond]
  have hlt := value.isLt
  split <;> omega

/-- The sign bit of a group. -/
theorem and_sign_eq_zero (h : b.toNat < 128) : b &&& 0x40#8 = 0#8 ↔ b.toNat < 64 := by
  revert b
  decide +kernel

/-- The test that ends `emit_sleb`. -/
theorem emitSleb_last :
    ((value.sshiftRight 7 = 0#64 ∧ ¬(value &&& 0x7f#64).setWidth 8 &&& 0x40#8 ≠ 0#8) ∨
      (value.sshiftRight 7 = -1#64 ∧ (value &&& 0x7f#64).setWidth 8 &&& 0x40#8 ≠ 0#8)) ↔
      -64 ≤ value.toInt ∧ value.toInt < 64 := by
  have hzero : value.sshiftRight 7 = 0#64 ↔ value.toInt / 128 = 0 := by
    rw [← BitVec.toInt_inj, toInt_sar7]
    rfl
  have hones : value.sshiftRight 7 = -1#64 ↔ value.toInt / 128 = -1 := by
    rw [← BitVec.toInt_inj, toInt_sar7]
    rfl
  have hlow := toNat_low7 value
  have hsign : (value &&& 0x7f#64).setWidth 8 &&& 0x40#8 = 0#8 ↔
      (value.toInt % 128).toNat < 64 := by rw [and_sign_eq_zero (by omega), hlow, emod_toInt]
  rw [hzero, hones, ne_eq, hsign]
  omega

private theorem emitSleb_eq : emitSleb value = sleb value.toInt := by
  fun_induction emitSleb value with
  | case1 value byte sign rest hlast =>
    rw [sleb_small ((emitSleb_last value).mp hlast), emod_toInt]
    congr 1
    apply BitVec.eq_of_toNat_eq
    rw [toNat_low7, BitVec.toNat_ofNat]
    omega
  | case2 value byte sign rest hmore ih =>
    have hmore : ¬(-64 ≤ value.toInt ∧ value.toInt < 64) :=
      fun h => hmore ((emitSleb_last value).mpr h)
    rw [sleb_large hmore, ih, toInt_sar7, emod_toInt, or_continuation (toNat_low7 value)]

/-! ## What the decoders make of a sequence -/

/-- The bytes stand in memory from an address on. -/
def Holds (mem : Mem) (buf : Nat) (bytes : List Byte) : Prop :=
  ∀ i b, bytes[i]? = some b → mem (buf + i) = b

variable {bytes : List Byte} {mem : Mem} {buf : Nat}

private theorem Holds.head (h : Holds mem buf (b :: bytes)) : mem buf = b :=
  h 0 b rfl

private theorem Holds.tail (h : Holds mem buf (b :: bytes)) : Holds mem (buf + 1) bytes := by
  intro i c hc
  rw [Nat.add_assoc, Nat.add_comm 1 i]
  exact h (i + 1) c hc

private theorem and_continuation_eq_zero : b &&& 0x80#8 = 0#8 ↔ b.toNat < 128 := by
  revert b
  decide +kernel

/-- What the bytes of a sequence add to a result, each put in its place by the decoder. -/
def orGroups (place : Byte → Nat → Word) : List Byte → Nat → Word → Word
  | [], _, result => result
  | b :: bytes, shift, result => orGroups place bytes (shift + 7) (result ||| place b shift)

private theorem decodeUlebLoop_sequence (h : LebSequence bytes) {n count : Nat}
    (hmem : Holds mem (buf + count) bytes) (hn : bytes.length ≤ n) (shift : Nat) (result : Word) :
    decodeUlebLoop mem buf n count shift result =
      (orGroups shlInt bytes shift result, count + bytes.length) := by
  induction h generalizing n count shift result with
  | @last b h =>
    cases n with
    | zero => simp at hn
    | succ n =>
      simp only [decodeUlebLoop, hmem.head, and_continuation_eq_zero.mpr h, if_true, orGroups,
        List.length_singleton]
  | @more b bytes h rest ih =>
    cases n with
    | zero => simp at hn
    | succ n =>
      have hcont : ¬b &&& 0x80#8 = 0#8 := fun hz => by
        have := and_continuation_eq_zero.mp hz
        omega
      simp only [decodeUlebLoop, hmem.head, hcont, if_false, orGroups]
      rw [ih hmem.tail (by simpa using hn), List.length_cons]
      congr 1
      omega

/-- The placed byte of `decode_sleb128`. -/
def shlWord (b : Byte) (shift : Nat) : Word := (b &&& 0x7f#8).setWidth 64 <<< (shift % 64)

private theorem decodeSlebLoop_sequence (h : LebSequence bytes) {n count : Nat}
    (hmem : Holds mem (buf + count) bytes) (hn : bytes.length ≤ n) (shift : Nat) (result : Word)
    (byte : Byte) :
    ∃ final, bytes.getLast? = some final ∧
      decodeSlebLoop mem buf n count shift result byte =
        (orGroups shlWord bytes shift result, count + bytes.length,
          shift + 7 * (bytes.length - 1), final) := by
  induction h generalizing n count shift result byte with
  | @last b h =>
    cases n with
    | zero => simp at hn
    | succ n =>
      refine ⟨b, rfl, ?_⟩
      simp only [decodeSlebLoop, hmem.head, and_continuation_eq_zero.mpr h, if_true, orGroups,
        shlWord, List.length_singleton, Nat.sub_self, Nat.mul_zero, Nat.add_zero]
  | @more b bytes h rest ih =>
    cases n with
    | zero => simp at hn
    | succ n =>
      have hcont : ¬b &&& 0x80#8 = 0#8 := fun hz => by
        have := and_continuation_eq_zero.mp hz
        omega
      have hpos := rest.length_pos
      have htail : Holds mem (buf + (count + 1)) bytes := hmem.tail
      obtain ⟨final, hfinal, hloop⟩ := ih htail (n := n) (by simpa using hn) (shift + 7)
        (result ||| shlWord b shift) b
      refine ⟨final, ?_, ?_⟩
      · rw [List.getLast?_cons, hfinal]
        rfl
      · simp only [decodeSlebLoop, hmem.head, hcont, if_false, orGroups, List.length_cons]
        rw [shlWord] at hloop
        rw [hloop]
        congr 2
        · omega
        · congr 1
          omega

/-- A sequence is accepted when it is no longer than the decoder's limit. -/
theorem lebEnds_sequence (h : LebSequence bytes) {fin : Nat} (hmem : Holds mem buf bytes)
    (hfin : buf + bytes.length ≤ fin) (maxLen : Nat) :
    lebEnds mem buf fin maxLen = true ↔ bytes.length ≤ maxLen := by
  obtain ⟨hinit, last, hlast, hlt⟩ := h.ends
  have hpos := h.length_pos
  rw [lebEnds_iff]
  constructor
  · rintro ⟨i, hi, -, hzero⟩
    by_contra hlong
    obtain ⟨b, hb, hmore⟩ := hinit i (by omega)
    rw [hmem i b hb, and_continuation_eq_zero] at hzero
    omega
  · intro hle
    refine ⟨bytes.length - 1, by omega, by omega, ?_⟩
    rw [hmem _ last hlast]
    exact and_continuation_eq_zero.mpr hlt

/-- A byte lands in its place: its group is shifted and cut to the word. -/
def Placed (place : Byte → Nat → Word) (b : Byte) (shift : Nat) : Prop :=
  shift < 64 ∧ (place b shift).toNat = group b * 2 ^ shift % 2 ^ 64

variable {result : Word} {shift : Nat}

/-- A group that lands in its place is added to the lower ones. -/
theorem toNat_or_placed {place : Byte → Nat → Word} (hplace : Placed place b shift)
    (hresult : result.toNat < 2 ^ shift) :
    (result ||| place b shift).toNat = result.toNat + group b * 2 ^ shift % 2 ^ 64 := by
  obtain ⟨hshift, hplace⟩ := hplace
  have hsplit : 2 ^ 64 = 2 ^ shift * 2 ^ (64 - shift) := by
    rw [← Nat.pow_add]
    congr 1
    omega
  have hmul : group b * 2 ^ shift % 2 ^ 64 = 2 ^ shift * (group b % 2 ^ (64 - shift)) := by
    rw [Nat.mul_comm, hsplit, Nat.mul_mod_mul_left]
  rw [BitVec.toNat_or, hplace, hmul, Nat.or_comm, ← Nat.two_pow_add_eq_or_of_lt hresult,
    Nat.add_comm]

/-- Bytes that all land in their places add up to the number of the sequence. -/
theorem toNat_orGroups {place : Byte → Nat → Word}
    (hplace : ∀ i b, bytes[i]? = some b → Placed place b (shift + 7 * i))
    (hresult : result.toNat < 2 ^ shift) :
    (orGroups place bytes shift result).toNat =
      (result.toNat + 2 ^ shift * lebValue bytes) % 2 ^ 64 := by
  induction bytes generalizing shift result with
  | nil =>
    rw [orGroups, lebValue, Nat.mul_zero, Nat.add_zero]
    exact (Nat.mod_eq_of_lt result.isLt).symm
  | cons b bytes ih =>
    have hor := toNat_or_placed (hplace 0 b rfl) hresult
    rw [Nat.mul_zero, Nat.add_zero] at hor
    have hgroup : group b < 128 := Nat.mod_lt _ (by decide)
    have hnext : (result ||| place b shift).toNat < 2 ^ (shift + 7) := by
      have hle : group b * 2 ^ shift % 2 ^ 64 ≤ 127 * 2 ^ shift :=
        (Nat.mod_le _ _).trans (Nat.mul_le_mul_right _ (by omega))
      rw [hor, Nat.pow_add]
      omega
    have hrest : ∀ i c, bytes[i]? = some c → Placed place c (shift + 7 + 7 * i) := by
      intro i c hc
      have := hplace (i + 1) c hc
      rwa [show shift + 7 * (i + 1) = shift + 7 + 7 * i by omega] at this
    rw [orGroups, ih hrest hnext, hor, lebValue]
    calc (result.toNat + group b * 2 ^ shift % 2 ^ 64 + 2 ^ (shift + 7) * lebValue bytes) % 2 ^ 64
        = (group b * 2 ^ shift % 2 ^ 64 + (result.toNat + 2 ^ (shift + 7) * lebValue bytes)) %
            2 ^ 64 := by
          congr 1
          omega
      _ = (group b * 2 ^ shift + (result.toNat + 2 ^ (shift + 7) * lebValue bytes)) % 2 ^ 64 :=
          Nat.mod_add_mod _ _ _
      _ = (result.toNat + 2 ^ shift * (group b + 128 * lebValue bytes)) % 2 ^ 64 := by
          rw [Nat.pow_add]
          congr 1
          ring

/-! ## Unsigned operands -/

private theorem toNat_and_group (b : Byte) : (b &&& 0x7f#8).toNat = group b := by
  revert b
  decide +kernel

/-- A promoted byte lands in its place while the value keeps below the sign bit of `int`. -/
theorem placed_shlInt (hshift : shift < 32) (h : group b * 2 ^ shift < 2 ^ 31) :
    Placed shlInt b shift := by
  refine ⟨by omega, ?_⟩
  have hint : (((b &&& 0x7f#8).setWidth 32) <<< (shift % 32)).toNat = group b * 2 ^ shift := by
    have hgroup : group b < 128 := Nat.mod_lt _ (by decide)
    rw [BitVec.toNat_shiftLeft, BitVec.toNat_setWidth, toNat_and_group, Nat.mod_eq_of_lt hshift,
      Nat.shiftLeft_eq, Nat.mod_eq_of_lt (by omega : group b < 2 ^ 32), Nat.mod_eq_of_lt (by omega)]
  have hmsb : (((b &&& 0x7f#8).setWidth 32) <<< (shift % 32)).msb = false := by
    rw [BitVec.msb_eq_decide, hint]
    exact decide_eq_false (by omega)
  rw [shlInt, BitVec.toNat_signExtend, hmsb, BitVec.toNat_setWidth, hint]
  simp

/-- Whatever a shifted `int` holds, it is widened with its sign. -/
theorem orGroups_shlInt (bytes : List Byte) (shift : Nat) (x : BitVec 32) :
    ∃ y : BitVec 32, orGroups shlInt bytes shift (x.signExtend 64) = y.signExtend 64 := by
  induction bytes generalizing shift x with
  | nil => exact ⟨x, rfl⟩
  | cons b bytes ih =>
    rw [orGroups, shlInt, ← BitVec.signExtend_or]
    exact ih (shift + 7) _

/-- A sequence is read as its bytes place it, up to the limit of eight. -/
theorem decodeReadChecked_uleb {fin : Nat} (h : LebSequence bytes) (hbuf : buf ≠ 0)
    (hmem : Holds mem buf bytes) (hfin : buf + bytes.length ≤ fin) :
    decodeReadChecked mem buf fin dwEhPeUleb128 =
      if bytes.length ≤ 8 then some (orGroups shlInt bytes 0 0#64, buf + bytes.length)
      else none := by
  have hformat : ptrFormat dwEhPeUleb128 = some .uleb128 := rfl
  have hfits : decodeReadFits mem buf fin .uleb128 = decide (bytes.length ≤ 8) := by
    rw [decodeReadFits, if_neg (by omega)]
    exact Bool.eq_iff_iff.mpr ((lebEnds_sequence h hmem hfin 8).trans decide_eq_true_iff.symm)
  simp only [decodeReadChecked, hformat, hfits, decide_eq_true_eq]
  split
  · rename_i hle
    have hread : decodeRead mem buf .uleb128 =
        (orGroups shlInt bytes 0 0#64, buf + bytes.length) := by
      rw [decodeRead, decodeUleb128, decodeUlebLoop_sequence h hmem hle, Nat.zero_add]
    rw [hread]
    exact if_neg (Nat.not_lt.mpr hfin)
  · rfl

/-- An unsigned operand is read back exactly when it fits the 31 value bits of `int`. -/
theorem decodeReadChecked_emitUleb_iff (mem : Mem) (buf fin : Nat) (v : Word) (hbuf : buf ≠ 0)
    (hmem : Holds mem buf (emitUleb v)) (hfin : buf + (emitUleb v).length ≤ fin) :
    decodeReadChecked mem buf fin dwEhPeUleb128 = some (v, buf + (emitUleb v).length) ↔
      v.toNat < 2 ^ 31 := by
  rw [emitUleb_eq] at hmem hfin ⊢
  have hvalue := lebValue_uleb v.toNat
  rw [decodeReadChecked_uleb (lebSequence_uleb _) hbuf hmem hfin]
  constructor
  · intro h
    split at h
    · rename_i hlength
      have hlt : v.toNat < 2 ^ 56 := length_uleb_le (k := 7).mp hlength
      obtain ⟨y, hy⟩ := orGroups_shlInt (uleb v.toNat) 0 0#32
      have hv : v = y.signExtend 64 := by
        rw [← hy]
        exact ((Prod.mk.inj (Option.some.inj h)).1).symm
      -- a widened `int` is below the sign bit or at the top of the word
      rw [hv, BitVec.toNat_signExtend] at hlt ⊢
      have hmsb := BitVec.msb_eq_decide y
      have hy32 := y.isLt
      cases hneg : y.msb with
      | false =>
        rw [hneg] at hmsb
        simp at hmsb ⊢
        omega
      | true =>
        rw [hneg] at hlt
        simp at hlt
        omega
    · cases h
  · intro hlt
    have hlength : (uleb v.toNat).length ≤ 5 :=
      (length_uleb_le (k := 4)).mpr (hlt.trans (by decide))
    have hplaced : ∀ i b, (uleb v.toNat)[i]? = some b → Placed shlInt b (0 + 7 * i) := by
      intro i b hb
      obtain ⟨hi, -⟩ := List.getElem?_eq_some_iff.mp hb
      have hgroup := group_mul_le_lebValue hb
      rw [Nat.zero_add]
      exact placed_shlInt (by omega) (by omega)
    have hnat : (orGroups shlInt (uleb v.toNat) 0 0#64).toNat =
        ((0#64).toNat + 2 ^ 0 * lebValue (uleb v.toNat)) % 2 ^ 64 :=
      toNat_orGroups hplaced (by decide)
    rw [if_pos (by omega)]
    congr 2
    apply BitVec.eq_of_toNat_eq
    rw [hnat, hvalue]
    simpa using v.isLt

/-- A memory with the given bytes at `0x1000`. -/
def memAt (bytes : List Byte) : Mem := fun a => bytes.getD (a - 0x1000) 0#8

private theorem holds_memAt (bytes rest : List Byte) :
    Holds (memAt (bytes ++ rest)) 0x1000 bytes := by
  intro i b hb
  obtain ⟨hi, hget⟩ := List.getElem?_eq_some_iff.mp hb
  rw [memAt, Nat.add_sub_cancel_left, List.getD_eq_getElem?_getD, List.getElem?_append_left hi, hb]
  rfl

/-- 300 in two bytes. -/
theorem decodeReadChecked_emitUleb_iff_300 :
    decodeReadChecked (memAt [0xac#8, 0x02#8, 0xff#8]) 0x1000 0x1003 dwEhPeUleb128 =
      some (300#64, 0x1002) := by
  have hbytes : emitUleb 300#64 = [0xac#8, 0x02#8] := by
    rw [emitUleb_eq]
    simp [uleb]
  have hiff := decodeReadChecked_emitUleb_iff (memAt [0xac#8, 0x02#8, 0xff#8]) 0x1000 0x1003 300#64
    (by decide) (by rw [hbytes]; exact holds_memAt [0xac#8, 0x02#8] [0xff#8])
    (by rw [hbytes]; decide)
  rw [hbytes] at hiff
  exact hiff.mpr (by decide)

/-- The value `2 ^ 31` comes back with all its upper bits set. -/
theorem decodeReadChecked_sign_extends :
    emitUleb 0x80000000#64 = [0x80#8, 0x80#8, 0x80#8, 0x80#8, 0x08#8] ∧
    decodeReadChecked (memAt [0x80#8, 0x80#8, 0x80#8, 0x80#8, 0x08#8]) 0x1000 0x1005
      dwEhPeUleb128 = some (0xffffffff80000000#64, 0x1005) := by
  refine ⟨?_, by decide +kernel⟩
  rw [emitUleb_eq]
  simp [uleb]

/-! ## Signed operands -/

private theorem placed_shlWord (hshift : shift < 64) : Placed shlWord b shift := by
  refine ⟨hshift, ?_⟩
  have hgroup : group b < 128 := Nat.mod_lt _ (by decide)
  rw [shlWord, BitVec.toNat_shiftLeft, BitVec.toNat_setWidth, toNat_and_group,
    Nat.mod_eq_of_lt hshift, Nat.mod_eq_of_lt (by omega : group b < 2 ^ 64), Nat.shiftLeft_eq]

/-- The shift amounts of a run of `decode_sleb128`: one a byte, and that of the sign. -/
def slebShifts (mem : Mem) (buffer : Nat) : List Nat :=
  match decodeSlebLoop mem buffer 10 0 0 0#64 0#8 with
  | (_, count, shift, byte) =>
    (List.range count).map (7 * ·) ++ if byte &&& 0x40#8 = 0#8 then [] else [shift + 7]

/-- The sign extension of `decode_sleb128`. -/
def extendSign (result : Word) (shift : Nat) (byte : Byte) : Word :=
  if byte &&& 0x40#8 = 0#8 then result else result ||| ((~~~0#64) <<< ((shift + 7) % 64))

variable {final : Byte}

/-- A sequence of at most ten bytes is read as its bytes place it, with the sign of the last. -/
theorem decodeReadChecked_sleb {fin : Nat} (h : LebSequence bytes)
    (hfinal : bytes.getLast? = some final) (hlength : bytes.length ≤ 10) (hbuf : buf ≠ 0)
    (hmem : Holds mem buf bytes) (hfin : buf + bytes.length ≤ fin) :
    decodeReadChecked mem buf fin dwEhPeSleb128 =
      some (extendSign (orGroups shlWord bytes 0 0#64) (7 * (bytes.length - 1)) final,
        buf + bytes.length) ∧
    slebShifts mem buf = (List.range bytes.length).map (7 * ·) ++
      if final &&& 0x40#8 = 0#8 then [] else [7 * (bytes.length - 1) + 7] := by
  have hstart : Holds mem (buf + 0) bytes := hmem
  obtain ⟨final', hfinal', hloop⟩ := decodeSlebLoop_sequence h hstart hlength 0 0#64 0#8
  cases hfinal.symm.trans hfinal'
  rw [Nat.zero_add, Nat.zero_add] at hloop
  have hformat : ptrFormat dwEhPeSleb128 = some .sleb128 := rfl
  have hfits : decodeReadFits mem buf fin .sleb128 = true := by
    rw [decodeReadFits, if_neg (by omega)]
    exact (lebEnds_sequence h hmem hfin 10).mpr hlength
  have hread : decodeRead mem buf .sleb128 =
      (extendSign (orGroups shlWord bytes 0 0#64) (7 * (bytes.length - 1)) final,
        buf + bytes.length) := by
    simp only [decodeRead, decodeSleb128, hloop, extendSign]
    split <;> rfl
  constructor
  · simp only [decodeReadChecked, hformat, hfits, if_true, hread]
    exact if_neg (Nat.not_lt.mpr hfin)
  · simp only [slebShifts, hloop]

/-- Ones from a place on are added to what lies below. -/
theorem toNat_or_ones {k : Nat} (hk : k < 64) (h : result.toNat < 2 ^ k) :
    (result ||| ((~~~0#64) <<< k)).toNat = result.toNat + (2 ^ 64 - 2 ^ k) := by
  have hsplit : 2 ^ 64 = 2 ^ k * 2 ^ (64 - k) := by
    rw [← Nat.pow_add]
    congr 1
    omega
  have hpos : 0 < 2 ^ (64 - k) := Nat.two_pow_pos _
  have hones : ((~~~0#64) <<< k).toNat = 2 ^ k * (2 ^ (64 - k) - 1) := by
    rw [BitVec.toNat_shiftLeft, Nat.shiftLeft_eq]
    have hall : (~~~0#64).toNat = 2 ^ 64 - 1 := rfl
    rw [hall, Nat.mul_comm, hsplit, Nat.mul_mod_mul_left, ← hsplit]
    have hlow : 2 ^ 64 - 1 = 2 ^ (64 - k) - 1 + 2 ^ (64 - k) * (2 ^ k - 1) := by
      have := Nat.two_pow_pos k
      rw [hsplit, Nat.mul_sub, Nat.mul_one, Nat.mul_comm]
      have hle : 2 ^ (64 - k) ≤ 2 ^ (64 - k) * 2 ^ k := Nat.le_mul_of_pos_right _ this
      omega
    rw [hlow, Nat.add_mul_mod_self_left, Nat.mod_eq_of_lt (by omega)]
  rw [BitVec.toNat_or, hones, Nat.or_comm, ← Nat.two_pow_add_eq_or_of_lt h, Nat.mul_sub,
    Nat.mul_one, ← hsplit, Nat.add_comm]

section SignedWord

variable (v : Word)

/-- Ten bytes hold every word. -/
theorem length_sleb_toInt_le : (sleb v.toInt).length ≤ 10 := by
  have hlo := v.le_toInt
  have hhi := v.toInt_lt
  exact (length_sleb_le (k := 9)).mpr (by omega)

/-- The sign bit of the last byte. -/
theorem sleb_toInt_sign (hfinal : (sleb v.toInt).getLast? = some final) :
    final &&& 0x40#8 = 0#8 ↔ 0 ≤ v.toInt := by
  have hsign := sleb_sign v.toInt hfinal
  rw [and_sign_eq_zero ((lebSequence_sleb v.toInt).getLast_lt hfinal)]
  omega

/-- What the bytes of a word add up to before its sign is extended. -/
theorem toNat_orGroups_sleb :
    (orGroups shlWord (sleb v.toInt) 0 0#64).toNat = lebValue (sleb v.toInt) % 2 ^ 64 := by
  have hbits : (orGroups shlWord (sleb v.toInt) 0 0#64).toNat =
      ((0#64).toNat + 2 ^ 0 * lebValue (sleb v.toInt)) % 2 ^ 64 := by
    refine toNat_orGroups (fun i b hb => ?_) (by decide)
    obtain ⟨hi, -⟩ := List.getElem?_eq_some_iff.mp hb
    have hten := length_sleb_toInt_le v
    exact placed_shlWord (by omega)
  simpa using hbits

variable {v}

private theorem extendSign_nonneg (h : 0 ≤ v.toInt) (hfinal : (sleb v.toInt).getLast? = some final)
    (shift : Nat) : extendSign (orGroups shlWord (sleb v.toInt) 0 0#64) shift final = v := by
  have hvalue := lebValue_sleb_nonneg h
  have hword := BitVec.toInt_eq_toNat_cond v
  have hlt := v.isLt
  rw [extendSign, if_pos ((sleb_toInt_sign v hfinal).mpr h)]
  apply BitVec.eq_of_toNat_eq
  rw [toNat_orGroups_sleb]
  split at hword <;> omega

/-- Nine bytes leave the shift of the sign inside the word. -/
theorem extendSign_neg (h : v.toInt < 0) (hnine : (sleb v.toInt).length ≤ 9)
    (hfinal : (sleb v.toInt).getLast? = some final) :
    extendSign (orGroups shlWord (sleb v.toInt) 0 0#64) (7 * ((sleb v.toInt).length - 1)) final =
      v := by
  have hpos := (lebSequence_sleb v.toInt).length_pos
  have hvalue := lebValue_sleb_neg h
  have hlt := lebValue_lt (sleb v.toInt)
  have hpow : 2 ^ (7 * (sleb v.toInt).length) ≤ 2 ^ 63 :=
    Nat.pow_le_pow_right (by decide) (by omega)
  have hcast : ((2 ^ (7 * (sleb v.toInt).length) : Nat) : Int) =
      2 ^ (7 * (sleb v.toInt).length) := by
    push_cast
    rfl
  have hbits : (orGroups shlWord (sleb v.toInt) 0 0#64).toNat = lebValue (sleb v.toInt) := by
    rw [toNat_orGroups_sleb, Nat.mod_eq_of_lt (by omega)]
  have hshift : (7 * ((sleb v.toInt).length - 1) + 7) % 64 = 7 * (sleb v.toInt).length := by omega
  have hsign : ¬final &&& 0x40#8 = 0#8 := fun hzero => by
    have := (sleb_toInt_sign v hfinal).mp hzero
    omega
  rw [extendSign, if_neg hsign, hshift]
  apply BitVec.eq_of_toNat_eq
  rw [toNat_or_ones (by omega) (hbits ▸ hlt), hbits]
  have hword := BitVec.toInt_eq_toNat_cond v
  have := v.isLt
  split at hword <;> omega

end SignedWord

/-- A signed operand is read back, by shifts inside the word, exactly when nine bytes hold it or
it is not negative. -/
theorem decodeReadChecked_emitSleb_iff (mem : Mem) (buf fin : Nat) (v : Word) (hbuf : buf ≠ 0)
    (hmem : Holds mem buf (emitSleb v)) (hfin : buf + (emitSleb v).length ≤ fin) :
    (decodeReadChecked mem buf fin dwEhPeSleb128 = some (v, buf + (emitSleb v).length) ∧
      ∀ shift ∈ slebShifts mem buf, shift < 64) ↔ -2 ^ 62 ≤ v.toInt := by
  rw [emitSleb_eq] at hmem hfin ⊢
  have hsequence := lebSequence_sleb v.toInt
  have hpos := hsequence.length_pos
  have hten := length_sleb_toInt_le v
  have hnine : (sleb v.toInt).length ≤ 9 ↔ -2 ^ 62 ≤ v.toInt ∧ v.toInt < 2 ^ 62 :=
    length_sleb_le (k := 8)
  obtain ⟨final, hfinal⟩ : ∃ final, (sleb v.toInt).getLast? = some final :=
    ⟨_, List.getLast?_eq_some_getLast (List.ne_nil_of_length_pos hpos)⟩
  have hsign := sleb_toInt_sign v hfinal
  obtain ⟨hread, hshifts⟩ := decodeReadChecked_sleb hsequence hfinal hten hbuf hmem hfin
  rw [hread, hshifts]
  constructor
  · rintro ⟨-, hsmall⟩
    by_contra hlow
    have hneg : ¬final &&& 0x40#8 = 0#8 := fun h => by
      have := hsign.mp h
      omega
    have hshift := hsmall (7 * ((sleb v.toInt).length - 1) + 7) (by simp [hneg])
    omega
  · intro hlow
    have hbytes : ∀ shift ∈ (List.range (sleb v.toInt).length).map (7 * ·), shift < 64 := by
      intro shift hshift
      obtain ⟨i, hi, rfl⟩ := List.mem_map.mp hshift
      have := List.mem_range.mp hi
      omega
    by_cases hnonneg : 0 ≤ v.toInt
    · rw [extendSign_nonneg hnonneg hfinal, if_pos (hsign.mpr hnonneg), List.append_nil]
      exact ⟨rfl, hbytes⟩
    · have hlength := hnine.mpr ⟨hlow, by omega⟩
      rw [extendSign_neg (Int.not_le.mp hnonneg) hlength hfinal,
        if_neg fun h => hnonneg (hsign.mp h)]
      refine ⟨rfl, fun shift hshift => ?_⟩
      rcases List.mem_append.mp hshift with hshift | hshift
      · exact hbytes shift hshift
      · rw [List.mem_singleton.mp hshift]
        omega

/-- -200 in two bytes. -/
theorem decodeReadChecked_emitSleb_iff_neg200 :
    decodeReadChecked (memAt [0xb8#8, 0x7e#8, 0xff#8]) 0x1000 0x1003 dwEhPeSleb128 =
      some (-200#64, 0x1002) := by
  have hbytes : emitSleb (-200#64) = [0xb8#8, 0x7e#8] := by
    rw [emitSleb_eq, show (-200#64).toInt = -200 from rfl]
    simp [sleb]
  have hiff := decodeReadChecked_emitSleb_iff (memAt [0xb8#8, 0x7e#8, 0xff#8]) 0x1000 0x1003
    (-200#64) (by decide) (by rw [hbytes]; exact holds_memAt [0xb8#8, 0x7e#8] [0xff#8])
    (by rw [hbytes]; decide)
  rw [hbytes] at hiff
  exact (hiff.mpr (by decide)).1

/-- The smallest word takes ten bytes. Its sign is shifted by 70, which the targets take modulo
64. -/
theorem decodeReadChecked_shifts_past_word :
    emitSleb (0x8000000000000000#64) = List.replicate 9 0x80#8 ++ [0x7f#8] ∧
    slebShifts (memAt (List.replicate 9 0x80#8 ++ [0x7f#8])) 0x1000 =
      [0, 7, 14, 21, 28, 35, 42, 49, 56, 63, 70] ∧
    decodeReadChecked (memAt (List.replicate 9 0x80#8 ++ [0x7f#8])) 0x1000 0x100a
      dwEhPeSleb128 = some (0xffffffffffffffc0#64, 0x100a) := by
  refine ⟨?_, by decide +kernel, by decide +kernel⟩
  rw [emitSleb_eq, show (0x8000000000000000#64).toInt = -2 ^ 63 from rfl]
  simp [sleb, List.replicate]

end Gunwinder
