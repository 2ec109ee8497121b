import Gunwinder.Native.Target
import Mathlib.Order.Nat
import Mathlib.Tactic.Common

/-!
# Encoded operands

`decode_read_checked` first asks `decode_read_fits` how many bytes an encoded value needs and then
reads it with `decode_read`. The C shifts whose count reaches the operand width are given the
meaning both targets give them: the count is taken modulo the width.
-/

namespace Gunwinder

/-- The low nibble of a `DW_EH_PE_*` encoding, where `decode_read` accepts it. -/
inductive PtrFormat where
  | absptr
  | uleb128
  | udata2
  | udata4
  | udata8
  | sleb128
  | sdata2
  | sdata4
  | sdata8
  deriving DecidableEq, Repr

/-- `type & 0xf` of the two switches; `none` is their default case. -/
def ptrFormat (type : Byte) : Option PtrFormat :=
  match (type &&& 0xf#8).toNat with
  | 0x00 => some .absptr
  | 0x01 => some .uleb128
  | 0x02 => some .udata2
  | 0x03 => some .udata4
  | 0x04 => some .udata8
  | 0x09 => some .sleb128
  | 0x0a => some .sdata2
  | 0x0b => some .sdata4
  | 0x0c => some .sdata8
  | _ => none

def dwEhPeAbsptr : Byte := 0x00#8
def dwEhPeUleb128 : Byte := 0x01#8
def dwEhPeUdata2 : Byte := 0x02#8
def dwEhPeUdata4 : Byte := 0x03#8
def dwEhPeUdata8 : Byte := 0x04#8
def dwEhPeSleb128 : Byte := 0x09#8
def dwEhPeSdata2 : Byte := 0x0a#8
def dwEhPeSdata4 : Byte := 0x0b#8
def dwEhPeSdata8 : Byte := 0x0c#8
def dwEhPePcrel : Byte := 0x10#8
def dwEhPeOmit : Byte := 0xff#8

/-- Little-endian loads. -/
def load16 (mem : Mem) (a : Nat) : BitVec 16 := mem (a + 1) ++ mem a
def load32 (mem : Mem) (a : Nat) : BitVec 32 := load16 mem (a + 2) ++ load16 mem a
def load64 (mem : Mem) (a : Nat) : Word := load32 mem (a + 4) ++ load32 mem a

/-- `(byte & 0x7F) << shift` on a promoted byte: a 32-bit `int` shift, widened afterwards. -/
def shlInt (b : Byte) (shift : Nat) : Word :=
  (((b &&& 0x7f#8).setWidth 32) <<< (shift % 32)).signExtend 64

/-- The loop of `decode_uleb128` with `n` bytes still allowed. -/
def decodeUlebLoop (mem : Mem) (buffer : Nat) : Nat → Nat → Nat → Word → Word × Nat
  | 0, count, _, result => (result, count)
  | n + 1, count, shift, result =>
    let byte := mem (buffer + count)
    let result := result ||| shlInt byte shift
    if byte &&& 0x80#8 = 0#8 then (result, count + 1)
    else decodeUlebLoop mem buffer n (count + 1) (shift + 7) result

/-- `decode_uleb128`: the value and the number of bytes read, at most eight. -/
def decodeUleb128 (mem : Mem) (buffer : Nat) : Word × Nat :=
  decodeUlebLoop mem buffer 8 0 0 0#64

/-- The loop of `decode_sleb128`; it also returns the last byte and its shift. -/
def decodeSlebLoop (mem : Mem) (buffer : Nat) :
    Nat → Nat → Nat → Word → Byte → Word × Nat × Nat × Byte
  | 0, count, shift, result, byte => (result, count, shift, byte)
  | n + 1, count, shift, result, _ =>
    let byte := mem (buffer + count)
    let result := result ||| ((byte &&& 0x7f#8).setWidth 64 <<< (shift % 64))
    if byte &&& 0x80#8 = 0#8 then (result, count + 1, shift, byte)
    else decodeSlebLoop mem buffer n (count + 1) (shift + 7) result byte

/-- `decode_sleb128`: the sign bit of the last byte fills the word above its shift. -/
def decodeSleb128 (mem : Mem) (buffer : Nat) : Word × Nat :=
  match decodeSlebLoop mem buffer 10 0 0 0#64 0#8 with
  | (result, count, shift, byte) =>
    if byte &&& 0x40#8 = 0#8 then (result, count)
    else (result ||| ((~~~0#64) <<< ((shift + 7) % 64)), count)

/-- `decode_read`: the value and the pointer behind it. -/
def decodeRead (mem : Mem) (buf : Nat) : PtrFormat → Word × Nat
  | .uleb128 => ((decodeUleb128 mem buf).1, buf + (decodeUleb128 mem buf).2)
  | .sleb128 => ((decodeSleb128 mem buf).1, buf + (decodeSleb128 mem buf).2)
  | .udata2 => ((load16 mem buf).setWidth 64, buf + 2)
  | .udata4 => ((load32 mem buf).setWidth 64, buf + 4)
  | .udata8 => (load64 mem buf, buf + 8)
  | .absptr => (load64 mem buf, buf + 8)
  | .sdata2 => ((load16 mem buf).signExtend 64, buf + 2)
  | .sdata4 => ((load32 mem buf).signExtend 64, buf + 4)
  | .sdata8 => (load64 mem buf, buf + 8)

/-- Some byte among the first `maxLen`, before `fin`, ends the LEB128 sequence. -/
def lebEnds (mem : Mem) (buf fin maxLen : Nat) : Bool :=
  (List.range maxLen).any fun i => buf + i < fin && mem (buf + i) &&& 0x80#8 == 0#8

/-- `decode_read_fits`. -/
def decodeReadFits (mem : Mem) (buf fin : Nat) (type : PtrFormat) : Bool :=
  if buf = 0 ∨ fin = 0 ∨ fin < buf then false
  else
    match type with
    | .uleb128 => lebEnds mem buf fin 8
    | .sleb128 => lebEnds mem buf fin 10
    | .udata2 | .sdata2 => 2 ≤ fin - buf
    | .udata4 | .sdata4 => 4 ≤ fin - buf
    | .udata8 | .sdata8 | .absptr => 8 ≤ fin - buf

/-- `decode_read_checked`; `none` is its NULL. -/
def decodeReadChecked (mem : Mem) (buf fin : Nat) (type : Byte) : Option (Word × Nat) :=
  match ptrFormat type with
  | none => none
  | some fmt =>
    if decodeReadFits mem buf fin fmt then
      if fin < (decodeRead mem buf fmt).2 then none else some (decodeRead mem buf fmt)
    else none

/-- `block_fits`. -/
def blockFits (data fin : Nat) (len : Word) : Bool :=
  data ≠ 0 && fin ≠ 0 && data ≤ fin && len.toNat ≤ fin - data

/-! ## Progress -/

variable (mem : Mem)

/-- A byte is counted if one is read. -/
theorem decodeUlebLoop_count (buffer n count shift : Nat) (result : Word) :
    count + min n 1 ≤ (decodeUlebLoop mem buffer n count shift result).2 := by
  induction n generalizing count shift result with
  | zero => simp [decodeUlebLoop]
  | succ n ih =>
    simp only [decodeUlebLoop]
    split
    · simp only; omega
    · have := ih (count + 1) (shift + 7) (result ||| shlInt (mem (buffer + count)) shift)
      omega

/-- A byte is counted if one is read. -/
theorem decodeSlebLoop_count (buffer n count shift : Nat) (result : Word) (byte : Byte) :
    count + min n 1 ≤ (decodeSlebLoop mem buffer n count shift result byte).2.1 := by
  induction n generalizing count shift result byte with
  | zero => simp [decodeSlebLoop]
  | succ n ih =>
    simp only [decodeSlebLoop]
    split
    · simp only; omega
    have := ih (count + 1) (shift + 7)
      (result ||| ((mem (buffer + count) &&& 0x7f#8).setWidth 64 <<< (shift % 64)))
      (mem (buffer + count))
    omega

/-- The size is the loop's count. -/
theorem decodeSleb128_size (buffer : Nat) :
    (decodeSleb128 mem buffer).2 = (decodeSlebLoop mem buffer 10 0 0 0#64 0#8).2.1 := by
  unfold decodeSleb128
  rcases decodeSlebLoop mem buffer 10 0 0 0#64 0#8 with ⟨result, count, shift, byte⟩
  simp only
  split <;> rfl

/-- Every encoded value takes at least one byte. -/
theorem lt_decodeRead (buf : Nat) (fmt : PtrFormat) : buf < (decodeRead mem buf fmt).2 := by
  have hu := decodeUlebLoop_count mem buf 8 0 0 0#64
  have hs := decodeSlebLoop_count mem buf 10 0 0 0#64 0#8
  cases fmt <;> simp only [decodeRead, decodeUleb128, decodeSleb128_size] <;> omega

variable {fin buf : Nat}

/-- A successful read moves strictly forward and never past the end. -/
theorem decodeReadChecked_bounds {mem : Mem} {type : Byte} {v : Word} {next : Nat}
    (h : decodeReadChecked mem buf fin type = some (v, next)) : buf < next ∧ next ≤ fin := by
  unfold decodeReadChecked at h
  cases hf : ptrFormat type with
  | none => simp [hf] at h
  | some fmt =>
    simp only [hf] at h
    by_cases hfit : decodeReadFits mem buf fin fmt = true
    · simp only [hfit, ite_true] at h
      by_cases hlt : fin < (decodeRead mem buf fmt).2
      · simp [hlt] at h
      simp only [hlt, ite_false, Option.some.injEq] at h
      have hp := lt_decodeRead mem buf fmt
      rw [h] at hp hlt
      exact ⟨hp, not_lt.mp hlt⟩
    · simp [hfit] at h

/-! ## Locality -/

/-- Two memories hold the same bytes in `[lo, hi)`. -/
def AgreeOn (lo hi : Nat) (m m' : Mem) : Prop := ∀ a, lo ≤ a → a < hi → m a = m' a

variable {m m' : Mem}

/-- A smaller range. -/
theorem AgreeOn.mono {lo hi lo' hi' : Nat} (h : AgreeOn lo hi m m') (hl : lo ≤ lo')
    (hh : hi' ≤ hi) : AgreeOn lo' hi' m m' :=
  fun a h1 h2 => h a (hl.trans h1) (h2.trans_le hh)

/-- A sequence that goes on ends behind its next byte. -/
theorem endsAfter {n count i : Nat} (hi : i < n + 1) (hlt : buf + count + i < fin)
    (hz : m (buf + count + i) &&& 0x80#8 = 0#8) (hne : ¬m (buf + count) &&& 0x80#8 = 0#8) :
    ∃ i < n, buf + (count + 1) + i < fin ∧ m (buf + (count + 1) + i) &&& 0x80#8 = 0#8 := by
  cases i with
  | zero => exact absurd hz hne
  | succ i =>
    have hshift : buf + (count + 1) + i = buf + count + (i + 1) := by omega
    exact ⟨i, by omega, hshift ▸ hlt, hshift ▸ hz⟩

/-- A sequence that ends before `fin` is read without touching `fin`. -/
theorem decodeUlebLoop_congr (h : AgreeOn buf fin m m') (n count shift : Nat) (result : Word)
    (hend : ∃ i < n, buf + count + i < fin ∧ m (buf + count + i) &&& 0x80#8 = 0#8) :
    decodeUlebLoop m buf n count shift result = decodeUlebLoop m' buf n count shift result := by
  induction n generalizing count shift result with
  | zero => rfl
  | succ n ih =>
    obtain ⟨i, hi, hlt, hz⟩ := hend
    have hb : m (buf + count) = m' (buf + count) := h _ (by omega) (by omega)
    simp only [decodeUlebLoop, hb]
    split
    · rfl
    · rename_i hne
      apply ih
      exact endsAfter hi hlt hz (hb ▸ hne)

private theorem decodeSlebLoop_congr (h : AgreeOn buf fin m m') (n count shift : Nat)
    (result : Word)
    (byte : Byte) (hend : ∃ i < n, buf + count + i < fin ∧ m (buf + count + i) &&& 0x80#8 = 0#8) :
    decodeSlebLoop m buf n count shift result byte =
      decodeSlebLoop m' buf n count shift result byte := by
  induction n generalizing count shift result byte with
  | zero => rfl
  | succ n ih =>
    obtain ⟨i, hi, hlt, hz⟩ := hend
    have hb : m (buf + count) = m' (buf + count) := h _ (by omega) (by omega)
    simp only [decodeSlebLoop, hb]
    split
    · rfl
    · rename_i hne
      apply ih
      exact endsAfter hi hlt hz (hb ▸ hne)

/-- A last byte comes in time. -/
theorem lebEnds_iff {mem : Mem} {maxLen : Nat} : lebEnds mem buf fin maxLen = true ↔
    ∃ i < maxLen, buf + i < fin ∧ mem (buf + i) &&& 0x80#8 = 0#8 := by
  simp [lebEnds, List.any_eq_true, List.mem_range]

private theorem lebEnds_congr (h : AgreeOn buf fin m m') (maxLen : Nat) :
    lebEnds m buf fin maxLen = lebEnds m' buf fin maxLen := by
  rw [Bool.eq_iff_iff, lebEnds_iff, lebEnds_iff]
  constructor <;> rintro ⟨i, hi, hlt, hz⟩
  · exact ⟨i, hi, hlt, h (buf + i) (by omega) hlt ▸ hz⟩
  · exact ⟨i, hi, hlt, (h (buf + i) (by omega) hlt).symm ▸ hz⟩

private theorem decodeReadFits_congr (h : AgreeOn buf fin m m') (fmt : PtrFormat) :
    decodeReadFits m buf fin fmt = decodeReadFits m' buf fin fmt := by
  unfold decodeReadFits
  cases fmt <;> simp only [lebEnds_congr h]

private theorem load16_congr {a : Nat} (h : AgreeOn a fin m m') (hf : a + 2 ≤ fin) :
    load16 m a = load16 m' a := by
  rw [load16, load16, h a (by omega) (by omega), h (a + 1) (by omega) (by omega)]

private theorem load32_congr {a : Nat} (h : AgreeOn a fin m m') (hf : a + 4 ≤ fin) :
    load32 m a = load32 m' a := by
  rw [load32, load32, load16_congr h (by omega),
    load16_congr (h.mono (Nat.le_add_right a 2) le_rfl) (by omega)]

private theorem load64_congr {a : Nat} (h : AgreeOn a fin m m') (hf : a + 8 ≤ fin) :
    load64 m a = load64 m' a := by
  rw [load64, load64, load32_congr h (by omega),
    load32_congr (h.mono (Nat.le_add_right a 4) le_rfl) (by omega)]

/-- Where the value fits, reading it touches no byte outside the buffer. -/
theorem decodeRead_congr (h : AgreeOn buf fin m m') {fmt : PtrFormat}
    (hfit : decodeReadFits m buf fin fmt = true) :
    decodeRead m buf fmt = decodeRead m' buf fmt := by
  unfold decodeReadFits at hfit
  split at hfit
  · simp at hfit
  rename_i hne
  push Not at hne
  cases fmt <;> simp only [decodeRead, decide_eq_true_eq] at hfit ⊢
  case uleb128 =>
    obtain ⟨i, hi, hlt, hz⟩ := lebEnds_iff.mp hfit
    rw [decodeUleb128, decodeUleb128, decodeUlebLoop_congr h 8 0 0 0#64 ⟨i, hi, hlt, hz⟩]
  case sleb128 =>
    obtain ⟨i, hi, hlt, hz⟩ := lebEnds_iff.mp hfit
    rw [decodeSleb128, decodeSleb128, decodeSlebLoop_congr h 10 0 0 0#64 0#8 ⟨i, hi, hlt, hz⟩]
  case udata2 | sdata2 => rw [load16_congr h (by omega)]
  case udata4 | sdata4 => rw [load32_congr h (by omega)]
  case udata8 | sdata8 | absptr => rw [load64_congr h (by omega)]

/-- `decode_read_checked` depends on the bytes of its buffer only. -/
theorem decodeReadChecked_congr (h : AgreeOn buf fin m m') (type : Byte) :
    decodeReadChecked m buf fin type = decodeReadChecked m' buf fin type := by
  unfold decodeReadChecked
  cases ptrFormat type with
  | none => rfl
  | some fmt =>
    simp only [← decodeReadFits_congr h fmt]
    by_cases hfit : decodeReadFits m buf fin fmt = true
    · simp only [hfit, ite_true, decodeRead_congr h hfit]
    · simp [hfit]

/-- An accepted block ends inside the buffer. -/
theorem blockFits_bounds {data : Nat} {len : Word} (h : blockFits data fin len = true) :
    data + len.toNat ≤ fin := by
  simp only [blockFits, Bool.and_eq_true, decide_eq_true_eq, ne_eq] at h
  omega

end Gunwinder
