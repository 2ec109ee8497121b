import Mathlib.Algebra.Order.Ring.Int
import Mathlib.Data.Nat.Bitwise
import Mathlib.Tactic.Ring

/-!
# LEB128

An integer is written in groups of seven bits, low group first; all bytes but the last
carry a continuation bit. An unsigned number ends with its highest non-zero group, a
signed one with the first group whose top bit already shows the sign. The groups of a
signed number are those of its residue modulo the power of two they span.
-/

namespace Gunwinder.Core

/-- The seven bits a byte contributes. -/
def group (b : BitVec 8) : Nat := b.toNat % 128

/-- A non-empty sequence that ends with its first byte without continuation bit. -/
inductive LebSequence : List (BitVec 8) → Prop where
  | last {b : BitVec 8} (h : b.toNat < 128) : LebSequence [b]
  | more {b : BitVec 8} {bytes : List (BitVec 8)} (h : 128 ≤ b.toNat)
      (rest : LebSequence bytes) : LebSequence (b :: bytes)

/-- The number the groups add up to. -/
def lebValue : List (BitVec 8) → Nat
  | [] => 0
  | b :: bytes => group b + 128 * lebValue bytes

/-- Seven bits a byte. -/
theorem lebValue_lt (bytes : List (BitVec 8)) : lebValue bytes < 2 ^ (7 * bytes.length) := by
  induction bytes with
  | nil => simp [lebValue]
  | cons b bytes ih =>
    have hgroup : group b < 128 := Nat.mod_lt _ (by decide)
    rw [lebValue, List.length_cons, Nat.mul_succ, Nat.pow_add]
    omega

variable {bytes : List (BitVec 8)}

/-- A group contributes to the number. -/
theorem group_mul_le_lebValue {i : Nat} {b : BitVec 8} (h : bytes[i]? = some b) :
    group b * 2 ^ (7 * i) ≤ lebValue bytes := by
  induction bytes generalizing i with
  | nil => simp at h
  | cons c bytes ih =>
    cases i with
    | zero =>
      cases h
      simp [lebValue]
    | succ i =>
      have hrest := ih (by simpa using h)
      rw [lebValue, Nat.mul_succ, Nat.pow_add]
      calc group b * (2 ^ (7 * i) * 2 ^ 7) = 128 * (group b * 2 ^ (7 * i)) := by ring
        _ ≤ group c + 128 * lebValue bytes := by omega

/-- A sequence has a last byte. -/
theorem LebSequence.length_pos (h : LebSequence bytes) : 0 < bytes.length := by
  cases h <;> simp

/-- The first byte without continuation bit stands at the end. -/
theorem LebSequence.ends (h : LebSequence bytes) :
    (∀ i, i + 1 < bytes.length → ∃ b, bytes[i]? = some b ∧ 128 ≤ b.toNat) ∧
      ∃ b, bytes[bytes.length - 1]? = some b ∧ b.toNat < 128 := by
  induction h with
  | @last b h => exact ⟨fun i hi => absurd hi (by simp), b, rfl, h⟩
  | @more b bytes h rest ih =>
    obtain ⟨hinit, last, hlast, hlt⟩ := ih
    have hpos := rest.length_pos
    constructor
    · intro i hi
      cases i with
      | zero => exact ⟨b, rfl, h⟩
      | succ i => exact hinit i (by simpa using hi)
    · refine ⟨last, ?_, hlt⟩
      rw [List.length_cons, Nat.add_sub_cancel]
      cases hn : bytes.length with
      | zero => omega
      | succ n => simpa [hn] using hlast

/-- The last byte has no high bit. -/
theorem LebSequence.getLast_lt (h : LebSequence bytes) {b : BitVec 8}
    (hlast : bytes.getLast? = some b) : b.toNat < 128 := by
  obtain ⟨-, c, hc, hlt⟩ := h.ends
  rw [List.getLast?_eq_getElem?] at hlast
  cases hlast.symm.trans hc
  exact hlt

/-! ## Unsigned numbers -/

/-- The shortest unsigned encoding. -/
def uleb (n : Nat) : List (BitVec 8) :=
  if n < 128 then [BitVec.ofNat 8 n] else BitVec.ofNat 8 (n % 128 + 128) :: uleb (n / 128)

/-- One byte is enough below 128. -/
theorem uleb_small {n : Nat} (h : n < 128) : uleb n = [BitVec.ofNat 8 n] := by
  rw [uleb, if_pos h]

/-- The low seven bits come first. -/
theorem uleb_large {n : Nat} (h : 128 ≤ n) :
    uleb n = BitVec.ofNat 8 (n % 128 + 128) :: uleb (n / 128) := by
  rw [uleb, if_neg (Nat.not_lt.mpr h)]

private theorem group_last {n : Nat} (h : n < 128) : group (BitVec.ofNat 8 n) = n := by
  rw [group, BitVec.toNat_ofNat]
  omega

private theorem group_more (n : Nat) : group (BitVec.ofNat 8 (n % 128 + 128)) = n % 128 := by
  rw [group, BitVec.toNat_ofNat]
  omega

/-- An encoding is a sequence. -/
theorem lebSequence_uleb (n : Nat) : LebSequence (uleb n) := by
  fun_induction uleb n with
  | case1 n h => exact .last (by rw [BitVec.toNat_ofNat]; omega)
  | case2 n h ih => exact .more (by rw [BitVec.toNat_ofNat]; omega) ih

/-- An encoding has the value encoded. -/
theorem lebValue_uleb (n : Nat) : lebValue (uleb n) = n := by
  fun_induction uleb n with
  | case1 n h => rw [lebValue, group_last h, lebValue, Nat.mul_zero, Nat.add_zero]
  | case2 n h ih => rw [lebValue, group_more, ih, Nat.mod_add_div]

/-- The number of groups of an unsigned number. -/
theorem length_uleb_le {n k : Nat} : (uleb n).length ≤ k + 1 ↔ n < 2 ^ (7 * (k + 1)) := by
  constructor
  · intro h
    have hvalue := lebValue_lt (uleb n)
    rw [lebValue_uleb] at hvalue
    exact hvalue.trans_le (Nat.pow_le_pow_right (by decide) (by omega))
  · intro h
    induction k generalizing n with
    | zero => rw [uleb_small (by simpa using h), List.length_singleton]
    | succ k ih =>
      by_cases hn : n < 128
      · rw [uleb_small hn, List.length_singleton]
        omega
      · rw [uleb_large (by omega), List.length_cons]
        have hdiv : n / 128 < 2 ^ (7 * (k + 1)) := by
          rw [Nat.div_lt_iff_lt_mul (by decide)]
          rw [Nat.mul_succ 7 (k + 1), Nat.pow_add] at h
          exact h
        have := ih hdiv
        omega

/-! ## Signed numbers -/

/-- The shortest signed encoding. -/
def sleb (z : Int) : List (BitVec 8) :=
  if -64 ≤ z ∧ z < 64 then [BitVec.ofNat 8 (z % 128).toNat]
  else BitVec.ofNat 8 ((z % 128).toNat + 128) :: sleb (z / 128)
termination_by z.natAbs
decreasing_by omega

variable {z : Int}

/-- One byte is enough for seven bits. -/
theorem sleb_small (h : -64 ≤ z ∧ z < 64) : sleb z = [BitVec.ofNat 8 (z % 128).toNat] := by
  rw [sleb, if_pos h]

/-- The low seven bits come first. -/
theorem sleb_large (h : ¬(-64 ≤ z ∧ z < 64)) :
    sleb z = BitVec.ofNat 8 ((z % 128).toNat + 128) :: sleb (z / 128) := by
  rw [sleb, if_neg h]

/-- A signed encoding is a sequence. -/
theorem lebSequence_sleb (z : Int) : LebSequence (sleb z) := by
  fun_induction sleb z with
  | case1 z h => exact .last (by rw [BitVec.toNat_ofNat]; omega)
  | case2 z h ih => exact .more (by rw [BitVec.toNat_ofNat]; omega) ih

private theorem sleb_bounds (z : Int) :
    -2 ^ (7 * (sleb z).length - 1) ≤ z ∧ z < 2 ^ (7 * (sleb z).length - 1) := by
  fun_induction sleb z with
  | case1 z h => simpa using h
  | case2 z h ih =>
    have hpos := (lebSequence_sleb (z / 128)).length_pos
    have hpow : (2 : Int) ^ (7 * ((sleb (z / 128)).length + 1) - 1) =
        128 * 2 ^ (7 * (sleb (z / 128)).length - 1) := by
      rw [show 7 * ((sleb (z / 128)).length + 1) - 1 =
        7 + (7 * (sleb (z / 128)).length - 1) by omega, pow_add]
      rfl
    rw [List.length_cons, hpow]
    omega

/-- A residue from its low group and the residue of the rest. -/
theorem emod_group (z : Int) {m : Int} (hm : 0 < m) :
    z % 128 + 128 * (z / 128 % m) = z % (128 * m) := by
  have hrest := Int.emod_add_mul_ediv (z / 128) m
  have hlow := Int.emod_add_mul_ediv z 128
  have hnonneg := Int.emod_nonneg (z / 128) hm.ne'
  have hlt := Int.emod_lt_of_pos (z / 128) hm
  have hunique := (Int.ediv_emod_unique (a := z) (b := 128 * m) (q := z / 128 / m)
    (r := z % 128 + 128 * (z / 128 % m)) (by omega)).mpr
  refine (hunique ⟨?_, by omega, by omega⟩).2.symm
  calc z % 128 + 128 * (z / 128 % m) + 128 * m * (z / 128 / m)
      = z % 128 + 128 * (z / 128 % m + m * (z / 128 / m)) := by ring
    _ = z := by rw [hrest, hlow]

/-- The groups are those of the residue. -/
theorem lebValue_sleb (z : Int) :
    (lebValue (sleb z) : Int) = z % 2 ^ (7 * (sleb z).length) := by
  fun_induction sleb z with
  | case1 z h =>
    rw [lebValue, group_last (by omega), lebValue]
    simp only [List.length_singleton]
    omega
  | case2 z h ih =>
    have hgroup : group (BitVec.ofNat 8 ((z % 128).toNat + 128)) = (z % 128).toNat := by
      rw [group, BitVec.toNat_ofNat]
      omega
    have hpow : (2 : Int) ^ (7 * ((sleb (z / 128)).length + 1)) =
        128 * 2 ^ (7 * (sleb (z / 128)).length) := by
      rw [Nat.mul_succ, pow_add]
      ring
    rw [lebValue, hgroup, List.length_cons, hpow]
    push_cast
    rw [ih, Int.toNat_of_nonneg (by omega), emod_group z (pow_pos (by decide) _)]

/-- The groups of a number that is not negative add up to it. -/
theorem lebValue_sleb_nonneg (h : 0 ≤ z) : (lebValue (sleb z) : Int) = z := by
  have hpos := (lebSequence_sleb z).length_pos
  have hlt := (sleb_bounds z).2
  have hpow : (2 : Int) ^ (7 * (sleb z).length - 1) ≤ 2 ^ (7 * (sleb z).length) :=
    pow_le_pow_right₀ (by decide) (by omega)
  rw [lebValue_sleb, Int.emod_eq_of_lt h (by omega)]

/-- The groups of a negative number add up to what is missing to it. -/
theorem lebValue_sleb_neg (h : z < 0) :
    (lebValue (sleb z) : Int) = z + 2 ^ (7 * (sleb z).length) := by
  have hle := (sleb_bounds z).1
  have hpow : (2 : Int) ^ (7 * (sleb z).length - 1) ≤ 2 ^ (7 * (sleb z).length) :=
    pow_le_pow_right₀ (by decide) (by omega)
  rw [lebValue_sleb, ← Int.add_emod_right, Int.emod_eq_of_lt (by omega) (by omega)]

/-- The top bit of the last group shows the sign. -/
theorem sleb_sign (z : Int) {b : BitVec 8} (h : (sleb z).getLast? = some b) :
    64 ≤ b.toNat ↔ z < 0 := by
  fun_induction sleb z with
  | case1 z hz =>
    rw [List.getLast?_singleton, Option.some.injEq] at h
    rw [← h, BitVec.toNat_ofNat]
    omega
  | case2 z hz ih =>
    have hne : sleb (z / 128) ≠ [] := List.ne_nil_of_length_pos (lebSequence_sleb _).length_pos
    rw [List.getLast?_cons, List.getLast?_eq_some_getLast hne] at h
    rw [ih (by rw [List.getLast?_eq_some_getLast hne]; simpa using h)]
    omega

/-- The number of groups of a signed number. -/
theorem length_sleb_le {k : Nat} :
    (sleb z).length ≤ k + 1 ↔ -2 ^ (7 * (k + 1) - 1) ≤ z ∧ z < 2 ^ (7 * (k + 1) - 1) := by
  constructor
  · intro h
    obtain ⟨hlo, hhi⟩ := sleb_bounds z
    have hpow : (2 : Int) ^ (7 * (sleb z).length - 1) ≤ 2 ^ (7 * (k + 1) - 1) :=
      pow_le_pow_right₀ (by decide) (by omega)
    omega
  · intro h
    induction k generalizing z with
    | zero => rw [sleb_small (by simpa using h), List.length_singleton]
    | succ k ih =>
      by_cases hz : -64 ≤ z ∧ z < 64
      · rw [sleb_small hz, List.length_singleton]
        omega
      · have hpow : (2 : Int) ^ (7 * (k + 1 + 1) - 1) = 128 * 2 ^ (7 * (k + 1) - 1) := by
          rw [show 7 * (k + 1 + 1) - 1 = 7 + (7 * (k + 1) - 1) by omega, pow_add]
          rfl
        rw [hpow] at h
        have := ih (z := z / 128) (by omega)
        rw [sleb_large hz, List.length_cons]
        omega

end Gunwinder.Core
