import Mathlib.Algebra.Order.Ring.Int

/-!
# Integer operations that may be undefined

The operations of C on integers of `w` bits that have no result for some operands: signed
arithmetic when the result cannot be represented, division and remainder by zero, and shifts by
the width or more. Each gives its result or says what is
undefined. Unsigned arithmetic wraps and needs no check.
-/

namespace Gunwinder.Core

variable {w : Nat}

/-- What is undefined about an operation. -/
inductive Undefined where
  | signedOverflow
  | divisionByZero
  | shiftCount
  deriving DecidableEq, Repr

/-- The signed integer of `w` bits with a given value. -/
def ofSigned (w : Nat) (x : Int) : Except Undefined (BitVec w) :=
  if -2 ^ (w - 1) ≤ x ∧ x < 2 ^ (w - 1) then .ok (BitVec.ofInt w x) else .error .signedOverflow

variable (a b : BitVec w)

/-- Signed addition. -/
def addSigned : Except Undefined (BitVec w) := ofSigned w (a.toInt + b.toInt)

/-- Signed multiplication. -/
def mulSigned : Except Undefined (BitVec w) := ofSigned w (a.toInt * b.toInt)

variable (v : BitVec w)

/-- Signed negation. -/
def negSigned : Except Undefined (BitVec w) := ofSigned w (-v.toInt)

/-- The absolute value. -/
def absSigned : Except Undefined (BitVec w) := ofSigned w v.toInt.natAbs

/-- Signed division, rounding toward zero. -/
def divSigned : Except Undefined (BitVec w) :=
  if b = 0#w then .error .divisionByZero else ofSigned w (a.toInt.tdiv b.toInt)

/-- The unsigned remainder. -/
def modUnsigned : Except Undefined (BitVec w) :=
  if b = 0#w then .error .divisionByZero else .ok (a % b)

/-- A shift `f` of `v` by `n`. -/
def shiftBy (f : BitVec w → Nat → BitVec w) (v : BitVec w) (n : Nat) :
    Except Undefined (BitVec w) :=
  if n < w then .ok (f v n) else .error .shiftCount

private theorem ofSigned_toInt : ofSigned w v.toInt = .ok v := by
  rw [ofSigned, if_pos ⟨BitVec.le_toInt v, BitVec.toInt_lt⟩, BitVec.ofInt_toInt]

/-- One more than the largest signed value is not a signed value. -/
theorem ofSigned_two_pow : ofSigned w (2 ^ (w - 1)) = .error .signedOverflow := by
  rw [ofSigned, if_neg]
  exact fun h => absurd h.2 (Int.lt_irrefl _)

private theorem ofSigned_natCast (n : Nat) :
    ofSigned w n = if n < 2 ^ (w - 1) then .ok (BitVec.ofNat w n) else .error .signedOverflow := by
  have hlow : -2 ^ (w - 1) ≤ (n : Int) := by
    have hpos : (0 : Int) ≤ 2 ^ (w - 1) := Int.pow_nonneg (by decide)
    omega
  have hhigh : (n : Int) < 2 ^ (w - 1) ↔ n < 2 ^ (w - 1) := by norm_cast
  simp only [ofSigned, hlow, true_and, hhigh, BitVec.ofInt_natCast]

private theorem toInt_ofNat_of_lt {n : Nat} (hw : 0 < w) (hn : n < 2 ^ (w - 1)) :
    (BitVec.ofNat w n).toInt = n := by
  obtain ⟨w, rfl⟩ := Nat.exists_eq_succ_of_ne_zero (Nat.ne_of_gt hw)
  rw [Nat.succ_sub_one] at hn
  have htoNat : (BitVec.ofNat (w + 1) n).toNat = n :=
    Nat.mod_eq_of_lt (Nat.lt_trans hn (Nat.pow_lt_pow_succ (by decide)))
  rw [BitVec.toInt_eq_toNat_of_lt (by rw [htoNat, Nat.pow_succ]; omega), htoNat]

/-- A sum of naturals is undefined from the sign bit on. -/
theorem addSigned_ofNat {m n : Nat} (hw : 0 < w) (hm : m < 2 ^ (w - 1)) (hn : n < 2 ^ (w - 1)) :
    addSigned (BitVec.ofNat w m) (BitVec.ofNat w n) =
      if m + n < 2 ^ (w - 1) then .ok (BitVec.ofNat w (m + n)) else .error .signedOverflow := by
  rw [addSigned, toInt_ofNat_of_lt hw hm, toInt_ofNat_of_lt hw hn, ← Int.natCast_add,
    ofSigned_natCast]

/-- A product of naturals is undefined from the sign bit on. -/
theorem mulSigned_ofNat {m n : Nat} (hw : 0 < w) (hm : m < 2 ^ (w - 1)) (hn : n < 2 ^ (w - 1)) :
    mulSigned (BitVec.ofNat w m) (BitVec.ofNat w n) =
      if m * n < 2 ^ (w - 1) then .ok (BitVec.ofNat w (m * n)) else .error .signedOverflow := by
  rw [mulSigned, toInt_ofNat_of_lt hw hm, toInt_ofNat_of_lt hw hn, ← Int.natCast_mul,
    ofSigned_natCast]

/-- Negation is undefined for the minimum only. -/
theorem negSigned_eq (hw : 0 < w) (v : BitVec w) :
    negSigned v = if v = BitVec.intMin w then .error .signedOverflow else .ok (-v) := by
  unfold negSigned
  split
  · rename_i hmin
    rw [hmin, BitVec.toInt_intMin_of_pos hw, Int.neg_neg, ofSigned_two_pow]
  · rename_i hmin
    rw [← BitVec.toInt_neg_of_ne_intMin hmin, ofSigned_toInt]

/-- The absolute value is undefined for the minimum only. -/
theorem absSigned_eq (hw : 0 < w) (v : BitVec w) :
    absSigned v = if v = BitVec.intMin w then .error .signedOverflow
      else .ok (if v.slt 0#w then -v else v) := by
  have hsign : v.slt 0#w = true ↔ v.toInt < 0 := by rw [BitVec.slt_iff_toInt_lt, BitVec.toInt_zero]
  by_cases hneg : v.toInt < 0
  · have habs : (v.toInt.natAbs : Int) = -v.toInt := Int.ofNat_natAbs_of_nonpos (Int.le_of_lt hneg)
    rw [absSigned, habs, if_pos (hsign.mpr hneg)]
    exact negSigned_eq hw v
  · have habs : (v.toInt.natAbs : Int) = v.toInt := Int.natAbs_of_nonneg (Int.not_lt.mp hneg)
    have hmin : v ≠ BitVec.intMin w := by
      rintro rfl
      rw [BitVec.toInt_intMin_of_pos hw] at hneg
      exact hneg (Int.neg_neg_of_pos (Int.pow_pos (by decide)))
    rw [absSigned, habs, ofSigned_toInt, if_neg hmin, if_neg (hsign.not.mpr hneg)]

/-- Division is defined unless the divisor is zero or the minimum is divided by `-1`. -/
theorem divSigned_eq {a b : BitVec w} (hb : b ≠ 0#w) (h : ¬(a = BitVec.intMin w ∧ b = -1#w)) :
    divSigned a b = .ok (a.sdiv b) := by
  rw [divSigned, if_neg hb, ← BitVec.toInt_sdiv_of_ne_or_ne a b (not_and_or.mp h), ofSigned_toInt]

/-- A remainder is defined off zero. -/
theorem modUnsigned_eq {a b : BitVec w} (hb : b ≠ 0#w) : modUnsigned a b = .ok (a % b) :=
  if_neg hb

/-- A shift below the width is defined. -/
theorem shiftBy_eq (f : BitVec w → Nat → BitVec w) (v : BitVec w) {n : Nat} (hn : n < w) :
    shiftBy f v n = .ok (f v n) := if_pos hn

end Gunwinder.Core
