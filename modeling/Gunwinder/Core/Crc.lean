import Mathlib.Data.BitVec
import Mathlib.Data.List.Basic
import Mathlib.Tactic.TypeStar

/-!
# Reflected cyclic redundancy checks

The register of a reflected check takes the bits of a message one at a time, over any width and
any polynomial. Moving is linear, so the bits of a byte can be added at once before the register
moves eight places, and the move splits into one of the low bits, which a table can hold, and a
plain shift of the rest.
-/

namespace Gunwinder.Core

variable {w : Nat}

/-- Take one message bit. -/
def crcBit (poly reg : BitVec w) (bit : Bool) : BitVec w :=
  if reg.getLsbD 0 ^^ bit then poly ^^^ (reg >>> 1) else reg >>> 1

/-- The `n` low bits of a word, the least significant one first. -/
def lowBits {v : Nat} : Nat → BitVec v → List Bool
  | 0, _ => []
  | n + 1, x => x.getLsbD 0 :: lowBits n (x >>> 1)

/-- The check of some bytes: complement, take every bit, complement. -/
def crc (poly : BitVec w) (bytes : List (BitVec 8)) : BitVec w :=
  ~~~((bytes.flatMap (lowBits 8)).foldl (crcBit poly) (~~~0))

/-- The register moves down one place without a message bit. -/
def crcShift (poly reg : BitVec w) : BitVec w :=
  if reg.getLsbD 0 then poly ^^^ (reg >>> 1) else reg >>> 1

/-- The register moves down `n` places. -/
def crcShifts (poly : BitVec w) : Nat → BitVec w → BitVec w
  | 0, reg => reg
  | n + 1, reg => crcShifts poly n (crcShift poly reg)

/-! ## Linearity -/

private theorem xor_middle (a b c d : BitVec w) :
    (a ^^^ b) ^^^ (c ^^^ d) = (a ^^^ c) ^^^ (b ^^^ d) := by
  rw [BitVec.xor_assoc, BitVec.xor_assoc, ← BitVec.xor_assoc b c d, BitVec.xor_comm b c,
    BitVec.xor_assoc c b d]

variable (poly x : BitVec w)

private theorem crcShift_xor (y : BitVec w) :
    crcShift poly (x ^^^ y) = crcShift poly x ^^^ crcShift poly y := by
  have hmove : (x ^^^ y) >>> 1 = x >>> 1 ^^^ y >>> 1 := BitVec.ushiftRight_xor_distrib x y 1
  have hcancel : (poly ^^^ x >>> 1) ^^^ (poly ^^^ y >>> 1) = x >>> 1 ^^^ y >>> 1 := by
    rw [xor_middle, BitVec.xor_self, BitVec.zero_xor]
  have hright : x >>> 1 ^^^ (poly ^^^ y >>> 1) = poly ^^^ (x >>> 1 ^^^ y >>> 1) := by
    rw [← BitVec.xor_assoc, BitVec.xor_comm (x >>> 1) poly, BitVec.xor_assoc]
  have hleft : (poly ^^^ x >>> 1) ^^^ y >>> 1 = poly ^^^ (x >>> 1 ^^^ y >>> 1) :=
    BitVec.xor_assoc _ _ _
  simp only [crcShift, BitVec.getLsbD_xor, hmove]
  cases x.getLsbD 0 <;> cases y.getLsbD 0 <;> simp [hcancel, hright, hleft]

private theorem crcShifts_xor (n : Nat) (x y : BitVec w) :
    crcShifts poly n (x ^^^ y) = crcShifts poly n x ^^^ crcShifts poly n y := by
  induction n generalizing x y with
  | zero => rfl
  | succ n ih => rw [crcShifts, crcShift_xor, ih]; rfl

/-- Nothing is added while only zeros leave the register. -/
theorem crcShifts_of_clear {n : Nat} {x : BitVec w} (h : ∀ i, i < n → x.getLsbD i = false) :
    crcShifts poly n x = x >>> n := by
  induction n generalizing x with
  | zero => exact (BitVec.ushiftRight_zero x).symm
  | succ n ih =>
    have hmove : crcShift poly x = x >>> 1 := by
      rw [crcShift, h 0 (Nat.succ_pos n)]
      rfl
    have hclear : ∀ i, i < n → (x >>> 1).getLsbD i = false := by
      intro i hi
      rw [BitVec.getLsbD_ushiftRight]
      exact h (1 + i) (by omega)
    rw [crcShifts, hmove, ih hclear, ← BitVec.shiftRight_add, Nat.add_comm]

/-- The places below `n`. -/
def IsLowMask (n : Nat) (mask : BitVec w) : Prop :=
  ∀ i, i < w → mask.getLsbD i = decide (i < n)

private theorem xor_split (mask : BitVec w) : x = (x &&& mask) ^^^ (x &&& ~~~mask) := by
  apply BitVec.eq_of_getLsbD_eq
  intro i hi
  simp only [BitVec.getLsbD_xor, BitVec.getLsbD_and, BitVec.getLsbD_not, hi, decide_true,
    Bool.true_and]
  cases x.getLsbD i <;> cases mask.getLsbD i <;> rfl

/-- A move splits into one of the low bits and a shift of the word. -/
theorem crcShifts_split {n : Nat} {mask : BitVec w} (hmask : IsLowMask n mask) (x : BitVec w) :
    crcShifts poly n x = crcShifts poly n (x &&& mask) ^^^ x >>> n := by
  have hclear : ∀ i, i < n → (x &&& ~~~mask).getLsbD i = false := by
    intro i hi
    by_cases hw : i < w
    · simp [hmask i hw, hi]
    · exact BitVec.getLsbD_of_ge _ i (by omega)
  have hrest : (x &&& ~~~mask) >>> n = x >>> n := by
    apply BitVec.eq_of_getLsbD_eq
    intro i hi
    rw [BitVec.getLsbD_ushiftRight, BitVec.getLsbD_ushiftRight]
    by_cases hw : n + i < w
    · rw [BitVec.getLsbD_and, BitVec.getLsbD_not, hmask (n + i) hw]
      simp [hw]
    · rw [BitVec.getLsbD_of_ge _ _ (by omega), BitVec.getLsbD_of_ge _ _ (by omega)]
  calc crcShifts poly n x
      = crcShifts poly n ((x &&& mask) ^^^ (x &&& ~~~mask)) := by rw [← xor_split]
    _ = crcShifts poly n (x &&& mask) ^^^ x >>> n := by
        rw [crcShifts_xor, crcShifts_of_clear poly hclear, hrest]

/-! ## Message bits -/

/-- A message bit is added to the lowest place. -/
theorem crcBit_eq_crcShift (reg x : BitVec w) (hx : ∀ i, 0 < i → x.getLsbD i = false) :
    crcBit poly reg (x.getLsbD 0) = crcShift poly (reg ^^^ x) := by
  have hgone : x >>> 1 = 0#w := by
    apply BitVec.eq_of_getLsbD_eq
    intro i hi
    rw [BitVec.getLsbD_ushiftRight, BitVec.getLsbD_zero]
    exact hx (1 + i) (by omega)
  rw [crcBit, crcShift, BitVec.getLsbD_xor, BitVec.ushiftRight_xor_distrib, hgone, BitVec.xor_zero]

/-- The bits of a word without bits from place `n` on are added at once. -/
theorem foldl_lowBits {n : Nat} (hn : n ≤ w) {x : BitVec w} (hx : ∀ i, n ≤ i → x.getLsbD i = false)
    (reg : BitVec w) : (lowBits n x).foldl (crcBit poly) reg = crcShifts poly n (reg ^^^ x) := by
  induction n generalizing x reg with
  | zero =>
    have hzero : x = 0#w := BitVec.eq_of_getLsbD_eq fun i _ => by
      rw [hx i (Nat.zero_le i), BitVec.getLsbD_zero]
    rw [hzero, BitVec.xor_zero]
    rfl
  | succ n ih =>
    have hone : IsLowMask 1 (1#w) := by
      intro i hi
      rw [BitVec.getLsbD_one]
      simp only [Nat.lt_one_iff, Bool.and_eq_right_iff_imp, decide_eq_true_eq]
      omega
    -- the lowest bit goes in by itself, the others once they have moved down
    have hlow : crcBit poly reg (x.getLsbD 0) = crcShift poly (reg ^^^ (x &&& 1#w)) := by
      have hbit : (x &&& 1#w).getLsbD 0 = x.getLsbD 0 := by simp; omega
      rw [← hbit]
      apply crcBit_eq_crcShift
      intro i hi
      simp; omega
    have hsplit : crcShift poly x = crcShift poly (x &&& 1#w) ^^^ x >>> 1 :=
      crcShifts_split poly (n := 1) hone x
    have hrest : ∀ i, n ≤ i → (x >>> 1).getLsbD i = false := by
      intro i hi
      rw [BitVec.getLsbD_ushiftRight]
      exact hx (1 + i) (by omega)
    rw [lowBits, List.foldl_cons, hlow, ih (by omega) hrest, crcShifts, crcShift_xor,
      crcShift_xor, hsplit, BitVec.xor_assoc]

end Gunwinder.Core
