import Mathlib.Logic.Basic
import Mathlib.Tactic.Common

/-!
# Binary search over an index range

`bisect` narrows a half-open index range by a probe that says on which side of an index the key
lies; how the middle is picked is a parameter. A hit always satisfies the probe. Completeness
needs the probes to be ordered along the range.
-/

namespace Gunwinder.Core

/-- Search `[l, u)` for an index whose probe is `eq`; `lt` sends the search left. -/
def bisect (mid : Nat → Nat → Nat) (probe : Nat → Ordering) : Nat → Nat → Nat → Option Nat
  | 0, _, _ => none
  | n + 1, l, u =>
    if l < u then
      match probe (mid l u) with
      | .lt => bisect mid probe n l (mid l u)
      | .gt => bisect mid probe n (mid l u + 1) u
      | .eq => some (mid l u)
    else none

/-- The middle of a nonempty range lies inside the range. -/
def MidInside (mid : Nat → Nat → Nat) : Prop :=
  ∀ l u, l < u → l ≤ mid l u ∧ mid l u < u

/-- Probes are ordered: everything right of a `lt` probe is `lt`, everything left of a
`gt` probe is `gt`. -/
structure Ordered (probe : Nat → Ordering) (n : Nat) : Prop where
  lt_right : ∀ i j, i ≤ j → j < n → probe i = .lt → probe j = .lt
  gt_left : ∀ i j, i ≤ j → j < n → probe j = .gt → probe i = .gt

variable {mid : Nat → Nat → Nat} {probe : Nat → Ordering}

/-- A hit is an index of the range at which the probe reports equality. -/
theorem bisect_sound (hmid : MidInside mid) (fuel : Nat) {l u i : Nat}
    (h : bisect mid probe fuel l u = some i) : l ≤ i ∧ i < u ∧ probe i = .eq := by
  induction fuel generalizing l u with
  | zero => simp [bisect] at h
  | succ fuel ih =>
    simp only [bisect] at h
    by_cases hlu : l < u
    · simp only [hlu, ite_true] at h
      obtain ⟨hl, hu⟩ := hmid l u hlu
      cases hp : probe (mid l u) with
      | lt =>
        simp only [hp] at h
        obtain ⟨h1, h2, h3⟩ := ih h
        exact ⟨h1, Nat.lt_trans h2 hu, h3⟩
      | eq =>
        simp only [hp, Option.some.injEq] at h
        subst h
        exact ⟨hl, hu, hp⟩
      | gt =>
        simp only [hp] at h
        obtain ⟨h1, h2, h3⟩ := ih h
        exact ⟨by omega, h2, h3⟩
    · simp [hlu] at h

/-- A range is not searched in vain when every probe that misses points at one index. -/
theorem bisect_reaches (hmid : MidInside mid) {n i : Nat}
    (hlt : ∀ m < n, probe m = .lt → i < m) (hgt : ∀ m < n, probe m = .gt → m < i)
    (fuel : Nat) {l u : Nat} (hfuel : u ≤ l + fuel) (hun : u ≤ n) (hli : l ≤ i) (hiu : i < u) :
    ∃ j, bisect mid probe fuel l u = some j := by
  induction fuel generalizing l u with
  | zero => omega
  | succ fuel ih =>
    have hlu : l < u := by omega
    obtain ⟨hl, hu⟩ := hmid l u hlu
    simp only [bisect, hlu, ite_true]
    cases hp : probe (mid l u) with
    | lt =>
      have him := hlt (mid l u) (by omega) hp
      exact ih (by omega) (by omega) hli him
    | eq => exact ⟨mid l u, rfl⟩
    | gt =>
      have him := hgt (mid l u) (by omega) hp
      exact ih (by omega) hun him hiu

/-- Over ordered probes a range holding a match is never searched in vain. -/
theorem bisect_complete (hmid : MidInside mid) {n : Nat} (hord : Ordered probe n)
    (fuel : Nat) {l u i : Nat} (hfuel : u ≤ l + fuel) (hun : u ≤ n)
    (hli : l ≤ i) (hiu : i < u) (hi : probe i = .eq) :
    ∃ j, bisect mid probe fuel l u = some j := by
  refine bisect_reaches hmid (fun m _ hp => ?_) (fun m hm hp => ?_) fuel hfuel hun hli hiu
  · by_contra hle
    have := hord.lt_right m i (by omega) (by omega) hp
    simp [hi] at this
  · by_contra hle
    have := hord.gt_left i m (by omega) hm hp
    simp [hi] at this

/-- The indexes from which a search goes right when nothing stops it, in their order. -/
def descent (mid : Nat → Nat → Nat) (left : Nat → Bool) : Nat → Nat → Nat → List Nat
  | 0, _, _ => []
  | n + 1, l, u =>
    if l < u then
      if left (mid l u) then descent mid left n l (mid l u)
      else mid l u :: descent mid left n (mid l u + 1) u
    else []

/-- When one test sends the search left and another stops it, it stops where the descent first
passes the second. -/
theorem bisect_eq_find? {left hit : Nat → Bool}
    (hprobe : ∀ m, probe m = if left m then .lt else if hit m then .eq else .gt) (fuel l u : Nat) :
    bisect mid probe fuel l u = (descent mid left fuel l u).find? hit := by
  induction fuel generalizing l u with
  | zero => rfl
  | succ fuel ih =>
    by_cases hlu : l < u
    · simp only [bisect, descent, hlu, ite_true, hprobe]
      cases hleft : left (mid l u) with
      | true => exact ih l (mid l u)
      | false =>
        cases hhit : hit (mid l u) with
        | true => simp [hhit]
        | false => simpa [hhit] using ih (mid l u + 1) u
    · simp [bisect, descent, hlu]

/-- The middle of the C library's `bsearch`. -/
def halfMid (l u : Nat) : Nat := (l + u) / 2

/-- The middle of a search over the closed range `[l, u - 1]`. -/
def closedMid (l u : Nat) : Nat := l + (u - 1 - l) / 2

/-- The middle of a half-open range lies in it. -/
theorem halfMid_inside : MidInside halfMid := by
  intro l u h
  unfold halfMid
  omega

/-- The middle of a closed range lies in it. -/
theorem closedMid_inside : MidInside closedMid := by
  intro l u h
  unfold closedMid
  omega

/-- The standard library search over `n` sorted entries. -/
def bsearch (probe : Nat → Ordering) (n : Nat) : Option Nat := bisect halfMid probe n 0 n

/-- Over ordered probes `bsearch` finds a match that is the only one. -/
theorem bsearch_unique {n i : Nat} (hord : Ordered probe n) (hi : i < n) (heq : probe i = .eq)
    (huniq : ∀ j < n, probe j = .eq → j = i) : bsearch probe n = some i := by
  obtain ⟨j, hj⟩ :=
    bisect_complete halfMid_inside hord n (Nat.le_add_left n 0) (Nat.le_refl n) (Nat.zero_le i)
      hi heq
  obtain ⟨-, hjn, hjeq⟩ := bisect_sound halfMid_inside n hj
  rw [huniq j hjn hjeq] at hj
  exact hj

/-- When entries `0` and `1` match and every later one lies right of the key, `bsearch`
reports entry `1`. -/
theorem bsearch_second {n : Nat} (hn : 2 ≤ n) (h1 : probe 1 = .eq)
    (hlt : ∀ i, 2 ≤ i → i < n → probe i = .lt) : bsearch probe n = some 1 := by
  suffices h : ∀ fuel u, 2 ≤ u → u ≤ n → u ≤ fuel + 1 →
      bisect halfMid probe fuel 0 u = some 1 from h n n hn (Nat.le_refl n) (by omega)
  intro fuel
  induction fuel with
  | zero => intro u hu _ hf; omega
  | succ fuel ih =>
    intro u hu hun hf
    have hpos : 0 < u := by omega
    simp only [bisect, hpos, ite_true]
    by_cases hm : halfMid 0 u = 1
    · rw [hm, h1]
    have hge : 2 ≤ halfMid 0 u := by unfold halfMid at hm ⊢; omega
    have hlt' : halfMid 0 u < u := (halfMid_inside 0 u hpos).2
    rw [hlt _ hge (by omega)]
    exact ih _ hge (by omega) (by omega)

end Gunwinder.Core
