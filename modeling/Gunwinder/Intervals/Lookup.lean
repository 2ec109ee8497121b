import Gunwinder.Intervals.Storage
import Mathlib.Data.Nat.Find

/-!
# Searching interval arrays

The search bisects by start. It cannot miss an item that holds the address when all items
behind it start above the address; for disjoint items this is every item that holds it,
and the lookup is exact.
-/

namespace Gunwinder

open Gunwinder.Core

variable {α : Type}

/-! ## The probes of the search -/

section Probe

variable {array : IntervalArray α} {addr : Word} {i : Nat} {item : Interval α}

variable (hi : array.items[i]? = some item)
include hi

private theorem probe_eq_iff : array.probe addr i = .eq ↔ item.Contains addr := by
  simp only [IntervalArray.probe, hi, Interval.Contains]
  split
  · simp_all
  · split <;> simp_all

/-- A probe sends the search left only below its start. -/
theorem lt_of_probe_lt (h : array.probe addr i = .lt) : addr < item.start := by
  simp only [IntervalArray.probe, hi] at h
  split at h
  · cases h
  · split at h
    · assumption
    · cases h

/-- A probe sends the search right only from its start on. -/
theorem le_of_probe_gt (h : array.probe addr i = .gt) : item.start ≤ addr := by
  simp only [IntervalArray.probe, hi] at h
  split at h
  · cases h
  split at h
  · cases h
  · rename_i hlt
    exact BitVec.not_lt.mp hlt

end Probe

/-! ## The path of the search -/

/-- The item starts behind the address; so does what is outside of the array. -/
def IntervalArray.startsBehind (array : IntervalArray α) (addr : Word) (i : Nat) : Bool :=
  match array.items[i]? with
  | none => true
  | some item => addr < item.start

/-- The item ends behind the address. -/
def IntervalArray.endsBehind (array : IntervalArray α) (addr : Word) (i : Nat) : Bool :=
  match array.items[i]? with
  | none => false
  | some item => addr < item.fin

/-- The items from which a search by starts alone goes right. -/
def IntervalArray.path (array : IntervalArray α) (addr : Word) : List Nat :=
  descent closedMid (array.startsBehind addr) array.items.length 0 array.items.length

section Path

variable {array : IntervalArray α} {addr : Word} {i : Nat} {item : Interval α}

private theorem probe_eq (array : IntervalArray α) (addr : Word) (m : Nat) :
    array.probe addr m = if array.startsBehind addr m then .lt
      else if array.endsBehind addr m then .eq else .gt := by
  unfold IntervalArray.probe IntervalArray.startsBehind IntervalArray.endsBehind
  cases array.items[m]? with
  | none => rfl
  | some item =>
    by_cases hstart : addr < item.start
    · have hnot : ¬item.start ≤ addr := BitVec.not_le.mpr hstart
      simp [hstart, hnot]
    · have hle : item.start ≤ addr := BitVec.not_lt.mp hstart
      by_cases hfin : addr < item.fin <;> simp [hstart, hle, hfin]

/-- The search returns the first item of its path that ends behind the address. -/
theorem guIntervalArraySearch_eq_some_iff :
    guIntervalArraySearch array addr = some (i, item) ↔
      (array.min ≤ addr ∧ addr ≤ array.max) ∧
      (array.path addr).find? (array.endsBehind addr) = some i ∧ array.items[i]? = some item := by
  have hbounds : ¬(addr < array.min ∨ array.max < addr) ↔ array.min ≤ addr ∧ addr ≤ array.max := by
    rw [not_or, BitVec.not_lt, BitVec.not_lt]
  unfold guIntervalArraySearch
  rw [bisect_eq_find? (probe_eq array addr)]
  by_cases hout : addr < array.min ∨ array.max < addr
  · rw [if_pos hout]
    exact ⟨nofun, fun ⟨hin, _⟩ => absurd hout (hbounds.mpr hin)⟩
  · rw [if_neg hout]
    constructor
    · intro h
      split at h
      · cases h
      rename_i mid hmid
      obtain ⟨item', hitem, heq⟩ := Option.map_eq_some_iff.mp h
      cases heq
      exact ⟨hbounds.mp hout, hmid, hitem⟩
    · rintro ⟨-, hpath, hitem⟩
      have hpath : (descent closedMid (array.startsBehind addr) array.items.length 0
          array.items.length).find? (array.endsBehind addr) = some i := hpath
      simp only [hpath, hitem, Option.map_some]

end Path

/-! ## Items that cannot be missed -/

/-- An array with sorted starts, the least of which is recorded. -/
structure IntervalArray.Sorted (array : IntervalArray α) : Prop where
  starts : array.items.Pairwise fun a b => a.start ≤ b.start
  min_le : ∀ item ∈ array.items, array.min ≤ item.start

variable {items : List (Interval α)}

/-- Starts ascend with the index. -/
theorem sorted_getElem? (h : items.Pairwise fun a b => a.start ≤ b.start) {i j : Nat}
    {a b : Interval α} (hi : items[i]? = some a) (hj : items[j]? = some b) (hij : i < j) :
    a.start ≤ b.start := by
  obtain ⟨hlt, rfl⟩ := List.getElem?_eq_some_iff.mp hi
  obtain ⟨hlt', rfl⟩ := List.getElem?_eq_some_iff.mp hj
  exact List.pairwise_iff_getElem.mp h i j hlt hlt' hij

variable {array : IntervalArray α}

/-- The last item that starts at or before an address is not missed. -/
theorem guIntervalArraySearch_of_last (hsorted : array.Sorted) {addr : Word} {i : Nat}
    {item : Interval α} (hi : array.items[i]? = some item) (hcontains : item.Contains addr)
    (hmax : addr ≤ array.max)
    (hbehind : ∀ j next, i < j → array.items[j]? = some next → addr < next.start) :
    ∃ j found, guIntervalArraySearch array addr = some (j, found) ∧
      array.items[j]? = some found ∧ found.Contains addr := by
  have hlength : i < array.items.length := (List.getElem?_eq_some_iff.mp hi).1
  have hget : ∀ m < array.items.length, ∃ b, array.items[m]? = some b :=
    fun m hm => ⟨_, List.getElem?_eq_getElem hm⟩
  obtain ⟨j, hj⟩ : ∃ j, bisect closedMid (array.probe addr) array.items.length 0
      array.items.length = some j := by
    refine bisect_reaches closedMid_inside (fun m hm hp => ?_) (fun m hm hp => ?_) _
      (Nat.le_add_left _ _) le_rfl (Nat.zero_le i) hlength
    · -- below the start of the item everything starts at or before the address
      obtain ⟨b, hb⟩ := hget m hm
      have hlt := lt_of_probe_lt hb hp
      by_contra hle
      rcases Nat.lt_or_eq_of_le (Nat.not_lt.mp hle) with hmi | rfl
      · have hstart := sorted_getElem? hsorted.starts hb hi hmi
        exact absurd (BitVec.le_trans hstart hcontains.1) (BitVec.not_le.mpr hlt)
      · cases hb.symm.trans hi
        exact absurd hcontains.1 (BitVec.not_le.mpr hlt)
    · obtain ⟨b, hb⟩ := hget m hm
      have hle := le_of_probe_gt hb hp
      rcases Nat.lt_trichotomy m i with hmi | rfl | hmi
      · exact hmi
      · cases hb.symm.trans hi
        rw [(probe_eq_iff hi).mpr hcontains] at hp
        cases hp
      · exact absurd (hbehind m b hmi hb) (BitVec.not_lt.mpr hle)
  obtain ⟨-, hjlt, hprobe⟩ := bisect_sound closedMid_inside _ hj
  obtain ⟨found, hfound⟩ := hget j hjlt
  have hholds := (probe_eq_iff hfound).mp hprobe
  have hmin : array.min ≤ addr :=
    BitVec.le_trans (hsorted.min_le item (List.mem_of_getElem? hi)) hcontains.1
  rw [bisect_eq_find? (probe_eq array addr)] at hj
  exact ⟨j, found, guIntervalArraySearch_eq_some_iff.mpr ⟨⟨hmin, hmax⟩, hj, hfound⟩, hfound, hholds⟩

/-- Among items with a start at or before an address there is a last one. -/
theorem exists_last_start {addr : Word} (hlow : ∃ item ∈ items, item.start ≤ addr) :
    ∃ i : Nat, ∃ item : Interval α, items[i]? = some item ∧ item.start ≤ addr ∧
      ∀ (j : Nat) (next : Interval α), i < j → items[j]? = some next → addr < next.start := by
  classical
  obtain ⟨low, hlow, hle⟩ := hlow
  obtain ⟨k, hk⟩ := List.getElem?_of_mem hlow
  have hlength := (List.getElem?_eq_some_iff.mp hk).1
  let Starts : Nat → Prop := fun i => ∃ item, items[i]? = some item ∧ item.start ≤ addr
  have hspec : Starts (Nat.findGreatest Starts items.length) :=
    Nat.findGreatest_spec (Nat.le_of_lt hlength) ⟨low, hk, hle⟩
  obtain ⟨item, hitem, hbefore⟩ := hspec
  refine ⟨_, item, hitem, hbefore, fun j next hj hnext => BitVec.not_le.mp fun hle => ?_⟩
  have hlt := (List.getElem?_eq_some_iff.mp hnext).1
  exact Nat.findGreatest_is_greatest hj (Nat.le_of_lt hlt) ⟨next, hnext, hle⟩

/-- A table that is built is sorted. -/
theorem sorted_of_wideArray (h : wideArray items = some array) : array.Sorted := by
  have hstarts := pairwise_filledItems items
  obtain ⟨first, last, hfirst, -, rfl⟩ := wideArray_eq_some h
  refine ⟨hstarts, fun item hitem => ?_⟩
  dsimp only at hitem ⊢
  cases hfilled : filledItems items with
  | nil =>
    rw [hfilled] at hfirst
    cases hfirst
  | cons head rest =>
    rw [hfilled] at hfirst hitem hstarts
    cases hfirst
    rcases List.mem_cons.mp hitem with rfl | hitem
    · exact BitVec.le_refl _
    · exact (List.pairwise_cons.mp hstarts).1 item hitem

/-! ## Disjoint items -/

/-- Ranges without a common address. -/
def Interval.Apart (a b : Interval α) : Prop := a.fin ≤ b.start ∨ b.fin ≤ a.start

/-- An array of ranges without common addresses, within the recorded bounds. -/
structure IntervalArray.Disjoint (array : IntervalArray α) : Prop extends array.Sorted where
  apart : array.items.Pairwise fun a b => a.fin ≤ b.start
  fin_le : ∀ item ∈ array.items, item.fin ≤ array.max

instance (array : IntervalArray α) : Decidable array.Disjoint :=
  decidable_of_iff ((array.items.Pairwise fun a b => a.start ≤ b.start) ∧
      (∀ item ∈ array.items, array.min ≤ item.start) ∧
      (array.items.Pairwise fun a b => a.fin ≤ b.start) ∧
      ∀ item ∈ array.items, item.fin ≤ array.max)
    ⟨fun ⟨hstarts, hmin, hapart, hfin⟩ => ⟨⟨hstarts, hmin⟩, hapart, hfin⟩,
      fun h => ⟨h.starts, h.min_le, h.apart, h.fin_le⟩⟩

namespace IntervalArray.Disjoint

variable {array : IntervalArray α} (h : array.Disjoint) {addr : Word} {a b : Interval α}
include h

/-- Two places that hold one address are one place. -/
theorem index_eq {i j : Nat} (hi : array.items[i]? = some a) (hj : array.items[j]? = some b)
    (ha : a.Contains addr) (hb : b.Contains addr) : i = j := by
  -- of two places the lower one ends at or before the start of the other
  have hlow : ∀ {m k : Nat} {c d : Interval α}, array.items[m]? = some c →
      array.items[k]? = some d → c.Contains addr → d.Contains addr → ¬m < k := by
    intro m k c d hm hk hc hd hmk
    obtain ⟨hlt, rfl⟩ := List.getElem?_eq_some_iff.mp hm
    obtain ⟨hlt', rfl⟩ := List.getElem?_eq_some_iff.mp hk
    have hle := List.pairwise_iff_getElem.mp h.apart m k hlt hlt' hmk
    exact absurd hc.2 (BitVec.not_lt.mpr (BitVec.le_trans hle hd.1))
  have hij := hlow hi hj ha hb
  have hji := hlow hj hi hb ha
  omega

/-- One interval holds an address. -/
theorem eq_of_contains (ha : a ∈ array.items) (hb : b ∈ array.items) (haddr : a.Contains addr)
    (haddr' : b.Contains addr) : a = b := by
  obtain ⟨i, hi⟩ := List.getElem?_of_mem ha
  obtain ⟨j, hj⟩ := List.getElem?_of_mem hb
  obtain rfl := h.index_eq hi hj haddr haddr'
  exact Option.some.inj (hi.symm.trans hj)

/-- An address is found in the range that holds it. -/
theorem search (ha : a ∈ array.items) (haddr : a.Contains addr) :
    ∃ index, guIntervalArraySearch array addr = some (index, a) := by
  obtain ⟨i, hi⟩ := List.getElem?_of_mem ha
  have hbehind : ∀ j next, i < j → array.items[j]? = some next → addr < next.start := by
    intro j next hij hj
    refine BitVec.not_le.mp fun hstart => ?_
    obtain ⟨hilt, rfl⟩ := List.getElem?_eq_some_iff.mp hi
    obtain ⟨hjlt, rfl⟩ := List.getElem?_eq_some_iff.mp hj
    have hfollow := List.pairwise_iff_getElem.mp h.apart i j hilt hjlt hij
    exact absurd haddr.2 (BitVec.not_lt.mpr (BitVec.le_trans hfollow hstart))
  obtain ⟨j, found, hsearch, hfound, hholds⟩ := guIntervalArraySearch_of_last h.toSorted hi haddr
    (BitVec.le_trans (BitVec.le_of_lt haddr.2) (h.fin_le a ha)) hbehind
  obtain rfl := h.index_eq hi hfound haddr hholds
  cases hi.symm.trans hfound
  exact ⟨i, hsearch⟩

end IntervalArray.Disjoint

section Disjoint

variable {items : List (Interval α)} (hrange : ∀ item ∈ items, item.start < item.fin)
include hrange

/-- Items with an address have no open end to fill. -/
theorem filledItems_of_range : filledItems items = sortedItems items := by
  refine fillEnds_of_closed fun item hitem hzero => ?_
  have hlt := hrange item ((perm_sortedItems items).mem_iff.mp hitem)
  rw [hzero] at hlt
  exact absurd hlt BitVec.not_lt_zero

variable (hapart : items.Pairwise Interval.Apart)
include hapart

/-- Disjoint items follow each other once they are sorted. -/
theorem pairwise_sortedItems_apart :
    (sortedItems items).Pairwise fun a b => a.fin ≤ b.start := by
  have hperm := perm_sortedItems items
  have hsymm : ∀ {a b : Interval α}, a.Apart b → b.Apart a := Or.symm
  have hboth := (pairwise_sortedItems items).and ((hperm.pairwise_iff hsymm).mpr hapart)
  refine hboth.imp_of_mem fun {a b} ha hb hab => ?_
  obtain ⟨hle, hdisjoint⟩ := hab
  refine hdisjoint.resolve_right fun hba => ?_
  have hlt := hrange b (hperm.mem_iff.mp hb)
  exact absurd (BitVec.le_trans hba hle) (BitVec.not_le.mpr hlt)

/-- The last of disjoint items ends highest. -/
theorem le_last_of_apart {last item : Interval α} (hlast : (sortedItems items).getLast? = some last)
    (hitem : item ∈ sortedItems items) : item.start ≤ last.start ∧ item.fin ≤ last.fin := by
  obtain ⟨init, hinit⟩ := List.getLast?_eq_some_iff.mp hlast
  have hfollow := pairwise_sortedItems_apart hrange hapart
  have hmem : ∀ {item}, item ∈ sortedItems items → item ∈ items :=
    (perm_sortedItems items).mem_iff.mp
  have hlt := hrange item (hmem hitem)
  have hlt' := hrange last (hmem (List.mem_of_getLast? hlast))
  rw [hinit] at hfollow hitem
  rcases List.mem_append.mp hitem with hin | hin
  · have hle := (List.pairwise_append.mp hfollow).2.2 item hin last (List.mem_singleton_self _)
    exact ⟨BitVec.le_trans (BitVec.le_of_lt hlt) hle, BitVec.le_trans hle (BitVec.le_of_lt hlt')⟩
  · rw [List.mem_singleton.mp hin]
    exact ⟨BitVec.le_refl _, BitVec.le_refl _⟩

/-- Disjoint items are stored as they are. -/
theorem compactSafe_of_apart : CompactSafe items := by
  intro last hlast hcompact item hitem
  rw [filledItems_of_range hrange] at hlast hitem
  obtain ⟨hstart, hfin⟩ := le_last_of_apart hrange hapart hlast hitem
  have hlt := hrange last ((perm_sortedItems items).mem_iff.mp (List.mem_of_getLast? hlast))
  have hmax := BitVec.le_of_lt hcompact
  exact ⟨BitVec.le_trans hstart (BitVec.le_trans (BitVec.le_of_lt hlt) hmax),
    BitVec.le_trans hfin hmax⟩

/-- Disjoint items are stored as a disjoint array. -/
theorem disjoint_of_init (h : guIntervalArrayInit items = some array) :
    array.Disjoint ∧ array.items = sortedItems items := by
  have hwide := (guIntervalArrayInit_of_safe (compactSafe_of_apart hrange hapart)).symm.trans h
  have hsorted := sorted_of_wideArray hwide
  obtain ⟨first, last, -, hlast, rfl⟩ := wideArray_eq_some hwide
  have hfilled := filledItems_of_range hrange
  dsimp only at hsorted ⊢
  rw [hfilled] at hlast
  refine ⟨⟨hsorted, ?_, fun item hitem => ?_⟩, hfilled⟩
  · exact hfilled ▸ pairwise_sortedItems_apart hrange hapart
  · exact (le_last_of_apart hrange hapart hlast (hfilled ▸ hitem)).2

end Disjoint

/-- Lookup in disjoint ranges is exact: an address is found in the range that holds it, with its
bounds and payload, and an address in no range is not found. -/
theorem guIntervalArraySearch_exact {items : List (Interval α)} (hne : items ≠ [])
    (hrange : ∀ item ∈ items, 0#64 < item.fin ∧ item.start < item.fin)
    (hapart : items.Pairwise Interval.Apart) :
    ∃ array, guIntervalArrayInit items = some array ∧ ∀ addr,
      (∀ item ∈ items, item.Contains addr →
        ∃ index, guIntervalArraySearch array addr = some (index, item)) ∧
      ((∀ item ∈ items, ¬item.Contains addr) → guIntervalArraySearch array addr = none) := by
  have hlt : ∀ item ∈ items, item.start < item.fin := fun item hitem => (hrange item hitem).2
  obtain ⟨array, harray⟩ : ∃ array, guIntervalArrayInit items = some array :=
    Option.ne_none_iff_exists'.mp fun h => hne (guIntervalArrayInit_eq_none.mp h)
  obtain ⟨hdisjoint, hitems⟩ := disjoint_of_init hlt hapart harray
  have hmem : ∀ item, item ∈ array.items ↔ item ∈ items := by
    intro item
    rw [hitems, (perm_sortedItems items).mem_iff]
  refine ⟨array, harray, fun addr => ⟨fun item hitem hcontains => ?_, fun hnone => ?_⟩⟩
  · exact hdisjoint.search ((hmem item).mpr hitem) hcontains
  · cases hsearch : guIntervalArraySearch array addr with
    | none => rfl
    | some found =>
      obtain ⟨hfound, hholds⟩ := guIntervalArraySearch_sound hsearch
      exact absurd hholds (hnone _ ((hmem _).mp (List.mem_of_getElem? hfound)))

/-- Two intervals with a gap. -/
theorem guIntervalArraySearch_exact_two : ∃ array,
    guIntervalArrayInit [⟨0x20#64, 0x30#64, "b"⟩, ⟨0x10#64, 0x18#64, "a"⟩] = some array ∧
    (∃ index, guIntervalArraySearch array 0x17#64 = some (index, ⟨0x10#64, 0x18#64, "a"⟩)) ∧
    guIntervalArraySearch array 0x18#64 = none := by
  have hne : ([⟨0x20#64, 0x30#64, "b"⟩, ⟨0x10#64, 0x18#64, "a"⟩] :
      List (Interval String)) ≠ [] := by decide
  obtain ⟨array, harray, hsearch⟩ := guIntervalArraySearch_exact hne (by decide)
    (by simp [Interval.Apart])
  exact ⟨array, harray, (hsearch 0x17#64).1 _ (by decide) (by decide),
    (hsearch 0x18#64).2 (by decide)⟩

end Gunwinder
