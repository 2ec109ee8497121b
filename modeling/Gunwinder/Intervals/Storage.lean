import Gunwinder.Native.IntervalArray

/-!
# What an interval array stores

`gu_interval_array_init` sorts its items by start and closes open ends with the next start.
It then looks at the end of the last item only to choose between 32-bit and 64-bit storage.
The array is compared with the same items kept in 64 bits.
-/

namespace Gunwinder

open Gunwinder.Core

variable {α : Type}

/-! ## Sorted and filled -/

/-- The items in the order of their starts. -/
def sortedItems (items : List (Interval α)) : List (Interval α) :=
  items.insertionSort fun a b => a.start ≤ b.start

/-- The items as they are to be stored. -/
def filledItems (items : List (Interval α)) : List (Interval α) := fillEnds (sortedItems items)

/-- An item whose end, if it is open, is closed at the start of the item behind it. -/
def Interval.close (item : Interval α) (next : Option (Interval α)) : Interval α :=
  if item.fin = 0#64 then
    { item with fin :=
        match next with
        | some following => following.start
        | none => if item.start < uint32Max then uint32Max - 1#64 else uint64Max - 1#64 }
  else item

@[simp] theorem Interval.close_start (item : Interval α) (next : Option (Interval α)) :
    (item.close next).start = item.start := by
  unfold Interval.close
  split <;> rfl

@[simp] theorem Interval.close_payload (item : Interval α) (next : Option (Interval α)) :
    (item.close next).payload = item.payload := by
  unfold Interval.close
  split <;> rfl

variable {item : Interval α}

private theorem Interval.close_of_ne (h : item.fin ≠ 0#64) (next : Option (Interval α)) :
    item.close next = item := by
  unfold Interval.close
  exact if_neg h

/-- An open interval ends at the next. -/
theorem Interval.close_fin_some (h : item.fin = 0#64) (next : Interval α) :
    (item.close (some next)).fin = next.start := by
  unfold Interval.close
  rw [if_pos h]

variable (items : List (Interval α))

/-- Each interval is closed by the next. -/
theorem getElem?_fillEnds (i : Nat) :
    (fillEnds items)[i]? = items[i]?.map fun item => item.close items[i + 1]? := by
  induction items generalizing i with
  | nil => rfl
  | cons item rest ih =>
    cases rest with
    | nil =>
      cases i with
      | zero => rfl
      | succ i => rfl
    | cons next rest =>
      cases i with
      | zero => rfl
      | succ i => exact ih i

/-- Filling changes no start. -/
theorem map_start_fillEnds : (fillEnds items).map Interval.start = items.map Interval.start := by
  apply List.ext_getElem?
  intro i
  rw [List.getElem?_map, List.getElem?_map, getElem?_fillEnds, Option.map_map]
  congr 1
  funext item
  exact item.close_start _

/-- Closed intervals stay as they are. -/
theorem fillEnds_of_closed {items : List (Interval α)} (h : ∀ item ∈ items, item.fin ≠ 0#64) :
    fillEnds items = items := by
  apply List.ext_getElem?
  intro i
  rw [getElem?_fillEnds]
  cases hi : items[i]? with
  | none => rfl
  | some item =>
    rw [Option.map_some, Interval.close_of_ne (h item (List.mem_of_getElem? hi))]

/-- Sorting keeps the intervals. -/
theorem perm_sortedItems : (sortedItems items).Perm items :=
  List.perm_insertionSort _ items

/-- Sorting orders the starts. -/
theorem pairwise_sortedItems : (sortedItems items).Pairwise fun a b => a.start ≤ b.start :=
  List.pairwise_insertionSort _ items

/-- Closing keeps the starts in order. -/
theorem pairwise_filledItems : (filledItems items).Pairwise fun a b => a.start ≤ b.start := by
  have hstarts := List.pairwise_map.mpr (pairwise_sortedItems items)
  rw [← map_start_fillEnds] at hstarts
  exact List.pairwise_map.mp hstarts

/-- No interval starts behind the last. -/
theorem start_le_last {items : List (Interval α)} {last : Interval α}
    (hlast : (filledItems items).getLast? = some last) (hitem : item ∈ filledItems items) :
    item.start ≤ last.start := by
  obtain ⟨init, hinit⟩ := List.getLast?_eq_some_iff.mp hlast
  have hsorted := pairwise_filledItems items
  rw [hinit] at hsorted hitem
  rcases List.mem_append.mp hitem with hin | hin
  · exact (List.pairwise_append.mp hsorted).2.2 item hin last (List.mem_singleton_self _)
  · rw [List.mem_singleton.mp hin]
    exact BitVec.le_refl _

/-- Sorting and filling keep every item, up to its end. -/
theorem exists_filledItem {items : List (Interval α)} (h : item ∈ items) :
    ∃ filled ∈ filledItems items, filled.start = item.start := by
  obtain ⟨i, hi⟩ := List.getElem?_of_mem ((perm_sortedItems items).mem_iff.mpr h)
  have hfilled : (filledItems items)[i]? = some (item.close (sortedItems items)[i + 1]?) := by
    rw [filledItems, getElem?_fillEnds, hi, Option.map_some]
  exact ⟨_, List.mem_of_getElem? hfilled, item.close_start _⟩

/-- A filled item is one of the given items, with its end as it was unless it was open. -/
theorem mem_of_filledItem {items : List (Interval α)} {filled : Interval α}
    (h : filled ∈ filledItems items) :
    ∃ item ∈ items, filled.start = item.start ∧ filled.payload = item.payload ∧
      (item.fin ≠ 0#64 → filled.fin = item.fin) := by
  obtain ⟨i, hi⟩ := List.getElem?_of_mem h
  rw [filledItems, getElem?_fillEnds] at hi
  obtain ⟨item, hitem, rfl⟩ := Option.map_eq_some_iff.mp hi
  exact ⟨item, (perm_sortedItems items).mem_iff.mp (List.mem_of_getElem? hitem),
    item.close_start _, item.close_payload _, fun hne => by rw [Interval.close_of_ne hne]⟩

/-! ## Compact storage -/

/-- The items kept in 64 bits. -/
def wideArray (items : List (Interval α)) : Option (IntervalArray α) :=
  match (filledItems items).head?, (filledItems items).getLast? with
  | some first, some last => some ⟨filledItems items, first.start, last.fin⟩
  | _, _ => none

/-- The fields of a wide table. -/
theorem wideArray_eq_some {items : List (Interval α)} {array : IntervalArray α}
    (h : wideArray items = some array) :
    ∃ first last, (filledItems items).head? = some first ∧
      (filledItems items).getLast? = some last ∧
      array = ⟨filledItems items, first.start, last.fin⟩ := by
  unfold wideArray at h
  split at h
  · rename_i first last hfirst hlast
    exact ⟨first, last, hfirst, hlast, (Option.some.inj h).symm⟩
  · cases h

/-- Small words survive narrowing. -/
theorem narrow_eq_iff (w : Word) : narrow w = w ↔ w ≤ uint32Max := by
  have hmax : uint32Max.toNat = 2 ^ 32 - 1 := rfl
  rw [← BitVec.toNat_inj, narrow, BitVec.toNat_setWidth, BitVec.toNat_setWidth, BitVec.le_def, hmax]
  have := w.isLt
  omega

/-- Narrowing does not enlarge. -/
theorem narrow_le (w : Word) : narrow w ≤ w := by
  rw [BitVec.le_def, narrow, BitVec.toNat_setWidth, BitVec.toNat_setWidth]
  exact (Nat.mod_le _ _).trans (Nat.mod_le _ _)

/-- An item with both bounds in 32 bits. -/
def Interval.Fits (item : Interval α) : Prop := item.start ≤ uint32Max ∧ item.fin ≤ uint32Max

/-- The item as the compact form stores it. -/
def Interval.narrowed (item : Interval α) : Interval α :=
  { item with start := narrow item.start, fin := narrow item.fin }

private theorem Interval.narrowed_eq_iff (item : Interval α) :
    item.narrowed = item ↔ item.Fits := by
  obtain ⟨start, fin, payload⟩ := item
  simp only [Interval.narrowed, Interval.mk.injEq, and_true, narrow_eq_iff, Interval.Fits]

/-- The table is narrow below `UINT32_MAX`. -/
theorem guIntervalArrayInit_eq :
    guIntervalArrayInit items =
      match (filledItems items).head?, (filledItems items).getLast? with
      | some first, some last =>
        if last.fin < uint32Max then
          some ⟨(filledItems items).map Interval.narrowed, narrow first.start, narrow last.fin⟩
        else some ⟨filledItems items, first.start, last.fin⟩
      | _, _ => none := rfl

/-- The 32-bit form is chosen only for items that fit it. -/
def CompactSafe (items : List (Interval α)) : Prop :=
  ∀ last ∈ (filledItems items).getLast?, last.fin < uint32Max →
    ∀ item ∈ filledItems items, item.Fits

/-- Where the choice of storage is safe, the array holds the filled items. -/
theorem guIntervalArrayInit_of_safe {items : List (Interval α)} (h : CompactSafe items) :
    guIntervalArrayInit items = wideArray items := by
  rw [guIntervalArrayInit_eq, wideArray]
  cases hfirst : (filledItems items).head? with
  | none => rfl
  | some first =>
    cases hlast : (filledItems items).getLast? with
    | none => rfl
    | some last =>
      dsimp only
      split
      · rename_i hcompact
        have hfits := h last hlast hcompact
        have hitems : (filledItems items).map Interval.narrowed = filledItems items := by
          rw [List.map_congr_left fun item hitem => (item.narrowed_eq_iff).mpr (hfits item hitem)]
          exact List.map_id _
        have hstart := (hfits first (List.mem_of_mem_head? hfirst)).1
        have hfin := (hfits last (List.mem_of_getLast? hlast)).2
        rw [hitems, (narrow_eq_iff _).mpr hstart, (narrow_eq_iff _).mpr hfin]
      · rfl

/-- The array stores what it was given, and is searched like it, exactly when the end of the
last item tells the width of all of them. -/
theorem guIntervalArrayInit_lossless_iff (items : List (Interval α)) :
    ((guIntervalArrayInit items).map IntervalArray.items =
        (wideArray items).map IntervalArray.items ∧
      ∀ addr, (guIntervalArrayInit items).bind (guIntervalArraySearch · addr) =
        (wideArray items).bind (guIntervalArraySearch · addr)) ↔ CompactSafe items := by
  constructor
  · rintro ⟨hstored, -⟩ last hlast hcompact item hitem
    obtain ⟨first, hfirst⟩ : ∃ first, (filledItems items).head? = some first := by
      cases hfilled : filledItems items with
      | nil =>
        rw [hfilled] at hitem
        cases hitem
      | cons first rest => exact ⟨first, rfl⟩
    have hlast : (filledItems items).getLast? = some last := hlast
    rw [guIntervalArrayInit_eq, wideArray] at hstored
    simp only [hfirst, hlast, if_pos hcompact, Option.map_some, Option.some.injEq] at hstored
    have hsame := List.map_inj_left.mp (hstored.trans (List.map_id _).symm)
    exact item.narrowed_eq_iff.mp (hsame item hitem)
  · intro h
    rw [guIntervalArrayInit_of_safe h]
    exact ⟨rfl, fun _ => rfl⟩

/-- An outer item above 4 GiB around a small last one: its end is cut to 0, so an address that
the items hold is not found. -/
theorem guIntervalArrayInit_cuts_outer :
    let items : List (Interval Bool) := [⟨0x10#64, 0x200000000#64, true⟩, ⟨0x20#64, 0x30#64, false⟩]
    (guIntervalArrayInit items).map IntervalArray.items =
      some [⟨0x10#64, 0#64, true⟩, ⟨0x20#64, 0x30#64, false⟩] ∧
    (wideArray items).bind (guIntervalArraySearch · 0x18#64) =
      some (0, ⟨0x10#64, 0x200000000#64, true⟩) ∧
    (guIntervalArrayInit items).bind (guIntervalArraySearch · 0x18#64) = none := by
  decide +kernel

end Gunwinder
