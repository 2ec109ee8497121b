import Gunwinder.Core.Bisect
import Gunwinder.Native.Target
import Mathlib.Data.List.Sort

/-!
# Interval arrays

Sorted arrays of half-open address ranges with a payload, searched by address. The
payload is a parameter; a NULL payload is the client's business. `qsort` is modelled by a
stable sort on the start address. When the last range ends below `UINT32_MAX` all starts
and ends are stored as 32-bit values.
-/

namespace Gunwinder

open Gunwinder.Core

variable {α : Type}

/-- `struct interval_array_item`. -/
structure Interval (α : Type) where
  start : Word
  fin : Word
  payload : α
  deriving DecidableEq, Repr

/-- The range holds the address. -/
def Interval.Contains (item : Interval α) (addr : Word) : Prop :=
  item.start ≤ addr ∧ addr < item.fin

instance (item : Interval α) (addr : Word) : Decidable (item.Contains addr) :=
  inferInstanceAs (Decidable (item.start ≤ addr ∧ addr < item.fin))

/-- `struct interval_array`; the compact form only truncates the bounds it stores. -/
structure IntervalArray (α : Type) where
  items : List (Interval α)
  min : Word
  max : Word
  deriving DecidableEq, Repr

def uint32Max : Word := 0xffffffff#64

def uint64Max : Word := -1#64

/-- An open end takes the start of the next range. -/
def fillEnds : List (Interval α) → List (Interval α)
  | [] => []
  | [item] =>
    [if item.fin = 0#64 then
      { item with fin := if item.start < uint32Max then uint32Max - 1#64 else uint64Max - 1#64 }
    else item]
  | item :: next :: rest =>
    (if item.fin = 0#64 then { item with fin := next.start } else item) ::
      fillEnds (next :: rest)

/-- A bound stored in the compact form. -/
def narrow (w : Word) : Word := (w.setWidth 32).setWidth 64

/-- `gu_interval_array_init`; `none` is its NULL for an empty list. -/
def guIntervalArrayInit (items : List (Interval α)) : Option (IntervalArray α) :=
  let sorted := fillEnds (items.insertionSort fun a b => a.start ≤ b.start)
  match sorted.head?, sorted.getLast? with
  | some first, some last =>
    if last.fin < uint32Max then
      let stored := sorted.map fun i => { i with start := narrow i.start, fin := narrow i.fin }
      some ⟨stored, narrow first.start, narrow last.fin⟩
    else some ⟨sorted, first.start, last.fin⟩
  | _, _ => none

/-- Closing keeps the number. -/
theorem length_fillEnds (items : List (Interval α)) :
    (fillEnds items).length = items.length := by
  fun_induction fillEnds items with
  | case1 => rfl
  | case2 item => rfl
  | case3 item next rest ih => exact congrArg (· + 1) ih

/-- Only an empty list has no array. -/
theorem guIntervalArrayInit_eq_none {items : List (Interval α)} :
    guIntervalArrayInit items = none ↔ items = [] := by
  constructor
  · intro h
    have hlength := length_fillEnds (items.insertionSort fun a b => a.start ≤ b.start)
    rw [List.length_insertionSort] at hlength
    cases hsorted : fillEnds (items.insertionSort fun a b => a.start ≤ b.start) with
    | nil =>
      rw [hsorted] at hlength
      exact List.length_eq_zero_iff.mp hlength.symm
    | cons first rest =>
      simp only [guIntervalArrayInit, hsorted, List.head?_cons, List.getLast?_cons] at h
      split at h <;> cases h
  · rintro rfl
    rfl

/-- Items with different starts are stored in one order, whatever order they come in. -/
theorem guIntervalArrayInit_perm {items items' : List (Interval α)} (hperm : items.Perm items')
    (hstarts : (items.map Interval.start).Nodup) :
    guIntervalArrayInit items = guIntervalArrayInit items' := by
  have hsorted : items.insertionSort (fun a b => a.start ≤ b.start) =
      items'.insertionSort fun a b => a.start ≤ b.start := by
    refine List.Perm.eq_of_pairwise ?_ (List.pairwise_insertionSort _ items)
      (List.pairwise_insertionSort _ items') ?_
    · intro a b ha hb hab hba
      have ha := (List.perm_insertionSort _ items).mem_iff.mp ha
      have hb := hperm.mem_iff.mpr ((List.perm_insertionSort _ items').mem_iff.mp hb)
      exact List.inj_on_of_nodup_map hstarts ha hb (BitVec.le_antisymm hab hba)
    · exact (List.perm_insertionSort _ items).trans
        (hperm.trans (List.perm_insertionSort _ items').symm)
  simp only [guIntervalArrayInit, hsorted]

/-- The three-way test of the search loop. -/
def IntervalArray.probe (array : IntervalArray α) (addr : Word) (i : Nat) : Ordering :=
  match array.items[i]? with
  | none => .lt
  | some item =>
    if item.start ≤ addr ∧ addr < item.fin then .eq
    else if addr < item.start then .lt else .gt

/-- `gu_interval_array_search`: the index and the item it fills in; `none` is its -1, with the item
cleared. -/
def guIntervalArraySearch (array : IntervalArray α) (addr : Word) : Option (Nat × Interval α) :=
  if addr < array.min ∨ array.max < addr then none
  else
    match bisect closedMid (array.probe addr) array.items.length 0 array.items.length with
    | none => none
    | some mid => array.items[mid]?.map fun item => (mid, item)

/-- A hit is an entry of the array that holds the address. -/
theorem guIntervalArraySearch_sound {array : IntervalArray α} {addr : Word} {i : Nat}
    {item : Interval α} (h : guIntervalArraySearch array addr = some (i, item)) :
    array.items[i]? = some item ∧ item.Contains addr := by
  unfold guIntervalArraySearch at h
  split at h
  · cases h
  split at h
  · cases h
  rename_i mid hmid
  obtain ⟨-, -, hprobe⟩ := bisect_sound closedMid_inside _ hmid
  obtain ⟨item', hitem, heq⟩ := Option.map_eq_some_iff.mp h
  cases heq
  refine ⟨hitem, ?_⟩
  simp only [IntervalArray.probe, hitem] at hprobe
  split at hprobe
  · assumption
  · split at hprobe <;> cases hprobe

end Gunwinder
