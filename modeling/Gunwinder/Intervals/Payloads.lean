import Gunwinder.Native.IntervalArray

/-!
# Payloads of intervals

An interval array is sorted, filled and searched by its bounds. What the payloads are makes
no difference, so a table of records and the table of what the records stand for are one
table under two readings.
-/

namespace Gunwinder

open Gunwinder.Core

variable {α β : Type}

/-- The same range with another reading of its payload. -/
def Interval.mapPayload (f : α → β) (item : Interval α) : Interval β :=
  ⟨item.start, item.fin, f item.payload⟩

/-- The same ranges with another reading of their payloads. -/
def IntervalArray.mapPayload (f : α → β) (array : IntervalArray α) : IntervalArray β :=
  ⟨array.items.map (Interval.mapPayload f), array.min, array.max⟩

variable (f : α → β) (items : List (Interval α))

private theorem fillEnds_mapPayload :
    fillEnds (items.map (Interval.mapPayload f)) =
      (fillEnds items).map (Interval.mapPayload f) := by
  fun_induction fillEnds items with
  | case1 => rfl
  | case2 item =>
    simp only [List.map_cons, List.map_nil, fillEnds]
    by_cases hopen : item.fin = 0#64
    · simp only [Interval.mapPayload, hopen, if_true]
    · simp only [Interval.mapPayload, hopen, if_false]
  | case3 item next rest ih =>
    simp only [List.map_cons, fillEnds] at ih ⊢
    rw [ih]
    by_cases hopen : item.fin = 0#64
    · simp only [Interval.mapPayload, hopen, if_true]
    · simp only [Interval.mapPayload, hopen, if_false]

private theorem insertionSort_mapPayload :
    (items.map (Interval.mapPayload f)).insertionSort (fun a b => a.start ≤ b.start) =
      (items.insertionSort fun a b => a.start ≤ b.start).map (Interval.mapPayload f) :=
  (List.map_insertionSort (fun a b : Interval α => a.start ≤ b.start)
    (fun a b : Interval β => a.start ≤ b.start) (Interval.mapPayload f) items
    fun _ _ _ _ => Iff.rfl).symm

/-- The array of the ranges does not depend on the payloads. -/
theorem guIntervalArrayInit_mapPayload :
    guIntervalArrayInit (items.map (Interval.mapPayload f)) =
      (guIntervalArrayInit items).map (IntervalArray.mapPayload f) := by
  unfold guIntervalArrayInit
  simp only [insertionSort_mapPayload, fillEnds_mapPayload]
  generalize fillEnds (items.insertionSort fun a b => a.start ≤ b.start) = sorted
  simp only [List.head?_map, List.getLast?_map]
  cases sorted.head? with
  | none => rfl
  | some first =>
    cases sorted.getLast? with
    | none => rfl
    | some last =>
      simp only [Option.map_some, Interval.mapPayload, List.map_map]
      split
      · simp only [Option.map_some, IntervalArray.mapPayload, List.map_map]
        rfl
      · rfl

private theorem IntervalArray.probe_mapPayload (array : IntervalArray α) (addr : Word) :
    (array.mapPayload f).probe addr = array.probe addr := by
  funext i
  simp only [IntervalArray.probe, IntervalArray.mapPayload, List.getElem?_map]
  cases array.items[i]? <;> rfl

/-- A search finds the same range. -/
theorem guIntervalArraySearch_mapPayload (array : IntervalArray α) (addr : Word) :
    (guIntervalArraySearch (array.mapPayload f) addr).map Prod.snd =
      ((guIntervalArraySearch array addr).map Prod.snd).map (Interval.mapPayload f) := by
  simp only [guIntervalArraySearch, IntervalArray.probe_mapPayload]
  simp only [IntervalArray.mapPayload, List.length_map, List.getElem?_map]
  split
  · rfl
  · split
    · rfl
    · simp only [Option.map_map, Function.comp_def]

end Gunwinder
