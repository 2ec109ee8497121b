import Gunwinder.Intervals.Lookup
import Gunwinder.Native.KernelSymbols

/-!
# Kernel symbol lookup

With open ends every item reaches to the start of the next one. Of several symbols at one address
all but the last become empty, and the lookup is a search for the predecessor.
-/

namespace Gunwinder

open Gunwinder.Core

variable {α : Type}

/-! ## Arrays of open items -/

variable {item : Interval α}

/-- The item with none behind it is the last one. -/
theorem getLast?_of_next_none {items : List (Interval α)} {i : Nat} (hi : items[i]? = some item)
    (hnext : items[i + 1]? = none) : items.getLast? = some item := by
  have hlength := (List.getElem?_eq_some_iff.mp hi).1
  have hnone := List.getElem?_eq_none_iff.mp hnext
  have hindex : i = items.length - 1 := by omega
  rw [List.getLast?_eq_getElem?, ← hindex, hi]

section Open

variable {items : List (Interval α)} (hopen : ∀ item ∈ items, item.fin = 0#64)
include hopen

/-- An open item ends where the next one starts. -/
theorem fin_of_open {i : Nat} {next : Interval α} (hi : (filledItems items)[i]? = some item)
    (hnext : (filledItems items)[i + 1]? = some next) : item.fin = next.start := by
  rw [filledItems, getElem?_fillEnds] at hi hnext
  obtain ⟨source, hsource, rfl⟩ := Option.map_eq_some_iff.mp hi
  obtain ⟨following, hfollowing, rfl⟩ := Option.map_eq_some_iff.mp hnext
  have hzero := hopen source ((perm_sortedItems items).mem_iff.mp (List.mem_of_getElem? hsource))
  rw [hfollowing, Interval.close_fin_some hzero, Interval.close_start]

/-- The last item gets the largest end of its width. -/
theorem fin_of_open_last (hlast : (filledItems items).getLast? = some item) :
    item.fin = if item.start < uint32Max then uint32Max - 1#64 else uint64Max - 1#64 := by
  rw [List.getLast?_eq_getElem?, filledItems, getElem?_fillEnds, length_fillEnds] at hlast
  obtain ⟨source, hsource, rfl⟩ := Option.map_eq_some_iff.mp hlast
  have hzero := hopen source ((perm_sortedItems items).mem_iff.mp (List.mem_of_getElem? hsource))
  have hbehind : (sortedItems items)[(sortedItems items).length - 1 + 1]? = none := by
    rw [List.getElem?_eq_none_iff]
    omega
  rw [hbehind, Interval.close, if_pos hzero]

/-- Open items are stored as they are. -/
theorem compactSafe_of_open : CompactSafe items := by
  intro last hlast hcompact
  have hlast : (filledItems items).getLast? = some last := hlast
  have hfin := fin_of_open_last hopen hlast
  have hsmall : last.start < uint32Max := by
    by_contra hlarge
    rw [hfin, if_neg hlarge] at hcompact
    exact absurd hcompact (by decide)
  have hstart : ∀ item ∈ filledItems items, item.start ≤ uint32Max := fun item hitem =>
    BitVec.le_trans (start_le_last hlast hitem) (BitVec.le_of_lt hsmall)
  intro item hitem
  refine ⟨hstart item hitem, ?_⟩
  obtain ⟨i, hi⟩ := List.getElem?_of_mem hitem
  cases hnext : (filledItems items)[i + 1]? with
  | some next =>
    rw [fin_of_open hopen hi hnext]
    exact hstart next (List.mem_of_getElem? hnext)
  | none =>
    cases hlast.symm.trans (getLast?_of_next_none hi hnext)
    exact BitVec.le_of_lt hcompact

/-- An item that holds the address is the last one that starts at or before it. -/
theorem le_start_of_open {i : Nat} {other : Interval α} {addr : Word}
    (hi : (filledItems items)[i]? = some item) (hcontains : item.Contains addr)
    (hother : other ∈ filledItems items) (hle : other.start ≤ addr) : other.start ≤ item.start := by
  obtain ⟨j, hj⟩ := List.getElem?_of_mem hother
  have hsorted := pairwise_filledItems items
  rcases Nat.lt_trichotomy j i with hji | rfl | hij
  · exact sorted_getElem? hsorted hj hi hji
  · cases hi.symm.trans hj
    exact BitVec.le_refl _
  · -- the item ends at the start of the next one, which is at or before the other
    have hlength := (List.getElem?_eq_some_iff.mp hj).1
    obtain ⟨next, hnext⟩ : ∃ next, (filledItems items)[i + 1]? = some next :=
      ⟨_, List.getElem?_eq_getElem (by omega)⟩
    have hstart : next.start ≤ other.start := by
      rcases Nat.lt_or_eq_of_le (Nat.succ_le_of_lt hij) with hlt | rfl
      · exact sorted_getElem? hsorted hnext hj hlt
      · cases hnext.symm.trans hj
        exact BitVec.le_refl _
    have hend := hcontains.2
    rw [fin_of_open hopen hi hnext] at hend
    exact absurd (BitVec.le_trans hstart hle) (BitVec.not_le.mpr hend)

/-- A search among open items finds the last one that starts at or before the address. -/
theorem guIntervalArraySearch_open {array : IntervalArray α}
    (harray : guIntervalArrayInit items = some array) {addr : Word}
    (hlow : ∃ item ∈ items, item.start ≤ addr) (hmax : addr < array.max) :
    ∃ index found, guIntervalArraySearch array addr = some (index, found) ∧
      found ∈ filledItems items ∧ found.start ≤ addr ∧
      ∀ item ∈ items, item.start ≤ addr → item.start ≤ found.start := by
  have hwide := (guIntervalArrayInit_of_safe (compactSafe_of_open hopen)).symm.trans harray
  have hsorted := sorted_of_wideArray hwide
  obtain ⟨first, last, -, hlast, rfl⟩ := wideArray_eq_some hwide
  obtain ⟨low, hmem, hlow⟩ := hlow
  obtain ⟨filled, hfilled, hstart⟩ := exists_filledItem hmem
  obtain ⟨i, item, hi, hle, hbehind⟩ := exists_last_start ⟨filled, hfilled, hstart ▸ hlow⟩
  have hcontains : item.Contains addr := by
    refine ⟨hle, ?_⟩
    cases hnext : (filledItems items)[i + 1]? with
    | some next =>
      rw [fin_of_open hopen hi hnext]
      exact hbehind (i + 1) next (Nat.lt_succ_self i) hnext
    | none =>
      cases hlast.symm.trans (getLast?_of_next_none hi hnext)
      exact hmax
  obtain ⟨index, found, hsearch, hfound, hholds⟩ := guIntervalArraySearch_of_last hsorted hi
    hcontains (BitVec.le_of_lt hmax) hbehind
  refine ⟨index, found, hsearch, List.mem_of_getElem? hfound, hholds.1, fun other hother hle => ?_⟩
  obtain ⟨filled, hfilled, hstart⟩ := exists_filledItem hother
  rw [← hstart] at hle ⊢
  exact le_start_of_open hopen hfound hholds hfilled hle

end Open

/-! ## The lookup -/

/-- Kernel symbol lookup is predecessor search: from the lowest symbol up to the end of the array
it returns a symbol with the greatest address at or below the one looked up, and the offset
from there. -/
theorem guSearchKernelSymbol_predecessor (uninit : Nat → Word) (lines : List KallsymsLine)
    (st : KernelSymbols) (hne : textSymbols lines ≠ [])
    (hopen : ∀ item ∈ kernelItems uninit (itemsCap st lines) (textSymbols lines),
      item.fin = 0#64) :
    ∃ array st', guLoadKernelSymbols uninit lines st = (true, st') ∧
      st'.kernelSymbols = some array ∧
      ∀ addr len, (∃ sym ∈ textSymbols lines, sym.addr ≤ addr) → addr < array.max →
        ∃ sym ∈ textSymbols lines, sym.addr ≤ addr ∧
          (∀ other ∈ textSymbols lines, other.addr ≤ addr → other.addr ≤ sym.addr) ∧
          guSearchKernelSymbol st' addr len = some ⟨copyName sym.name len, addr - sym.addr⟩ := by
  obtain ⟨array, harray⟩ : ∃ array, guIntervalArrayInit
      (kernelItems uninit (itemsCap st lines) (textSymbols lines)) = some array := by
    refine Option.ne_none_iff_exists'.mp fun h => hne ?_
    have hlength := length_kernelItems uninit (itemsCap st lines) (textSymbols lines)
    rw [guIntervalArrayInit_eq_none.mp h] at hlength
    exact List.length_eq_zero_iff.mp hlength.symm
  refine ⟨array, _, by rw [guLoadKernelSymbols, harray], rfl, fun addr len hlow hmax => ?_⟩
  obtain ⟨low, hmem, hle⟩ := hlow
  obtain ⟨item, hitem, hstart⟩ := exists_kernelItem uninit (itemsCap st lines) hmem
  obtain ⟨index, found, hsearch, hfound, hbefore, hgreatest⟩ := guIntervalArraySearch_open hopen
    harray ⟨item, hitem, hstart ▸ hle⟩ hmax
  obtain ⟨source, hsource, hsame, hpayload, -⟩ := mem_of_filledItem hfound
  obtain ⟨sym, hsym, haddr, hname⟩ := mem_kernelItems hsource
  rw [hsame, haddr] at hbefore hgreatest
  refine ⟨sym, hsym, hbefore, fun other hother hle => ?_, ?_⟩
  · obtain ⟨item, hitem, hstart⟩ := exists_kernelItem uninit (itemsCap st lines) hother
    rw [← hstart] at hle ⊢
    exact hgreatest item hitem hle
  · simp only [guSearchKernelSymbol, hsearch, Option.map_some, hsame, haddr, hpayload, hname]

/-- Lines with two aliases at one address, a data symbol and a line that cannot be read. -/
def aliasLines : List KallsymsLine :=
  [⟨true, some ⟨0x30#64, 'T', "c"⟩⟩, ⟨true, some ⟨0x10#64, 't', "a"⟩⟩, ⟨false, none⟩,
    ⟨true, some ⟨0x10#64, 'T', "b"⟩⟩, ⟨false, some ⟨0x20#64, 'D', "d"⟩⟩]

/-- Two symbols at one address. -/
theorem guSearchKernelSymbol_predecessor_alias :
    (guLoadKernelSymbols (fun _ => 7#64) aliasLines ⟨none, 0⟩).1 = true ∧
    ∃ sym ∈ textSymbols aliasLines, sym.addr ≤ 0x2f#64 ∧
      (∀ other ∈ textSymbols aliasLines, other.addr ≤ 0x2f#64 → other.addr ≤ sym.addr) ∧
      guSearchKernelSymbol (guLoadKernelSymbols (fun _ => 7#64) aliasLines ⟨none, 0⟩).2 0x2f#64 8 =
        some ⟨copyName sym.name 8, 0x2f#64 - sym.addr⟩ := by
  obtain ⟨array, st', hload, harray, hsearch⟩ := guSearchKernelSymbol_predecessor (fun _ => 7#64)
    aliasLines ⟨none, 0⟩ (by decide) (by decide)
  have hmax : array.max = 0xfffffffe#64 := by
    have heq : (guLoadKernelSymbols (fun _ => 7#64) aliasLines ⟨none, 0⟩).2.kernelSymbols.map
        IntervalArray.max = some 0xfffffffe#64 := by decide +kernel
    rw [hload, harray] at heq
    exact Option.some.inj heq
  rw [hload]
  exact ⟨rfl, hsearch 0x2f#64 8 (by decide) (by rw [hmax]; decide)⟩

-- A later load that outgrows the array: the end of the last symbol is what the memory held, and
-- an address above it is not found.
example :
    let lines : List KallsymsLine :=
      [⟨true, some ⟨0x10#64, 'T', "a"⟩⟩, ⟨true, some ⟨0x20#64, 'T', "b"⟩⟩]
    (guSearchKernelSymbol (guLoadKernelSymbols (fun _ => 0x28#64) lines ⟨none, 1⟩).2 0x40#64 8) =
      none ∧
    (guSearchKernelSymbol (guLoadKernelSymbols (fun _ => 0x28#64) lines ⟨none, 0⟩).2 0x40#64 8) =
      some ⟨some "b", 0x20#64⟩ := by
  decide +kernel

end Gunwinder
