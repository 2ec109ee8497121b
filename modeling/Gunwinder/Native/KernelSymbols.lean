import Gunwinder.Native.IntervalArray

/-!
# Kernel symbols

`gu_load_kernel_symbols` reads the text symbols of `/proc/kallsyms` into an interval array and
leaves every end open. The array it fills is cleared when it is allocated, but not where it
grows: what stands in the end of an item behind the first capacity is whatever the memory held.
-/

namespace Gunwinder

/-- What `sscanf` reads from a line of `/proc/kallsyms`. -/
structure KernelSymbol where
  addr : Word
  type : Char
  name : String
  deriving DecidableEq, Repr

/-- A line of `/proc/kallsyms`: whether `strstr` finds a text type in it, and the symbol if all
three fields can be read. -/
structure KallsymsLine where
  counted : Bool
  symbol : Option KernelSymbol
  deriving DecidableEq, Repr

/-- `kernel_symbols` of the context, and `g_ksym_items_count`. -/
structure KernelSymbols where
  kernelSymbols : Option (IntervalArray String)
  gKsymItemsCount : Nat

/-- The symbols that are kept. -/
def textSymbols (lines : List KallsymsLine) : List KernelSymbol :=
  (lines.filterMap KallsymsLine.symbol).filter fun sym => sym.type == 't' || sym.type == 'T'

/-- `items_cap` doubled, at most `n` times, until it is no less than a count. -/
def growCap (count : Nat) : Nat → Nat → Nat
  | 0, cap => cap
  | n + 1, cap => if cap < count then growCap count n (2 * cap) else cap

/-- `items_cap` before the symbols are read: the first load counts them. -/
def itemsCap (st : KernelSymbols) (lines : List KallsymsLine) : Nat :=
  if st.gKsymItemsCount = 0 then
    let count := lines.countP KallsymsLine.counted
    if count = 0 then 1024 else growCap count count 1
  else st.gKsymItemsCount

/-- The items read; `uninit` is what stands in the ends of items the array has grown by. -/
def kernelItems (uninit : Nat → Word) (cap : Nat) (symbols : List KernelSymbol) :
    List (Interval String) :=
  symbols.mapIdx fun i sym => ⟨sym.addr, if i < cap then 0#64 else uninit i, sym.name⟩

/-- `gu_load_kernel_symbols`: whether it returns 0, and the symbols it leaves. -/
def guLoadKernelSymbols (uninit : Nat → Word) (lines : List KallsymsLine) (st : KernelSymbols) :
    Bool × KernelSymbols :=
  let symbols := textSymbols lines
  let cap := itemsCap st lines
  let count := growCap symbols.length symbols.length cap
  match guIntervalArrayInit (kernelItems uninit cap symbols) with
  | none => (false, { st with gKsymItemsCount := count })
  | some array => (true, ⟨some array, count⟩)

/-- What `gu_search_kernel_symbol` hands out: the text in the caller's buffer, if it has room, and
the offset. -/
structure KernelHit where
  buf : Option String
  offset : Word
  deriving DecidableEq, Repr

/-- `strncpy` into a buffer of `len` bytes, with the last byte cleared. -/
def copyName (name : String) (len : Nat) : Option String :=
  if 0 < len then some (String.ofList (name.toList.take (len - 1))) else none

/-- `gu_search_kernel_symbol`; `none` is its -1. -/
def guSearchKernelSymbol (st : KernelSymbols) (addr : Word) (len : Nat) : Option KernelHit :=
  match st.kernelSymbols with
  | none => none
  | some array =>
    (guIntervalArraySearch array addr).map fun (_, item) =>
      ⟨copyName item.payload len, addr - item.start⟩

/-- An item for each symbol. -/
theorem length_kernelItems (uninit : Nat → Word) (cap : Nat) (symbols : List KernelSymbol) :
    (kernelItems uninit cap symbols).length = symbols.length :=
  List.length_mapIdx

/-- The items are the symbols, with some end. -/
theorem mem_kernelItems {uninit : Nat → Word} {cap : Nat} {symbols : List KernelSymbol}
    {item : Interval String} (h : item ∈ kernelItems uninit cap symbols) :
    ∃ sym ∈ symbols, item.start = sym.addr ∧ item.payload = sym.name := by
  obtain ⟨i, hi⟩ := List.getElem?_of_mem h
  rw [kernelItems, List.getElem?_mapIdx] at hi
  obtain ⟨sym, hsym, rfl⟩ := Option.map_eq_some_iff.mp hi
  exact ⟨sym, List.mem_of_getElem? hsym, rfl, rfl⟩

/-- A symbol's item starts at its address. -/
theorem exists_kernelItem (uninit : Nat → Word) (cap : Nat) {symbols : List KernelSymbol}
    {sym : KernelSymbol} (h : sym ∈ symbols) :
    ∃ item ∈ kernelItems uninit cap symbols, item.start = sym.addr := by
  obtain ⟨i, hi⟩ := List.getElem?_of_mem h
  have hitem : (kernelItems uninit cap symbols)[i]? =
      some ⟨sym.addr, if i < cap then 0#64 else uninit i, sym.name⟩ := by
    rw [kernelItems, List.getElem?_mapIdx, hi]
    rfl
  exact ⟨_, List.mem_of_getElem? hitem, rfl⟩

end Gunwinder
