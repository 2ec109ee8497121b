import Gunwinder.Intervals.Lookup
import Gunwinder.Native.Symtab

/-!
# Symbol lookup in nested tables

A lookup looks at the symbols on one path of a binary search by address. A symbol that covers
the address and is not on the path, because others that end before the address start behind it,
is not seen.
-/

namespace Gunwinder

/-! ## Symbols in the order of the array -/

variable (symbols : List KeptSymbol)

/-- The symbol covers an address; a function without a size reaches to the next larger address of a
symbol. -/
def KeptSymbol.Covers (kept : KeptSymbol) (pc : Word) : Prop :=
  kept.sym.stValue ≤ pc ∧
    if kept.sym.type = .func ∧ kept.sym.stSize = 0#64 then
      ∀ other ∈ symbols, kept.sym.stValue < other.sym.stValue → pc < other.sym.stValue
    else pc.toNat < kept.sym.stValue.toNat + kept.sym.stSize.toNat

instance (symbols : List KeptSymbol) (kept : KeptSymbol) (pc : Word) :
    Decidable (kept.Covers symbols pc) :=
  inferInstanceAs (Decidable (_ ∧ _))

/-- The symbols in the order in which they are stored. -/
def sortedSymbols : List KeptSymbol :=
  symbols.insertionSort fun a b => a.sym.stValue ≤ b.sym.stValue

private theorem sortedItems_map_item :
    sortedItems (symbols.map KeptSymbol.item) = (sortedSymbols symbols).map KeptSymbol.item := by
  symm
  exact List.map_insertionSort _ _ _ _ fun a _ b _ => Iff.rfl

variable {array : IntervalArray (Option String)}

/-- An entry of the array has the stored name of the symbol in its place. -/
theorem payload_of_stored {symbols : List KeptSymbol}
    (harray : guIntervalArrayInit (symbols.map KeptSymbol.item) = some array) {i : Nat}
    {item : Interval (Option String)} (hi : array.items[i]? = some item) {kept : KeptSymbol}
    (hkept : (sortedSymbols symbols)[i]? = some kept) : item.payload = kept.stored := by
  have hfilled : (filledItems (symbols.map KeptSymbol.item))[i]?.map Interval.payload =
      some kept.stored := by
    simp [filledItems, getElem?_fillEnds, sortedItems_map_item, hkept, KeptSymbol.item]
  rw [guIntervalArrayInit_eq] at harray
  split at harray
  · rename_i first last hfirst hlast
    split at harray
    · cases harray
      rw [List.getElem?_map] at hi
      obtain ⟨filled, hfill, rfl⟩ := Option.map_eq_some_iff.mp hi
      rw [hfill] at hfilled
      exact Option.some.inj hfilled
    · cases harray
      rw [hi] at hfilled
      exact Option.some.inj hfilled
  · cases harray

/-! ## Hits -/

variable {cfg : SymtabConfig}

/-- A kept symbol is not at address 0, and has no name in build-id-only mode. -/
theorem keepSymbol_some {sym : ElfSym} {kept : KeptSymbol}
    (h : keepSymbol cfg sym = .ok (some kept)) :
    kept.sym.stValue ≠ 0#64 ∧ (cfg.onlyBuildid = true → kept.stored = none) := by
  unfold keepSymbol at h
  split at h
  · cases h
  rename_i hvalue
  split at h
  · cases h
  split at h
  · cases h
  split at h
  · cases h
  split at h
  · cases h
  split at h
  · cases h
    exact ⟨hvalue, fun _ => rfl⟩
  · rename_i hnames
    split at h
    · cases h
    · cases h
      exact ⟨hvalue, fun honly => absurd honly hnames⟩

private theorem keptSymbols_some {symtab : List (Option ElfSym)} {symbols : List KeptSymbol}
    (h : keptSymbols cfg symtab = some symbols) :
    ∀ kept ∈ symbols, kept.sym.stValue ≠ 0#64 ∧ (cfg.onlyBuildid = true → kept.stored = none) := by
  induction symtab generalizing symbols with
  | nil =>
    cases h
    exact nofun
  | cons entry rest ih =>
    cases entry with
    | none => cases h
    | some sym =>
      unfold keptSymbols at h
      split at h
      · cases h
      · exact ih h
      · rename_i kept hkeep
        obtain ⟨others, hothers, rfl⟩ := Option.map_eq_some_iff.mp h
        exact List.forall_mem_cons.mpr ⟨keepSymbol_some hkeep, ih hothers⟩

/-- In build-id-only mode no entry of the array has a name. -/
theorem payload_eq_none (honly : cfg.onlyBuildid = true) {symtab : List (Option ElfSym)}
    (harray : fillSymbolsDebugInfo cfg symtab = some array) :
    ∀ item ∈ array.items, item.payload = none := by
  obtain ⟨symbols, hsymbols, hinit⟩ := Option.bind_eq_some_iff.mp harray
  have hfilled : ∀ filled ∈ filledItems (symbols.map KeptSymbol.item), filled.payload = none := by
    intro filled hmem
    obtain ⟨source, hsource, -, hpayload, -⟩ := mem_of_filledItem hmem
    obtain ⟨kept, hkept, rfl⟩ := List.mem_map.mp hsource
    exact hpayload.trans ((keptSymbols_some hsymbols kept hkept).2 honly)
  rw [guIntervalArrayInit_eq] at hinit
  split at hinit
  · split at hinit
    · cases hinit
      exact List.forall_mem_map.mpr fun filled hmem => hfilled filled hmem
    · cases hinit
      exact hfilled
  · cases hinit

/-! ## Hits and misses -/

/-- A covered address is found in a symbol that covers it exactly when it is within the bounds of
the array and the first symbol on the path of the search that ends behind it covers it. -/
theorem guIntervalArraySearch_covering_iff {cfg : SymtabConfig} {symtab : List (Option ElfSym)}
    {symbols : List KeptSymbol} (hsymbols : keptSymbols cfg symtab = some symbols)
    {array : IntervalArray (Option String)} (harray : fillSymbolsDebugInfo cfg symtab = some array)
    (pc : Word) :
    ((∃ kept ∈ symbols, kept.Covers symbols pc) →
      ∃ i item kept, guIntervalArraySearch array pc = some (i, item) ∧
        (sortedSymbols symbols)[i]? = some kept ∧ item.payload = kept.stored ∧
        kept.Covers symbols pc) ↔
    ((∃ kept ∈ symbols, kept.Covers symbols pc) →
      (array.min ≤ pc ∧ pc ≤ array.max) ∧
        ∃ i kept, (array.path pc).find? (array.endsBehind pc) = some i ∧
          (sortedSymbols symbols)[i]? = some kept ∧ kept.Covers symbols pc) := by
  simp only [fillSymbolsDebugInfo, hsymbols, Option.bind_some] at harray
  refine imp_congr_right fun _ => ?_
  constructor
  · rintro ⟨i, item, kept, hsearch, hkept, -, hcovers⟩
    obtain ⟨hbounds, hpath, -⟩ := guIntervalArraySearch_eq_some_iff.mp hsearch
    exact ⟨hbounds, i, kept, hpath, hkept, hcovers⟩
  · rintro ⟨hbounds, i, kept, hpath, hkept, hcovers⟩
    have hends := List.find?_some hpath
    unfold IntervalArray.endsBehind at hends
    split at hends
    · cases hends
    · rename_i item hitem
      exact ⟨i, item, kept, guIntervalArraySearch_eq_some_iff.mpr ⟨hbounds, hpath, hitem⟩, hkept,
        payload_of_stored harray hitem hkept, hcovers⟩

/-- A function around two others. -/
def nestedSymtab : List (Option ElfSym) :=
  [some ⟨0x10#64, 0xf0#64, .func, true, some "outer"⟩,
    some ⟨0x20#64, 0x10#64, .func, true, some "a"⟩,
    some ⟨0x40#64, 0x10#64, .func, true, some "b"⟩]

/-- An address in a nested symbol. -/
theorem guIntervalArraySearch_covering_iff_inner : ∃ symbols array,
    keptSymbols ⟨false, some⟩ nestedSymtab = some symbols ∧
    fillSymbolsDebugInfo ⟨false, some⟩ nestedSymtab = some array ∧
    ∃ i item kept, guIntervalArraySearch array 0x28#64 = some (i, item) ∧
      (sortedSymbols symbols)[i]? = some kept ∧ item.payload = kept.stored ∧
      kept.Covers symbols 0x28#64 := by
  have hsymbols : keptSymbols ⟨false, some⟩ nestedSymtab = some _ := rfl
  have harray : fillSymbolsDebugInfo ⟨false, some⟩ nestedSymtab = some _ := rfl
  refine ⟨_, _, hsymbols, harray, (guIntervalArraySearch_covering_iff hsymbols harray 0x28#64).mpr
    (fun _ => ⟨by decide, 1, _, by decide +kernel, rfl, by decide⟩) ?_⟩
  exact ⟨_, List.mem_cons_self, by decide⟩

/-- An address between the inner functions is in the outer one, and is not found. -/
theorem guIntervalArraySearch_misses_outer :
    (∃ symbols, keptSymbols ⟨false, some⟩ nestedSymtab = some symbols ∧
      ∃ kept ∈ symbols, kept.stored = some "outer" ∧ kept.Covers symbols 0x38#64) ∧
    (fillSymbolsDebugInfo ⟨false, some⟩ nestedSymtab).map (guIntervalArraySearch · 0x38#64) =
      some none := by
  refine ⟨⟨_, rfl, _, List.mem_cons_self, rfl, by decide⟩, by decide +kernel⟩

end Gunwinder
