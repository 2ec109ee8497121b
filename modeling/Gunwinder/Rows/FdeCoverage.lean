import Gunwinder.Intervals.Storage
import Gunwinder.Rows.FdeIndex

/-!
# The range of the FDE that is run

The search table holds ranges of its own, and 0 in the end of an item means that the end is open.
An FDE of size 0 at address 0 is given the range up to the next FDE that way. For every
other FDE the stored range lies within its own, in either width of storage.
-/

namespace Gunwinder

open Gunwinder.Core

variable {H P : Type}

/-! ## Decoded FDEs -/

/-- The end of an FDE does not wrap. -/
def Fde.InOrder (fde : Fde P) : Prop := fde.start ≤ fde.fin

variable {frame : EhFrame}

private theorem fdeOfCie_inOrder {dwarfFde : DwarfFde} {cie : Cie P} {fde : Fde P}
    (h : fdeOfCie frame dwarfFde cie = some fde) : fde.InOrder := by
  simp only [fdeOfCie, Option.bind_eq_bind, Option.bind_eq_some_iff] at h
  obtain ⟨_, -, _, -, _, -, hrange⟩ := h
  obtain ⟨hwrap, heq⟩ := Option.ite_none_left_eq_some.mp hrange
  cases heq
  exact BitVec.not_lt.mp hwrap

variable {S : SavedStates H P}

private theorem initFdeFromEntry_inOrder {table table' : CieTable H P} {entry : CfiEntry}
    {fde : Fde P}
    (h : initFdeFromEntry S frame table entry = .ok (some fde, table')) : fde.InOrder := by
  unfold initFdeFromEntry at h
  split at h
  · cases h
  split at h
  · cases h
  · cases h
  · obtain ⟨hfde, -⟩ := Prod.mk.inj (Except.ok.inj h)
    exact fdeOfCie_inOrder hfde

/-- Items of decoded FDEs. -/
def FdeItems (items : List (Interval (Option (Fde P)))) : Prop :=
  ∀ item ∈ items, ∃ fde : Fde P, item = fdeItem fde ∧ fde.InOrder

/-- What is built from an outcome is items of decoded FDEs. -/
def FdeOutcome (r : Except Stuck (List (Interval (Option (Fde P))))) : Prop :=
  ∀ items, r = .ok items → FdeItems items

variable {items : List (Interval (Option (Fde P)))}

private theorem FdeItems.outcome (h : FdeItems items) : FdeOutcome (.ok items) := by
  rintro _ ⟨⟩
  exact h

/-- A turn of either loop adds the item of a decoded FDE. -/
theorem addItem_fdeItems {κ : Type} (S : SavedStates H P) (frame : EhFrame)
    {s : IndexState H P κ} (hs : FdeItems s.items) (entry : CfiEntry) (next : κ) :
    (addItem S frame s entry next).All (fun s => FdeItems s.items) FdeOutcome := by
  unfold addItem
  split
  · exact nofun
  · exact hs.outcome
  · rename_i fde table hfde
    refine List.forall_mem_append.mpr ⟨hs, ?_⟩
    simpa using ⟨fde, rfl, initFdeFromEntry_inOrder hfde⟩

private theorem scan_fdeItems {n : Nat} {s : IndexState H P Word} (hs : FdeItems s.items) :
    FdeOutcome (loop (scanTurn S frame) (fun s => .ok s.items) n s) := by
  refine loop_all (fun s : IndexState H P Word => FdeItems s.items) FdeOutcome (fun s hs => ?_)
    (fun s hs => hs.outcome) n hs
  unfold scanTurn
  split
  · exact hs.outcome
  · exact hs
  · exact addItem_fdeItems S frame hs _ _

private theorem hdr_fdeItems {mem : Mem} {fin n : Nat} {ehFramePtr fdeCount : Word}
    {s : IndexState H P Nat} (hs : FdeItems s.items) :
    FdeOutcome (loop (hdrTurn S frame mem fin ehFramePtr fdeCount) (fun s => .ok s.items) n s) := by
  refine loop_all (fun s : IndexState H P Nat => FdeItems s.items) FdeOutcome (fun s hs => ?_)
    (fun s hs => hs.outcome) n hs
  unfold hdrTurn
  split
  · split
    · exact hs.outcome
    · split
      · exact hs.outcome
      · split
        · exact hs.outcome
        · exact addItem_fdeItems S frame hs _ _
  · exact hs.outcome

/-- The search tables that are built from decoded FDEs. -/
inductive Indexed (array : IntervalArray (Option (Fde P))) : Prop where
  | byHdr {H : Type} {S : SavedStates H P} {frame : EhFrame} {hdr : Section}
      {defaults : Option CalcRules} {heap : H}
      (h : guCfiHdrInitByHdr S frame hdr defaults heap = .ok (some array))
  | byScan {H : Type} {S : SavedStates H P} {frame : EhFrame}
      {defaults : Option CalcRules} {heap : H}
      (h : guCfiHdrInitByScan S frame defaults heap = .ok (some array))

variable {array : IntervalArray (Option (Fde P))}

/-- Either way the table is made of items of decoded FDEs. -/
theorem Indexed.exists_items (h : Indexed array) :
    ∃ items, FdeItems items ∧ guIntervalArrayInit items = some array := by
  have hnone : FdeItems ([] : List (Interval (Option (Fde P)))) :=
    fun _ hitem => absurd hitem List.not_mem_nil
  cases h with
  | @byHdr H S frame hdr defaults heap h =>
    unfold guCfiHdrInitByHdr at h
    split at h
    · cases h
    rename_i ehFramePtr fdeCount buf hhdr
    generalize hloop : loop _ _ _ _ = r at h
    cases r with
    | error stuck => cases h
    | ok items => exact ⟨items, hdr_fdeItems hnone items hloop, Except.ok.inj h⟩
  | @byScan H S frame defaults heap h =>
    unfold guCfiHdrInitByScan at h
    generalize hloop : loop _ _ _ _ = r at h
    cases r with
    | error stuck => cases h
    | ok items => exact ⟨items, scan_fdeItems hnone items hloop, Except.ok.inj h⟩

/-! ## Stored ranges -/

/-- The compact form of a table of FDEs keeps all starts. -/
theorem FdeItems.start_le (h : FdeItems items) {last : Interval (Option (Fde P))}
    (hlast : (filledItems items).getLast? = some last) (hcompact : last.fin < uint32Max) :
    ∀ item ∈ filledItems items, item.start ≤ uint32Max := by
  obtain ⟨source, hsource, hstart, -, hfin⟩ := mem_of_filledItem (List.mem_of_getLast? hlast)
  obtain ⟨fde, rfl, horder⟩ := h source hsource
  have hsmall : last.start ≤ uint32Max := by
    rw [hstart]
    by_cases hopen : fde.fin = 0#64
    · have hle : fde.start ≤ fde.fin := horder
      rw [hopen] at hle
      exact BitVec.le_trans hle (by decide)
    · have hend : last.fin = fde.fin := hfin hopen
      rw [hend] at hcompact
      exact BitVec.le_trans horder (BitVec.le_of_lt hcompact)
  intro item hitem
  exact BitVec.le_trans (start_le_last hlast hitem) hsmall

/-- An address that a stored range holds is in the FDE's own range, unless that is empty at 0. -/
theorem FdeItems.stored (h : FdeItems items) (harray : guIntervalArrayInit items = some array)
    {item : Interval (Option (Fde P))} (hitem : item ∈ array.items) {pc : Word}
    (hcontains : item.Contains pc) :
    ∃ fde, item.payload = some fde ∧
      ((fde.start ≤ pc ∧ pc < fde.fin) ∨ (fde.start = 0#64 ∧ fde.fin = 0#64)) := by
  -- the filled item, with the same start and an end that is no lower
  obtain ⟨filled, hfilled, hpayload, hholds⟩ : ∃ filled ∈ filledItems items,
      item.payload = filled.payload ∧ filled.Contains pc := by
    rw [guIntervalArrayInit_eq] at harray
    split at harray
    · rename_i first last hfirst hlast
      split at harray
      · rename_i hcompact
        cases harray
        obtain ⟨filled, hfilled, rfl⟩ := List.mem_map.mp hitem
        have hstart := (narrow_eq_iff _).mpr (h.start_le hlast hcompact filled hfilled)
        refine ⟨filled, hfilled, rfl, hstart ▸ hcontains.1, ?_⟩
        have hlt : pc.toNat < (narrow filled.fin).toNat := hcontains.2
        have hle : (narrow filled.fin).toNat ≤ filled.fin.toNat := narrow_le filled.fin
        exact Nat.lt_of_lt_of_le hlt hle
      · cases harray
        exact ⟨item, hitem, rfl, hcontains⟩
    · cases harray
  obtain ⟨source, hsource, hstart, hsame, hfin⟩ := mem_of_filledItem hfilled
  obtain ⟨fde, rfl, horder⟩ := h source hsource
  refine ⟨fde, hpayload.trans hsame, ?_⟩
  by_cases hopen : fde.fin = 0#64
  · have hle : fde.start ≤ fde.fin := horder
    rw [hopen] at hle
    exact .inr ⟨BitVec.le_zero_iff.mp hle, hopen⟩
  · have hend : filled.fin = fde.fin := hfin hopen
    have hbegin : filled.start = fde.start := hstart
    exact .inl ⟨hbegin ▸ hholds.1, hend ▸ hholds.2⟩

/-! ## The FDE that is run -/

/-- The FDE whose instructions `gu_cfi_parse_cfi_ex` executes: none when the row is cached. -/
def executedFde (cfi : CfiData P) (cache : ParseCache) (pc : Word) : Option (Fde P) :=
  match guCfiParseCacheLoad cache pc with
  | some _ => none
  | none => (findFde cfi pc).map Prod.fst

/-- The FDE that is run for a pc covers it, exactly when it is not an FDE of size 0 at address
0. -/
theorem executedFde_covers_iff {cfi : CfiData P} {array : IntervalArray (Option (Fde P))}
    (harray : Indexed array) (hcfi : cfi.hdrIntervalArray = some array) (cache : ParseCache)
    {pc : Word} {fde : Fde P} (hrun : executedFde cfi cache pc = some fde) :
    (fde.start ≤ pc ∧ pc < fde.fin) ↔ ¬(fde.start = 0#64 ∧ fde.fin = 0#64) := by
  constructor
  · rintro ⟨-, hlt⟩ ⟨-, hzero⟩
    rw [hzero] at hlt
    exact BitVec.not_lt_zero hlt
  · intro hnonempty
    obtain ⟨items, hitems, hinit⟩ := harray.exists_items
    unfold executedFde at hrun
    split at hrun
    · cases hrun
    obtain ⟨⟨found, cie⟩, hfind, rfl⟩ := Option.map_eq_some_iff.mp hrun
    simp only [findFde, hcfi] at hfind
    split at hfind
    · cases hfind
    rename_i i item hsearch
    obtain ⟨hitem, hcontains⟩ := guIntervalArraySearch_sound hsearch
    obtain ⟨fde, hpayload, hrange⟩ := hitems.stored hinit (List.mem_of_getElem? hitem) hcontains
    simp only [hpayload] at hfind
    obtain ⟨_, -, heq⟩ := Option.map_eq_some_iff.mp hfind
    cases heq
    exact hrange.resolve_right hnonempty

/-- The FDE for `[0x10, 0x20)` of the section is run for its last address. -/
theorem executedFde_covers_iff_twoFdes : ∃ fde array,
    guCfiHdrInitByScan savedValues EhFrame.twoFdes (some .zero) () = .ok (some array) ∧
    executedFde ⟨.x86, EhFrame.twoFdes.sec, some array⟩ .empty 0x1f#64 = some fde ∧
    fde.start ≤ 0x1f#64 ∧ 0x1f#64 < fde.fin := by
  have hrun : ((guCfiHdrInitByScan savedValues EhFrame.twoFdes (some .zero) ()).toOption.bind
      fun array => (executedFde ⟨.x86, EhFrame.twoFdes.sec, array⟩ .empty 0x1f#64).map
        fun fde => (fde.start, fde.fin)) = some (0x10#64, 0x20#64) := by decide +kernel
  cases hscan : guCfiHdrInitByScan savedValues EhFrame.twoFdes (some .zero) () with
  | error stuck =>
    rw [hscan] at hrun
    cases hrun
  | ok array =>
    rw [hscan] at hrun
    cases array with
    | none => cases hrun
    | some array =>
      obtain ⟨fde, hrun, hrange⟩ := Option.map_eq_some_iff.mp hrun
      obtain ⟨hstart, -⟩ := Prod.mk.inj hrange
      refine ⟨fde, array, rfl, hrun,
        (executedFde_covers_iff (.byScan hscan) rfl .empty hrun).mpr ?_⟩
      rintro ⟨hzero, -⟩
      rw [hstart] at hzero
      cases hzero

/-- A section of one CIE, an FDE of size 0 at address 0 and one for `[0x100, 0x200)`. -/
def emptyAtZero : EhFrame :=
  { EhFrame.twoFdes with
    sec := bytesSection (List.replicate 49 0#8 ++ [1#8] ++ List.replicate 7 0#8 ++ [1#8] ++
      List.replicate 6 0#8) (by decide)
    advances := fun {off nextOff entry} h => by
      obtain ⟨hlt, hle⟩ := EhFrame.twoFdes.advances h
      exact ⟨hlt, hle⟩ }

/-- An address that no FDE covers is unwound by the empty one. -/
theorem executedFde_empty_range :
    ((guCfiHdrInitByScan savedValues emptyAtZero (some .zero) ()).toOption.bind fun array =>
      (executedFde ⟨.x86, emptyAtZero.sec, array⟩ .empty 0x50#64).map fun fde =>
        (fde.start, fde.fin)) = some (0#64, 0#64) := by
  decide +kernel

end Gunwinder
