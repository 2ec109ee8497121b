import Gunwinder.Rows.CieTable
import Mathlib.Data.Set.Function

/-!
# The CIE of an FDE

`init_fde_from_entry` looks for the CIE of an FDE in a hash table whose key is the offset of the
CIE, of which the integer macros of the table read four bytes out of eight. An offset that agrees
with an earlier one in its low half is found too, and then the FDE is decoded with the other CIE.
-/

namespace Gunwinder

open Gunwinder.Core

variable {H P : Type} {S : SavedStates H P} {frame : EhFrame} {table table' : CieTable H P}

/-- The FDE has the CIE that is decoded at its CIE pointer. -/
def EhFrame.OwnCie (frame : EhFrame) (S : SavedStates H P) (dwarfFde : DwarfFde) (fde : Fde P) :
    Prop :=
  ∃ cie, fde.cie = some cie ∧ cie.offset = dwarfFde.ciePointer ∧ frame.Executed S cie

/-- A CIE of another offset stands under the key of an offset. -/
def CieTable.Clashes (table : CieTable H P) (off : Word) : Prop :=
  ∃ cie ∈ table.cieList, cieKey cie = intKey off ∧ cie.offset ≠ off

/-- Every FDE that calls one after the other report has its own CIE. -/
def EhFrame.Linked (frame : EhFrame) (S : SavedStates H P) : CieTable H P → List CfiEntry → Prop
  | _, [] => True
  | table, entry :: entries =>
    ∀ fde table', initFdeFromEntry S frame table entry = .ok (fde, table') →
      (∀ dwarfFde f, entry = .fde dwarfFde → fde = some f → frame.OwnCie S dwarfFde f) ∧
      frame.Linked S table' entries

/-- No call that reports an FDE finds another CIE under the key of its CIE pointer. -/
def EhFrame.Unclashed (frame : EhFrame) (S : SavedStates H P) : CieTable H P → List CfiEntry → Prop
  | _, [] => True
  | table, entry :: entries =>
    ∀ fde table', initFdeFromEntry S frame table entry = .ok (fde, table') →
      (∀ dwarfFde, entry = .fde dwarfFde → fde.isSome → ¬table.Clashes dwarfFde.ciePointer) ∧
      frame.Unclashed S table' entries

/-! ## One call -/

/-- What holds of `cie_list` between calls: every CIE was decoded, and keys are distinct. -/
structure EhFrame.TableKeyed (frame : EhFrame) (S : SavedStates H P) (table : CieTable H P) :
    Prop where
  executed : frame.TableExecuted S table
  keys : (table.cieList.map cieKey).Nodup

/-- A CIE is added only when its key is free. -/
theorem CieSearch.keys {off : Word} {cie : Option (Cie P)}
    (h : CieSearch S frame table off (.ok (cie, table')))
    (hkeys : (table.cieList.map cieKey).Nodup) : (table'.cieList.map cieKey).Nodup := by
  cases h with
  | cached _ | missing _ _ => exact hkeys
  | @built _ _ cie _ absent _ _ _ offset list =>
    have hnew : cieKey cie ∉ table.cieList.map cieKey := by
      intro hmem
      obtain ⟨c, hc, hkey⟩ := List.mem_map.mp hmem
      refine lookup_eq_none.mp absent c hc (hkey.trans ?_)
      rw [cieKey, offset]
    rw [list, List.map_append, List.map_singleton]
    exact hkeys.append (List.nodup_singleton _) (List.disjoint_singleton.mpr hnew)

private theorem EhFrame.TableKeyed.call {entry : CfiEntry} {fde : Option (Fde P)}
    (htable : frame.TableKeyed S table)
    (h : initFdeFromEntry S frame table entry = .ok (fde, table')) : frame.TableKeyed S table' := by
  refine ⟨(initFdeFromEntry_spec htable.executed h).1, ?_⟩
  rcases initFdeFromEntry_cases h with ⟨-, rfl⟩ | ⟨_, _, -, -, hsearch⟩
  · exact htable.keys
  · exact hsearch.keys htable.keys

/-- The lookup returns the CIE of the offset exactly if no other one has its key. -/
theorem CieSearch.offset_iff {off : Word} {cie : Cie P}
    (h : CieSearch S frame table off (.ok (some cie, table')))
    (hkeys : (table.cieList.map cieKey).Nodup) : cie.offset = off ↔ ¬table.Clashes off := by
  cases h with
  | cached found =>
    obtain ⟨hmem, hkey⟩ := mem_of_lookup found
    constructor
    · rintro hoff ⟨c, hc, hckey, hne⟩
      -- the two CIEs have one key, so they are one CIE
      have hc' := lookup_of_mem hkeys hc
      rw [hckey, found] at hc'
      exact hne (Option.some.inj hc' ▸ hoff)
    · intro hnone
      by_contra hne
      exact hnone ⟨cie, hmem, hkey, hne⟩
  | built absent _ _ _ offset _ =>
    refine iff_of_true offset ?_
    rintro ⟨c, hc, hckey, -⟩
    exact lookup_eq_none.mp absent c hc hckey

/-- A call links the FDE that it reports to its own CIE exactly if no other CIE has the key. -/
theorem ownCie_iff (htable : frame.TableKeyed S table) {dwarfFde : DwarfFde} {fde : Fde P}
    (h : initFdeFromEntry S frame table (.fde dwarfFde) = .ok (some fde, table')) :
    frame.OwnCie S dwarfFde fde ↔ ¬table.Clashes dwarfFde.ciePointer := by
  rcases initFdeFromEntry_cases h with ⟨hnone, -⟩ | ⟨_, cie, hentry, hfde, hsearch⟩
  · cases hnone
  obtain rfl := CfiEntry.fde.inj hentry
  have hcie : fde.cie = some cie := fdeOfCie_cie hfde.symm
  rw [← hsearch.offset_iff htable.keys]
  constructor
  · rintro ⟨c, hc, hoff, -⟩
    rw [hcie] at hc
    exact Option.some.inj hc ▸ hoff
  · intro hoff
    obtain ⟨c, hmem, hc⟩ := (initFdeFromEntry_spec htable.executed h).2.2 fde rfl
    rw [hcie] at hc
    cases hc
    exact ⟨cie, hcie, hoff, (htable.call h).executed cie hmem⟩

/-! ## Any sequence of calls -/

private theorem linked_iff (htable : frame.TableKeyed S table) (entries : List CfiEntry) :
    frame.Linked S table entries ↔ frame.Unclashed S table entries := by
  induction entries generalizing table with
  | nil => exact Iff.rfl
  | cons entry entries ih =>
    refine forall_congr' fun fde => forall_congr' fun table' => forall_congr' fun hcall =>
      and_congr ?_ (ih (htable.call hcall))
    constructor
    · rintro hown dwarfFde rfl hsome
      obtain ⟨f, rfl⟩ := Option.isSome_iff_exists.mp hsome
      exact (ownCie_iff htable hcall).mp (hown dwarfFde f rfl rfl)
    · rintro hfree dwarfFde f rfl rfl
      exact (ownCie_iff htable hcall).mpr (hfree dwarfFde rfl rfl)

/-- Offsets that the key tells apart do not clash. -/
theorem unclashed_of_injOn {offs : Set Word} (hkey : Set.InjOn intKey offs)
    {entries : List CfiEntry} (htable : ∀ cie ∈ table.cieList, cie.offset ∈ offs)
    (hentries : ∀ dwarfFde, .fde dwarfFde ∈ entries → dwarfFde.ciePointer ∈ offs) :
    frame.Unclashed S table entries := by
  induction entries generalizing table with
  | nil => trivial
  | cons entry entries ih =>
    intro fde table' hcall
    refine ⟨?_, ih (fun cie hcie => ?_) fun dwarfFde hmem => ?_⟩
    · rintro dwarfFde rfl - ⟨cie, hcie, hsame, hne⟩
      exact hne (hkey (htable cie hcie) (hentries dwarfFde List.mem_cons_self) hsame)
    · -- a CIE that the call has added stands at the pointer of its FDE
      rcases initFdeFromEntry_cases hcall with ⟨-, rfl⟩ | ⟨dwarfFde, _, rfl, -, hsearch⟩
      · exact htable cie hcie
      cases hsearch with
      | cached _ => exact htable cie hcie
      | built _ _ _ _ offset list =>
        rw [list] at hcie
        rcases List.mem_append.mp hcie with hold | hnew
        · exact htable cie hold
        · rw [List.mem_singleton.mp hnew, offset]
          exact hentries dwarfFde List.mem_cons_self
    · exact hentries dwarfFde (List.mem_cons_of_mem _ hmem)

/-- Calls link the FDEs that they report to their own CIEs exactly if none of them finds another
CIE under the key; so they do if no two CIE pointers agree in their low halves. -/
theorem initFdes_linked_iff (S : SavedStates H P) (frame : EhFrame) (defaults : Option CalcRules)
    (heap : H) (entries : List CfiEntry) :
    (frame.Linked S ⟨[], defaults, heap⟩ entries ↔
      frame.Unclashed S ⟨[], defaults, heap⟩ entries) ∧
    (Set.InjOn intKey {off | ∃ dwarfFde, .fde dwarfFde ∈ entries ∧ dwarfFde.ciePointer = off} →
      frame.Linked S ⟨[], defaults, heap⟩ entries) := by
  have hempty : frame.TableKeyed S ⟨[], defaults, heap⟩ :=
    ⟨fun cie hcie => absurd hcie List.not_mem_nil, List.nodup_nil⟩
  refine ⟨linked_iff hempty entries, fun hkey => (linked_iff hempty entries).mpr ?_⟩
  refine unclashed_of_injOn hkey (fun cie hcie => absurd hcie List.not_mem_nil) ?_
  exact fun dwarfFde hmem => ⟨dwarfFde, hmem, rfl⟩

/-- A section of 8 GiB with a CIE at its start and one 4 GiB behind it, which differ in their
data alignment factors. -/
def farCies : EhFrame where
  arch := .x86
  sec := ⟨fun _ => 0#8, 0x1000, 0x200000000, by decide⟩
  shOff := 0#64
  dwarfNextCfi off :=
    if off = 0#64 then some (.cie ⟨1#64, -8#64, 16#64, 0x1000, 0x1000, [], 0x1000⟩, 16#64)
    else if off = 0x100000000#64 then
      some (.cie ⟨1#64, -4#64, 16#64, 0x1000, 0x1000, [], 0x1000⟩, 0x100000010#64)
    else none
  advances h := by
    split at h
    · rename_i hoff
      cases h
      exact ⟨by rw [hoff]; decide, by decide⟩
    · split at h
      · rename_i hoff
        cases h
        exact ⟨by rw [hoff]; decide, by decide⟩
      · cases h

/-- Two FDEs that share the second CIE both get it. -/
theorem initFdes_linked_shared : farCies.Linked savedValues ⟨[], none, ()⟩
    [.fde ⟨0x100000000#64, 0x1000, 0x1020⟩, .fde ⟨0x100000000#64, 0x1000, 0x1020⟩] := by
  refine (initFdes_linked_iff savedValues farCies none () _).2 ?_
  rintro _ ⟨a, ha, rfl⟩ _ ⟨b, hb, rfl⟩ -
  simp only [List.mem_cons, List.not_mem_nil, or_false, or_self, CfiEntry.fde.injEq] at ha hb
  rw [ha, hb]

/-- The FDE that points to the second CIE is decoded with the first one. -/
theorem initFdes_mislinks : ¬farCies.Linked savedValues ⟨[], none, ()⟩
    [.fde ⟨0#64, 0x1000, 0x1020⟩, .fde ⟨0x100000000#64, 0x1000, 0x1020⟩] := by
  intro h
  obtain ⟨-, hsecond⟩ := h _ _ rfl
  obtain ⟨hown, -⟩ := hsecond _ _ rfl
  obtain ⟨cie, hcie, hoff, -⟩ := hown _ _ rfl rfl
  cases hcie
  revert hoff
  decide +kernel

end Gunwinder
