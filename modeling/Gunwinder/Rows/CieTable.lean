import Gunwinder.Native.CfiIndex

/-!
# CIEs that do not decode

`init_cie_from_buf` returns NULL for a CIE whose initial instructions fail, and
`init_fde_from_entry` hands the result to the hash table without looking at it. So an FDE with
such a CIE is not rejected, unless another CIE stands under its key.
-/

namespace Gunwinder

open Gunwinder.Core

variable {H P : Type} {S : SavedStates H P} {frame : EhFrame}

/-- The run of the initial instructions in `init_cie_from_buf`. -/
def cieRun (S : SavedStates H P) (frame : EhFrame) (table : CieTable H P) (off : Word)
    (dwarfCie : DwarfCie) : InsResult H P :=
  let cie := cieHeader S frame.sec off dwarfCie
  let (rules, heap) := defaultRules S frame.arch cie table.defaults table.heap
  initCalcCtxByIns S frame.arch frame.sec cie ⟨rules, S.null⟩ heap cie.initialInstructions
    cie.initialInstructionsEnd 0#64 (-1#64)

/-- The CIE behind its initial instructions. -/
def executedCie (S : SavedStates H P) (frame : EhFrame) (table : CieTable H P) (off : Word)
    (dwarfCie : DwarfCie) : Cie P :=
  { cieHeader S frame.sec off dwarfCie with
    cieCalcCtx := (cieRun S frame table off dwarfCie).ctx }

private theorem initCieFromBuf_cie (S : SavedStates H P) (frame : EhFrame) (table : CieTable H P)
    (off : Word) (dwarfCie : DwarfCie) :
    (initCieFromBuf S frame.arch frame.sec off dwarfCie table.defaults table.heap).cie =
      if (cieRun S frame table off dwarfCie).ok then some (executedCie S frame table off dwarfCie)
      else none :=
  rfl

/-- A CIE of the section whose initial instructions were executed. -/
def EhFrame.Executed (frame : EhFrame) (S : SavedStates H P) (cie : Cie P) : Prop :=
  ∃ table dwarfCie nextOff, frame.dwarfNextCfi cie.offset = some (.cie dwarfCie, nextOff) ∧
    (cieRun S frame table cie.offset dwarfCie).ok = true ∧
    cie = executedCie S frame table cie.offset dwarfCie

/-- An FDE refers to a CIE that is not in the table and whose initial instructions fail. -/
def EhFrame.Malformed (frame : EhFrame) (S : SavedStates H P) (table : CieTable H P)
    (fde : DwarfFde) : Prop :=
  (∀ cie ∈ table.cieList, cie.offset ≠ fde.ciePointer) ∧
  ∃ dwarfCie nextOff, frame.dwarfNextCfi fde.ciePointer = some (.cie dwarfCie, nextOff) ∧
    (cieRun S frame table fde.ciePointer dwarfCie).ok = false

/-! ## One call -/

/-- What the lookup of a CIE can do: find one, report that there is none, hand the NULL of a
failed one to the hash table, or build one. -/
inductive CieSearch (S : SavedStates H P) (frame : EhFrame) (table : CieTable H P) (off : Word) :
    Except Stuck (Option (Cie P) × CieTable H P) → Prop where
  | cached {cie : Cie P} (found : lookup cieKey table.cieList (intKey off) = some cie) :
    CieSearch S frame table off (.ok (some cie, table))
  | missing (absent : lookup cieKey table.cieList (intKey off) = none)
    (noEntry : ∀ dwarfCie nextOff, frame.dwarfNextCfi off ≠ some (.cie dwarfCie, nextOff)) :
    CieSearch S frame table off (.ok (none, table))
  | failed {dwarfCie : DwarfCie} {nextOff : Word}
    (absent : lookup cieKey table.cieList (intKey off) = none)
    (entry : frame.dwarfNextCfi off = some (.cie dwarfCie, nextOff))
    (fails : (cieRun S frame table off dwarfCie).ok = false) :
    CieSearch S frame table off (.error .nullPointer)
  | built {dwarfCie : DwarfCie} {nextOff : Word} {cie : Cie P} {table' : CieTable H P}
    (absent : lookup cieKey table.cieList (intKey off) = none)
    (entry : frame.dwarfNextCfi off = some (.cie dwarfCie, nextOff))
    (runs : (cieRun S frame table off dwarfCie).ok = true) (executed : frame.Executed S cie)
    (offset : cie.offset = off) (list : table'.cieList = table.cieList ++ [cie]) :
    CieSearch S frame table off (.ok (some cie, table'))

private theorem findCie_search (S : SavedStates H P) (frame : EhFrame) (table : CieTable H P)
    (off : Word) : CieSearch S frame table off (findCie S frame table off) := by
  unfold findCie
  cases hfound : lookup cieKey table.cieList (intKey off) with
  | some cie => exact .cached hfound
  | none =>
    dsimp only
    split
    · rename_i dwarfCie nextOff hentry
      simp only [initCieFromBuf_cie]
      cases hok : (cieRun S frame table off dwarfCie).ok with
      | false => exact .failed hfound hentry hok
      | true =>
        exact .built hfound hentry hok ⟨table, dwarfCie, nextOff, hentry, hok, rfl⟩ rfl rfl
    · rename_i hother
      exact .missing hfound fun dwarfCie nextOff h => hother dwarfCie nextOff h

/-- `init_fde_from_entry` rejects a malformed CIE: its FDE is an error that leaves the list of
CIEs. -/
structure RejectsMalformed (S : SavedStates H P) (frame : EhFrame) (table : CieTable H P)
    (fde : DwarfFde) : Prop where
  noNull : ∀ stuck, initFdeFromEntry S frame table (.fde fde) ≠ .error stuck
  rejected : frame.Malformed S table fde → ∃ table',
    initFdeFromEntry S frame table (.fde fde) = .ok (none, table') ∧
      table'.cieList = table.cieList

variable {table' table : CieTable H P}

private theorem initFdeFromEntry_of_findCie {fde : DwarfFde} {cie : Cie P}
    (h : findCie S frame table fde.ciePointer = .ok (some cie, table')) :
    initFdeFromEntry S frame table (.fde fde) = .ok (fdeOfCie frame fde cie, table') := by
  simp only [initFdeFromEntry, h]

/-- A CIE that is malformed is neither in the table nor missing nor executed. -/
theorem findCie_of_malformed {fde : DwarfFde} (h : frame.Malformed S table fde)
    (hkey : lookup cieKey table.cieList (intKey fde.ciePointer) = none) :
    findCie S frame table fde.ciePointer = .error .nullPointer := by
  obtain ⟨-, dwarfCie, nextOff, hentry, hfails⟩ := h
  have hsearch := findCie_search S frame table fde.ciePointer
  generalize findCie S frame table fde.ciePointer = result at hsearch ⊢
  cases hsearch with
  | cached found =>
    rw [hkey] at found
    cases found
  | missing _ noEntry => exact absurd hentry (noEntry dwarfCie nextOff)
  | failed _ _ _ => rfl
  | built _ entry runs _ _ _ =>
    rw [hentry] at entry
    cases entry
    rw [hfails] at runs
    cases runs

/-- Nothing is followed through NULL when the CIE is not malformed. -/
theorem findCie_of_not_malformed {fde : DwarfFde} (h : ¬frame.Malformed S table fde)
    (stuck : Stuck) : findCie S frame table fde.ciePointer ≠ .error stuck := by
  have hsearch := findCie_search S frame table fde.ciePointer
  generalize findCie S frame table fde.ciePointer = result at hsearch ⊢
  cases hsearch with
  | failed absent entry fails =>
    refine absurd ⟨fun cie hcie hoff => ?_, _, _, entry, fails⟩ h
    exact lookup_eq_none.mp absent cie hcie (congrArg intKey hoff)
  | _ => exact nofun

private theorem rejectsMalformed_iff (table : CieTable H P) (fde : DwarfFde) :
    RejectsMalformed S frame table fde ↔ ¬frame.Malformed S table fde ∨
      ∃ cie, lookup cieKey table.cieList (intKey fde.ciePointer) = some cie ∧
        fdeOfCie frame fde cie = none := by
  constructor
  · intro h
    by_cases hbad : frame.Malformed S table fde
    · refine .inr ?_
      obtain ⟨table', hnone, -⟩ := h.rejected hbad
      cases hfound : lookup cieKey table.cieList (intKey fde.ciePointer) with
      | some cie =>
        have hfind : findCie S frame table fde.ciePointer = .ok (some cie, table) := by
          simp only [findCie, hfound]
        rw [initFdeFromEntry_of_findCie hfind] at hnone
        exact ⟨cie, rfl, (Prod.mk.inj (Except.ok.inj hnone)).1⟩
      | none =>
        refine absurd ?_ (h.noNull .nullPointer)
        simp only [initFdeFromEntry, findCie_of_malformed hbad hfound]
    · exact .inl hbad
  · rintro (hgood | ⟨cie, hfound, hnone⟩)
    · refine ⟨fun stuck herr => ?_, fun hbad => absurd hbad hgood⟩
      simp only [initFdeFromEntry] at herr
      split at herr
      · rename_i stuck' hfind
        exact findCie_of_not_malformed hgood stuck' hfind
      · cases herr
      · cases herr
    · have hfind : findCie S frame table fde.ciePointer = .ok (some cie, table) := by
        simp only [findCie, hfound]
      have hcall := initFdeFromEntry_of_findCie hfind
      rw [hnone] at hcall
      refine ⟨fun stuck herr => ?_, fun _ => ⟨table, hcall, rfl⟩⟩
      rw [hcall] at herr
      cases herr

/-! ## Any sequence of calls -/

/-- Calls of `init_fde_from_entry` one after the other, with the FDEs that are reported as
initialised. -/
def initFdes (S : SavedStates H P) (frame : EhFrame) :
    CieTable H P → List CfiEntry → Except Stuck (List (Fde P) × CieTable H P)
  | table, [] => .ok ([], table)
  | table, entry :: entries => do
    let (fde, table) ← initFdeFromEntry S frame table entry
    let (fdes, table) ← initFdes S frame table entries
    return (fde.toList ++ fdes, table)

/-- No call finds a malformed CIE. -/
def EhFrame.WellFormed (frame : EhFrame) (S : SavedStates H P) :
    CieTable H P → List CfiEntry → Prop
  | _, [] => True
  | table, entry :: entries =>
    (∀ fde, entry = .fde fde → ¬frame.Malformed S table fde) ∧
    ∀ fde table', initFdeFromEntry S frame table entry = .ok (fde, table') →
      frame.WellFormed S table' entries

/-- Every CIE of the table was executed. -/
def EhFrame.TableExecuted (frame : EhFrame) (S : SavedStates H P) (table : CieTable H P) : Prop :=
  ∀ cie ∈ table.cieList, frame.Executed S cie

/-- The FDE refers to a CIE of the table. -/
def Fde.RefersTo (fde : Fde P) (table : CieTable H P) : Prop :=
  ∃ cie ∈ table.cieList, fde.cie = some cie

/-- An FDE has the CIE it was decoded with. -/
theorem fdeOfCie_cie {dwarfFde : DwarfFde} {cie : Cie P} {fde : Fde P}
    (h : fdeOfCie frame dwarfFde cie = some fde) : fde.cie = some cie := by
  simp only [fdeOfCie, Option.bind_eq_bind, Option.bind_eq_some_iff] at h
  obtain ⟨_, -, _, -, _, -, hrange⟩ := h
  obtain ⟨-, heq⟩ := Option.ite_none_left_eq_some.mp hrange
  exact Option.some.inj heq ▸ rfl

/-- A call of `init_fde_from_entry` reports nothing and leaves the table, or decodes the FDE
with a CIE found or built. -/
theorem initFdeFromEntry_cases {entry : CfiEntry} {fde : Option (Fde P)}
    (h : initFdeFromEntry S frame table entry = .ok (fde, table')) :
    (fde = none ∧ table' = table) ∨
      ∃ dwarfFde cie, entry = .fde dwarfFde ∧ fde = fdeOfCie frame dwarfFde cie ∧
        CieSearch S frame table dwarfFde.ciePointer (.ok (some cie, table')) := by
  cases entry with
  | cie dwarfCie =>
    cases h
    exact .inl ⟨rfl, rfl⟩
  | fde dwarfFde =>
    have hsearch := findCie_search S frame table dwarfFde.ciePointer
    cases hfind : findCie S frame table dwarfFde.ciePointer with
    | error stuck =>
      simp only [initFdeFromEntry, hfind] at h
      cases h
    | ok found =>
      obtain ⟨_ | cie, table''⟩ := found
      · rw [hfind] at hsearch
        simp only [initFdeFromEntry, hfind] at h
        cases h
        cases hsearch
        exact .inl ⟨rfl, rfl⟩
      · rw [initFdeFromEntry_of_findCie hfind] at h
        cases h
        exact .inr ⟨dwarfFde, cie, rfl, rfl, hfind ▸ hsearch⟩

/-- A call leaves executed CIEs only, keeps those it found, and reports an FDE with one. -/
theorem initFdeFromEntry_spec {entry : CfiEntry} {fde : Option (Fde P)}
    (htable : frame.TableExecuted S table)
    (h : initFdeFromEntry S frame table entry = .ok (fde, table')) :
    frame.TableExecuted S table' ∧ table.cieList ⊆ table'.cieList ∧
      ∀ f, fde = some f → f.RefersTo table' := by
  rcases initFdeFromEntry_cases h with ⟨rfl, rfl⟩ | ⟨dwarfFde, cie, -, rfl, hsearch⟩
  · exact ⟨htable, List.Subset.refl _, fun f hf => by cases hf⟩
  cases hsearch with
  | cached found =>
    exact ⟨htable, List.Subset.refl _, fun f hf =>
      ⟨cie, (mem_of_lookup found).1, fdeOfCie_cie hf⟩⟩
  | built _ _ _ executed _ list =>
    refine ⟨fun c hc => ?_, ?_, fun f hf => ⟨cie, ?_, fdeOfCie_cie hf⟩⟩
    · rw [list] at hc
      rcases List.mem_append.mp hc with hc | hc
      · exact htable c hc
      · rw [List.mem_singleton.mp hc]
        exact executed
    · rw [list]
      exact List.subset_append_left _ _
    · rw [list]
      exact List.mem_append_right _ (List.mem_singleton_self cie)

private theorem initFdes_spec {entries : List CfiEntry} (htable : frame.TableExecuted S table)
    (hwell : frame.WellFormed S table entries) :
    ∃ fdes table', initFdes S frame table entries = .ok (fdes, table') ∧
      frame.TableExecuted S table' ∧ table.cieList ⊆ table'.cieList ∧
      ∀ fde ∈ fdes, fde.RefersTo table' := by
  induction entries generalizing table with
  | nil =>
    exact ⟨[], table, rfl, htable, List.Subset.refl _, fun fde hfde => absurd hfde List.not_mem_nil⟩
  | cons entry entries ih =>
    cases hcall : initFdeFromEntry S frame table entry with
    | error stuck =>
      -- only a malformed CIE stops a call
      cases entry with
      | cie dwarfCie => cases hcall
      | fde fde =>
        have hgood := hwell.1 fde rfl
        exact absurd hcall (((rejectsMalformed_iff table fde).mpr (.inl hgood)).noNull stuck)
    | ok result =>
      obtain ⟨fde, table'⟩ := result
      obtain ⟨htable', hsub, hrefers⟩ := initFdeFromEntry_spec htable hcall
      obtain ⟨fdes, table'', hrest, hexec, hsub', hrefers'⟩ := ih htable' (hwell.2 fde table' hcall)
      refine ⟨fde.toList ++ fdes, table'', ?_, hexec, List.Subset.trans hsub hsub', fun f hf => ?_⟩
      · rw [initFdes, hcall]
        change (initFdes S frame table' entries >>= _) = _
        rw [hrest]
        rfl
      · rcases List.mem_append.mp hf with hf | hf
        · obtain ⟨cie, hcie, hf⟩ := hrefers f (Option.mem_toList.mp hf)
          exact ⟨cie, hsub' hcie, hf⟩
        · exact hrefers' f hf

/-- A call rejects malformed CIEs exactly when the FDE has none or fails with another CIE that
stands under the same key; and calls that find no malformed CIE all return, leave executed CIEs
only and report FDEs that refer to them. -/
theorem initFdeFromEntry_rejects_malformed_iff (S : SavedStates H P) (frame : EhFrame) :
    (∀ table fde, RejectsMalformed S frame table fde ↔ ¬frame.Malformed S table fde ∨
      ∃ cie, lookup cieKey table.cieList (intKey fde.ciePointer) = some cie ∧
        fdeOfCie frame fde cie = none) ∧
    ∀ defaults heap entries, frame.WellFormed S ⟨[], defaults, heap⟩ entries →
      ∃ fdes table, initFdes S frame ⟨[], defaults, heap⟩ entries = .ok (fdes, table) ∧
        frame.TableExecuted S table ∧ ∀ fde ∈ fdes, fde.RefersTo table := by
  refine ⟨rejectsMalformed_iff, fun defaults heap entries hwell => ?_⟩
  have hempty : frame.TableExecuted S ⟨[], defaults, heap⟩ :=
    fun cie hcie => absurd hcie List.not_mem_nil
  obtain ⟨fdes, table, hrun, hexec, -, hrefers⟩ := initFdes_spec hempty hwell
  exact ⟨fdes, table, hrun, hexec, hrefers⟩

/-- A section with one CIE, whose only initial instruction has the given opcode and no operands,
and the addresses of an FDE behind it. -/
def oneCieFrame (op : Byte) : EhFrame where
  arch := .x86
  sec := bytesSection (op :: List.replicate 16 0#8) (by simp)
  shOff := 0#64
  dwarfNextCfi off :=
    if off = 0#64 then some (.cie ⟨1#64, -8#64, 16#64, 0x1000, 0x1001, [], 0x1001⟩, 1#64) else none
  advances h := by
    split at h
    · rename_i hoff
      cases h
      rw [hoff]
      exact ⟨by decide, by simp [bytesSection]⟩
    · cases h

/-- With `DW_CFA_nop` in the CIE the FDE is reported. -/
theorem initFdeFromEntry_rejects_malformed_nop :
    ∃ fdes table, initFdes savedValues (oneCieFrame 0#8) ⟨[], none, ()⟩
        [.fde ⟨0#64, 0x1001, 0x1011⟩] = .ok (fdes, table) ∧
      (oneCieFrame 0#8).TableExecuted savedValues table ∧ ∀ fde ∈ fdes, fde.RefersTo table := by
  refine (initFdeFromEntry_rejects_malformed_iff savedValues (oneCieFrame 0#8)).2 none () _ ⟨?_, ?_⟩
  · rintro fde hfde ⟨-, dwarfCie, nextOff, hentry, hfails⟩
    cases hfde
    cases hentry
    revert hfails
    decide +kernel
  · exact fun fde table' h => trivial

/-- `DW_CFA_def_cfa` without operands does not decode, and the NULL in place of the CIE is put
into the hash table. -/
theorem initFdeFromEntry_uses_null :
    (cieRun savedValues (oneCieFrame 0x0c#8) ⟨[], none, ()⟩ 0#64
      ⟨1#64, -8#64, 16#64, 0x1000, 0x1001, [], 0x1001⟩).ok = false ∧
    initFdeFromEntry savedValues (oneCieFrame 0x0c#8) ⟨[], none, ()⟩
      (.fde ⟨0#64, 0x1001, 0x1011⟩) = .error .nullPointer := by
  have hfails : (cieRun savedValues (oneCieFrame 0x0c#8) ⟨[], none, ()⟩ 0#64
      ⟨1#64, -8#64, 16#64, 0x1000, 0x1001, [], 0x1001⟩).ok = false := by decide +kernel
  refine ⟨hfails, ?_⟩
  have hbad : (oneCieFrame 0x0c#8).Malformed savedValues ⟨[], none, ()⟩ ⟨0#64, 0x1001, 0x1011⟩ :=
    ⟨fun cie hcie => absurd hcie List.not_mem_nil, _, _, rfl, hfails⟩
  simp only [initFdeFromEntry, findCie_of_malformed hbad rfl]

end Gunwinder
