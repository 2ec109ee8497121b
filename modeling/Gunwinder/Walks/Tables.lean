import Gunwinder.Walks.Provenance
import Gunwinder.Walks.Simulation

/-!
# The table of mapping records in a walk

A walk looks the mapping of a pc up in the table of its process, unless the record in hand
holds the pc. The table is replaced by a reload only, which a walk tries once; the record in
hand is always one of the table that is there.
-/

namespace Gunwinder

open Gunwinder.Core

variable {P : Type} {w : World P} {Q : CfiProperty P} {v v' : Walk P} {pc : Word}

/-- The mapping records the walk searches. -/
def Walk.table (v : Walk P) : Option (IntervalArray (Option MapCtx)) :=
  v.entry.toOption.bind PerPidCtx.elfCtxList

/-- The pc is in a mapping of the table that an ELF file is behind. -/
def Walk.Holds (v : Walk P) (pc : Word) : Prop :=
  ∃ array ∈ v.table, ∃ item ∈ array.items, item.Contains pc ∧ item.payload.isSome = true

/-- An ELF file is behind the record in hand. -/
def Walk.Backed (v : Walk P) : Prop := ∃ elf, guGetElfCtxFromItem v = .ok (some elf)

/-- What is in hand when a pc has been located: the record that was there, or what the table
says. -/
theorem Walk.locate_cases (h : v.Sound Q) (hlocate : v.locate w pc = .ok v') :
    v.covers pc = true ∧ v' = v ∨ v.Searched pc v' := by
  unfold Walk.locate at hlocate
  split at hlocate
  · rename_i hcovers
    exact .inl ⟨hcovers, (Except.ok.inj hlocate).symm⟩
  · have hsearch := h.search w pc
    rw [hlocate] at hsearch
    exact .inr hsearch.2.2

/-- A pc that the record in hand does not hold is found by the search. -/
theorem Walk.locate_of_search {pidCtx : PerPidCtx} {item : Interval (Option MapCtx)}
    (hcovers : v.covers pc = false) (hentry : v.entry = .ok pidCtx)
    (hsearch : pidCtx.search pc = some item) :
    v.locate w pc = .ok { v with elfItem := some item } := by
  simp only [Walk.locate, hcovers, Bool.false_eq_true, if_false, guSearchPidElfCtx, hentry, hsearch,
    bind, Except.bind]
  rfl

section

variable (h : v.Sound Q)
include h

/-- A mapped pc is located in the table, without a reload. -/
theorem Walk.Sound.locate_mapped {pidCtx : PerPidCtx} (w : World P) (hentry : v.entry = .ok pidCtx)
    (hmapped : (pidCtx.search pc).isSome = true) :
    ∃ item ∈ pidCtx.items, item.Contains pc ∧
      v.locate w pc = .ok { v with elfItem := some item } := by
  cases hcovers : v.covers pc with
  | true =>
    have hlocate : v.locate w pc = .ok v := by simp only [Walk.locate, hcovers, if_true]
    cases hhand : v.elfItem with
    | none => simp [Walk.covers, hhand] at hcovers
    | some item =>
      obtain ⟨pidCtx', hentry', hmem⟩ := h.entry_of_held hhand
      cases hentry.symm.trans hentry'
      refine ⟨item, hmem, (Walk.locate_spec hlocate).1 item hhand, ?_⟩
      rw [← hhand]
      exact hlocate
  | false =>
    obtain ⟨item, hsearch⟩ := Option.isSome_iff_exists.mp hmapped
    have hlocate : v.locate w pc = .ok { v with elfItem := some item } :=
      Walk.locate_of_search hcovers hentry hsearch
    exact ⟨item, PerPidCtx.mem_of_search hsearch, (Walk.locate_spec hlocate).1 item rfl, hlocate⟩

/-- A located mapping leaves a sound walk. -/
theorem Walk.Sound.of_locate (hlocate : v.locate w pc = .ok v') : v'.Sound Q := by
  have hends := h.locate w pc
  rw [hlocate] at hends
  exact hends.1

/-- With a process to search in, every pc can be located. -/
theorem Walk.Sound.exists_locate (w : World P) (hpid : v.pidCtx ≠ none) (pc : Word) :
    ∃ v', v.locate w pc = .ok v' := by
  obtain ⟨pid, hpid⟩ := Option.ne_none_iff_exists'.mp hpid
  obtain ⟨pidCtx, hfound⟩ := h.entry pid hpid
  have hentry := Walk.entry_ok hpid hfound
  unfold Walk.locate
  split
  · exact ⟨v, rfl⟩
  · obtain ⟨v', hsearch, -⟩ := guSearchPidElfCtx_ends w hentry pc
    exact ⟨v', hsearch⟩

/-- The file of a sound walk is found. -/
theorem Walk.Sound.exists_elf : ∃ found, guGetElfCtxFromItem v = .ok found := by
  have hends := h.elfCtx
  cases hfound : guGetElfCtxFromItem v with
  | ok found => exact ⟨found, rfl⟩
  | error stuck =>
    rw [hfound] at hends
    unfold guGetElfCtxFromItem at hfound
    split at hfound
    · cases hfound
    split at hfound
    · cases hfound
    split at hfound
    · cases hfound
      exact absurd rfl hends
    · cases hfound

/-- The record in hand is one of the table. -/
theorem Walk.Sound.mem_table {item : Interval (Option MapCtx)} (hitem : v.elfItem = some item) :
    ∃ array ∈ v.table, item ∈ array.items := by
  obtain ⟨pid, hpid, pidCtx, hfound, hheld⟩ := h.held item hitem
  have hentry := Walk.entry_ok hpid hfound
  cases hlist : pidCtx.elfCtxList with
  | none => simp [PerPidCtx.items, hlist] at hheld
  | some array =>
    refine ⟨array, ?_, by simpa [PerPidCtx.items, hlist] using hheld⟩
    simp only [Walk.table, hentry, Except.toOption, Option.bind_some, hlist]
    rfl

/-- A file behind the record in hand is one behind a mapping of the pc. -/
theorem Walk.Backed.holds (hlocate : v.locate w pc = .ok v') (hbacked : v'.Backed) :
    v'.Holds pc := by
  obtain ⟨elf, hmapped⟩ := hbacked
  unfold guGetElfCtxFromItem at hmapped
  split at hmapped
  · cases hmapped
  rename_i item hitem
  obtain ⟨array, harray, hmem⟩ := (h.of_locate hlocate).mem_table hitem
  refine ⟨array, harray, item, hmem, (Walk.locate_spec hlocate).1 item hitem, ?_⟩
  split at hmapped
  · cases hmapped
  · rename_i hpayload
    rw [hpayload]
    rfl

/-- In a table of disjoint ranges the file behind a mapping of the pc is found. -/
theorem Walk.Holds.backed (hlocate : v.locate w pc = .ok v')
    (hdisjoint : ∀ array ∈ v'.table, array.Disjoint) (hholds : v'.Holds pc) : v'.Backed := by
  obtain ⟨array, harray, item, hmem, hcontains, hpayload⟩ := hholds
  have hsound := h.of_locate hlocate
  have hitem : v'.elfItem = some item := by
    cases hentry : v'.entry with
    | error stuck =>
      simp only [Walk.table, hentry, Except.toOption, Option.bind_none] at harray
      cases harray
    | ok pidCtx =>
      have hlist : array ∈ pidCtx.elfCtxList := by
        simpa only [Walk.table, hentry, Except.toOption, Option.bind_some] using harray
      obtain ⟨index, hsearch⟩ := (hdisjoint array harray).search hmem hcontains
      have hfound : pidCtx.search pc = some item := by
        simp only [PerPidCtx.search, Option.mem_def.mp hlist, hsearch, Option.map_some]
      rcases locate_cases h hlocate with ⟨hcovers, rfl⟩ | hsearched
      · cases hhand : v'.elfItem with
        | none => simp [Walk.covers, hhand] at hcovers
        | some hand =>
          obtain ⟨array', harray', hheld⟩ := hsound.mem_table hhand
          cases Eq.trans (Eq.symm harray) harray'
          simp only [Walk.covers, hhand, Bool.and_eq_true, decide_eq_true_eq] at hcovers
          rw [(hdisjoint array harray).eq_of_contains hheld hmem hcovers.2 hcontains]
      · cases hsearched with
        | kept _ hafter _ _ hitem | replaced _ hafter _ hitem =>
          cases hentry.symm.trans hafter
          rw [hitem, hfound]
        | lost _ hafter _ _ =>
          simp only [Walk.entry, hafter] at hentry
          cases hentry
  obtain ⟨found, hmapped⟩ := hsound.exists_elf
  cases found with
  | some elf => exact ⟨elf, hmapped⟩
  | none =>
    obtain ⟨mapCtx, hmap⟩ := Option.isSome_iff_exists.mp hpayload
    simp only [guGetElfCtxFromItem, hitem, hmap] at hmapped
    split at hmapped <;> cases hmapped

end

/-- A walk from a reachable context starts with consistent tables. -/
theorem Reachable.startWalk_sound {H P : Type} {S : SavedStates H P} {w : World P}
    {ctx : GuContext P} {info : StackInfo} {walk : Walk P} (hctx : Reachable S ctx)
    (hstart : startWalk w ctx info = some walk) :
    walk.Sound CfiProperty.any ∧ walk.pidCtx ≠ none := by
  obtain ⟨hrefs, hopened⟩ := (hctx.references CfiProperty.any_kept).openProcess w info
  unfold startWalk at hstart
  split at hstart
  · cases hstart
  rename_i pidCtx info' ctx' hopen
  cases hstart
  rw [hopen] at hrefs hopened
  obtain ⟨hfound, hsampled⟩ := hopened pidCtx rfl
  exact ⟨Walk.Sound.init hrefs hfound hsampled, Option.some_ne_none _⟩

end Gunwinder
