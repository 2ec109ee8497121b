import Gunwinder.Cache.Reload
import Mathlib.Logic.Relation

/-!
# Process identity

The entry of a process carries the start time of the process as its id, and samples that carry the
id are resolved with the entry. A pid may pass to another process at any time, so the system is
followed by a table of who holds a pid when. Loads read the mappings when they are called; what is
in the table already is taken as it is, whoever holds the pid by then.
-/

namespace Gunwinder

open Gunwinder.Core

variable {H P : Type} {Q : CfiProperty P} {ctx ctx' ctx'' : GuContext P} {w : World P}

variable {S : SavedStates H P} {pidCtx : PerPidCtx} {info : StackInfo}

/-- A run of operations renews the table. -/
theorem Renews.run (hreach : Reachable S ctx) (h : Relation.ReflTransGen (Operation w S) ctx ctx') :
    Renews w ctx ctx' ∧ Reachable S ctx' := by
  induction h with
  | refl => exact ⟨.refl ctx, hreach⟩
  | tail _ hop ih =>
    have hrefs := ih.2.references CfiProperty.any_kept
    exact ⟨ih.1.trans (hop.renews hrefs), hop.reachable ih.2⟩

/-! ## Who holds a pid -/

/-- Who holds a pid when a question is asked, by the start time of the process. A pid passes
on without notice; a later process has a later start time. -/
structure ProcessTable where
  holder : Nat → Int → Option Word
  ordered : ∀ {t t' : Nat} {pid : Int} {a b : Word}, t ≤ t' → holder t pid = some a →
    holder t' pid = some b → a ≤ b

/-- `/proc/<pid>/stat` shows the start time of the holder, or cannot be read. -/
def World.Follows (w : World P) (table : ProcessTable) : Prop :=
  ∀ t pid, w.startTime t pid ≠ 0#64 → table.holder t pid = some (w.startTime t pid)

/-- The mappings of the entry were read before `now`, when no process from before `id` held the
pid. -/
def PerPidCtx.MapsSince (w : World P) (table : ProcessTable) (id : Word) (now : Nat)
    (pidCtx : PerPidCtx) : Prop :=
  ∃ t, pidCtx.ReadFrom w t now ∧
    ∀ holder, table.holder t pidCtx.pid = some holder → id ≤ holder

variable {table : ProcessTable} {pid : Int}

/-- An entry that is kept is so at any later time. -/
theorem PerPidCtx.MapsSince.same {pidCtx' : PerPidCtx} {id : Word} {now later : Nat}
    (h : pidCtx.MapsSince w table id now) (hsame : pidCtx.SameMaps pidCtx')
    (hlater : now ≤ later) : pidCtx'.MapsSince w table id later := by
  obtain ⟨t, hread, hsince⟩ := h
  rw [← hsame.pid] at hsince
  exact ⟨t, hread.same hsame hlater, hsince⟩

end Gunwinder
