import Mathlib.Logic.Basic
import Mathlib.Tactic.TypeStar

/-!
# Runs with a record

A run of a labelled transition system, with the list of labels it has produced. A fact
about a state and the record of the run that led to it is proved step by step; a function
that moves a state along some run composes with others like it.
-/

namespace Gunwinder.Core

variable {σ α : Type*}

/-- A run from one state to another with the labels of its steps. -/
inductive Trace (step : σ → α → σ → Prop) : σ → List α → σ → Prop where
  | nil (s : σ) : Trace step s [] s
  | cons {s t u : σ} {a : α} {as : List α} (head : step s a t) (tail : Trace step t as u) :
      Trace step s (a :: as) u

variable {step : σ → α → σ → Prop} {s t u : σ}

/-- A run of one step. -/
theorem Trace.single {a : α} (h : step s a t) : Trace step s [a] t := .cons h (.nil t)

variable {as : List α}

/-- A run behind a run. -/
theorem Trace.append {bs : List α} (h : Trace step s as t) (h' : Trace step t bs u) :
    Trace step s (as ++ bs) u := by
  induction h with
  | nil s => exact h'
  | cons head _ ih => exact .cons head (ih h')

/-- A record is possible if its first label is and the rest is possible from there. -/
theorem Trace.exists_cons {a : α} (head : step s a t) (h : ∃ u, Trace step t as u) :
    ∃ u, Trace step s (a :: as) u :=
  h.imp fun _ => .cons head

/-- What one step keeps of a state and its record holds at the end of every run. -/
theorem Trace.history (J : List α → σ → Prop)
    (hstep : ∀ as s a t, J as s → step s a t → J (as ++ [a]) t) {bs : List α}
    (h : Trace step s bs t) (hs : J as s) : J (as ++ bs) t := by
  induction h generalizing as with
  | nil s => rwa [List.append_nil]
  | cons head _ ih =>
    rw [List.append_cons]
    exact ih (hstep _ _ _ _ hs head)

/-- What a longer record shows through a filter. -/
theorem filterMap_snoc {β : Type*} (f : α → Option β) (as : List α) (a : α) :
    (as ++ [a]).filterMap f = as.filterMap f ++ (f a).toList := by
  rw [List.filterMap_append, List.filterMap_cons]
  cases f a <;> rfl

/-- The invariant rule for runs whose record does not matter. -/
theorem Trace.invariant (I : σ → Prop) (hstep : ∀ s a t, I s → step s a t → I t)
    (h : Trace step s as t) (hs : I s) : I t := by
  induction h with
  | nil s => exact hs
  | cons head _ ih => exact ih (hstep _ _ _ hs head)

/-- Some run leads from one state to the other. -/
def Moves (step : σ → α → σ → Prop) (s t : σ) : Prop := ∃ as, Trace step s as t

/-- No step at all. -/
theorem Moves.refl (s : σ) : Moves step s s := ⟨[], .nil s⟩

/-- One step. -/
theorem Moves.single {a : α} (h : step s a t) : Moves step s t := ⟨[a], .single h⟩

/-- Steps after steps. -/
theorem Moves.trans (h : Moves step s t) (h' : Moves step t u) : Moves step s u := by
  obtain ⟨as, has⟩ := h
  obtain ⟨bs, hbs⟩ := h'
  exact ⟨as ++ bs, has.append hbs⟩

/-- One more step. -/
theorem Moves.snoc {a : α} (h : Moves step s t) (h' : step t a u) : Moves step s u :=
  h.trans (.single h')

end Gunwinder.Core
