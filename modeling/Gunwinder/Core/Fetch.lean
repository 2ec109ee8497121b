import Gunwinder.Core.Loop
import Mathlib.Tactic.Common

/-!
# Programs over bounded storage

A program fetches cells of a memory that is only partly there, and stores into buffers of a
fixed size. A fetch of a missing cell and a store behind the last cell are faults. `Reads` is the
judgement for runs without a fault; its rules follow the program text.
-/

namespace Gunwinder.Core

/-- A program that fetches cells of type `β`; `none` is a fault. -/
abbrev Fetch (β : Type) := ReaderT (Nat → Option β) Option

variable {α β γ σ ρ : Type}

/-- The cell at an address. -/
def fetch (a : Nat) : Fetch β β := fun cells => cells a

/-- Store behind the cells `xs` of a buffer with `cap` cells. -/
def store (cap : Nat) (xs : List α) (x : α) : Fetch β (List α) := fun _ =>
  if xs.length < cap then some (xs ++ [x]) else none

/-- The part of a memory between two addresses. -/
def window (m : Nat → β) (lo hi : Nat) : Nat → Option β := fun a =>
  if lo ≤ a ∧ a < hi then some (m a) else none

/-- On the cells between `lo` and `hi` the program does not fault and gives `v`. -/
def Reads (m : Nat → β) (lo hi : Nat) (x : Fetch β α) (v : α) : Prop :=
  x.run (window m lo hi) = some v

section Rules

variable {m : Nat → β} {lo hi : Nat}

/-- A value fetches nothing. -/
theorem reads_pure (v : α) : Reads m lo hi (pure v) v := rfl

/-- A fetch inside the bounds. -/
theorem reads_fetch {a : Nat} (hlo : lo ≤ a) (hhi : a < hi) : Reads m lo hi (fetch a) (m a) :=
  if_pos ⟨hlo, hhi⟩

/-- A store below the capacity. -/
theorem reads_store {cap : Nat} {xs : List α} (h : xs.length < cap) (x : α) :
    Reads m lo hi (store cap xs x) (xs ++ [x]) :=
  if_pos h

/-- Two programs, one behind the other. -/
theorem Reads.bind {x : Fetch β α} {f : α → Fetch β γ} {v : α} {w : γ}
    (hx : Reads m lo hi x v) (hf : Reads m lo hi (f v) w) : Reads m lo hi (x >>= f) w :=
  Option.bind_eq_some_iff.mpr ⟨v, hx, hf⟩

/-- A value is what it gives. -/
theorem reads_pure_iff {v w : α} : Reads m lo hi (pure v) w ↔ w = v :=
  Option.some_inj.trans eq_comm

private theorem reads_fetch_iff {a : Nat} {b : β} :
    Reads m lo hi (fetch a) b ↔ (lo ≤ a ∧ a < hi) ∧ b = m a := by
  change window m lo hi a = some b ↔ _
  by_cases h : lo ≤ a ∧ a < hi
  · simp [window, h, eq_comm]
  · simp [window, h]

/-- A sequence of programs stays in the window when both do, the second from the value of the
first. -/
theorem reads_bind_iff {x : Fetch β α} {f : α → Fetch β γ} {w : γ} :
    Reads m lo hi (x >>= f) w ↔ ∃ v, Reads m lo hi x v ∧ Reads m lo hi (f v) w :=
  Option.bind_eq_some_iff

/-- A fetch in front of a program. -/
theorem reads_fetch_bind_iff {a : Nat} {f : β → Fetch β γ} {w : γ} :
    Reads m lo hi (fetch a >>= f) w ↔ (lo ≤ a ∧ a < hi) ∧ Reads m lo hi (f (m a)) w := by
  rw [reads_bind_iff]
  constructor
  · rintro ⟨b, hb, hf⟩
    obtain ⟨hin, rfl⟩ := reads_fetch_iff.mp hb
    exact ⟨hin, hf⟩
  · rintro ⟨hin, hf⟩
    exact ⟨m a, reads_fetch_iff.mpr ⟨hin, rfl⟩, hf⟩

variable {f : α → OptionT (Fetch β) γ}

/-- A program that may give up, followed by one that starts from its value. -/
theorem Reads.cases {x : OptionT (Fetch β) α} {o : Option α} {w : Option γ}
    (hx : Reads m lo hi x.run o) (hnone : o = none → w = none)
    (hsome : ∀ a, o = some a → Reads m lo hi (f a).run w) : Reads m lo hi (x >>= f).run w := by
  rw [OptionT.run_bind]
  refine hx.bind ?_
  cases o with
  | none =>
    rw [hnone rfl]
    exact reads_pure none
  | some a => exact hsome a rfl

/-- The same for a result that is given by a bind. -/
theorem Reads.andThen {x : OptionT (Fetch β) α} {o : Option α} {g : α → Option γ}
    (hx : Reads m lo hi x.run o) (hf : ∀ a, o = some a → Reads m lo hi (f a).run (g a)) :
    Reads m lo hi (x >>= f).run (o.bind g) := by
  refine hx.cases (fun h => ?_) (fun a h => ?_)
  · rw [h, Option.bind_none]
  · rw [h, Option.bind_some]
    exact hf a h

/-- A program that cannot give up, followed by one that may. -/
theorem Reads.lift {x : Fetch β α} {v : α} {w : Option γ} (hx : Reads m lo hi x v)
    (hf : Reads m lo hi (f v).run w) : Reads m lo hi (OptionT.lift x >>= f).run w := by
  rw [OptionT.run_bind, OptionT.run_lift]
  exact Reads.bind (hx.bind (reads_pure (some v))) hf

end Rules

/-! ## Loops -/

/-- `loop` for turns that fetch. -/
def fetchLoop (step : σ → Fetch β (Turn σ ρ)) (out : σ → ρ) : Nat → σ → Fetch β ρ
  | 0, s => pure (out s)
  | n + 1, s => do
    match ← step s with
    | .next s' => fetchLoop step out n s'
    | .stop r => pure r

/-- A loop stays in the window when every turn from an invariant state does. -/
theorem reads_fetchLoop {m : Nat → β} {lo hi : Nat} {step : σ → Fetch β (Turn σ ρ)}
    {turn : σ → Turn σ ρ} (out : σ → ρ) (I : σ → Prop)
    (hstep : ∀ s, I s → Reads m lo hi (step s) (turn s))
    (hnext : ∀ s s', I s → turn s = .next s' → I s') (n : Nat) {s : σ} (hs : I s) :
    Reads m lo hi (fetchLoop step out n s) (loop turn out n s) := by
  induction n generalizing s with
  | zero => exact reads_pure (out s)
  | succ n ih =>
    refine (hstep s hs).bind ?_
    cases ht : turn s with
    | next s' =>
      rw [loop_next ht]
      exact ih (hnext s s' hs ht)
    | stop r =>
      rw [loop_stop ht]
      exact reads_pure r

end Gunwinder.Core
