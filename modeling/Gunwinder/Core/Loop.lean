import Mathlib.Logic.Basic
import Mathlib.Tactic.TypeStar

/-!
# Bounded loops

A turn of a loop either goes on in a new state or stops with a result. A bounded
loop repeats turns and, once its budget is spent, reads its result off the last
state. The invariant rule and the simulation rule are the two inductions over the
budget; the later modules only supply what one turn does.
-/

namespace Gunwinder.Core

variable {σ τ ρ υ : Type*}

section Results

universe u

variable {ε : Type*} {α β : Type u} {x : Except ε α} {b : β}

/-- A result that was mapped is a result. -/
theorem exists_of_map_ok {f : α → β} (h : x.map f = .ok b) : ∃ a, x = .ok a ∧ f a = b := by
  cases x with
  | error e => cases h
  | ok a => exact ⟨a, rfl, Except.ok.inj h⟩

/-- A computation that has gone on to its end has passed its first part. -/
theorem exists_of_bind_ok {f : α → Except ε β} (h : (x >>= f) = .ok b) :
    ∃ a, x = .ok a ∧ f a = .ok b := by
  cases x with
  | error e => cases h
  | ok a => exact ⟨a, rfl, h⟩

end Results

/-- One turn of a loop: go on in a new state, or stop with a result. -/
inductive Turn (σ ρ : Type*) where
  | next (s : σ)
  | stop (r : ρ)

/-- Run at most `n` turns; `out` reads the result off the state left by a spent budget. -/
def loop (step : σ → Turn σ ρ) (out : σ → ρ) : Nat → σ → ρ
  | 0, s => out s
  | n + 1, s =>
    match step s with
    | .next s' => loop step out n s'
    | .stop r => r

@[simp] theorem loop_zero (step : σ → Turn σ ρ) (out : σ → ρ) (s : σ) :
    loop step out 0 s = out s := rfl

variable {step : σ → Turn σ ρ} {s : σ}

/-- A turn that goes on. -/
theorem loop_next {s' : σ} (h : step s = .next s') (out : σ → ρ) (n : Nat) :
    loop step out (n + 1) s = loop step out n s' := by
  simp only [loop, h]

/-- A turn that stops. -/
theorem loop_stop {r : ρ} (h : step s = .stop r) (out : σ → ρ) (n : Nat) :
    loop step out (n + 1) s = r := by
  simp only [loop, h]

/-- An invariant that every turn keeps and every way out turns into `P` makes `P` hold of the
result. -/
theorem loop_invariant {out : σ → ρ} (I : σ → Prop) (P : ρ → Prop)
    (hnext : ∀ s s', I s → step s = .next s' → I s') (hstop : ∀ s r, I s → step s = .stop r → P r)
    (hout : ∀ s, I s → P (out s)) (n : Nat) (hs : I s) : P (loop step out n s) := by
  induction n generalizing s with
  | zero => exact hout s hs
  | succ n ih =>
    cases ht : step s with
    | next s' => rw [loop_next ht]; exact ih (hnext s s' hs ht)
    | stop r => rw [loop_stop ht]; exact hstop s r hs ht

/-- What a turn leaves, whichever exit it takes. -/
def Turn.All (I : σ → Prop) (P : ρ → Prop) : Turn σ ρ → Prop
  | .next s => I s
  | .stop r => P r

/-- The invariant rule with one premise per turn. -/
theorem loop_all {out : σ → ρ} (I : σ → Prop) (P : ρ → Prop) (hstep : ∀ s, I s → (step s).All I P)
    (hout : ∀ s, I s → P (out s)) (n : Nat) (hs : I s) : P (loop step out n s) := by
  refine loop_invariant I P (fun s s' hI heq => ?_) (fun s r hI heq => ?_) hout n hs
  · have := hstep s hI
    rwa [heq] at this
  · have := hstep s hI
    rwa [heq] at this

/-- Two turns agree when they take the same exit with related states or results. -/
inductive Turn.Rel (R : σ → τ → Prop) (Q : ρ → υ → Prop) : Turn σ ρ → Turn τ υ → Prop where
  | next {s : σ} {t : τ} (h : R s t) : Turn.Rel R Q (.next s) (.next t)
  | stop {r : ρ} {q : υ} (h : Q r q) : Turn.Rel R Q (.stop r) (.stop q)

/-- Lockstep simulation: related states take agreeing turns, so loops with the same
budget have related results. -/
theorem loop_simulation {step' : τ → Turn τ υ} {out : σ → ρ} {out' : τ → υ} (R : σ → τ → Prop)
    (Q : ρ → υ → Prop) (hstep : ∀ s t, R s t → Turn.Rel R Q (step s) (step' t))
    (hout : ∀ s t, R s t → Q (out s) (out' t)) (n : Nat) {t : τ} (h : R s t) :
    Q (loop step out n s) (loop step' out' n t) := by
  induction n generalizing s t with
  | zero => exact hout s t h
  | succ n ih =>
    have hrel := hstep s t h
    cases hs : step s with
    | next s' =>
      rw [hs] at hrel
      cases ht : step' t with
      | next t' =>
        rw [ht] at hrel
        cases hrel with
        | next hst => rw [loop_next hs, loop_next ht]; exact ih hst
      | stop q => rw [ht] at hrel; nomatch hrel
    | stop r =>
      rw [hs] at hrel
      cases ht : step' t with
      | next t' => rw [ht] at hrel; nomatch hrel
      | stop q =>
        rw [ht] at hrel
        cases hrel with
        | stop hrq => rw [loop_stop hs, loop_stop ht]; exact hrq

/-- The state at the head of turn `n`, when the loop gets that far. -/
def headState (step : σ → Turn σ ρ) : Nat → σ → Option σ
  | 0, s => some s
  | n + 1, s =>
    match step s with
    | .next s' => headState step n s'
    | .stop _ => none

@[simp] theorem headState_zero (step : σ → Turn σ ρ) (s : σ) :
    headState step 0 s = some s := rfl

/-- The head behind a turn that goes on. -/
theorem headState_next {s' : σ} (h : step s = .next s') (n : Nat) :
    headState step (n + 1) s = headState step n s' := by
  simp only [headState, h]

/-- No head behind a turn that stops. -/
theorem headState_stop {r : ρ} (h : step s = .stop r) (n : Nat) :
    headState step (n + 1) s = none := by
  simp only [headState, h]

variable {t : σ} {n : Nat}

/-- One more turn from the head of turn `n`. -/
theorem headState_succ {t' : σ} (h : headState step n s = some t) (ht : step t = .next t') :
    headState step (n + 1) s = some t' := by
  induction n generalizing s with
  | zero =>
    cases h
    rw [headState_next ht, headState_zero]
  | succ n ih =>
    cases hs : step s with
    | next s' =>
      rw [headState_next hs] at h ⊢
      exact ih h
    | stop r => rw [headState_stop hs] at h; cases h

/-- A head is left by the turn before it. -/
theorem headState_pred {t' : σ} (h : headState step (n + 1) s = some t') :
    ∃ t, headState step n s = some t ∧ step t = .next t' := by
  induction n generalizing s with
  | zero =>
    cases hs : step s with
    | next s' =>
      rw [headState_next hs] at h
      cases h
      exact ⟨s, rfl, hs⟩
    | stop r => rw [headState_stop hs] at h; cases h
  | succ n ih =>
    cases hs : step s with
    | next s' =>
      rw [headState_next hs] at h ⊢
      exact ih h
    | stop r => rw [headState_stop hs] at h; cases h

/-- The invariant rule for the heads of a run, with the number of the turn. -/
theorem headState_invariant {start : σ} (I : Nat → σ → Prop) (hstart : I 0 start)
    (hnext : ∀ n s s', headState step n start = some s → I n s → step s = .next s' → I (n + 1) s')
    (h : headState step n start = some s) : I n s := by
  induction n generalizing s with
  | zero => exact Option.some.inj h ▸ hstart
  | succ n ih =>
    obtain ⟨t, ht, hturn⟩ := headState_pred h
    exact hnext n t s ht (ih ht) hturn

/-- A run that gets to a head has been at all heads before it. -/
theorem headState_le {k : Nat} (hk : k ≤ n) (h : headState step n s = some t) :
    ∃ t, headState step k s = some t := by
  induction n generalizing t with
  | zero =>
    obtain rfl := Nat.le_zero.mp hk
    exact ⟨t, h⟩
  | succ n ih =>
    rcases Nat.le_succ_iff.mp hk with hle | rfl
    · obtain ⟨t', ht', -⟩ := headState_pred h
      exact ih hle ht'
    · exact ⟨t, h⟩

/-- Nothing follows a turn that stops. -/
theorem headState_of_stop {r : ρ} {k : Nat} (hk : n < k) (h : headState step n s = some t)
    (ht : step t = .stop r) : headState step k s = none := by
  cases hlater : headState step k s with
  | none => rfl
  | some u =>
    obtain ⟨t', ht'⟩ := headState_le hk hlater
    obtain ⟨t₀, hhead, hnext⟩ := headState_pred ht'
    cases h.symm.trans hhead
    rw [ht] at hnext
    cases hnext

variable (out : σ → ρ)

/-- A turn that stops within the budget gives the result. -/
theorem loop_of_head {r : ρ} {k : Nat} (hk : k < n) (h : headState step k s = some t)
    (ht : step t = .stop r) : loop step out n s = r := by
  induction k generalizing n s with
  | zero =>
    cases h
    obtain ⟨m, rfl⟩ := Nat.exists_eq_add_of_lt hk
    exact loop_stop ht out _
  | succ k ih =>
    cases n with
    | zero => exact absurd hk (Nat.not_lt_zero _)
    | succ n =>
      cases hs : step s with
      | next s' =>
        rw [headState_next hs] at h
        rw [loop_next hs]
        exact ih (Nat.lt_of_succ_lt_succ hk) h
      | stop r => rw [headState_stop hs] at h; cases h

/-- A run that gets to the head behind its last turn has spent its budget. -/
theorem loop_of_spent (h : headState step n s = some t) : loop step out n s = out t := by
  induction n generalizing s with
  | zero =>
    obtain rfl := Option.some.inj h
    exact loop_zero step out s
  | succ n ih =>
    cases hs : step s with
    | next s' =>
      rw [headState_next hs] at h
      rw [loop_next hs]
      exact ih h
    | stop r => rw [headState_stop hs] at h; cases h

/-- A loop stops in a turn within its budget, or it spends the budget. -/
theorem loop_ends (step : σ → Turn σ ρ) (out : σ → ρ) (n : Nat) (s : σ) :
    (∃ k, k < n ∧ ∃ t, headState step k s = some t ∧ step t = .stop (loop step out n s)) ∨
      ∃ t, headState step n s = some t ∧ loop step out n s = out t := by
  induction n generalizing s with
  | zero => exact .inr ⟨s, rfl, rfl⟩
  | succ n ih =>
    cases hs : step s with
    | stop r =>
      refine .inl ⟨0, Nat.succ_pos n, s, rfl, ?_⟩
      rw [loop_stop hs, hs]
    | next s' =>
      rw [loop_next hs]
      rcases ih s' with ⟨k, hk, t, ht, hstop⟩ | ⟨t, ht, hout⟩
      · exact .inl ⟨k + 1, Nat.succ_lt_succ hk, t, (headState_next hs k).trans ht, hstop⟩
      · exact .inr ⟨t, (headState_next hs n).trans ht, hout⟩

/-- Turns that lower a measure, and stop with `out` at zero, never spend a budget as large as
the measure. -/
theorem loop_of_measure {out : σ → ρ} (μ : σ → Nat) (hnext : ∀ s s', step s = .next s' → μ s' < μ s)
    (hzero : ∀ s, μ s = 0 → step s = .stop (out s)) {k : Nat} (hn : μ s ≤ n) (hk : μ s ≤ k) :
    loop step out n s = loop step out k s := by
  have hspent (j : Nat) {t : σ} (ht : μ t = 0) : loop step out j t = out t := by
    cases j with
    | zero => exact loop_zero step out t
    | succ j => exact loop_stop (hzero t ht) out j
  induction n generalizing k s with
  | zero => rw [hspent 0 (Nat.le_zero.mp hn), hspent k (Nat.le_zero.mp hn)]
  | succ n ih =>
    cases k with
    | zero => rw [hspent _ (Nat.le_zero.mp hk), hspent 0 (Nat.le_zero.mp hk)]
    | succ k =>
      cases hs : step s with
      | stop r => rw [loop_stop hs, loop_stop hs]
      | next s' =>
        rw [loop_next hs, loop_next hs]
        have hlt := hnext s s' hs
        exact ih (Nat.le_of_lt_succ (Nat.lt_of_lt_of_le hlt hn))
          (Nat.le_of_lt_succ (Nat.lt_of_lt_of_le hlt hk))

/-- The invariant rule for loops without a budget: turns that lower a measure stop. -/
theorem loop_total (I : σ → Prop) (P : ρ → Prop) (μ : σ → Nat)
    (hstep : ∀ s, I s → (step s).All (fun s' => I s' ∧ μ s' < μ s) P) (hs : I s) (hn : μ s < n) :
    P (loop step out n s) := by
  induction n generalizing s with
  | zero => exact absurd hn (Nat.not_lt_zero _)
  | succ n ih =>
    have hturn := hstep s hs
    cases ht : step s with
    | next s' =>
      rw [ht] at hturn
      rw [loop_next ht]
      exact ih hturn.1 (Nat.lt_of_lt_of_le hturn.2 (Nat.le_of_lt_succ hn))
    | stop r =>
      rw [ht] at hturn
      rw [loop_stop ht]
      exact hturn

end Gunwinder.Core
