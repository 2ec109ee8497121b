import Gunwinder.Core.Keyed

/-!
# Reference-counted tables

A keyed table whose entries count their uses, and mark themselves idle while they have
none. The uses are given from outside as a function of the key: an entry is exact when
its counter is the number of uses of its key.
-/

namespace Gunwinder.Core

variable {α κ : Type*}

/-- Every use has an entry, and every entry counts its uses and knows whether it is idle. -/
structure Counted (key : α → κ) (cnt : α → Nat) (idle : α → Bool) (l : List α)
    (uses : κ → Nat) : Prop where
  nodup : (l.map key).Nodup
  live : ∀ k, 0 < uses k → ∃ a ∈ l, key a = k
  exact : ∀ a ∈ l, cnt a = uses (key a)
  idle_iff : ∀ a ∈ l, idle a = true ↔ cnt a = 0

variable {key : α → κ} {cnt : α → Nat} {idle : α → Bool} {l : List α} {uses uses' : κ → Nat}
  {a : α} {f : α → α}

/-- Only the number of uses matters. -/
theorem Counted.congr (h : Counted key cnt idle l uses) (huses : ∀ k, uses' k = uses k) :
    Counted key cnt idle l uses' := by
  rw [show uses' = uses from funext huses]
  exact h

variable {k : κ}

/-- A use without an entry cannot be. -/
theorem Counted.uses_eq_zero (h : Counted key cnt idle l uses) (hk : ∀ a ∈ l, key a ≠ k) :
    uses k = 0 := by
  by_contra hne
  obtain ⟨a, ha, rfl⟩ := h.live k (Nat.pos_of_ne_zero hne)
  exact hk a ha rfl

/-- Without uses every entry is idle. -/
theorem Counted.idle_of_unused (h : Counted key cnt idle l uses) (hnone : ∀ k, uses k = 0)
    (ha : a ∈ l) : idle a = true :=
  (h.idle_iff a ha).mpr ((h.exact a ha).trans (hnone _))

variable [DecidableEq κ]

section

variable (h : Counted key cnt idle l uses)
include h

/-- A used key is found, with its number of uses. -/
theorem Counted.lookup (hk : 0 < uses k) : ∃ a, lookup key l k = some a ∧ cnt a = uses k := by
  obtain ⟨a, ha, rfl⟩ := h.live k hk
  exact ⟨a, lookup_of_mem h.nodup ha, h.exact a ha⟩

/-- The entry of a key changes its counter together with the uses of the key. -/
theorem Counted.change (ha : Core.lookup key l k = some a) (hkey : ∀ b, key (f b) = key b)
    (hcnt : cnt (f a) = uses' k) (hidle : idle (f a) = true ↔ cnt (f a) = 0)
    (hother : ∀ j, j ≠ k → uses' j = uses j) : Counted key cnt idle (update key l k f) uses' := by
  obtain ⟨hmem, rfl⟩ := mem_of_lookup ha
  have hentry : ∀ b ∈ l, key b = key a → b = a := fun b hb hba =>
    Option.some.inj ((lookup_of_mem h.nodup hb).symm.trans (hba ▸ ha))
  refine ⟨?_, ?_, ?_, ?_⟩
  · rw [map_update hkey]
    exact h.nodup
  · intro j hj
    by_cases hja : j = key a
    · exact ⟨f a, mem_update.mpr (.inl ⟨a, hmem, rfl, rfl⟩), (hkey a).trans hja.symm⟩
    · obtain ⟨b, hb, rfl⟩ := h.live j (hother j hja ▸ hj)
      exact ⟨b, mem_update.mpr (.inr ⟨hb, hja⟩), rfl⟩
  · intro b hb
    rcases mem_update.mp hb with ⟨c, hc, hca, rfl⟩ | ⟨hb, hne⟩
    · rw [hentry c hc hca, hkey, hcnt]
    · rw [hother _ hne]
      exact h.exact b hb
  · intro b hb
    rcases mem_update.mp hb with ⟨c, hc, hca, rfl⟩ | ⟨hb, -⟩
    · rw [hentry c hc hca]
      exact hidle
    · exact h.idle_iff b hb

/-- A new entry comes in with the uses of its key. -/
theorem Counted.insert (hnew : ∀ b ∈ l, key b ≠ key a) (hcnt : cnt a = uses' (key a))
    (hidle : idle a = true ↔ cnt a = 0) (hother : ∀ j, j ≠ key a → uses' j = uses j) :
    Counted key cnt idle (l ++ [a]) uses' := by
  refine ⟨?_, ?_, ?_, ?_⟩
  · rw [List.map_append, List.map_singleton]
    refine List.nodup_append.mpr ⟨h.nodup, List.nodup_singleton _, ?_⟩
    intro x hx y hy hxy
    obtain ⟨b, hb, rfl⟩ := List.mem_map.mp hx
    exact hnew b hb (hxy.trans (List.mem_singleton.mp hy))
  · intro j hj
    by_cases hja : j = key a
    · exact ⟨a, List.mem_append_right _ (List.mem_singleton_self a), hja.symm⟩
    · obtain ⟨b, hb, rfl⟩ := h.live j (hother j hja ▸ hj)
      exact ⟨b, List.mem_append_left _ hb, rfl⟩
  · intro b hb
    rcases List.mem_append.mp hb with hb | hb
    · rw [hother _ (hnew b hb)]
      exact h.exact b hb
    · rw [List.mem_singleton.mp hb, hcnt]
  · intro b hb
    rcases List.mem_append.mp hb with hb | hb
    · exact h.idle_iff b hb
    · rw [List.mem_singleton.mp hb]
      exact hidle

/-- An idle entry leaves without a use being lost. -/
theorem Counted.erase (ha : a ∈ l) (hidle : idle a = true) :
    Counted key cnt idle (remove key l (key a)) uses := by
  refine ⟨nodup_remove h.nodup, ?_, ?_, ?_⟩
  · intro k hk
    obtain ⟨b, hb, rfl⟩ := h.live k hk
    refine ⟨b, mem_remove.mpr ⟨hb, fun hba => ?_⟩, rfl⟩
    have hzero := (h.idle_iff a ha).mp hidle
    rw [h.exact a ha, ← hba] at hzero
    omega
  · exact fun b hb => h.exact b (mem_remove.mp hb).1
  · exact fun b hb => h.idle_iff b (mem_remove.mp hb).1

end

/-! ## Numbers of entries -/

/-- A number of entries is a total. -/
theorem countP_eq_sum (p : α → Bool) (l : List α) :
    l.countP p = (l.map fun a => (p a).toNat).sum := by
  induction l with
  | nil => rfl
  | cons a l ih => cases h : p a <;> simp [h, ih, Nat.add_comm]

/-- A change of one entry moves it between the two sides of a test. -/
theorem countP_update (hl : (l.map key).Nodup) (h : lookup key l k = some a) (p : α → Bool) :
    (update key l k f).countP p + (p a).toNat = l.countP p + (p (f a)).toNat := by
  simp only [countP_eq_sum]
  exact sum_update hl h _

/-- A removed entry is no longer counted. -/
theorem countP_remove (hl : (l.map key).Nodup) (h : lookup key l k = some a) (p : α → Bool) :
    (remove key l k).countP p + (p a).toNat = l.countP p := by
  simp only [countP_eq_sum]
  exact sum_remove hl h _

end Gunwinder.Core
