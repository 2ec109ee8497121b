import Mathlib.Algebra.Order.BigOperators.Group.List
import Mathlib.Algebra.Ring.Nat
import Mathlib.Data.List.Nodup

/-!
# Keyed lists

A hash table that is iterated in insertion order: a list of entries with pairwise
different keys. Entries are looked up, updated in place and removed by key. Totals over
the table (counts, sums) change by the change of the one entry that was touched.
-/

namespace Gunwinder.Core

variable {α κ : Type*} [DecidableEq κ] (key : α → κ)

/-- The entry of a key. -/
def lookup (l : List α) (k : κ) : Option α := l.find? fun a => key a = k

/-- Change the entry of a key in place. -/
def update (l : List α) (k : κ) (f : α → α) : List α := l.map fun a => if key a = k then f a else a

/-- Drop the entry of a key. -/
def remove (l : List α) (k : κ) : List α := l.filter fun a => key a ≠ k

variable {key} {l : List α} {k : κ} {a : α} {f : α → α}

/-- What is found is in the list. -/
theorem mem_of_lookup (h : lookup key l k = some a) : a ∈ l ∧ key a = k :=
  ⟨List.mem_of_find?_eq_some h, by simpa using List.find?_some h⟩

/-- Nothing is found under an unused key. -/
theorem lookup_eq_none : lookup key l k = none ↔ ∀ a ∈ l, key a ≠ k := by
  simp [lookup]

/-- An entry is found under its key. -/
theorem lookup_of_mem (hl : (l.map key).Nodup) (ha : a ∈ l) : lookup key l (key a) = some a := by
  induction l with
  | nil => cases ha
  | cons b l ih =>
    obtain ⟨hb, hl⟩ := List.nodup_cons.mp hl
    rcases List.mem_cons.mp ha with rfl | ha
    · simp [lookup]
    · have hne : key b ≠ key a := fun h => hb (h ▸ List.mem_map_of_mem ha)
      simpa [lookup, List.find?_cons, hne] using ih hl ha

/-- What an update does not change of its entry it does not change at all. -/
theorem map_update {β : Type*} {g : α → β} (hf : ∀ a, g (f a) = g a) :
    (update key l k f).map g = l.map g := by
  rw [update, List.map_map]
  refine List.map_congr_left fun a _ => ?_
  by_cases h : key a = k <;> simp [h, hf]

/-- The entries after an update: the changed one and the others. -/
theorem mem_update : a ∈ update key l k f ↔
    (∃ b ∈ l, key b = k ∧ a = f b) ∨ (a ∈ l ∧ key a ≠ k) := by
  simp only [update, List.mem_map]
  constructor
  · rintro ⟨b, hb, rfl⟩
    by_cases h : key b = k
    · exact .inl ⟨b, hb, h, by rw [if_pos h]⟩
    · rw [if_neg h]
      exact .inr ⟨hb, h⟩
  · rintro (⟨b, hb, h, rfl⟩ | ⟨ha, h⟩)
    · exact ⟨b, hb, by rw [if_pos h]⟩
    · exact ⟨a, ha, by rw [if_neg h]⟩

/-- The entry that changes is the only one of its key. -/
theorem mem_update_of_mem {b : α} (hl : (l.map key).Nodup) (ha : a ∈ l)
    (hb : b ∈ update key l (key a) f) : b = f a ∨ (b ∈ l ∧ key b ≠ key a) := by
  rcases mem_update.mp hb with ⟨c, hc, hkey, rfl⟩ | hother
  · have hsame := (lookup_of_mem hl hc).symm.trans (hkey ▸ lookup_of_mem hl ha)
    exact .inl (congrArg f (Option.some.inj hsame))
  · exact .inr hother

/-- An update changes what is found under its key and nothing else. -/
theorem lookup_update (hf : ∀ a, key (f a) = key a) (j : κ) :
    lookup key (update key l k f) j = (lookup key l j).map fun a => if j = k then f a else a := by
  induction l with
  | nil => rfl
  | cons a l ih =>
    have hhead : key (if key a = k then f a else a) = key a := by
      split
      · exact hf a
      · rfl
    simp only [lookup, update] at ih
    simp only [lookup, update, List.map_cons, List.find?_cons, hhead, ih]
    by_cases hj : key a = j
    · subst hj
      simp
    · simp [hj]

/-- An entry at the end is found when its key is new. -/
theorem lookup_append_self (h : lookup key l (key a) = none) :
    lookup key (l ++ [a]) (key a) = some a := by
  simp only [lookup] at h
  simp [lookup, List.find?_append, h]

/-- What is found stays found when entries are added behind it. -/
theorem lookup_append_of_some {l' : List α} (h : lookup key l k = some a) :
    lookup key (l ++ l') k = some a := by
  simp only [lookup] at h
  simp [lookup, List.find?_append, h]

/-- Two lists with one view that has the key find entries of one view. -/
theorem lookup_congr {β : Type*} {g : α → β} {l' : List α} (key' : β → κ)
    (hkey : ∀ a, key' (g a) = key a) (hmap : l'.map g = l.map g) :
    (lookup key l' k).map g = (lookup key l k).map g := by
  have hview : ∀ l : List α, lookup key' (l.map g) k = (lookup key l k).map g := fun l => by
    simp only [lookup, List.find?_map, Function.comp_def, hkey]
  rw [← hview, ← hview, hmap]

/-- An entry at the end is not found under other keys. -/
theorem lookup_append_of_ne (h : key a ≠ k) : lookup key (l ++ [a]) k = lookup key l k := by
  simp [lookup, List.find?_append, h]

/-- Two updates of one entry are one. -/
theorem update_update {g : α → α} (hf : ∀ a, key (f a) = key a) :
    update key (update key l k f) k g = update key l k fun a => g (f a) := by
  simp only [update, List.map_map]
  refine List.map_congr_left fun a _ => ?_
  by_cases h : key a = k <;> simp [h, hf]

/-- The entries under other keys are left. -/
theorem mem_remove : a ∈ remove key l k ↔ a ∈ l ∧ key a ≠ k := by
  simp [remove]

/-- A removed key is not found. -/
theorem lookup_remove_self : lookup key (remove key l k) k = none :=
  lookup_eq_none.mpr fun _ ha => (mem_remove.mp ha).2

/-- A removal changes nothing that is found under other keys. -/
theorem lookup_remove_of_ne {j : κ} (h : j ≠ k) :
    lookup key (remove key l k) j = lookup key l j := by
  rw [lookup, lookup, remove, List.find?_filter]
  refine congrArg (fun p => l.find? p) (funext fun a => ?_)
  by_cases ha : key a = j
  · simp [ha, h]
  · simp [ha]

/-- An entry that is removed may have been changed before. -/
theorem remove_update (hf : ∀ a, key (f a) = key a) :
    remove key (update key l k f) k = remove key l k := by
  induction l with
  | nil => rfl
  | cons a l ih =>
    simp only [remove, update, ne_eq, decide_not] at ih
    by_cases h : key a = k <;> simp [remove, update, h, hf, ih]

/-- Removing keeps the keys distinct. -/
theorem nodup_remove (hl : (l.map key).Nodup) : ((remove key l k).map key).Nodup :=
  hl.sublist (List.filter_sublist.map key)

/-- A list without the key is left alone. -/
theorem update_of_forall_ne (h : ∀ a ∈ l, key a ≠ k) : update key l k f = l := by
  rw [update]
  conv_rhs => rw [← List.map_id l]
  exact List.map_congr_left fun a ha => if_neg (h a ha)

/-- Nothing is removed under an unused key. -/
theorem remove_of_forall_ne (h : ∀ a ∈ l, key a ≠ k) : remove key l k = l :=
  List.filter_eq_self.mpr fun a ha => by simpa using h a ha

/-- The first entry is the one of its key, and the others do not have that key. -/
theorem lookup_cons_self {b : α} (hl : ((b :: l).map key).Nodup) (hb : key b = k)
    (h : lookup key (b :: l) k = some a) : b = a ∧ ∀ c ∈ l, key c ≠ k := by
  obtain ⟨hnot, -⟩ := List.nodup_cons.mp hl
  refine ⟨by simpa [lookup, hb] using h, fun c hc hck => hnot ?_⟩
  rw [hb, ← hck]
  exact List.mem_map_of_mem hc

/-- An update changes a total by the change of its entry. -/
theorem sum_update (hl : (l.map key).Nodup) (h : lookup key l k = some a) (g : α → Nat) :
    ((update key l k f).map g).sum + g a = (l.map g).sum + g (f a) := by
  induction l with
  | nil => cases h
  | cons b l ih =>
    by_cases hb : key b = k
    · obtain ⟨rfl, hne⟩ := lookup_cons_self hl hb h
      have hrest := update_of_forall_ne (f := f) hne
      simp only [update] at hrest
      simp only [update, List.map_cons, if_pos hb, List.sum_cons, hrest]
      omega
    · have hrest : lookup key l k = some a := by simpa [lookup, List.find?_cons, hb] using h
      have hsum := ih (List.nodup_cons.mp hl).2 hrest
      simp only [update] at hsum
      simp only [update, List.map_cons, if_neg hb, List.sum_cons]
      omega

/-- A removal takes the entry out of a total. -/
theorem sum_remove (hl : (l.map key).Nodup) (h : lookup key l k = some a) (g : α → Nat) :
    ((remove key l k).map g).sum + g a = (l.map g).sum := by
  induction l with
  | nil => cases h
  | cons b l ih =>
    by_cases hb : key b = k
    · obtain ⟨rfl, hne⟩ := lookup_cons_self hl hb h
      have hrest := remove_of_forall_ne hne
      simp only [remove] at hrest
      simp only [remove, List.filter_cons, hb, ne_eq, not_true_eq_false, decide_false,
        Bool.false_eq_true, if_false, List.map_cons, List.sum_cons]
      simp only [ne_eq] at hrest
      rw [hrest]
      omega
    · have hrest : lookup key l k = some a := by simpa [lookup, List.find?_cons, hb] using h
      have hsum := ih (List.nodup_cons.mp hl).2 hrest
      simp only [remove] at hsum
      simp only [remove, List.filter_cons, hb, ne_eq, not_false_eq_true, decide_true, if_true,
        List.map_cons, List.sum_cons]
      simp only [ne_eq] at hsum
      omega

end Gunwinder.Core
