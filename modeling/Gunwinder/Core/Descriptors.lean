import Mathlib.Data.List.Nodup
import Mathlib.Tactic.Common

/-!
# Descriptors

Every descriptor that is opened gets a number of its own, so that a second closing, or the use
of a closed one, is seen. `Balanced` says what a piece of code owes: of the descriptors opened
since it started it holds some, the others have been closed once, and it closed no others.
-/

namespace Gunwinder.Core

/-- The objects of the descriptors opened so far, and the closings. -/
structure Descriptors (ν : Type*) where
  nodes : List ν
  closes : List Nat

namespace Descriptors

variable {ν : Type*}

/-- The number of descriptors opened so far, and the next one. -/
def count (f : Descriptors ν) : Nat := f.nodes.length

/-- Open a descriptor. -/
def opened (f : Descriptors ν) (o : ν) : Descriptors ν := { f with nodes := f.nodes ++ [o] }

/-- Close a descriptor. -/
def close (f : Descriptors ν) (fd : Nat) : Descriptors ν := { f with closes := fd :: f.closes }

/-- The object of a descriptor that is open. -/
def node (f : Descriptors ν) (fd : Nat) : Option ν :=
  if fd ∈ f.closes then none else f.nodes[fd]?

variable (f : Descriptors ν)

@[simp] theorem close_nodes (fd : Nat) : (f.close fd).nodes = f.nodes := rfl

@[simp] theorem opened_nodes (o : ν) :
    (f.opened o).nodes = f.nodes ++ [o] := rfl

@[simp] theorem close_closes (fd : Nat) :
    (f.close fd).closes = fd :: f.closes := rfl

@[simp] theorem opened_closes (o : ν) : (f.opened o).closes = f.closes := rfl

@[simp] theorem close_count (fd : Nat) : (f.close fd).count = f.count := rfl

@[simp] theorem opened_count (o : ν) : (f.opened o).count = f.count + 1 :=
  List.length_append

/-- The object of a descriptor is the one it was opened on. -/
theorem getElem?_of_node {f : Descriptors ν} {fd : Nat} {o : ν} (h : f.node fd = some o) :
    f.nodes[fd]? = some o := by
  unfold node at h
  split at h
  · cases h
  · exact h

/-- More descriptors leave the objects of the earlier ones as they are. -/
theorem getElem?_of_prefix {f f' : Descriptors ν} {fd : Nat} {o : ν} (h : f.nodes <+: f'.nodes)
    (hobject : f.nodes[fd]? = some o) : f'.nodes[fd]? = some o := by
  obtain ⟨hlt, -⟩ := List.getElem?_eq_some_iff.mp hobject
  obtain ⟨more, hmore⟩ := h
  rw [← hmore, List.getElem?_append_left hlt, hobject]

/-- Since `before` some descriptors have been opened; those in `held` are open and the others
have been closed. -/
structure Balanced (before after : Descriptors ν) (held : List Nat) : Prop where
  nodup : held.Nodup
  grown : before.nodes <+: after.nodes
  mine : ∀ fd ∈ held, before.count ≤ fd ∧ fd < after.count
  closes : ∀ fd, after.closes.count fd = before.closes.count fd +
    if before.count ≤ fd ∧ fd < after.count ∧ fd ∉ held then 1 else 0

/-- Nothing opened is nothing held. -/
theorem Balanced.refl : f.Balanced f [] :=
  ⟨.nil, List.prefix_refl _, fun _ h => absurd h List.not_mem_nil,
    fun fd => by rw [if_neg (by omega), Nat.add_zero]⟩

section Steps

variable {before f : Descriptors ν} {held front back : List Nat}

private theorem Balanced.count_le (h : before.Balanced f held) : before.count ≤ f.count :=
  h.grown.length_le

/-- A new descriptor is held. -/
theorem Balanced.opened (h : before.Balanced f held) (o : ν) :
    before.Balanced (f.opened o) (held ++ [f.count]) := by
  have hnew : f.count ∉ held := fun hmem => Nat.lt_irrefl _ (h.mine _ hmem).2
  refine ⟨?_, ?_, fun fd hfd => ?_, fun fd => ?_⟩
  · exact List.nodup_append.mpr ⟨h.nodup, List.nodup_singleton _, fun a ha b hb => by
      rintro rfl
      exact hnew (List.mem_singleton.mp hb ▸ ha)⟩
  · exact h.grown.trans (List.prefix_append ..)
  · rw [opened_count]
    rcases List.mem_append.mp hfd with hmem | hmem
    · have := h.mine fd hmem
      omega
    · obtain rfl := List.mem_singleton.mp hmem
      exact ⟨h.count_le, Nat.lt_succ_self _⟩
  · have hcloses := h.closes fd
    by_cases hfd : fd = f.count
    · subst hfd
      simpa using hcloses
    · have hiff : (before.count ≤ fd ∧ fd < f.count + 1 ∧ fd ∉ held ++ [f.count]) ↔
          (before.count ≤ fd ∧ fd < f.count ∧ fd ∉ held) := by
        have hlt : fd < f.count + 1 ↔ fd < f.count := by omega
        simp only [List.mem_append, List.mem_singleton, hfd, or_false, hlt]
      rw [opened_count, opened_closes]
      simpa only [hiff] using hcloses

/-- A descriptor that is held can be closed. -/
theorem Balanced.close {fd : Nat} (h : before.Balanced f (front ++ fd :: back)) :
    before.Balanced (f.close fd) (front ++ back) := by
  have hnodup := List.nodup_middle.mp h.nodup
  obtain ⟨hnew, hrest⟩ := List.nodup_cons.mp hnodup
  have hmem : ∀ a ∈ front ++ back, a ∈ front ++ fd :: back := fun a ha => by
    rcases List.mem_append.mp ha with hfront | hback
    · exact List.mem_append_left _ hfront
    · exact List.mem_append_right _ (List.mem_cons_of_mem _ hback)
  refine ⟨hrest, h.grown, fun a ha => h.mine a (hmem a ha), fun a => ?_⟩
  have hcloses := h.closes a
  by_cases ha : a = fd
  · subst ha
    have hmine := h.mine a (by simp)
    rw [if_neg (by simp)] at hcloses
    rw [if_pos ⟨hmine.1, hmine.2, hnew⟩]
    simpa using hcloses
  · simpa [List.count_cons, ha, Ne.symm ha] using hcloses

end Steps

end Descriptors

end Gunwinder.Core
