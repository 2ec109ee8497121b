import Mathlib.Algebra.Notation.Pi.Basic
import Mathlib.Data.List.Pairwise
import Mathlib.Order.Lattice

/-!
# Release and acquire

Atomic locations under the release and acquire orderings of C11. A message occupies an interval of
the modification order of its location, and a store may take any free interval behind the messages
its thread has seen; an exchange begins where the message it has read ends. A release store puts
the thread's view into the message, an acquire load takes it from there.
-/

namespace Gunwinder.Core

/-- A message of a location: its interval of the modification order, the value, and the view
of the thread that stored it. -/
structure Message (L T V : Type*) where
  loc : L
  lo : T
  hi : T
  val : V
  view : L → T

variable {L T V : Type*} [LinearOrder T]

/-- Messages of one location overlap nowhere. -/
def Message.Apart (m m' : Message L T V) : Prop := m.loc = m'.loc → m.hi ≤ m'.lo ∨ m'.hi ≤ m.lo

instance : Std.Symm (Message.Apart (L := L) (T := T) (V := V)) :=
  ⟨fun _ _ h hloc => (h hloc.symm).symm⟩

/-- The interval of the message is free. -/
def Message.Fits (m : Message L T V) (mem : List (Message L T V)) : Prop :=
  m.lo < m.hi ∧ ∀ m' ∈ mem, m'.Apart m

/-- An acquire load of a message. -/
structure AcquireLoad (mem : List (Message L T V)) (view : L → T) (m : Message L T V) : Prop where
  stored : m ∈ mem
  seen : view m.loc ≤ m.hi

/-- A release store of a message. -/
structure ReleaseStore [DecidableEq L] (mem : List (Message L T V)) (view : L → T)
    (m : Message L T V) : Prop where
  fits : m.Fits mem
  later : view m.loc < m.hi
  view : m.view = Function.update view m.loc m.hi

/-- An exchange that reads one message and stores the next. -/
structure AcqRelExchange [DecidableEq L] (mem : List (Message L T V)) (view : L → T)
    (old m : Message L T V) : Prop where
  reads : AcquireLoad mem view old
  loc : m.loc = old.loc
  next : m.lo = old.hi
  fits : m.Fits mem
  view : m.view = Function.update (view ⊔ old.view) m.loc m.hi

/-- A memory in which every location has a modification order, and every message is seen by
the thread that stored it. -/
structure WellFormed (mem : List (Message L T V)) : Prop where
  nonempty : ∀ m ∈ mem, m.lo < m.hi
  apart : mem.Pairwise Message.Apart
  own : ∀ m ∈ mem, m.view m.loc = m.hi

variable {mem : List (Message L T V)} {view : L → T} {m old : Message L T V} {l : L}

namespace WellFormed

private theorem cons (h : WellFormed mem) (hfits : m.Fits mem) (hown : m.view m.loc = m.hi) :
    WellFormed (m :: mem) where
  nonempty := List.forall_mem_cons.mpr ⟨hfits.1, h.nonempty⟩
  apart := List.pairwise_cons.mpr
    ⟨fun m' hm' hloc => (hfits.2 m' hm' hloc.symm).symm, h.apart⟩
  own := List.forall_mem_cons.mpr ⟨hown, h.own⟩

/-- A message is known by its location and the end of its interval. -/
theorem eq_of_hi (h : WellFormed mem) {m m' : Message L T V} (hm : m ∈ mem) (hm' : m' ∈ mem)
    (hloc : m.loc = m'.loc) (hhi : m.hi = m'.hi) : m = m' := by
  by_contra hne
  have hapart : Message.Apart m m' := h.apart.forall hm hm' hne
  rcases hapart hloc with hle | hle
  · exact absurd (h.nonempty m' hm') (not_lt.mpr (hhi ▸ hle))
  · exact absurd (h.nonempty m hm) (not_lt.mpr (hhi ▸ hle))

end WellFormed

/-! ## Views -/

/-- A load sees the message it reads. -/
theorem AcquireLoad.sees (h : AcquireLoad mem view m) (hmem : WellFormed mem) :
    m.hi ≤ (view ⊔ m.view) m.loc :=
  (hmem.own m h.stored).symm.le.trans le_sup_right

/-- A store sees its own message. -/
theorem ReleaseStore.own [DecidableEq L] (h : ReleaseStore mem view m) : m.view m.loc = m.hi := by
  rw [h.view, Function.update_self]

/-- A store keeps the memory well formed. -/
theorem ReleaseStore.wellFormed [DecidableEq L] (h : ReleaseStore mem view m)
    (hmem : WellFormed mem) : WellFormed (m :: mem) := hmem.cons h.fits h.own

private theorem AcqRelExchange.own [DecidableEq L] (h : AcqRelExchange mem view old m) :
    m.view m.loc = m.hi := by
  rw [h.view, Function.update_self]

/-- An exchange keeps the memory well formed. -/
theorem AcqRelExchange.wellFormed [DecidableEq L] (h : AcqRelExchange mem view old m)
    (hmem : WellFormed mem) : WellFormed (m :: mem) := hmem.cons h.fits h.own

/-- A store forgets nothing. -/
theorem ReleaseStore.le_view [DecidableEq L] (h : ReleaseStore mem view m) : view ≤ m.view := by
  intro l
  rw [h.view]
  by_cases hl : l = m.loc
  · rw [hl, Function.update_self]
    exact h.later.le
  · rw [Function.update_of_ne hl]

/-- An exchange takes over what it reads. -/
theorem AcqRelExchange.le_view [DecidableEq L] (h : AcqRelExchange mem view old m)
    (hmem : WellFormed mem) : view ⊔ old.view ≤ m.view := by
  intro l
  rw [h.view]
  by_cases hl : l = m.loc
  · have hold : (view ⊔ old.view) old.loc ≤ old.hi :=
      sup_le h.reads.seen (hmem.own old h.reads.stored).le
    rw [hl, Function.update_self, h.loc]
    exact hold.trans (h.next ▸ h.fits.1.le)
  · rw [Function.update_of_ne hl]

/-! ## Locations with one writer -/

/-- The thread has seen every message of the location. -/
def SeesAll (mem : List (Message L T V)) (view : L → T) (l : L) : Prop :=
  ∀ m ∈ mem, m.loc = l → m.hi ≤ view l

/-- A larger view. -/
theorem SeesAll.mono {view' : L → T} (h : SeesAll mem view l) (hle : view ≤ view') :
    SeesAll mem view' l := fun m hm hl => (h m hm hl).trans (hle l)

/-- The thread sees what it stores. -/
theorem SeesAll.write [DecidableEq L] (h : SeesAll mem view l) (hw : ReleaseStore mem view m) :
    SeesAll (m :: mem) m.view l := by
  refine List.forall_mem_cons.mpr ⟨fun hl => ?_, h.mono hw.le_view⟩
  rw [← hl, hw.own]

/-- A message of another location. -/
theorem SeesAll.other (h : SeesAll mem view l) (hl : m.loc ≠ l) : SeesAll (m :: mem) view l :=
  List.forall_mem_cons.mpr ⟨fun heq => absurd heq hl, h⟩

/-- Values go up along the modification order. -/
def Ascending [Preorder V] (mem : List (Message L T V)) (l : L) : Prop :=
  ∀ m ∈ mem, ∀ m' ∈ mem, m.loc = l → m'.loc = l → m.hi ≤ m'.hi → m.val ≤ m'.val

/-- A message of another location. -/
theorem Ascending.other [Preorder V] (h : Ascending mem l) (hl : m.loc ≠ l) :
    Ascending (m :: mem) l := by
  intro a ha b hb hla hlb
  rcases List.mem_cons.mp ha with rfl | ha
  · exact absurd hla hl
  · rcases List.mem_cons.mp hb with rfl | hb
    · exact absurd hlb hl
    · exact h a ha b hb hla hlb

/-- The only writer of a location stores a value that is not below those before. -/
theorem Ascending.write [DecidableEq L] [Preorder V] (h : Ascending mem l)
    (hall : SeesAll mem view l) (hw : ReleaseStore mem view m)
    (hval : ∀ m' ∈ mem, m'.loc = l → m'.val ≤ m.val) :
    Ascending (m :: mem) l := by
  intro a ha b hb hla hlb hab
  rcases List.mem_cons.mp ha with rfl | hmem
  · rcases List.mem_cons.mp hb with rfl | hb
    · exact le_refl _
    · have hlater := hw.later
      rw [hla] at hlater
      exact absurd hab (not_le.mpr ((hall b hb hlb).trans_lt hlater))
  · rcases List.mem_cons.mp hb with rfl | hb
    · exact hval a hmem hla
    · exact h a hmem b hb hla hlb hab

/-! ## Exchanges -/

/-- Every time between the two is in the interval of a message. -/
def Covered (mem : List (Message L T V)) (l : L) (a b : T) : Prop :=
  ∀ x, a < x → x ≤ b → ∃ m ∈ mem, m.loc = l ∧ m.lo < x ∧ x ≤ m.hi

/-- One more message covers no less. -/
theorem Covered.cons {a b : T} (h : Covered mem l a b) : Covered (m :: mem) l a b := by
  intro x ha hb
  obtain ⟨m', hm', hrest⟩ := h x ha hb
  exact ⟨m', List.mem_cons_of_mem _ hm', hrest⟩

/-- The message of an exchange extends the covered times. -/
theorem Covered.exchange [DecidableEq L] {a : T} (h : Covered mem old.loc a old.hi)
    (hx : AcqRelExchange mem view old m) : Covered (m :: mem) old.loc a m.hi := by
  intro x ha hb
  rcases le_or_gt x old.hi with hle | hlt
  · exact h.cons x ha hle
  · exact ⟨m, List.mem_cons_self, hx.loc, hx.next ▸ hlt, hb⟩

/-- No new message ends in covered times. -/
theorem Covered.fits {a b : T} (h : Covered mem m.loc a b) (hfits : m.Fits mem) (ha : a < m.hi) :
    b < m.hi := by
  by_contra hb
  obtain ⟨m', hm', hloc, hlo, hhi⟩ := h m.hi ha (not_lt.mp hb)
  rcases hfits.2 m' hm' hloc with hle | hle
  · exact absurd (hhi.trans hle) (not_le.mpr hfits.1)
  · exact absurd hle (not_le.mpr hlo)

/-- A message is read by one exchange at most. -/
theorem AcqRelExchange.first [DecidableEq L] (h : AcqRelExchange mem view old m)
    (hmem : WellFormed mem) : ∀ m' ∈ mem, m'.loc = old.loc → m'.lo ≠ old.hi := by
  intro m' hm' hloc hlo
  rcases h.fits.2 m' hm' (hloc.trans h.loc.symm) with hle | hle
  · exact absurd (hmem.nonempty m' hm') (not_lt.mpr (hlo ▸ h.next ▸ hle))
  · exact absurd h.fits.1 (not_lt.mpr (h.next ▸ hlo ▸ hle))

end Gunwinder.Core
