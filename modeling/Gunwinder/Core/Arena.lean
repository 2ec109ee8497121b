import Mathlib.Tactic.Common

/-!
# Arenas

An arena hands out blocks one behind the other from its newest chunk, and takes a new chunk from
the system when the newest one has no room. Blocks are never given back one by one. What is
written into a block can be read from it as long as it is no more than was asked for.
-/

namespace Gunwinder.Core

variable {β : Type*}

/-- A chunk of `cap` cells, of which the first `used` are handed out. -/
structure Chunk (β : Type*) where
  cap : Nat
  used : Nat
  data : Nat → β
  fits : used ≤ cap

/-- The chunks of an arena, the newest one first. -/
abbrev Arena (β : Type*) := List (Chunk β)

/-- A cell of an arena; chunks are counted from the oldest one. -/
structure ArenaPtr where
  chunk : Nat
  offset : Nat
  deriving DecidableEq, Repr

namespace Arena

/-- The chunk with a number. -/
def chunk? : Arena β → Nat → Option (Chunk β)
  | [], _ => none
  | chunk :: older, k => if k = older.length then some chunk else chunk? older k

/-- A new chunk with one block, if the system has one. -/
def grow (minCap : Nat) (arena : Arena β) (fresh : Option (Nat → β)) (len : Nat) :
    Option ArenaPtr × Arena β :=
  match fresh with
  | none => (none, arena)
  | some data => (some ⟨arena.length, 0⟩, ⟨max len minCap, len, data, Nat.le_max_left _ _⟩ :: arena)

/-- A block of `len` cells; `fresh` is what a chunk from the system holds, or `none` when it
refuses one. -/
def alloc (minCap : Nat) (arena : Arena β) (fresh : Option (Nat → β)) (len : Nat) :
    Option ArenaPtr × Arena β :=
  if len = 0 then (none, arena)
  else
    match arena with
    | [] => grow minCap [] fresh len
    | chunk :: older =>
      if h : chunk.cap - chunk.used < len then grow minCap (chunk :: older) fresh len
      else (some ⟨older.length, chunk.used⟩,
        ⟨chunk.cap, chunk.used + len, chunk.data, by have := chunk.fits; omega⟩ :: older)

/-- Cells written one behind the other, whatever stands there. -/
def Chunk.write (chunk : Chunk β) (offset : Nat) (cells : List β) : Chunk β :=
  { chunk with data := fun i =>
      if offset ≤ i then (cells[i - offset]?).getD (chunk.data i) else chunk.data i }

def store : Arena β → ArenaPtr → List β → Arena β
  | [], _, _ => []
  | chunk :: older, ptr, cells =>
    if ptr.chunk = older.length then Chunk.write chunk ptr.offset cells :: older
    else chunk :: store older ptr cells

/-- A block of `len` cells with `cells` written from its start on. -/
def put (minCap : Nat) (arena : Arena β) (fresh : Option (Nat → β)) (len : Nat) (cells : List β) :
    Option ArenaPtr × Arena β :=
  match arena.alloc minCap fresh len with
  | (none, arena) => (none, arena)
  | (some ptr, arena) => (some ptr, arena.store ptr cells)

/-- The cells stand in a part of the arena that is handed out. -/
def Holds (arena : Arena β) (ptr : ArenaPtr) (cells : List β) : Prop :=
  ∃ chunk, arena.chunk? ptr.chunk = some chunk ∧ ptr.offset + cells.length ≤ chunk.used ∧
    ∀ i, (h : i < cells.length) → chunk.data (ptr.offset + i) = cells[i]

variable {minCap len : Nat} {arena arena' : Arena β} {fresh : Option (Nat → β)}
  {ptr : ArenaPtr} {cells : List β}

/-- A block comes from the newest chunk, or from a new one. -/
theorem alloc_some (h : arena.alloc minCap fresh len = (some ptr, arena')) :
    ∃ (chunk : Chunk β) (older : Arena β) (hfits : chunk.used + len ≤ chunk.cap),
      (arena = chunk :: older ∨ older = arena) ∧ ptr = ⟨older.length, chunk.used⟩ ∧
        arena' = ⟨chunk.cap, chunk.used + len, chunk.data, hfits⟩ :: older := by
  have hgrow : arena.grow minCap fresh len = (some ptr, arena') →
      ∃ (chunk : Chunk β) (older : Arena β) (hfits : chunk.used + len ≤ chunk.cap),
        (arena = chunk :: older ∨ older = arena) ∧ ptr = ⟨older.length, chunk.used⟩ ∧
          arena' = ⟨chunk.cap, chunk.used + len, chunk.data, hfits⟩ :: older := by
    intro h
    unfold grow at h
    cases fresh with
    | none => cases h
    | some data =>
      obtain ⟨hptr, harena⟩ := Prod.mk.inj h
      refine ⟨⟨max len minCap, 0, data, Nat.zero_le _⟩, arena, ?_, .inr rfl,
        (Option.some.inj hptr).symm, ?_⟩
      · rw [Nat.zero_add]
        exact Nat.le_max_left _ _
      · simp only [Nat.zero_add]
        exact harena.symm
  unfold alloc at h
  split at h
  · cases h
  split at h
  · exact hgrow h
  split at h
  · exact hgrow h
  · rename_i chunk older hroom
    obtain ⟨hptr, harena⟩ := Prod.mk.inj h
    exact ⟨chunk, older, _, .inl rfl, (Option.some.inj hptr).symm, harena.symm⟩

/-- What is written into a block stands in it. -/
theorem holds_put (h : arena.put minCap fresh len cells = (some ptr, arena'))
    (hlen : cells.length ≤ len) : arena'.Holds ptr cells := by
  unfold put at h
  split at h
  · cases h
  rename_i ptr' arena'' halloc
  obtain ⟨chunk, older, hfits, -, rfl, rfl⟩ := alloc_some halloc
  obtain ⟨hptr, rfl⟩ := Prod.mk.inj h
  cases hptr
  rw [store, if_pos rfl]
  refine ⟨_, if_pos rfl, Nat.add_le_add_left hlen _, fun i hi => ?_⟩
  change (if chunk.used ≤ chunk.used + i then
    (cells[chunk.used + i - chunk.used]?).getD _ else _) = cells[i]
  rw [if_pos (Nat.le_add_right _ _), Nat.add_sub_cancel_left, List.getElem?_eq_getElem hi,
    Option.getD_some]

end Arena

end Gunwinder.Core
