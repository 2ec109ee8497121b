import Gunwinder.Core.Arena
import Gunwinder.Core.CheckedInt
import Gunwinder.Core.Loop
import Gunwinder.Native.Target

/-!
# Storing symbol names

The names of a file's symbols are kept in an arena. `golang_strip_name_to_arena` shortens the import
path in front of a Go name: it counts the slashes, asks the arena for a block of a size it works
out from the count, and copies the name component by component.

A pointer into the name is the rest of the name from there on.
-/

namespace Gunwinder

open Gunwinder.Core

/-- A C string. No object is larger than `PTRDIFF_MAX`. -/
structure CString where
  bytes : List Byte
  noNul : 0#8 ∉ bytes
  short : bytes.length < 2 ^ 63 - 1

/-- The character `/`. -/
def slash : Byte := 0x2f#8

/-- The smallest chunk of `gu_symbol_name_arena_alloc`. -/
def symbolNameArenaCap : Nat := 4096

/-- `gu_symbol_name_arena_alloc`, and the caller's writes to the block. -/
def guSymbolNameArenaPut (arena : Arena Byte) (fresh : Option (Nat → Byte)) (len : Nat)
    (written : List Byte) : Option ArenaPtr × Arena Byte :=
  arena.put symbolNameArenaCap fresh len written

/-- `gu_symbol_name_arena_strdup`. -/
def guSymbolNameArenaStrdup (arena : Arena Byte) (fresh : Option (Nat → Byte)) (name : CString) :
    Option ArenaPtr × Arena Byte :=
  guSymbolNameArenaPut arena fresh (name.bytes.length + 1) (name.bytes ++ [0#8])

/-- The first loop: `count` is an `int`, `c_last` points to the last slash. -/
def countSlashes : List Byte → BitVec 32 → Option (List Byte) →
    Except Undefined (BitVec 32 × Option (List Byte))
  | [], count, cLast => .ok (count, cLast)
  | c :: p, count, cLast =>
    if c = slash then do
      let count ← addSigned count 1#32
      countSlashes p count (some (c :: p))
    else countSlashes p count cLast

/-- `count * 2 + last_part_len + 1`. -/
def strippedSize (count : BitVec 32) (lastPartLen : Nat) : Except Undefined Word := do
  let twice ← mulSigned count 2#32
  return twice.signExtend 64 + BitVec.ofNat 64 lastPartLen + 1#64

/-- Locals of the second loop: where it reads, and what it has written. -/
structure StripState where
  src : List Byte
  dst : List Byte

/-- One turn of the second loop; `fin` is what follows the last slash. -/
def stripTurn (fin : List Byte) (s : StripState) : Turn StripState (List Byte) :=
  if fin.length < s.src.length then
    match s.src with
    | [] => .stop s.dst
    | c :: src =>
      if c = slash then .next ⟨src, s.dst ++ [c]⟩
      else
        match (c :: src).dropWhile (· ≠ slash) with
        | [] => .next ⟨[], s.dst ++ [c]⟩
        | _ :: src => .next ⟨src, s.dst ++ [c] ++ [slash]⟩
  else .stop s.dst

/-- `golang_strip_name_to_arena`: the name in the arena, or `none` for NULL. Each turn of the
second loop reads at least one byte. -/
def golangStripNameToArena (arena : Arena Byte) (fresh : Option (Nat → Byte)) (name : CString) :
    Except Undefined (Option ArenaPtr × Arena Byte) :=
  if slash ∈ name.bytes then do
    let (count, cLast) ← countSlashes name.bytes 0#32 none
    if name.bytes.getLast? = some slash then return guSymbolNameArenaStrdup arena fresh name
    -- the name has a slash, so the pointer is set
    let cLast := cLast.getD []
    let size ← strippedSize count cLast.length
    let dst := loop (stripTurn cLast.tail) StripState.dst name.bytes.length ⟨name.bytes, []⟩
    return guSymbolNameArenaPut arena fresh size.toNat (dst ++ cLast.tail ++ [0#8])
  else .ok (none, arena)

end Gunwinder
