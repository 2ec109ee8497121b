import Mathlib.Algebra.Ring.Nat
import Mathlib.Data.List.Basic
import Mathlib.Tactic.TypeStar

/-!
# Byte streams

Block transfers as `fwrite` and `fread` count them: the bytes asked for are the product of size
and count in `size_t`, the result is the number of complete items, and a sequence of writes ends
at the first one that is short. Numbers are stored least significant byte first.
-/

namespace Gunwinder.Core

/-! ## Numbers as bytes -/

/-- The `n` low bytes of a number. -/
def leBytes : Nat → Nat → List (BitVec 8)
  | 0, _ => []
  | n + 1, v => BitVec.ofNat 8 v :: leBytes n (v / 256)

/-- The number that some bytes are. -/
def ofLe : List (BitVec 8) → Nat
  | [] => 0
  | b :: bytes => b.toNat + 256 * ofLe bytes

@[simp] theorem leBytes_length (n v : Nat) : (leBytes n v).length = n := by
  induction n generalizing v with
  | zero => rfl
  | succ n ih => rw [leBytes, List.length_cons, ih]

/-- A number is read back from its bytes. -/
theorem ofLe_leBytes {n v : Nat} (h : v < 256 ^ n) : ofLe (leBytes n v) = v := by
  induction n generalizing v with
  | zero => exact (Nat.lt_one_iff.mp h).symm
  | succ n ih =>
    have hrest : v / 256 < 256 ^ n := by
      rw [Nat.div_lt_iff_lt_mul (by decide)]
      rwa [Nat.pow_succ] at h
    rw [leBytes, ofLe, ih hrest, BitVec.toNat_ofNat]
    omega

/-- Some bytes are a number below the power of their count. -/
theorem ofLe_lt (bytes : List (BitVec 8)) : ofLe bytes < 256 ^ bytes.length := by
  induction bytes with
  | nil => exact Nat.one_pos
  | cons b bytes ih =>
    have hb : b.toNat < 256 := b.isLt
    rw [ofLe, List.length_cons, Nat.pow_succ]
    omega

/-- An array of numbers, item by item. -/
def leArray (size : Nat) (values : List Nat) : List (BitVec 8) := values.flatMap (leBytes size)

/-- Item `i` of an array. -/
def leItem (size : Nat) (bytes : List (BitVec 8)) (i : Nat) : Nat :=
  ofLe ((bytes.drop (size * i)).take size)

@[simp] theorem leArray_length (size : Nat) (values : List Nat) :
    (leArray size values).length = size * values.length := by
  induction values with
  | nil => rfl
  | cons v values ih =>
    rw [leArray, List.flatMap_cons, List.length_append, leBytes_length, ← leArray, ih,
      List.length_cons, Nat.mul_succ, Nat.add_comm]

variable {size : Nat}

/-- The items of an array are its numbers. -/
theorem leItem_leArray {i : Nat} {values : List Nat} (hi : i < values.length)
    (hfits : ∀ v ∈ values, v < 256 ^ size) : leItem size (leArray size values) i = values[i] := by
  induction values generalizing i with
  | nil => cases hi
  | cons v values ih =>
    have hsplit : leArray size (v :: values) = leBytes size v ++ leArray size values := rfl
    cases i with
    | zero =>
      rw [leItem, Nat.mul_zero, List.drop_zero, hsplit, List.take_left' (leBytes_length size v),
        ofLe_leBytes (hfits v List.mem_cons_self)]
      rfl
    | succ i =>
      have hdrop : (leArray size (v :: values)).drop (size * (i + 1)) =
          (leArray size values).drop (size * i) := by
        rw [hsplit, Nat.mul_succ, Nat.add_comm, ← List.drop_drop,
          List.drop_left' (leBytes_length size v)]
      rw [leItem, hdrop]
      exact ih (Nat.lt_of_succ_lt_succ hi) fun w hw => hfits w (List.mem_cons_of_mem v hw)

/-- The first items of an array are an array. -/
theorem leArray_take (size k : Nat) (values : List Nat) :
    (leArray size values).take (size * k) = leArray size (values.take k) := by
  induction values generalizing k with
  | nil => simp [leArray]
  | cons v values ih =>
    cases k with
    | zero => simp [leArray]
    | succ k =>
      have hsplit : leArray size (v :: values) = leBytes size v ++ leArray size values := rfl
      rw [hsplit, Nat.mul_succ, Nat.add_comm, List.take_append, leBytes_length,
        Nat.add_sub_cancel_left, ih, List.take_of_length_le (by simp)]
      rfl

/-! ## Transfers -/

/-- Bytes asked for by a transfer of `count` items: the product in `size_t`. -/
def transferBytes (size count : Nat) : Nat := size * count % 2 ^ 64

/-- A transfer counts all its items: it has bytes, or no items. -/
def WholeItems (size count : Nat) : Prop := transferBytes size count ≠ 0 ∨ count = 0

variable {count : Nat}

/-- A small product does not wrap. -/
theorem transferBytes_eq (h : size * count < 2 ^ 64) :
    transferBytes size count = size * count := Nat.mod_eq_of_lt h

/-- One item has its own bytes. -/
theorem transferBytes_one (h : size < 2 ^ 64) : transferBytes size 1 = size := by
  rw [transferBytes, Nat.mul_one, Nat.mod_eq_of_lt h]

/-- One item of some bytes is counted. -/
theorem wholeItems_one (hsize : size ≠ 0) (h : size < 2 ^ 64) : WholeItems size 1 :=
  .inl ((transferBytes_one h).trans_ne hsize)

/-- `fwrite` to a file that takes everything. -/
def fwrite (file data : List (BitVec 8)) (size count : Nat) : Nat × List (BitVec 8) :=
  if transferBytes size count = 0 then (0, file)
  else (count, file ++ data.take (transferBytes size count))

/-- A call of `fwrite`. -/
structure Put where
  data : List (BitVec 8)
  size : Nat
  count : Nat

/-- The bytes a call leaves in the file. -/
def Put.bytes (put : Put) : List (BitVec 8) := put.data.take (transferBytes put.size put.count)

/-- The call counts all its items. -/
def Put.Complete (put : Put) : Prop := WholeItems put.size put.count

/-- Writes up to the first one that is short. -/
def putAll (file : List (BitVec 8)) : List Put → List (BitVec 8)
  | [] => file
  | put :: rest =>
    let (written, file) := fwrite file put.data put.size put.count
    if written ≠ put.count then file else putAll file rest

/-- A complete call leaves its bytes. -/
theorem putAll_cons {put : Put} (h : put.Complete) (file : List (BitVec 8)) (rest : List Put) :
    putAll file (put :: rest) = putAll (file ++ put.bytes) rest := by
  rw [putAll, fwrite]
  by_cases hzero : transferBytes put.size put.count = 0
  · have hcount : put.count = 0 := h.resolve_left (not_not.mpr hzero)
    rw [if_pos hzero, Put.bytes, hzero, List.take_zero, List.append_nil]
    exact if_neg (not_not.mpr hcount.symm)
  · simp [hzero, Put.bytes]

/-- A call that counts too few items is the last one. -/
theorem putAll_short {put : Put} (hsize : put.size = 0) (hcount : put.count ≠ 0)
    (file : List (BitVec 8)) (rest : List Put) : putAll file (put :: rest) = file := by
  rw [putAll, fwrite, if_pos (by simp [transferBytes, hsize])]
  exact if_pos hcount.symm

/-- Complete calls leave their bytes one after the other. -/
theorem putAll_append {puts : List Put} (h : ∀ put ∈ puts, put.Complete)
    (file : List (BitVec 8)) (rest : List Put) :
    putAll file (puts ++ rest) = putAll (file ++ puts.flatMap Put.bytes) rest := by
  induction puts generalizing file with
  | nil => simp
  | cons put puts ih =>
    rw [List.cons_append, putAll_cons (h put List.mem_cons_self),
      ih fun p hp => h p (List.mem_cons_of_mem put hp), List.flatMap_cons, List.append_assoc]

/-- `fread`: the number of complete items, the bytes stored and the rest of the file. A transfer
that gets all its bytes counts all its items. -/
def fread (file : List (BitVec 8)) (size count : Nat) :
    Nat × List (BitVec 8) × List (BitVec 8) :=
  let bytes := transferBytes size count
  (if bytes = 0 then 0 else if bytes ≤ file.length then count else file.length / size,
    file.take bytes, file.drop bytes)

/-- A call of `fread` whose result is compared with the number of items asked for. -/
def freadAll (file : List (BitVec 8)) (size count : Nat) :
    Option (List (BitVec 8) × List (BitVec 8)) :=
  let (items, data, rest) := fread file size count
  if items ≠ count then none else some (data, rest)

variable {file : List (BitVec 8)}

/-- All items are counted exactly when their bytes are there. -/
theorem fread_items_iff :
    (fread file size count).1 = count ↔
      WholeItems size count ∧ transferBytes size count ≤ file.length := by
  unfold fread WholeItems
  dsimp only
  split
  · rename_i hzero
    simp [hzero, eq_comm]
  · rename_i hpos
    split
    · rename_i hle
      simp [hpos, hle]
    · rename_i hlt
      simp only [hlt, and_false, iff_false]
      -- as many items would have as many bytes
      intro hitems
      have hwhole := Nat.mul_div_le file.length size
      have hmod : transferBytes size count ≤ size * count := Nat.mod_le _ _
      rw [hitems] at hwhole
      omega

/-- What was written in complete items is read back. -/
theorem freadAll_append {data : List (BitVec 8)} (hlen : data.length = transferBytes size count)
    (hitems : WholeItems size count) (rest : List (BitVec 8)) :
    freadAll (data ++ rest) size count = some (data, rest) := by
  have hcount : (fread (data ++ rest) size count).1 = count :=
    fread_items_iff.mpr ⟨hitems, by rw [List.length_append]; omega⟩
  unfold freadAll
  dsimp only
  rw [if_neg (not_not.mpr hcount), fread, ← hlen, List.take_left, List.drop_left]

/-- A read that counts all its items takes their bytes from the file. -/
theorem freadAll_eq_some {data rest : List (BitVec 8)}
    (h : freadAll file size count = some (data, rest)) :
    data.length = transferBytes size count ∧ file = data ++ rest := by
  unfold freadAll at h
  dsimp only at h
  split at h
  · cases h
  rename_i hitems
  have hle := (fread_items_iff.mp (not_not.mp hitems)).2
  cases h
  exact ⟨List.length_take_of_le hle, (List.take_append_drop _ _).symm⟩

/-- Items without bytes are never read. -/
theorem freadAll_zero (hcount : count ≠ 0) (file : List (BitVec 8)) :
    freadAll file 0 count = none := by
  simp [freadAll, fread, transferBytes, hcount.symm]

/-- Read one number. -/
def readLe (size : Nat) (file : List (BitVec 8)) : Option (Nat × List (BitVec 8)) :=
  (freadAll file size 1).map fun read => (ofLe read.1, read.2)

/-- A number that was written is read back. -/
theorem readLe_leBytes {v : Nat} (hsize : size ≠ 0) (hword : size < 2 ^ 64) (h : v < 256 ^ size)
    (rest : List (BitVec 8)) : readLe size (leBytes size v ++ rest) = some (v, rest) := by
  have hlen : (leBytes size v).length = transferBytes size 1 := by
    rw [leBytes_length, transferBytes_one hword]
  rw [readLe, freadAll_append hlen (wholeItems_one hsize hword), Option.map_some, ofLe_leBytes h]

/-- A number that was read fits its bytes. -/
theorem readLe_lt {v : Nat} {rest : List (BitVec 8)} (h : readLe size file = some (v, rest)) :
    v < 256 ^ size := by
  obtain ⟨⟨data, rest'⟩, hread, hv⟩ := Option.map_eq_some_iff.mp h
  obtain ⟨hlen, -⟩ := freadAll_eq_some hread
  cases hv
  have hle : data.length ≤ size := by
    rw [hlen, transferBytes, Nat.mul_one]
    exact Nat.mod_le _ _
  exact Nat.lt_of_lt_of_le (ofLe_lt data) (Nat.pow_le_pow_right (by decide) hle)

end Gunwinder.Core
