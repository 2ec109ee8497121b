import Gunwinder.Native.SymbolNames
import Mathlib.Data.List.Basic

/-!
# Go names

A name with a slash is a row of components, each followed by a slash, and a last component. Both
loops of `golang_strip_name_to_arena` take the components one at a time, so the block holds the
name with every component but the last cut to its first byte, unless the count leaves the range of
an `int`.
-/

namespace Gunwinder

open Gunwinder.Core

variable {front : List (List Byte)} {last p dst : List Byte}

/-! ## What stripping is for -/

/-- Every component before the last slash cut to its first byte. -/
def cutComponents (name : List Byte) : List (List Byte) :=
  (name.splitOn slash).dropLast.map (·.take 1) ++ (name.splitOn slash).getLast?.toList

def stripName (name : List Byte) : List Byte := [slash].intercalate (cutComponents name)

/-- The components of a name with a slash. -/
def joined (front : List (List Byte)) (last : List Byte) : List Byte :=
  front.flatMap (· ++ [slash]) ++ last

/-- No component has a slash in it. -/
def Plain (parts : List (List Byte)) : Prop := ∀ c ∈ parts, slash ∉ c

private theorem joined_cons (c : List Byte) :
    joined (c :: front) last = c ++ slash :: joined front last := by
  simp [joined]

private theorem joined_eq_intercalate :
    joined front last = [slash].intercalate (front ++ [last]) := by
  induction front with
  | nil => simp [joined, List.intercalate]
  | cons c front ih =>
    rw [joined_cons, ih, List.cons_append, List.intercalate_cons_of_ne_nil (by simp)]
    simp

private theorem splitOn_joined (hplain : Plain (front ++ [last])) :
    (joined front last).splitOn slash = front ++ [last] := by
  rw [joined_eq_intercalate, List.splitOn_intercalate slash hplain (by simp)]

/-- Every name is made of components. -/
theorem exists_joined (name : List Byte) :
    ∃ front last, name = joined front last ∧ Plain (front ++ [last]) := by
  induction name with
  | nil => exact ⟨[], [], rfl, by simp [Plain]⟩
  | cons b name ih =>
    obtain ⟨front, last, rfl, hplain⟩ := ih
    by_cases hb : b = slash
    · refine ⟨[] :: front, last, by rw [joined_cons, hb]; rfl, ?_⟩
      simpa [Plain] using hplain
    · -- the byte belongs to the first component
      cases front with
      | nil =>
        refine ⟨[], b :: last, rfl, ?_⟩
        simpa [Plain, Ne.symm hb] using hplain
      | cons c front =>
        refine ⟨(b :: c) :: front, last, by rw [joined_cons, joined_cons]; rfl, ?_⟩
        simpa [Plain, Ne.symm hb] using hplain

private theorem stripName_joined (hplain : Plain (front ++ [last])) :
    stripName (joined front last) = joined (front.map (·.take 1)) last := by
  rw [stripName, cutComponents, splitOn_joined hplain, joined_eq_intercalate]
  simp

private theorem Plain.take (hplain : Plain (front ++ [last])) :
    Plain (front.map (·.take 1) ++ [last]) := by
  intro c hc
  rcases List.mem_append.mp hc with hc | hc
  · obtain ⟨d, hd, rfl⟩ := List.mem_map.mp hc
    exact fun h => hplain d (List.mem_append_left _ hd) (List.mem_of_mem_take h)
  · exact hplain c (List.mem_append_right _ hc)

private theorem map_take_one_idem :
    (front.map (·.take 1)).map (·.take 1) = front.map (·.take 1) := by
  simp [Function.comp_def, List.take_take]

private theorem count_slash_joined (hplain : Plain (front ++ [last])) :
    (joined front last).count slash = front.length := by
  induction front with
  | nil => exact List.count_eq_zero_of_not_mem (hplain last (by simp))
  | cons c front ih =>
    have hc : c.count slash = 0 := List.count_eq_zero_of_not_mem (hplain c (by simp))
    have hfront : Plain (front ++ [last]) := fun d hd => hplain d (List.mem_cons_of_mem _ hd)
    rw [joined_cons, List.count_append, hc, List.count_cons_self, ih hfront, List.length_cons,
      Nat.zero_add]

private theorem length_joined_take :
    (joined (front.map (·.take 1)) last).length ≤ 2 * front.length + last.length := by
  induction front with
  | nil => simp [joined]
  | cons c front ih =>
    have hc : (c.take 1).length ≤ 1 := List.length_take_le _ _
    rw [List.map_cons, joined_cons, List.length_append, List.length_cons, List.length_cons]
    omega

private theorem length_joined_take_le :
    (joined (front.map (·.take 1)) last).length ≤ (joined front last).length := by
  induction front with
  | nil => exact Nat.le_refl _
  | cons c front ih =>
    have hc : (c.take 1).length ≤ c.length := List.length_take_le' _ _
    rw [List.map_cons, joined_cons, joined_cons, List.length_append, List.length_append,
      List.length_cons, List.length_cons]
    omega

private theorem last_length_le : last.length ≤ (joined front last).length := by
  rw [joined, List.length_append]
  exact Nat.le_add_left _ _

private theorem front_length_le : front.length ≤ (joined front last).length := by
  induction front with
  | nil => exact Nat.zero_le _
  | cons c front ih =>
    rw [joined_cons, List.length_append, List.length_cons, List.length_cons]
    omega

/-- A name ends in a slash when its last component is empty. -/
theorem getLast?_joined (hfront : front ≠ []) (hlast : slash ∉ last) :
    (joined front last).getLast? = some slash ↔ last = [] := by
  rw [joined, List.getLast?_append]
  constructor
  · intro h
    cases hend : last.getLast? with
    | none => exact List.getLast?_eq_none_iff.mp hend
    | some b =>
      rw [hend] at h
      cases h
      exact absurd (List.mem_of_getLast? hend) hlast
  · rintro rfl
    obtain ⟨init, c, rfl⟩ := List.eq_nil_or_concat front |>.resolve_left hfront
    simp

/-! ## The two loops -/

private theorem countSlashes_append {c : List Byte} (hc : slash ∉ c) (count : BitVec 32)
    (cLast : Option (List Byte)) :
    countSlashes (c ++ p) count cLast = countSlashes p count cLast := by
  induction c with
  | nil => rfl
  | cons b c ih =>
    have hb : b ≠ slash := fun h => hc (h ▸ List.mem_cons_self)
    rw [List.cons_append, countSlashes, if_neg hb]
    exact ih fun h => hc (List.mem_cons_of_mem _ h)

/-- The first loop finds the last component, if the count stays an `int`. -/
theorem countSlashes_joined (hplain : Plain (front ++ [last])) {n : Nat} (hn : n < 2 ^ 31)
    (cLast : Option (List Byte)) :
    countSlashes (joined front last) (BitVec.ofNat 32 n) cLast =
      if n + front.length < 2 ^ 31 then
        .ok (BitVec.ofNat 32 (n + front.length),
          if front = [] then cLast else some (slash :: last))
      else .error .signedOverflow := by
  induction front generalizing n cLast with
  | nil =>
    have hend := countSlashes_append (p := []) (hplain last (by simp)) (BitVec.ofNat 32 n) cLast
    rw [List.append_nil] at hend
    rw [List.length_nil, Nat.add_zero, if_pos hn, if_pos rfl]
    exact hend
  | cons c front ih =>
    have hfront : Plain (front ++ [last]) := fun d hd => hplain d (List.mem_cons_of_mem _ hd)
    rw [joined_cons, countSlashes_append (hplain c (by simp)), countSlashes, if_pos rfl,
      addSigned_ofNat (by decide) hn (by decide), List.length_cons]
    by_cases hnext : n + 1 < 2 ^ 31
    · rw [if_pos hnext]
      change countSlashes (joined front last) (BitVec.ofNat 32 (n + 1)) _ = _
      rw [ih hfront hnext, Nat.add_right_comm, Nat.add_assoc]
      cases front with
      | nil => rfl
      | cons d front => simp
    · have hover : ¬n + (front.length + 1) < 2 ^ 31 := by omega
      rw [if_neg hnext, if_neg hover]
      rfl

private theorem stripTurn_next {c : List Byte} (hc : slash ∉ c) :
    stripTurn last ⟨c ++ slash :: joined front last, dst⟩ =
      .next ⟨joined front last, dst ++ c.take 1 ++ [slash]⟩ := by
  have hmore : last.length < (c ++ slash :: joined front last).length := by
    have hle : last.length ≤ (joined front last).length := last_length_le
    rw [List.length_append, List.length_cons]
    omega
  rw [stripTurn, if_pos hmore]
  cases c with
  | nil => simp
  | cons b c =>
    have hb : b ≠ slash := fun h => hc (h ▸ List.mem_cons_self)
    have hdrop : (b :: c ++ slash :: joined front last).dropWhile (· ≠ slash) =
        slash :: joined front last := by
      have hskip : ∀ a ∈ b :: c, decide (a ≠ slash) = true := fun a ha =>
        decide_eq_true fun h => hc (h ▸ ha)
      rw [List.dropWhile_append_of_pos hskip]
      simp
    simp only [List.cons_append] at hdrop ⊢
    rw [if_neg hb, hdrop]
    simp

/-- The second loop writes all components but the last. -/
theorem loop_stripTurn (hplain : Plain (front ++ [last])) {n : Nat} (hn : front.length ≤ n) :
    loop (stripTurn last) StripState.dst n ⟨joined front last, dst⟩ =
      dst ++ (front.map (·.take 1)).flatMap (· ++ [slash]) := by
  induction front generalizing n dst with
  | nil =>
    have hstop : stripTurn last ⟨joined [] last, dst⟩ = .stop dst := if_neg (Nat.lt_irrefl _)
    cases n with
    | zero => simp
    | succ n => rw [loop_stop hstop]; simp
  | cons c front ih =>
    have hfront : Plain (front ++ [last]) := fun d hd => hplain d (List.mem_cons_of_mem _ hd)
    obtain ⟨n, rfl⟩ := Nat.exists_eq_add_of_lt (Nat.lt_of_lt_of_le (Nat.succ_pos _) hn)
    rw [Nat.zero_add, joined_cons, loop_next (stripTurn_next (hplain c (by simp))),
      ih hfront (by simpa using hn)]
    simp

/-! ## The function -/

private theorem strippedSize_ofNat {n : Nat} (hn : n < 2 ^ 31) (lastPartLen : Nat) :
    strippedSize (BitVec.ofNat 32 n) lastPartLen =
      if n < 2 ^ 30 then .ok (BitVec.ofNat 64 (n * 2 + lastPartLen + 1))
      else .error .signedOverflow := by
  rw [strippedSize, mulSigned_ofNat (by decide) hn (by decide)]
  by_cases h : n < 2 ^ 30
  · have hmsb : (BitVec.ofNat 32 (n * 2)).msb = false := by
      rw [BitVec.msb_eq_false_iff_two_mul_lt, BitVec.toNat_ofNat]
      omega
    have hext : (BitVec.ofNat 32 (n * 2)).signExtend 64 = BitVec.ofNat 64 (n * 2) := by
      rw [BitVec.signExtend_eq_setWidth_of_msb_false hmsb]
      apply BitVec.eq_of_toNat_eq
      rw [BitVec.toNat_setWidth, BitVec.toNat_ofNat, BitVec.toNat_ofNat]
      omega
    rw [if_pos h, if_pos (by omega)]
    change Except.ok _ = _
    rw [hext, ← BitVec.ofNat_add, ← BitVec.ofNat_add]
  · rw [if_neg h, if_neg (by omega)]
    rfl

/-- The function on a name that is made of components. -/
theorem golangStripNameToArena_joined {name : CString} (hname : name.bytes = joined front last)
    (hplain : Plain (front ++ [last])) (hfront : front ≠ []) (hlast : last ≠ [])
    (arena : Arena Byte) (fresh : Option (Nat → Byte)) :
    golangStripNameToArena arena fresh name =
      if front.length < 2 ^ 30 then
        .ok (guSymbolNameArenaPut arena fresh (front.length * 2 + (last.length + 1) + 1)
          (joined (front.map (·.take 1)) last ++ [0#8]))
      else .error .signedOverflow := by
  have hslash : slash ∈ name.bytes := by
    rw [hname, ← List.count_pos_iff, count_slash_joined hplain]
    exact List.length_pos_iff.mpr hfront
  have hend : name.bytes.getLast? ≠ some slash := by
    rw [hname, ne_eq, getLast?_joined hfront (hplain last (by simp))]
    exact hlast
  have hcount := countSlashes_joined hplain (n := 0) (by decide) none
  rw [← hname, Nat.zero_add, if_neg hfront] at hcount
  rw [golangStripNameToArena, if_pos hslash]
  by_cases hint : front.length < 2 ^ 31
  · rw [hcount, if_pos hint]
    change (if name.bytes.getLast? = some slash then _ else _) = _
    rw [if_neg hend]
    change (strippedSize (BitVec.ofNat 32 front.length) (last.length + 1) >>= fun size =>
      .ok (guSymbolNameArenaPut arena fresh size.toNat
        (loop (stripTurn last) StripState.dst name.bytes.length ⟨name.bytes, []⟩ ++ last ++
          [0#8]))) = _
    have hlen : front.length ≤ name.bytes.length := hname ▸ front_length_le
    rw [strippedSize_ofNat hint, hname, loop_stripTurn hplain (hname ▸ hlen), List.nil_append]
    by_cases hsize : front.length < 2 ^ 30
    · have hlastLen : last.length ≤ name.bytes.length := hname ▸ last_length_le
      have hshort := name.short
      rw [if_pos hsize, if_pos hsize]
      change Except.ok (guSymbolNameArenaPut arena fresh (BitVec.ofNat 64 _).toNat _) = _
      rw [BitVec.toNat_ofNat, Nat.mod_eq_of_lt (by omega)]
      rfl
    · rw [if_neg hsize, if_neg hsize]
      rfl
  · rw [hcount, if_neg hint, if_neg (by omega)]
    rfl

/-! ## Every name -/

variable {name : CString}

/-- A name with a slash that does not end in one. -/
theorem CString.exists_joined (hslash : slash ∈ name.bytes)
    (hend : name.bytes.getLast? ≠ some slash) :
    ∃ front last, name.bytes = joined front last ∧ Plain (front ++ [last]) ∧ front ≠ [] ∧
      last ≠ [] := by
  obtain ⟨front, last, hname, hplain⟩ := Gunwinder.exists_joined name.bytes
  have hfront : front ≠ [] := by
    rintro rfl
    rw [hname] at hslash
    exact hplain last (by simp) hslash
  refine ⟨front, last, hname, hplain, hfront, ?_⟩
  rwa [hname, ne_eq, getLast?_joined hfront (hplain last (by simp))] at hend

private theorem length_stripName_le (s : List Byte) : (stripName s).length ≤ s.length := by
  obtain ⟨front, last, rfl, hplain⟩ := exists_joined s
  rw [stripName_joined hplain]
  exact length_joined_take_le

private theorem stripName_subset (s : List Byte) : stripName s ⊆ s := by
  obtain ⟨front, last, rfl, hplain⟩ := exists_joined s
  rw [stripName_joined hplain]
  intro b hb
  simp only [joined, List.mem_append, List.mem_flatMap, List.mem_map] at hb ⊢
  rcases hb with ⟨c, ⟨d, hd, rfl⟩, hb⟩ | hb
  · exact .inl ⟨d, hd, hb.imp_left List.mem_of_mem_take⟩
  · exact .inr hb

/-- The stripped name is a string again. -/
def CString.strip (name : CString) : CString where
  bytes := stripName name.bytes
  noNul := fun h => name.noNul (stripName_subset _ h)
  short := Nat.lt_of_le_of_lt (length_stripName_le _) name.short

private theorem CString.strip_bytes (hname : name.bytes = joined front last)
    (hplain : Plain (front ++ [last])) :
    name.strip.bytes = joined (front.map (·.take 1)) last := by
  change stripName name.bytes = _
  rw [hname, stripName_joined hplain]

/-- Stripping `name` asks for a block that has room for `s` and its terminator, and writes them
there. Without memory for a chunk there is no block. -/
def CString.StripsTo (name s : CString) : Prop :=
  ∃ size, s.bytes.length + 1 ≤ size ∧ ∀ arena fresh,
    golangStripNameToArena arena fresh name =
      .ok (guSymbolNameArenaPut arena fresh size (s.bytes ++ [0#8])) ∧
    ∀ ptr arena', guSymbolNameArenaPut arena fresh size (s.bytes ++ [0#8]) = (some ptr, arena') →
      arena'.Holds ptr (s.bytes ++ [0#8])

private theorem CString.stripsTo_iff {s : CString} (hname : name.bytes = joined front last)
    (hs : s.bytes = joined (front.map (·.take 1)) last) (hplain : Plain (front ++ [last]))
    (hfront : front ≠ []) (hlast : last ≠ []) : name.StripsTo s ↔ front.length < 2 ^ 30 := by
  have hcall := golangStripNameToArena_joined hname hplain hfront hlast
  constructor
  · rintro ⟨size, -, hput⟩
    have hok := (hput [] none).1
    by_contra hmany
    rw [hcall, if_neg hmany] at hok
    cases hok
  · intro hfew
    have hle : (joined (front.map (·.take 1)) last).length ≤ 2 * front.length + last.length :=
      length_joined_take
    have hroom : s.bytes.length + 1 ≤ front.length * 2 + (last.length + 1) + 1 := by
      rw [hs]
      omega
    refine ⟨_, hroom, fun arena fresh => ⟨?_, fun ptr arena' hput => ?_⟩⟩
    · rw [hcall, if_pos hfew, hs]
    · exact Arena.holds_put hput (by rwa [List.length_append, List.length_singleton])

/-- A Go name is stripped to what it should be, and the result to itself, exactly when it has
fewer than `2 ^ 30` slashes. -/
theorem golangStripNameToArena_strips_iff (name : CString) (hslash : slash ∈ name.bytes)
    (hend : name.bytes.getLast? ≠ some slash) :
    name.StripsTo name.strip ∧ name.strip.StripsTo name.strip ↔
      name.bytes.count slash < 2 ^ 30 := by
  obtain ⟨front, last, hname, hplain, hfront, hlast⟩ := CString.exists_joined hslash hend
  have hbytes := CString.strip_bytes hname hplain
  have honce := CString.stripsTo_iff hname hbytes hplain hfront hlast
  have htwice := CString.stripsTo_iff hbytes (hbytes.trans (by rw [map_take_one_idem]))
    hplain.take (by simpa using hfront) hlast
  rw [List.length_map] at htwice
  rw [honce, htwice, and_self, hname, count_slash_joined hplain]

/-- The name `ab//c/de`. -/
def goName : CString where
  bytes := [0x61#8, 0x62#8, slash, slash, 0x63#8, slash, 0x64#8, 0x65#8]
  noNul := by decide
  short := by decide

/-- `ab//c/de` loses its `b`. -/
theorem golangStripNameToArena_strips_goName :
    goName.strip.bytes = [0x61#8, slash, slash, 0x63#8, slash, 0x64#8, 0x65#8] ∧
      goName.StripsTo goName.strip ∧ goName.strip.StripsTo goName.strip :=
  ⟨by decide, (golangStripNameToArena_strips_iff goName (by decide) (by decide)).mpr (by decide)⟩

/-- A name of `n` slashes and a letter. -/
def slashes (n : Nat) (hn : n < 2 ^ 62) : CString where
  bytes := List.replicate n slash ++ [0x61#8]
  noNul := by
    rw [List.mem_append, List.mem_replicate]
    exact fun h => h.elim (fun h => absurd h.2 (by decide)) (by decide)
  short := by
    rw [List.length_append, List.length_replicate, List.length_singleton]
    omega

private theorem slashes_eq_joined (n : Nat) (hn : n < 2 ^ 62) :
    (slashes n hn).bytes = joined (List.replicate n []) [0x61#8] := by
  change List.replicate n slash ++ [0x61#8] = _
  rw [joined]
  congr 1
  induction n with
  | zero => rfl
  | succ n ih =>
    rw [List.replicate_succ, List.replicate_succ, List.flatMap_cons, ih (by omega)]
    rfl

private theorem slashes_overflows {n : Nat} (hn : n < 2 ^ 62) (hmany : 2 ^ 30 ≤ n)
    (arena : Arena Byte) (fresh : Option (Nat → Byte)) :
    golangStripNameToArena arena fresh (slashes n hn) = .error .signedOverflow := by
  have hplain : Plain (List.replicate n [] ++ [[0x61#8]]) := by
    intro c hc
    rcases List.mem_append.mp hc with hc | hc
    · rw [(List.mem_replicate.mp hc).2]
      exact List.not_mem_nil
    · rw [List.mem_singleton.mp hc]
      decide
  have hfront : List.replicate n ([] : List Byte) ≠ [] := by
    rw [ne_eq, List.replicate_eq_nil_iff]
    omega
  rw [golangStripNameToArena_joined (slashes_eq_joined n hn) hplain hfront (by decide),
    List.length_replicate, if_neg (Nat.not_lt.mpr hmany)]

/-- With `2 ^ 30` slashes the size is not an `int` any more. -/
theorem golangStripNameToArena_overflows :
    slash ∈ (slashes (2 ^ 30) (by decide)).bytes ∧
      (slashes (2 ^ 30) (by decide)).bytes.getLast? ≠ some slash ∧
      golangStripNameToArena [] none (slashes (2 ^ 30) (by decide)) = .error .signedOverflow ∧
      ¬(slashes (2 ^ 30) (by decide)).StripsTo (slashes (2 ^ 30) (by decide)).strip := by
  have hfails := slashes_overflows (n := 2 ^ 30) (by decide) (Nat.le_refl _)
  refine ⟨?_, ?_, hfails [] none, ?_⟩
  · exact List.mem_append_left _ (List.mem_replicate.mpr ⟨by decide, rfl⟩)
  · rw [slashes, List.getLast?_append]
    decide
  · rintro ⟨size, -, hput⟩
    have hok := (hput [] none).1
    rw [hfails] at hok
    cases hok

end Gunwinder
