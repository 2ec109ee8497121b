import Gunwinder.Native.StartTime

/-!
# Lines of `/proc/<pid>/stat`

The kernel prints the name of a process between parentheses as it is, and the last closing
parenthesis of the line ends it. But the line is read up to the first newline, and a name may hold
one: then the start time is taken to be 0.
-/

namespace Gunwinder

open Gunwinder.Core

variable {P : Type}

/-! ## The format -/

/-- A number as the kernel prints it. -/
def decimal (v : Int) : List Char :=
  if v < 0 then '-' :: Nat.toDigits 10 v.natAbs else Nat.toDigits 10 v.natAbs

/-- Words with a blank in front of each. -/
def spaced (words : List (List Char)) : List Char := words.flatMap (' ' :: ·)

/-- A line of the kernel. -/
structure StatLine where
  pid : Nat
  pidFits : pid < 2 ^ 31
  name : List Char
  nameLength : name.length ≤ 15
  nameText : '\x00' ∉ name
  state : Char
  stateLetter : state.isAlpha = true
  /-- Fields 4 to 21. -/
  before : List Int
  beforeLength : before.length = 18
  beforeFits : ∀ v ∈ before, v.natAbs < 2 ^ 64
  /-- Field 22. -/
  startTime : Word
  /-- The fields behind it. -/
  after : List Int

namespace StatLine

variable (k : StatLine)

/-- Fields 3 to 21. -/
def skipped : List (List Char) := [k.state] :: k.before.map decimal

/-- What stands between the name and the end of field 22. -/
def fields : List Char := spaced k.skipped ++ ' ' :: Nat.toDigits 10 k.startTime.toNat

/-- The line up to the name. -/
def opening : List Char := Nat.toDigits 10 k.pid ++ [' ', '(']

/-- The line up to the end of field 22. -/
def front : List Char := k.opening ++ (k.name ++ ')' :: k.fields)

/-- What stands behind field 22. -/
def back : List Char := spaced (k.after.map decimal) ++ ['\n']

def text : List Char := k.front ++ k.back

end StatLine

/-! ## Fields -/

private theorem mem_decimal {v : Int} {c : Char} (h : c ∈ decimal v) :
    c.isDigit = true ∨ c = '-' := by
  have hdigits : c ∈ Nat.toDigits 10 v.natAbs → c.isDigit = true :=
    Nat.isDigit_of_mem_toDigits (by decide) (by decide)
  unfold decimal at h
  split at h
  · rcases List.mem_cons.mp h with rfl | h
    · exact .inr rfl
    · exact .inl (hdigits h)
  · exact .inl (hdigits h)

private theorem decimal_ne_nil (v : Int) : decimal v ≠ [] := by
  unfold decimal
  split
  · exact List.cons_ne_nil _ _
  · exact Nat.toDigits_ne_nil

private theorem decimal_plain {v : Int} {c : Char} (h : c ∈ decimal v) : isSpace c = false := by
  rcases mem_decimal h with h | rfl
  · exact (isDigit_plain h).1
  · rfl

/-- A number of 64 bits has at most twenty digits. -/
theorem toDigits_length {n : Nat} (h : n < 2 ^ 64) : (Nat.toDigits 10 n).length ≤ 20 :=
  (Nat.length_toDigits_le_iff (by decide) (by decide)).mpr (Nat.lt_trans h (by decide))

private theorem decimal_length {v : Int} (h : v.natAbs < 2 ^ 64) : (decimal v).length ≤ 21 := by
  have hdigits := toDigits_length h
  unfold decimal
  split
  · exact Nat.succ_le_succ hdigits
  · exact Nat.le_succ_of_le hdigits

private theorem spaced_length {words : List (List Char)} {n : Nat}
    (h : ∀ word ∈ words, word.length ≤ n) : (spaced words).length ≤ words.length * (n + 1) := by
  induction words with
  | nil => exact Nat.zero_le _
  | cons word words ih =>
    obtain ⟨hword, hwords⟩ := List.forall_mem_cons.mp h
    have hrest := ih hwords
    rw [spaced, List.flatMap_cons, List.length_append, List.length_cons, List.length_cons,
      Nat.succ_mul]
    exact Nat.add_comm _ _ ▸ Nat.add_le_add hrest (Nat.succ_le_succ hword)

private theorem mem_spaced {words : List (List Char)} {c : Char} (h : c ∈ spaced words) :
    c = ' ' ∨ ∃ word ∈ words, c ∈ word := by
  obtain ⟨word, hword, hc⟩ := List.mem_flatMap.mp h
  rcases List.mem_cons.mp hc with rfl | hc
  · exact .inl rfl
  · exact .inr ⟨word, hword, hc⟩

/-- Every field that is skipped takes a character, and so does the one that is read. -/
theorem skipFields_length {n : Nat} {cur rest : List Char} (h : skipFields n cur = some rest) :
    n < cur.length := by
  have hskip : ∀ s : List Char, (skipSpace s).length ≤ s.length :=
    fun s => (List.dropWhile_suffix _).length_le
  induction n generalizing cur with
  | zero =>
    have hcur := hskip cur
    rw [skipFields] at h
    split at h
    · cases h
    · rename_i hne
      have hpos := List.length_pos_iff.mpr hne
      omega
  | succ n ih =>
    have hcur := hskip cur
    rw [skipFields] at h
    split at h
    · cases h
    rename_i hne
    have hrest := ih h
    -- the first character behind the blanks is not a blank, so it is dropped
    obtain ⟨c, s, hs⟩ := List.exists_cons_of_ne_nil hne
    have hc : isSpace c = false := by
      have hhead := List.head?_dropWhile_not isSpace cur
      rw [show cur.dropWhile isSpace = c :: s from hs] at hhead
      simpa using hhead
    have hdrop : ((c :: s).dropWhile fun c => !isSpace c).length ≤ s.length := by
      rw [List.dropWhile_cons_of_pos (by rw [hc]; rfl)]
      exact (List.dropWhile_suffix _).length_le
    rw [hs] at hrest hcur
    rw [List.length_cons] at hcur
    omega

/-- Words are skipped one by one. -/
theorem skipFields_spaced {words : List (List Char)} {rest : List Char}
    (hwords : ∀ word ∈ words, word ≠ [] ∧ ∀ c ∈ word, isSpace c = false) (hrest : AtBreak rest)
    (n : Nat) : skipFields (words.length + n) (spaced words ++ rest) = skipFields n rest := by
  induction words with
  | nil => rw [List.length_nil, Nat.zero_add, spaced, List.flatMap_nil, List.nil_append]
  | cons word words ih =>
    obtain ⟨⟨hne, hword⟩, hwords⟩ := List.forall_mem_cons.mp hwords
    have htail : AtBreak (spaced words ++ rest) := by
      cases words with
      | nil => exact hrest
      | cons _ _ =>
        rintro _ ⟨⟩
        rfl
    have hdrop : (word ++ (spaced words ++ rest)).dropWhile (fun c => !isSpace c) =
        spaced words ++ rest := by
      rw [List.dropWhile_append_of_pos (by simpa using hword)]
      cases htext : spaced words ++ rest with
      | nil => rfl
      | cons c s => simp [htail c (by rw [htext]; rfl)]
    have hcons : spaced (word :: words) ++ rest = ' ' :: (word ++ (spaced words ++ rest)) := by
      simp [spaced]
    rw [hcons, List.length_cons, Nat.add_right_comm, skipFields, skipSpace_cons rfl,
      skipSpace_word hne hword, if_neg (by simp [hne]), hdrop, ih hwords]

/-! ## Reading a line -/

namespace StatLine

variable (k : StatLine)

private theorem skipped_plain :
    ∀ word ∈ k.skipped, word ≠ [] ∧ ∀ c ∈ word, isSpace c = false := by
  have hstate : isSpace k.state = false := by
    by_contra hs
    have hletter := k.stateLetter
    simp only [Bool.not_eq_false, isSpace, Bool.or_eq_true, decide_eq_true_eq] at hs
    rcases hs with ((((h | h) | h) | h) | h) | h <;> rw [h] at hletter <;>
      exact absurd hletter (by decide)
  intro word hword
  rcases List.mem_cons.mp hword with rfl | hword
  · refine ⟨List.cons_ne_nil _ _, fun c hc => ?_⟩
    rw [List.mem_singleton.mp hc]
    exact hstate
  · obtain ⟨v, -, rfl⟩ := List.mem_map.mp hword
    exact ⟨decimal_ne_nil v, fun c hc => decimal_plain hc⟩

/-- The fields hold letters, digits, signs and blanks. -/
theorem mem_fields {c : Char} (h : c ∈ k.fields) :
    c = ' ' ∨ c = k.state ∨ c.isDigit = true ∨ c = '-' := by
  rcases List.mem_append.mp h with h | h
  · rcases mem_spaced h with rfl | ⟨word, hword, hc⟩
    · exact .inl rfl
    · rcases List.mem_cons.mp hword with rfl | hword
      · exact .inr (.inl (List.mem_singleton.mp hc))
      · obtain ⟨v, -, rfl⟩ := List.mem_map.mp hword
        exact .inr (.inr (mem_decimal hc))
  · rcases List.mem_cons.mp h with rfl | h
    · exact .inl rfl
    · exact .inr (.inr (.inl (Nat.isDigit_of_mem_toDigits (by decide) (by decide) h)))

private theorem mem_back {c : Char} (h : c ∈ k.back) :
    c = ' ' ∨ c.isDigit = true ∨ c = '-' ∨ c = '\n' := by
  rcases List.mem_append.mp h with h | h
  · rcases mem_spaced h with rfl | ⟨word, hword, hc⟩
    · exact .inl rfl
    · obtain ⟨v, -, rfl⟩ := List.mem_map.mp hword
      exact .inr ((mem_decimal hc).imp_right .inl)
  · exact .inr (.inr (.inr (List.mem_singleton.mp h)))

/-- A character that is no letter, digit, sign or blank is not in the fields. -/
theorem not_mem_fields {c : Char} (hc : c ≠ ' ' ∧ c.isAlpha = false ∧ c.isDigit = false ∧ c ≠ '-') :
    c ∉ k.fields := by
  obtain ⟨hblank, halpha, hdigit, hsign⟩ := hc
  intro h
  rcases k.mem_fields h with h | rfl | h | h
  · exact hblank h
  · rw [k.stateLetter] at halpha
    cases halpha
  · rw [h] at hdigit
    cases hdigit
  · exact hsign h

private theorem not_mem_opening {c : Char} (hc : c.isDigit = false ∧ c ≠ ' ' ∧ c ≠ '(') :
    c ∉ k.opening := by
  obtain ⟨hdigit, hblank, hparen⟩ := hc
  intro h
  rcases List.mem_append.mp h with h | h
  · rw [Nat.isDigit_of_mem_toDigits (by decide) (by decide) h] at hdigit
    cases hdigit
  · simp [hblank, hparen] at h

/-- What is read of the rest starts with a blank or ends the line. -/
theorem head_of_back {cut : List Char} (hcut : cut <+: k.back) {c : Char}
    (hc : cut.head? = some c) : c = ' ' ∨ c = '\n' := by
  have hback : k.back.head? = some c := by
    obtain ⟨rest, hrest⟩ := hcut
    rw [← hrest, List.head?_append, hc]
    rfl
  unfold back at hback
  cases hafter : k.after with
  | nil =>
    rw [hafter] at hback
    exact .inr (Option.some.inj hback).symm
  | cons v after =>
    rw [hafter] at hback
    exact .inl (Option.some.inj hback).symm

/-- The last closing parenthesis is the one behind the name. -/
theorem strrchr_front {cut : List Char} (hcut : cut <+: k.back) :
    strrchr ')' (k.front ++ cut) = some (')' :: (k.fields ++ cut)) := by
  have hclose : ')' ∉ k.fields ++ cut := by
    rw [List.mem_append, not_or]
    refine ⟨k.not_mem_fields (by decide), fun h => ?_⟩
    have hback := k.mem_back (hcut.subset h)
    revert hback
    decide
  have hsplit : k.front ++ cut = (k.opening ++ k.name) ++ ')' :: (k.fields ++ cut) := by
    simp [front]
  rw [hsplit, strrchr_append _ hclose]

/-- The loop over the fields stops in front of the start time. -/
theorem skipFields_fields (cut : List Char) :
    skipFields (22 - 3) (k.fields ++ cut) =
      some (Nat.toDigits 10 k.startTime.toNat ++ cut) := by
  have hcount : 22 - 3 = k.skipped.length + 0 := by
    rw [skipped, List.length_cons, List.length_map, k.beforeLength]
  have hplain : ∀ c ∈ Nat.toDigits 10 k.startTime.toNat, isSpace c = false := fun c hc =>
    (isDigit_plain (Nat.isDigit_of_mem_toDigits (by decide) (by decide) hc)).1
  have hbreak : AtBreak (' ' :: Nat.toDigits 10 k.startTime.toNat ++ cut) := by
    rintro _ ⟨⟩
    rfl
  rw [hcount, fields, List.append_assoc, skipFields_spaced k.skipped_plain hbreak, skipFields,
    List.cons_append, skipSpace_cons rfl, skipSpace_word Nat.toDigits_ne_nil hplain]
  exact if_neg (by simp [Nat.toDigits_ne_nil])

/-- Field 22 is read behind the fields in front of it. -/
theorem statStartTime_front {cut : List Char} (hcut : cut <+: k.back) :
    statStartTime (k.front ++ cut) = k.startTime := by
  have hnumber : strtoull 64 (Nat.toDigits 10 k.startTime.toNat ++ cut) = some k.startTime := by
    rw [strtoull_toDigits k.startTime.isLt, BitVec.ofNat_toNat, BitVec.setWidth_eq]
    intro c hc
    rcases k.head_of_back hcut hc with rfl | rfl
    · rfl
    · rfl
  simp only [statStartTime, k.strrchr_front hcut, Option.bind_eq_bind, Option.bind_some,
    List.drop_succ_cons, List.drop_zero, k.skipFields_fields, hnumber, Option.getD_some]

/-- The buffer is long enough for the fields up to the 22nd. -/
theorem front_length : k.front.length < statBufSize := by
  have hpid := toDigits_length (Nat.lt_trans k.pidFits (by decide))
  have htime := toDigits_length k.startTime.isLt
  have hskipped : (spaced k.skipped).length ≤ k.skipped.length * (21 + 1) := by
    refine spaced_length fun word hword => ?_
    rcases List.mem_cons.mp hword with rfl | hword
    · exact Nat.succ_le_succ (Nat.zero_le _)
    · obtain ⟨v, hv, rfl⟩ := List.mem_map.mp hword
      exact decimal_length (k.beforeFits v hv)
  have hcount : k.skipped.length = 19 := by
    rw [skipped, List.length_cons, List.length_map, k.beforeLength]
  have hname := k.nameLength
  rw [hcount] at hskipped
  simp only [front, opening, fields, List.length_append, List.length_cons, List.length_nil,
    statBufSize]
  omega

/-- A name on one line is followed by its fields. -/
theorem readStartTime_of_oneLine (h : '\n' ∉ k.name) :
    readStartTime (some k.text) = k.startTime := by
  have hfront : '\n' ∉ k.front := by
    simp only [front, List.mem_append, List.mem_cons, not_or]
    exact ⟨k.not_mem_opening (by decide), h, by decide, k.not_mem_fields (by decide)⟩
  have hne : k.front ≠ [] := by simp [front]
  obtain ⟨cut, rest, hline, hcut⟩ := fgets_front hfront k.front_length hne k.back
  rw [text, readStartTime, hline]
  exact k.statStartTime_front hcut

/-- A line that ends in the name has no field 22. -/
theorem readStartTime_of_newline (h : '\n' ∈ k.name) : readStartTime (some k.text) = 0#64 := by
  obtain ⟨first, second, hname, hfirst⟩ := List.eq_append_cons_of_mem h
  have hshort : first.length + 1 ≤ 15 := by
    have hlength := k.nameLength
    rw [hname, List.length_append, List.length_cons] at hlength
    omega
  have hbody : '\n' ∉ k.opening ++ first := by
    rw [List.mem_append, not_or]
    exact ⟨k.not_mem_opening (by decide), hfirst⟩
  have hfits : (k.opening ++ first).length + 1 < statBufSize := by
    have hpid := toDigits_length (Nat.lt_trans k.pidFits (by decide))
    simp only [opening, List.length_append, List.length_cons, List.length_nil, statBufSize]
    omega
  have hline : fgets statBufSize k.text =
      some ((k.opening ++ first) ++ ['\n'], second ++ ')' :: k.fields ++ k.back) := by
    rw [← fgets_line hbody hfits, text, front, hname]
    simp
  have hlast : strrchr ')' ((k.opening ++ first) ++ ['\n']) = strrchr ')' (first ++ ['\n']) := by
    rw [List.append_assoc, strrchr_append_right (k.not_mem_opening (by decide))]
  simp only [readStartTime, hline, statStartTime, hlast]
  cases hclose : strrchr ')' (first ++ ['\n']) with
  | none => rfl
  | some cur =>
    have hcur := strrchr_length hclose
    rw [List.length_append, List.length_singleton] at hcur
    have hnone : skipFields (22 - 3) (cur.drop 1) = none := by
      by_contra hsome
      obtain ⟨rest, hrest⟩ := Option.ne_none_iff_exists'.mp hsome
      have hlength := skipFields_length hrest
      rw [List.length_drop] at hlength
      omega
    simp only [Option.bind_eq_bind, Option.bind_some, hnone, Option.bind_none, Option.getD_none]

end StatLine

/-- The start time of a process that is not cached is read from its line exactly if the name is
on one line, or the start time is 0. -/
theorem guGetPidUniqueId_startTime_iff (w : World P) (stat : Nat → Int → Option (List Char))
    (ctx : GuContext P) (pid : Int) (k : StatLine) (hpid : 0 < pid)
    (huncached : ∀ pidCtx, ctx.pid pid = some pidCtx → pidCtx.uniqueId = 0#64)
    (hstat : stat ctx.tick pid = some k.text) :
    (guGetPidUniqueId (w.withStat stat) ctx pid).1 = k.startTime ↔
      '\n' ∉ k.name ∨ k.startTime = 0#64 := by
  have hread : (guGetPidUniqueId (w.withStat stat) ctx pid).1 = readStartTime (some k.text) := by
    have hasked : (w.withStat stat).startTime ctx.tick pid = readStartTime (some k.text) :=
      congrArg readStartTime hstat
    unfold guGetPidUniqueId
    rw [if_neg (Int.not_le.mpr hpid)]
    cases hfound : ctx.pid pid with
    | none => exact hasked
    | some pidCtx =>
      dsimp only
      rw [if_pos (huncached pidCtx hfound)]
      exact hasked
  rw [hread]
  by_cases hline : '\n' ∈ k.name
  · rw [k.readStartTime_of_newline hline]
    exact ⟨fun h => .inr h.symm, fun h => (h.resolve_left fun hnot => hnot hline).symm⟩
  · exact iff_of_true (k.readStartTime_of_oneLine hline) (.inl hline)

/-- A process that started at 99, with a given name. -/
def namedStat (name : List Char) (hlength : name.length ≤ 15) (htext : '\x00' ∉ name) :
    StatLine where
  pid := 7
  pidFits := by decide
  name := name
  nameLength := hlength
  nameText := htext
  state := 'S'
  stateLetter := by decide
  before := List.replicate 18 (-1)
  beforeLength := by decide
  beforeFits := by decide
  startTime := 99#64
  after := [0, 1]

/-- Parentheses in the name do no harm. -/
theorem guGetPidUniqueId_startTime_paren :
    (guGetPidUniqueId ((default : World Unit).withStat
      fun _ _ => some (namedStat ['a', ')', ' ', '('] (by decide) (by decide)).text)
      (guInit false false false) 7).1 = 99#64 :=
  (guGetPidUniqueId_startTime_iff default _ (guInit false false false) 7
    (namedStat ['a', ')', ' ', '('] (by decide) (by decide)) (by decide) nofun rfl).mpr
    (.inl (by decide))

/-- With a newline in the name the start time is not found. -/
theorem guGetPidUniqueId_misses_startTime :
    (guGetPidUniqueId ((default : World Unit).withStat
      fun _ _ => some (namedStat ['a', '\n', 'b'] (by decide) (by decide)).text)
      (guInit false false false) 7).1 = 0#64 ∧
    (namedStat ['a', '\n', 'b'] (by decide) (by decide)).startTime = 99#64 := by
  refine ⟨?_, rfl⟩
  exact (namedStat ['a', '\n', 'b'] (by decide) (by decide)).readStartTime_of_newline (by decide)

end Gunwinder
