import Mathlib.Data.BitVec
import Mathlib.Data.List.TakeWhile
import Mathlib.Tactic.Common

/-!
# Text input

The directives of C's `sscanf` that a line of fields is split with, `strrchr` and `strtoull`, and
`fgets` for the lines of a file. A directive takes what it matches off the front of the text, or
fails. Words end at white space and nowhere else, so a field with a blank in it is not one word.
-/

namespace Gunwinder.Core

/-! ## Fields -/

/-- `isspace` in the C locale. -/
def isSpace (c : Char) : Bool :=
  c = ' ' || c = '\t' || c = '\n' || c = '\x0b' || c = '\x0c' || c = '\r'

/-- White space in a format. -/
def skipSpace (s : List Char) : List Char := s.dropWhile isSpace

/-- A character of a format that stands for itself. -/
def scanChar (c : Char) : List Char → Option (List Char)
  | [] => none
  | d :: s => if c = d then some s else none

/-- `%s` with a maximal width. -/
def scanWord (width : Nat) (s : List Char) : Option (List Char × List Char) :=
  let s := skipSpace s
  let word := (s.take width).takeWhile fun c => !isSpace c
  if word = [] then none else some (word, s.drop word.length)

/-- `%*s`. -/
def skipWord (s : List Char) : Option (List Char) := (scanWord s.length s).map Prod.snd

def isHexDigit (c : Char) : Bool :=
  ('0' ≤ c && c ≤ '9') || ('a' ≤ c && c ≤ 'f') || ('A' ≤ c && c ≤ 'F')

def hexDigitValue (c : Char) : Nat :=
  if c ≤ '9' then c.toNat - '0'.toNat
  else if c ≤ 'F' then c.toNat - 'A'.toNat + 10
  else c.toNat - 'a'.toNat + 10

/-- The number that some digits are. -/
def hexValue (digits : List Char) : Nat := digits.foldl (fun n c => 16 * n + hexDigitValue c) 0

/-- A sign in front of a number. -/
def scanSign : List Char → Bool × List Char
  | '-' :: s => (true, s)
  | '+' :: s => (false, s)
  | s => (false, s)

/-- The base in front of a hexadecimal number. -/
def scanBase : List Char → List Char
  | '0' :: 'x' :: s => s
  | '0' :: 'X' :: s => s
  | s => s

/-- `%x` for a word of `w` bits; a number that does not fit is the largest word, whatever its
sign. -/
def scanHex (w : Nat) (s : List Char) : Option (BitVec w × List Char) :=
  let (negative, s) := scanSign (skipSpace s)
  let s := scanBase s
  let digits := s.takeWhile isHexDigit
  if digits = [] then none
  else
    let value := BitVec.ofNat w (hexValue digits)
    some (if 2 ^ w ≤ hexValue digits then BitVec.allOnes w else if negative then -value else value,
      s.drop digits.length)

/-- `strtoull` in base ten, for words of `w` bits; `none` where it sets `errno` or takes nothing. -/
def strtoull (w : Nat) (s : List Char) : Option (BitVec w) :=
  let (negative, s) := scanSign (skipSpace s)
  let digits := s.takeWhile Char.isDigit
  let value := Nat.ofDigitChars 10 digits 0
  if digits = [] ∨ 2 ^ w ≤ value then none
  else some (if negative then -BitVec.ofNat w value else BitVec.ofNat w value)

/-- `strrchr`: the text from the last `c` on. -/
def strrchr (c : Char) : List Char → Option (List Char)
  | [] => none
  | d :: s =>
    match strrchr c s with
    | some t => some t
    | none => if c = d then some (d :: s) else none

section Fields

variable {s rest word digits : List Char} {c : Char}

/-- A space is skipped. -/
theorem skipSpace_cons (h : isSpace c = true) (s : List Char) :
    skipSpace (c :: s) = skipSpace s := by
  simp [skipSpace, h]

private theorem skipSpace_of_head (h : isSpace c = false) (s : List Char) :
    skipSpace (c :: s) = c :: s := by
  simp [skipSpace, h]

/-- Spaces are skipped. -/
theorem skipSpace_replicate (n : Nat) (s : List Char) :
    skipSpace (List.replicate n ' ' ++ s) = skipSpace s := by
  induction n with
  | zero => rfl
  | succ n ih => rw [List.replicate_succ, List.cons_append, skipSpace_cons rfl, ih]

/-- The text behind a word. -/
def AtBreak (rest : List Char) : Prop := ∀ c, rest.head? = some c → isSpace c = true

/-- A word is not skipped. -/
theorem skipSpace_word (hne : word ≠ []) (hword : ∀ c ∈ word, isSpace c = false)
    (rest : List Char) : skipSpace (word ++ rest) = word ++ rest := by
  cases word with
  | nil => exact absurd rfl hne
  | cons c word => exact skipSpace_of_head (hword c List.mem_cons_self) _

/-- A word up to a break is scanned as it is. -/
theorem scanWord_append (width : Nat) (hne : word ≠ []) (hword : ∀ c ∈ word, isSpace c = false)
    (hwidth : word.length ≤ width) (hrest : AtBreak rest) :
    scanWord width (word ++ rest) = some (word, rest) := by
  have htake : ((word ++ rest).take width).takeWhile (fun c => !isSpace c) = word := by
    rw [List.take_append, List.take_of_length_le hwidth,
      List.takeWhile_append_of_pos (by simpa using hword)]
    cases hcut : rest.take (width - word.length) with
    | nil => simp
    | cons c cut =>
      have hhead : rest.head? = some c := by
        cases rest with
        | nil => simp at hcut
        | cons d rest =>
          cases hn : width - word.length with
          | zero => simp [hn] at hcut
          | succ n =>
            rw [hn, List.take_succ_cons] at hcut
            rw [(List.cons.inj hcut).1]
            rfl
      simp [hrest c hhead]
  simp only [scanWord, skipSpace_word hne hword, htake, if_neg hne, List.drop_left]

/-- A word is skipped up to a break. -/
theorem skipWord_append (hne : word ≠ []) (hword : ∀ c ∈ word, isSpace c = false)
    (hrest : AtBreak rest) : skipWord (word ++ rest) = some rest := by
  rw [skipWord, scanWord_append _ hne hword (by simp) hrest]
  rfl

/-- Nothing is left to scan in white space. -/
theorem scanWord_of_space (h : ∀ c ∈ s, isSpace c = true) (width : Nat) :
    scanWord width s = none := by
  have hnil : skipSpace s = [] := List.dropWhile_eq_nil_iff.mpr h
  simp [scanWord, hnil]

/-- A digit is neither a sign nor white space. -/
theorem isHexDigit_plain (h : isHexDigit c = true) :
    isSpace c = false ∧ c ≠ '-' ∧ c ≠ '+' ∧ c ≠ 'x' ∧ c ≠ 'X' := by
  refine ⟨?_, ?_, ?_, ?_, ?_⟩
  · by_contra hs
    simp only [Bool.not_eq_false, isSpace, Bool.or_eq_true, decide_eq_true_eq] at hs
    rcases hs with ((((rfl | rfl) | rfl) | rfl) | rfl) | rfl <;> exact absurd h (by decide)
  all_goals
    rintro rfl
    exact absurd h (by decide)

private theorem scanSign_of_head (hne : word ≠ []) (hword : ∀ c ∈ word, c ≠ '-' ∧ c ≠ '+')
    (rest : List Char) : scanSign (word ++ rest) = (false, word ++ rest) := by
  cases word with
  | nil => exact absurd rfl hne
  | cons d word =>
    obtain ⟨hminus, hplus⟩ := hword d List.mem_cons_self
    unfold scanSign
    split
    · rename_i heq
      exact absurd (List.cons.inj heq).1 hminus
    · rename_i heq
      exact absurd (List.cons.inj heq).1 hplus
    · rfl

/-- Digits up to another character are scanned as their number. -/
theorem scanHex_append {w : Nat} (hne : digits ≠ []) (hdigits : ∀ c ∈ digits, isHexDigit c = true)
    (hfits : hexValue digits < 2 ^ w) (hc : isHexDigit c = false) (hx : c ≠ 'x' ∧ c ≠ 'X')
    (rest : List Char) :
    scanHex w (digits ++ c :: rest) = some (BitVec.ofNat w (hexValue digits), c :: rest) := by
  have hplain := fun d hd => isHexDigit_plain (hdigits d hd)
  have hskip : skipSpace (digits ++ c :: rest) = digits ++ c :: rest :=
    skipSpace_word hne (fun d hd => (hplain d hd).1) _
  have hsign : scanSign (digits ++ c :: rest) = (false, digits ++ c :: rest) :=
    scanSign_of_head hne (fun d hd => ⟨(hplain d hd).2.1, (hplain d hd).2.2.1⟩) _
  have hbase : scanBase (digits ++ c :: rest) = digits ++ c :: rest := by
    -- the second character is a digit or the one behind the digits
    have hsecond : ∀ d s, digits ++ c :: rest = '0' :: d :: s → d ≠ 'x' ∧ d ≠ 'X' := by
      intro d s heq
      cases digits with
      | nil => exact absurd rfl hne
      | cons d₀ digits =>
        obtain ⟨-, heq⟩ := List.cons.inj heq
        cases digits with
        | nil =>
          obtain ⟨rfl, -⟩ := List.cons.inj heq
          exact hx
        | cons d₁ digits =>
          obtain ⟨rfl, -⟩ := List.cons.inj heq
          exact (hplain d₁ (by simp)).2.2.2
    unfold scanBase
    split
    · rename_i heq
      exact absurd rfl (hsecond _ _ heq).1
    · rename_i heq
      exact absurd rfl (hsecond _ _ heq).2
    · rfl
  have htake : (digits ++ c :: rest).takeWhile isHexDigit = digits := by
    rw [List.takeWhile_append_of_pos hdigits]
    simp [hc]
  simp only [scanHex, hskip, hsign, hbase, htake, if_neg hne, if_neg (Nat.not_le.mpr hfits),
    List.drop_left]
  rfl

/-- A decimal digit is neither a sign nor white space. -/
theorem isDigit_plain (h : c.isDigit = true) : isSpace c = false ∧ c ≠ '-' ∧ c ≠ '+' := by
  refine ⟨?_, ?_, ?_⟩
  · by_contra hs
    simp only [Bool.not_eq_false, isSpace, Bool.or_eq_true, decide_eq_true_eq] at hs
    rcases hs with ((((rfl | rfl) | rfl) | rfl) | rfl) | rfl <;> exact absurd h (by decide)
  all_goals
    rintro rfl
    exact absurd h (by decide)

/-- A number that fits is read back as it is printed. -/
theorem strtoull_toDigits {w n : Nat} (hfits : n < 2 ^ w)
    (hrest : ∀ c, rest.head? = some c → c.isDigit = false) :
    strtoull w (Nat.toDigits 10 n ++ rest) = some (BitVec.ofNat w n) := by
  have hdigits : ∀ c ∈ Nat.toDigits 10 n, c.isDigit = true :=
    fun c hc => Nat.isDigit_of_mem_toDigits (by decide) (by decide) hc
  have hskip : skipSpace (Nat.toDigits 10 n ++ rest) = Nat.toDigits 10 n ++ rest :=
    skipSpace_word Nat.toDigits_ne_nil (fun c hc => (isDigit_plain (hdigits c hc)).1) _
  have hsign : scanSign (Nat.toDigits 10 n ++ rest) = (false, Nat.toDigits 10 n ++ rest) :=
    scanSign_of_head Nat.toDigits_ne_nil (fun c hc => (isDigit_plain (hdigits c hc)).2) _
  have htake : (Nat.toDigits 10 n ++ rest).takeWhile Char.isDigit = Nat.toDigits 10 n := by
    rw [List.takeWhile_append_of_pos hdigits]
    cases rest with
    | nil => simp
    | cons c rest => simp [hrest c rfl]
  have hnot : ¬(Nat.toDigits 10 n = [] ∨ 2 ^ w ≤ n) :=
    not_or.mpr ⟨Nat.toDigits_ne_nil, Nat.not_le.mpr hfits⟩
  simp only [strtoull, hskip, hsign, htake, Nat.ofDigitChars_ten_toDigits, if_neg hnot]
  rfl

private theorem strrchr_eq_none : strrchr c s = none ↔ c ∉ s := by
  induction s with
  | nil => simp [strrchr]
  | cons d s ih =>
    rw [strrchr, List.mem_cons, not_or, ← ih]
    cases strrchr c s with
    | none => simp
    | some t => simp

/-- The last `c` is the one with no other behind it. -/
theorem strrchr_append (s : List Char) (h : c ∉ rest) :
    strrchr c (s ++ c :: rest) = some (c :: rest) := by
  induction s with
  | nil => simp [strrchr, strrchr_eq_none.mpr h]
  | cons d s ih => rw [List.cons_append, strrchr, ih]

/-- A text without the character in front. -/
theorem strrchr_append_right (h : c ∉ s) (rest : List Char) :
    strrchr c (s ++ rest) = strrchr c rest := by
  induction s with
  | nil => rfl
  | cons d s ih =>
    obtain ⟨hd, hs⟩ := not_or.mp (mt List.mem_cons.mpr h)
    rw [List.cons_append, strrchr, ih hs, if_neg hd]
    cases strrchr c rest <;> rfl

/-- What is found is a tail. -/
theorem strrchr_length {t : List Char} (h : strrchr c s = some t) : t.length ≤ s.length := by
  induction s with
  | nil => cases h
  | cons d s ih =>
    rw [strrchr] at h
    split at h
    · rename_i t' ht
      cases h
      exact Nat.le_succ_of_le (ih ht)
    · split at h
      · cases h
        exact Nat.le_refl _
      · cases h

end Fields

/-! ## Lines -/

/-- How many characters `fgets` takes with room for `n`. -/
def lineLength : Nat → List Char → Nat
  | 0, _ => 0
  | _ + 1, [] => 0
  | n + 1, c :: s => if c = '\n' then 1 else lineLength n s + 1

/-- `fgets` with a buffer of `size` characters; `none` is its NULL at the end of the file. -/
def fgets (size : Nat) (file : List Char) : Option (List Char × List Char) :=
  if file = [] then none
  else some (file.take (lineLength (size - 1) file), file.drop (lineLength (size - 1) file))

/-- What calls of `fgets` return, for at most `calls` of them. -/
def fgetsAll (size : Nat) : Nat → List Char → List (List Char)
  | 0, _ => []
  | calls + 1, file =>
    match fgets size file with
    | none => []
    | some (line, rest) => line :: fgetsAll size calls rest

/-- A line that fits is returned whole. -/
theorem fgets_line {size : Nat} {body : List Char} (hbody : '\n' ∉ body)
    (hfits : body.length + 1 < size) (rest : List Char) :
    fgets size (body ++ '\n' :: rest) = some (body ++ ['\n'], rest) := by
  have hlen : ∀ (n : Nat) (body : List Char), '\n' ∉ body → body.length < n →
      lineLength n (body ++ '\n' :: rest) = body.length + 1 := by
    intro n body
    induction body generalizing n with
    | nil =>
      intro _ hn
      cases n with
      | zero => cases hn
      | succ n => simp [lineLength]
    | cons c body ih =>
      intro hbody hn
      obtain ⟨hc, hbody⟩ := not_or.mp (mt List.mem_cons.mpr hbody)
      cases n with
      | zero => cases hn
      | succ n =>
        have hrest := ih n hbody (by simpa using hn)
        simp [lineLength, Ne.symm hc, hrest]
  have hline := hlen (size - 1) body hbody (by omega)
  have hne : body ++ '\n' :: rest ≠ [] := by simp
  have hsplit : body ++ '\n' :: rest = (body ++ ['\n']) ++ rest := by simp
  have hlength : body.length + 1 = (body ++ ['\n']).length := by simp
  rw [fgets, if_neg hne, hline, hsplit, hlength, List.take_left, List.drop_left]

/-- The front of a line is returned with as much as fits of what is behind it. -/
theorem fgets_front {size : Nat} {front : List Char} (hfront : '\n' ∉ front)
    (hfits : front.length < size) (hne : front ≠ []) (back : List Char) :
    ∃ cut rest, fgets size (front ++ back) = some (front ++ cut, rest) ∧ cut <+: back := by
  have hlen : ∀ (n : Nat) (front : List Char), '\n' ∉ front → front.length ≤ n →
      ∃ k, lineLength n (front ++ back) = front.length + k := by
    intro n front
    induction front generalizing n with
    | nil => exact fun _ _ => ⟨_, (Nat.zero_add _).symm⟩
    | cons c front ih =>
      intro hfront hn
      obtain ⟨hc, hfront⟩ := not_or.mp (mt List.mem_cons.mpr hfront)
      cases n with
      | zero => cases hn
      | succ n =>
        obtain ⟨k, hk⟩ := ih n hfront (Nat.le_of_succ_le_succ hn)
        refine ⟨k, ?_⟩
        rw [List.cons_append, lineLength, if_neg (Ne.symm hc), hk, List.length_cons]
        omega
  obtain ⟨k, hk⟩ := hlen (size - 1) front hfront (by omega)
  have hfile : front ++ back ≠ [] := List.append_ne_nil_of_left_ne_nil hne back
  refine ⟨back.take k, back.drop k, ?_, List.take_prefix _ _⟩
  rw [fgets, if_neg hfile, hk, List.take_length_add_append, List.drop_length_add_append]

/-- A file of lines that fit is returned line by line. -/
theorem fgetsAll_lines {size : Nat} {lines : List (List Char)}
    (hlines : ∀ line ∈ lines, ∃ body, line = body ++ ['\n'] ∧ '\n' ∉ body ∧ body.length + 1 < size)
    {calls : Nat} (hcalls : lines.length ≤ calls) :
    fgetsAll size calls lines.flatten = lines := by
  induction lines generalizing calls with
  | nil =>
    cases calls with
    | zero => rfl
    | succ calls => rfl
  | cons line lines ih =>
    obtain ⟨⟨body, rfl, hbody, hfits⟩, hrest⟩ := List.forall_mem_cons.mp hlines
    cases calls with
    | zero => cases hcalls
    | succ calls =>
      have hline := fgets_line hbody hfits lines.flatten
      rw [List.flatten_cons, List.append_assoc, List.singleton_append, fgetsAll, hline]
      exact congrArg _ (ih hrest (by simpa using hcalls))

end Gunwinder.Core
