import Gunwinder.Native.Maps

/-!
# Lines of `/proc/<pid>/maps`

The kernel prints the name at the end of the line as it is, with ` (deleted)` behind the name of an
unlinked file. `sscanf` ends the name at its first blank, and `strstr` finds the marker anywhere in
the line.
-/

namespace Gunwinder

open Gunwinder.Core

/-! ## The format -/

/-- A number as the kernel prints it. -/
structure HexNumber where
  digits : List Char
  nonempty : digits ≠ []
  hex : ∀ c ∈ digits, isHexDigit c = true
  fits : hexValue digits < 2 ^ 64

def HexNumber.value (n : HexNumber) : Word := BitVec.ofNat 64 (hexValue n.digits)

/-- A line of the kernel. -/
structure KernelLine where
  start : HexNumber
  fin : HexNumber
  readable : Bool
  writable : Bool
  executable : Bool
  shared : Bool
  offset : HexNumber
  dev : List Char
  devField : dev ≠ [] ∧ ∀ c ∈ dev, isHexDigit c = true ∨ c = ':'
  inode : List Char
  inodeField : inode ≠ [] ∧ ∀ c ∈ inode, isHexDigit c = true
  /-- Blanks in front of the name beyond the first one. -/
  padding : Nat
  /-- The pathname with its marker; empty for an anonymous mapping. -/
  name : List Char
  nameStarts : ∀ c, name.head? = some c → isSpace c = false
  oneLine : '\n' ∉ name

namespace KernelLine

variable (k : KernelLine)

def perm : List Char :=
  [if k.readable then 'r' else '-', if k.writable then 'w' else '-',
    if k.executable then 'x' else '-', if k.shared then 's' else 'p']

/-- What stands between the file offset and the name. -/
def middle : List Char :=
  ' ' :: (k.dev ++ ' ' :: (k.inode ++ List.replicate k.padding ' '))

/-- The line in front of the last blank before the name. -/
def header : List Char :=
  k.start.digits ++ '-' :: (k.fin.digits ++ ' ' :: (k.perm ++ ' ' :: (k.offset.digits ++ k.middle)))

/-- The line without its newline. -/
def body : List Char := k.header ++ ' ' :: k.name

def text : List Char := k.body ++ ['\n']

/-- The marker is the suffix of the line. -/
def deleted : Bool := decide (deletedMarker <:+ k.body)

/-- The pathname without the marker. -/
def path : List Char :=
  if k.deleted then k.name.take (k.name.length - deletedMarker.length) else k.name

/-- What a reader of the format takes from the line. -/
def spec : MapsLine where
  start := k.start.value
  fin := k.fin.value
  perm := k.perm
  offset := k.offset.value
  path := k.path
  deleted := k.deleted

/-- What `sscanf` and `strstr` take from the line. -/
def scanned : MapsLine where
  start := k.start.value
  fin := k.fin.value
  perm := k.perm
  offset := k.offset.value
  path := k.name.takeWhile fun c => !isSpace c
  deleted := decide (deletedMarker <:+: k.text)

/-! ## Scanning -/

private theorem dev_plain : ∀ c ∈ k.dev, isSpace c = false := by
  intro c hc
  rcases k.devField.2 c hc with h | rfl
  · exact (isHexDigit_plain h).1
  · rfl

private theorem perm_plain : ∀ c ∈ k.perm, isSpace c = false := by
  simp only [perm, List.forall_mem_cons]
  refine ⟨?_, ?_, ?_, ?_, nofun⟩ <;> split <;> rfl

private theorem atBreak_cons {c : Char} (h : isSpace c = true) (s : List Char) :
    AtBreak (c :: s) := by
  rintro _ ⟨⟩
  exact h

/-- A name starts with a word. -/
theorem firstWord_ne_nil (hname : k.name ≠ []) :
    k.name.takeWhile (fun c => !isSpace c) ≠ [] := by
  intro h
  cases heq : k.name with
  | nil => exact hname heq
  | cons c name =>
    have hc := k.nameStarts c (by rw [heq]; rfl)
    simp [heq, hc] at h

/-- The last field is the first word of the name. -/
theorem scanWord_name {width : Nat} (hwidth : k.name.length ≤ width) :
    ((scanWord width (skipSpace (k.name ++ ['\n']))).map Prod.fst).getD [] =
      k.name.takeWhile fun c => !isSpace c := by
  by_cases hnil : k.name = []
  · have hskip : skipSpace (k.name ++ ['\n']) = [] := by
      rw [hnil]
      rfl
    rw [hskip, scanWord_of_space (fun c hc => absurd hc List.not_mem_nil), hnil]
    rfl
  · have hsplit : k.name = k.name.takeWhile (fun c => !isSpace c) ++
        k.name.dropWhile fun c => !isSpace c := List.takeWhile_append_dropWhile.symm
    have hword : ∀ c ∈ k.name.takeWhile (fun c => !isSpace c), isSpace c = false := by
      intro c hc
      simpa using List.mem_takeWhile_imp hc
    have hne := k.firstWord_ne_nil hnil
    have hbreak : AtBreak (k.name.dropWhile (fun c => !isSpace c) ++ ['\n']) := by
      cases hrest : k.name.dropWhile (fun c => !isSpace c) with
      | nil => exact atBreak_cons rfl []
      | cons c rest =>
        have hc := List.head?_dropWhile_not (fun c => !isSpace c) k.name
        rw [hrest] at hc
        exact atBreak_cons (by simpa using hc) _
    have hwhole : k.name ++ ['\n'] = k.name.takeWhile (fun c => !isSpace c) ++
        (k.name.dropWhile (fun c => !isSpace c) ++ ['\n']) := by rw [← List.append_assoc, ← hsplit]
    rw [hwhole, skipSpace_word hne hword,
      scanWord_append _ hne hword ((List.takeWhile_prefix _).length_le.trans hwidth) hbreak]
    rfl

private theorem scanMapsPath_eq (h : k.name.length ≤ maxMapsPath - 1) :
    scanMapsPath (k.middle ++ ' ' :: (k.name ++ ['\n'])) =
      k.name.takeWhile fun c => !isSpace c := by
  have hdev : skipWord (skipSpace (k.middle ++ ' ' :: (k.name ++ ['\n']))) =
      some (' ' :: (k.inode ++ List.replicate k.padding ' ') ++ ' ' :: (k.name ++ ['\n'])) := by
    have hword := skipWord_append k.devField.1 k.dev_plain
      (atBreak_cons (c := ' ') rfl ((k.inode ++ List.replicate k.padding ' ') ++
        ' ' :: (k.name ++ ['\n'])))
    rw [middle, List.cons_append, skipSpace_cons rfl, List.append_assoc, List.cons_append,
      skipSpace_word k.devField.1 k.dev_plain, hword]
  have hinode : skipWord (skipSpace (' ' :: (k.inode ++ List.replicate k.padding ' ') ++
      ' ' :: (k.name ++ ['\n']))) =
      some (List.replicate k.padding ' ' ++ ' ' :: (k.name ++ ['\n'])) := by
    have hplain : ∀ c ∈ k.inode, isSpace c = false :=
      fun c hc => (isHexDigit_plain (k.inodeField.2 c hc)).1
    have hbreak : AtBreak (List.replicate k.padding ' ' ++ ' ' :: (k.name ++ ['\n'])) := by
      cases k.padding with
      | zero | succ n => exact atBreak_cons rfl _
    rw [List.cons_append, skipSpace_cons rfl, List.append_assoc,
      skipSpace_word k.inodeField.1 hplain, skipWord_append k.inodeField.1 hplain hbreak]
  have hskip : skipSpace (List.replicate k.padding ' ' ++ ' ' :: (k.name ++ ['\n'])) =
      skipSpace (k.name ++ ['\n']) := by rw [skipSpace_replicate, skipSpace_cons rfl]
  rw [← k.scanWord_name h]
  simp only [scanMapsPath, hdev, hinode, hskip, Option.bind_eq_bind, Option.bind_some]
  cases scanWord (maxMapsPath - 1) (skipSpace (k.name ++ ['\n'])) <;> rfl

/-- The directives split a line of the kernel at its fields. -/
theorem scanMapsLine_text (h : k.text.length < maxMapsPath - 1) :
    scanMapsLine k.text = some k.scanned := by
  have hname : k.name.length ≤ maxMapsPath - 1 := by
    simp only [text, body, List.length_append, List.length_cons] at h
    omega
  have hstart := scanHex_append (c := '-') k.start.nonempty k.start.hex k.start.fits (by decide)
    (by decide) (k.fin.digits ++ ' ' :: (k.perm ++ ' ' :: (k.offset.digits ++
      (k.middle ++ ' ' :: (k.name ++ ['\n'])))))
  have hfin := scanHex_append (c := ' ') k.fin.nonempty k.fin.hex k.fin.fits (by decide)
    (by decide) (k.perm ++ ' ' :: (k.offset.digits ++ (k.middle ++ ' ' :: (k.name ++ ['\n']))))
  have hperm := scanWord_append 4 (by simp [perm]) k.perm_plain (by simp [perm])
    (atBreak_cons (c := ' ') rfl (k.offset.digits ++ (k.middle ++ ' ' :: (k.name ++ ['\n']))))
  have hmiddle : k.middle ++ ' ' :: (k.name ++ ['\n']) = ' ' :: (k.dev ++ ' ' :: (k.inode ++
      List.replicate k.padding ' ') ++ ' ' :: (k.name ++ ['\n'])) := rfl
  have hoffset := scanHex_append (c := ' ') k.offset.nonempty k.offset.hex k.offset.fits (by decide)
    (by decide) (k.dev ++ ' ' :: (k.inode ++ List.replicate k.padding ' ') ++
      ' ' :: (k.name ++ ['\n']))
  rw [← hmiddle] at hoffset
  have hpath := k.scanMapsPath_eq hname
  have htext : k.text = k.start.digits ++ '-' :: (k.fin.digits ++ ' ' :: (k.perm ++ ' ' ::
      (k.offset.digits ++ (k.middle ++ ' ' :: (k.name ++ ['\n']))))) := by simp [text, body, header]
  have hperms : skipSpace (' ' :: (k.perm ++ ' ' :: (k.offset.digits ++
      (k.middle ++ ' ' :: (k.name ++ ['\n']))))) =
      k.perm ++ ' ' :: (k.offset.digits ++ (k.middle ++ ' ' :: (k.name ++ ['\n']))) := by
    rw [skipSpace_cons rfl, skipSpace_word (by simp [perm]) k.perm_plain]
  have hoffsets : skipSpace (' ' :: (k.offset.digits ++ (k.middle ++ ' ' :: (k.name ++ ['\n'])))) =
      k.offset.digits ++ (k.middle ++ ' ' :: (k.name ++ ['\n'])) := by
    rw [skipSpace_cons rfl, skipSpace_word k.offset.nonempty
      fun c hc => (isHexDigit_plain (k.offset.hex c hc)).1]
  rw [← htext] at hstart
  simp only [scanMapsLine, hstart, scanChar, if_true, hfin, hperms, hperm, hoffsets, hoffset, hpath,
    Option.bind_eq_bind, Option.bind_some]
  rfl

/-! ## The marker -/

/-- The characters in front of the name. -/
theorem header_chars : ∀ c ∈ k.header,
    isHexDigit c = true ∨ c ∈ ['-', ':', ' ', 'r', 'w', 'x', 's', 'p'] := by
  have hperm : ∀ c ∈ k.perm, c ∈ ['-', ':', ' ', 'r', 'w', 'x', 's', 'p'] := by
    simp only [perm, List.forall_mem_cons]
    refine ⟨?_, ?_, ?_, ?_, nofun⟩ <;> split <;> decide
  intro c hc
  simp only [header, middle, List.mem_append, List.mem_cons, List.mem_replicate] at hc
  rcases hc with h | rfl | h | rfl | h | rfl | h | rfl | h | rfl | h | ⟨-, rfl⟩
  · exact .inl (k.start.hex c h)
  · exact .inr (by decide)
  · exact .inl (k.fin.hex c h)
  · exact .inr (by decide)
  · exact .inr (hperm c h)
  · exact .inr (by decide)
  · exact .inl (k.offset.hex c h)
  · exact .inr (by decide)
  · rcases k.devField.2 c h with hhex | rfl
    · exact .inl hhex
    · exact .inr (by decide)
  · exact .inr (by decide)
  · exact .inl (k.inodeField.2 c h)
  · exact .inr (by decide)

private theorem header_no_paren : '(' ∉ k.header := fun h =>
  absurd (k.header_chars '(' h) (by decide)

/-- A marker at the end of the line starts at the blank before the name or behind it. -/
theorem marker_suffix_body_iff : deletedMarker <:+ k.body ↔ deletedMarker <:+ ' ' :: k.name := by
  have hname : ' ' :: k.name <:+ k.body := List.suffix_append _ _
  constructor
  · intro h
    rcases Nat.le_total deletedMarker.length (' ' :: k.name).length with hle | hle
    · exact List.suffix_of_suffix_length_le h hname hle
    -- the only blank of the marker is its first character
    obtain ⟨front, hfront⟩ := List.suffix_of_suffix_length_le hname h hle
    cases front with
    | nil => exact ⟨[], hfront.symm⟩
    | cons c front =>
      have htail : front ++ ' ' :: k.name = deletedWord := (List.cons.inj hfront).2
      have hmem : ' ' ∈ deletedWord := htail ▸ by simp
      exact absurd hmem (by decide)
  · exact fun h => h.trans hname

/-- A marker in a line whose name has no blank starts at the blank before the name. -/
theorem marker_infix_text (hplain : ∀ c ∈ k.name, isSpace c = false)
    (h : deletedMarker <:+: k.text) : deletedWord <+: k.name := by
  obtain ⟨front, back, heq⟩ := h
  have hblank : ' ' ∉ k.name ++ ['\n'] := by
    intro hmem
    rcases List.mem_append.mp hmem with hmem | hmem
    · exact absurd (hplain ' ' hmem) (by decide)
    · exact absurd hmem (by decide)
  have hparen : '(' ∉ k.header ++ [' '] := by
    intro hmem
    rcases List.mem_append.mp hmem with hmem | hmem
    · exact k.header_no_paren hmem
    · exact absurd hmem (by decide)
  have hsplit : front ++ ' ' :: (deletedWord ++ back) =
      (k.header ++ [' ']) ++ (k.name ++ ['\n']) := by
    rw [text, body, List.append_assoc] at heq
    simpa [deletedMarker] using heq
  have hstarts : deletedWord <+: k.name ++ ['\n'] := by
    rcases List.append_eq_append_iff.mp hsplit with ⟨rest, hheader, hmarker⟩ | ⟨rest, -, hname⟩
    · cases rest with
      | nil =>
        refine absurd ?_ hblank
        rw [List.nil_append] at hmarker
        rw [← hmarker]
        exact List.mem_cons_self
      | cons c rest =>
        have hword : deletedWord ++ back = rest ++ (k.name ++ ['\n']) := (List.cons.inj hmarker).2
        cases rest with
        | nil => exact ⟨back, hword⟩
        | cons d rest =>
          have hd : '(' = d := (List.cons.inj hword).1
          refine absurd ?_ hparen
          rw [hheader, hd]
          simp
    · refine absurd ?_ hblank
      rw [hname]
      simp
  rcases List.prefix_concat_iff.mp hstarts with hwhole | hstarts
  · have hmem : '\n' ∈ deletedWord := hwhole ▸ by simp
    exact absurd hmem (by decide)
  · exact hstarts

/-! ## What is recorded -/

/-- The pathname has no white space, and the marker stands only behind a pathname. -/
structure Plain : Prop where
  word : ∀ c ∈ k.path, isSpace c = false
  behind : k.deleted = true → k.path ≠ []
  nowhere : k.deleted = false → ¬deletedWord <+: k.name

private theorem takeWhile_of_plain {word rest : List Char} (hword : ∀ c ∈ word, isSpace c = false) :
    (word ++ ' ' :: rest).takeWhile (fun c => !isSpace c) = word := by
  rw [List.takeWhile_append_of_pos (by simpa using hword)]
  simp [isSpace]

/-- A marker behind a pathname is the end of the name. -/
theorem name_of_deleted (hdel : k.deleted = true) (hne : k.path ≠ []) :
    k.name = k.path ++ deletedMarker := by
  have hsuffix := k.marker_suffix_body_iff.mp (of_decide_eq_true hdel)
  have hpath : k.path = k.name.take (k.name.length - deletedMarker.length) := by
    rw [path, hdel, if_pos rfl]
  have hlong : deletedMarker.length ≤ k.name.length := by
    by_contra hshort
    rw [hpath, Nat.sub_eq_zero_of_le (by omega), List.take_zero] at hne
    exact hne rfl
  obtain ⟨front, hfront⟩ : deletedMarker <:+ k.name :=
    List.suffix_of_suffix_length_le hsuffix (List.suffix_cons _ _) hlong
  rw [hpath, ← hfront]
  simp

/-- A line that is taken as it says has a plain name. -/
theorem plain_of_scanned (hpath : k.name.takeWhile (fun c => !isSpace c) = k.path)
    (hdeleted : decide (deletedMarker <:+: k.text) = k.deleted) : k.Plain := by
  refine ⟨fun c hc => ?_, fun hdel hnil => ?_, fun hdel hstarts => ?_⟩
  · rw [← hpath] at hc
    simpa using List.mem_takeWhile_imp hc
  · -- a name starts with a character that is no blank, so there is none
    have hname : k.name = [] := by
      by_contra hne
      exact k.firstWord_ne_nil hne (hpath.trans hnil)
    have hsuffix := k.marker_suffix_body_iff.mp (of_decide_eq_true hdel)
    rw [hname] at hsuffix
    exact absurd hsuffix.length_le (by decide)
  · rw [hdel, decide_eq_false_iff_not] at hdeleted
    obtain ⟨back, hback⟩ := hstarts
    refine hdeleted ⟨k.header, back ++ ['\n'], ?_⟩
    rw [text, body, ← hback]
    simp [deletedMarker]

/-- What is taken from a line is what it says exactly for plain names. -/
theorem scanned_eq_spec_iff : k.scanned = k.spec ↔ k.Plain := by
  have hfields : k.scanned = k.spec ↔ k.name.takeWhile (fun c => !isSpace c) = k.path ∧
      decide (deletedMarker <:+: k.text) = k.deleted := by simp [scanned, spec]
  rw [hfields]
  refine ⟨fun h => k.plain_of_scanned h.1 h.2, fun h => ?_⟩
  cases hdel : k.deleted with
  | true =>
    have hname := k.name_of_deleted hdel (h.behind hdel)
    refine ⟨?_, decide_eq_true ⟨k.header ++ ' ' :: k.path, ['\n'], ?_⟩⟩
    · rw [hname]
      exact takeWhile_of_plain h.word
    · rw [text, body, hname]
      simp
  | false =>
    have hpath : k.path = k.name := by
      rw [path, hdel]
      rfl
    have hword : ∀ c ∈ k.name, isSpace c = false := hpath ▸ h.word
    refine ⟨?_, decide_eq_false fun hmarker => ?_⟩
    · rw [hpath]
      exact List.takeWhile_eq_self_iff.mpr (by simpa using hword)
    · exact h.nowhere hdel (k.marker_infix_text hword hmarker)

/-- An entry keeps what the two readings may differ in. -/
theorem entry_eq_iff : k.scanned.entry = k.spec.entry ↔ k.scanned = k.spec := by
  simp only [MapsLine.entry, MapsLine.permission, MapsLine.permAt, scanned, spec,
    MapsEntry.mk.injEq, MapsLine.mk.injEq, true_and]

private theorem scanned_passes : k.scanned.passes permissionX = k.executable := by
  have hx : k.scanned.permAt 2 = if k.executable then 'x' else '-' := rfl
  have hr : (if k.scanned.permAt 0 = 'r' then permissionR else 0) &&& permissionX = 0 := by
    split <;> rfl
  have hw : (if k.scanned.permAt 1 = 'w' then permissionW else 0) &&& permissionX = 0 := by
    split <;> rfl
  rw [MapsLine.passes, hr, hw, hx]
  cases k.executable <;> rfl

end KernelLine

/-! ## Files -/

open KernelLine

private theorem KernelLine.body_no_newline (k : KernelLine) : '\n' ∉ k.body := by
  intro h
  rcases List.mem_append.mp h with hheader | hname
  · exact absurd (k.header_chars '\n' hheader) (by decide)
  · exact k.oneLine ((List.mem_cons.mp hname).resolve_left (by decide))

/-- The lines of a file are split one by one. -/
theorem scanMaps_kernelLines {ks : List KernelLine}
    (hshort : ∀ k ∈ ks, k.text.length < maxMapsPath - 1) :
    scanMaps (ks.map text).flatten = ks.map scanned := by
  have hlines : ∀ line ∈ ks.map text, ∃ body, line = body ++ ['\n'] ∧ '\n' ∉ body ∧
      body.length + 1 < maxMapsPath := by
    intro line hline
    obtain ⟨k, hk, rfl⟩ := List.mem_map.mp hline
    refine ⟨k.body, rfl, k.body_no_newline, ?_⟩
    have hlen := hshort k hk
    rw [text, List.length_append, List.length_singleton] at hlen
    omega
  have hcalls : (ks.map text).length ≤ (ks.map text).flatten.length := by
    clear hshort hlines
    induction ks with
    | nil => exact Nat.le_refl 0
    | cons k ks ih =>
      have hpos : 0 < k.text.length := by simp [text]
      rw [List.map_cons, List.length_cons, List.flatten_cons, List.length_append]
      omega
  have hscan : ∀ k ∈ ks, (scanMapsLine ∘ text) k = (some ∘ scanned) k :=
    fun k hk => k.scanMapsLine_text (hshort k hk)
  rw [scanMaps, fgetsAll_lines hlines hcalls, List.filterMap_map, List.filterMap_congr hscan,
    List.filterMap_eq_map]

/-- For the executable mappings of a file, what is taken from the lines is what they say, and a
line by itself is recorded as it says, exactly when their names are plain. -/
theorem guGetMapsInfo_faithful_iff (ks : List KernelLine)
    (hshort : ∀ k ∈ ks, k.text.length < maxMapsPath - 1) :
    ((scanMaps (ks.map text).flatten).filter (·.passes permissionX) =
        (ks.filter (·.executable)).map spec ↔
      ∀ k ∈ ks, k.executable = true → k.Plain) ∧
    ∀ k ∈ ks, k.executable = true →
      (guGetMapsInfo permissionX k.text = [k.spec.entry] ↔ k.Plain) := by
  constructor
  · have hfilter : (ks.map scanned).filter (·.passes permissionX) =
        (ks.filter (·.executable)).map scanned := by
      rw [List.filter_map]
      simp only [Function.comp_def, scanned_passes]
    rw [scanMaps_kernelLines hshort, hfilter, List.map_inj_left]
    simp only [scanned_eq_spec_iff, List.mem_filter, and_imp]
  · intro k hk hexec
    have hlines : scanMaps ([k].map text).flatten = [k].map scanned :=
      scanMaps_kernelLines (by simpa using hshort k hk)
    have hrecord : guGetMapsInfo permissionX k.text = [k.scanned.entry] := by
      simp only [List.map_cons, List.map_nil, List.flatten_cons, List.flatten_nil,
        List.append_nil] at hlines
      simp [guGetMapsInfo, hlines, mergeMapsLines, addMapsLine, scanned_passes, hexec]
    rw [hrecord, List.singleton_inj, entry_eq_iff, scanned_eq_spec_iff]

/-- The line of an executable mapping of a file with the given name. -/
def namedLine (name : List Char) (hstarts : ∀ c, name.head? = some c → isSpace c = false)
    (honeLine : '\n' ∉ name) : KernelLine where
  start := ⟨"00400000".toList, by decide, List.all_eq_true.mp (by decide), by decide⟩
  fin := ⟨"00452000".toList, by decide, List.all_eq_true.mp (by decide), by decide⟩
  readable := true
  writable := false
  executable := true
  shared := false
  offset := ⟨"00001000".toList, by decide, List.all_eq_true.mp (by decide), by decide⟩
  dev := "08:02".toList
  devField := ⟨by decide, fun c hc => by
    have hall : "08:02".toList.all (fun c => isHexDigit c || c == ':') = true := by decide
    simpa using List.all_eq_true.mp hall c hc⟩
  inode := "173521".toList
  inodeField := ⟨by decide, List.all_eq_true.mp (by decide)⟩
  padding := 0
  name := name
  nameStarts := hstarts
  oneLine := honeLine

/-- A path starts with a slash. -/
theorem isSpace_of_slash {path : List Char} :
    ∀ c, ('/' :: path).head? = some c → isSpace c = false := by
  rintro c ⟨⟩
  decide

/-- An unlinked file with a plain name. -/
theorem guGetMapsInfo_faithful_deleted :
    guGetMapsInfo permissionX
        (namedLine "/bin/a (deleted)".toList isSpace_of_slash (by decide)).text =
      [⟨"/bin/a".toList, 0x400000#64, 0x452000#64, 0x1000#64, 127, true⟩] := by
  have hlen : (namedLine "/bin/a (deleted)".toList isSpace_of_slash (by decide)).text.length <
      maxMapsPath - 1 := by decide +kernel
  have h := (guGetMapsInfo_faithful_iff
    [namedLine "/bin/a (deleted)".toList isSpace_of_slash (by decide)]
    (by simpa using hlen)).2 _ List.mem_cons_self rfl
  have hpath : (namedLine "/bin/a (deleted)".toList isSpace_of_slash (by decide)).path =
      "/bin/a".toList := by decide +kernel
  refine (h.mpr ⟨fun c hc => ?_, ?_, ?_⟩).trans ?_
  · rw [hpath] at hc
    have hall : "/bin/a".toList.all (fun c => !isSpace c) = true := by decide
    simpa using List.all_eq_true.mp hall c hc
  all_goals decide +kernel

/-- A file that is named `/bin/my app`. -/
theorem guGetMapsInfo_cuts_name :
    guGetMapsInfo permissionX
        (namedLine "/bin/my app".toList isSpace_of_slash (by decide)).text =
      [⟨"/bin/my".toList, 0x400000#64, 0x452000#64, 0x1000#64, 127, false⟩] ∧
    (namedLine "/bin/my app".toList isSpace_of_slash (by decide)).path =
      "/bin/my app".toList := by
  decide +kernel

end Gunwinder
