import Gunwinder.Decoding.Bounds
import Gunwinder.Native.Cie

/-!
# The augmentation data of a CIE

The augmentation loop of `init_cie_from_buf` once more, as a program that fetches every byte it
looks at. The size of the data is never looked at, so the loop stays inside the data exactly when
the string asks for no more than there is.
-/

namespace Gunwinder

open Gunwinder.Core

/-- `get_encoding_size`. -/
def fetchEncodingSize (type : Byte) (testBuf : Nat) : Fetch Byte Nat :=
  if type = dwEhPeOmit then pure 0
  else
    match ptrFormat type with
    | some .uleb128 => do
      let (_, size) ← fetchUlebLoop testBuf 8 0 0 0#64
      pure size
    | some .sleb128 => do
      let (_, size) ← fetchSleb128 testBuf
      pure size
    | some .udata2 | some .sdata2 => pure 2
    | some .udata4 | some .sdata4 => pure 4
    | some .udata8 | some .sdata8 | some .absptr => pure 8
    | none => pure 0

/-- `get_encoding_size` for an `L`, which is not called when the data is sized. -/
def fetchLsdaSize (sized : Bool) (type : Byte) (testBuf : Nat) : Fetch Byte Nat :=
  if sized then pure 0 else fetchEncodingSize type testBuf

/-- The letters that the loop tells apart. -/
inductive AugmentationLetter where
  | z
  | signal
  | lsda
  | fde
  | personality
  | other

/-- The `switch` of the loop. -/
def augmentationLetter (c : Byte) : AugmentationLetter :=
  match c.toNat with
  | 0x7a => .z
  | 0x53 => .signal
  | 0x4c => .lsda
  | 0x52 => .fde
  | 0x50 => .personality
  | _ => .other

/-- The augmentation loop of `init_cie_from_buf`. -/
def fetchAugmentation : List Byte → Nat → Augmentation → Fetch Byte Augmentation
  | [], _, aug => pure aug
  | c :: rest, data, aug =>
    match augmentationLetter c with
    | .z => fetchAugmentation rest data { aug with sizedAugmentationData := true }
    | .signal => fetchAugmentation rest data { aug with signalFrame := true }
    | .lsda => do
      let lsdaEncoding ← fetch data
      let size ← fetchLsdaSize aug.sizedAugmentationData lsdaEncoding (data + 1)
      fetchAugmentation rest (data + 1) { aug with
        lsdaEncoding
        fdeAugmentationDataSize := aug.fdeAugmentationDataSize + size }
    | .fde => do
      let fdeEncoding ← fetch data
      fetchAugmentation rest (data + 1) { aug with fdeEncoding }
    | .personality => do
      let tmpEncoding ← fetch data
      let size ← fetchEncodingSize tmpEncoding (data + 1)
      fetchAugmentation rest (data + 1 + size) aug
    | .other => if aug.sizedAugmentationData then fetchAugmentation rest data aug else pure aug

/-- The loop of the model, letter by letter. -/
theorem readAugmentation_cons (mem : Mem) (c : Byte) (rest : List Byte) (data : Nat)
    (aug : Augmentation) :
    readAugmentation mem (c :: rest) data aug =
      match augmentationLetter c with
      | .z => readAugmentation mem rest data { aug with sizedAugmentationData := true }
      | .signal => readAugmentation mem rest data { aug with signalFrame := true }
      | .lsda => readAugmentation mem rest (data + 1) { aug with
          lsdaEncoding := mem data
          fdeAugmentationDataSize := aug.fdeAugmentationDataSize +
            if aug.sizedAugmentationData then 0 else getEncodingSize mem (mem data) (data + 1) }
      | .fde => readAugmentation mem rest (data + 1) { aug with fdeEncoding := mem data }
      | .personality =>
        readAugmentation mem rest (data + 1 + getEncodingSize mem (mem data) (data + 1)) aug
      | .other =>
        if aug.sizedAugmentationData then readAugmentation mem rest data aug else aug := by
  rw [readAugmentation, augmentationLetter]
  split <;> simp_all

/-! ## Where the last byte is -/

/-- The end of the bytes that are looked at for the size of an encoded pointer: those of a LEB128
number, and none otherwise. -/
def encodingEnd (mem : Mem) (type : Byte) (buf : Nat) : Nat :=
  if type = dwEhPeOmit then buf
  else
    match ptrFormat type with
    | some .uleb128 | some .sleb128 => buf + getEncodingSize mem type buf
    | _ => buf

/-- The end of the bytes that an `L` looks at. -/
def lsdaEnd (mem : Mem) (sized : Bool) (type : Byte) (buf : Nat) : Nat :=
  if sized then buf else encodingEnd mem type buf

/-- The end of the bytes that a string asks for, with `last` behind those already read. The
pointer of an `L` is looked at and not skipped. -/
def augmentationEnd (mem : Mem) : List Byte → Nat → Bool → Nat → Nat
  | [], _, _, last => last
  | c :: rest, data, sized, last =>
    match augmentationLetter c with
    | .z => augmentationEnd mem rest data true last
    | .signal => augmentationEnd mem rest data sized last
    | .lsda => augmentationEnd mem rest (data + 1) sized
        (max last (lsdaEnd mem sized (mem data) (data + 1)))
    | .fde => augmentationEnd mem rest (data + 1) sized (max last (data + 1))
    | .personality =>
      augmentationEnd mem rest (data + 1 + getEncodingSize mem (mem data) (data + 1)) sized
        (max last (encodingEnd mem (mem data) (data + 1)))
    | .other => if sized then augmentationEnd mem rest data sized last else last

/-- The sizes behind the letters of a sized string: an encoding byte, and the pointer of a
personality routine. -/
def lettersSize (mem : Mem) : List Byte → Nat → Nat
  | [], _ => 0
  | c :: rest, data =>
    match augmentationLetter c with
    | .lsda | .fde => 1 + lettersSize mem rest (data + 1)
    | .personality =>
      1 + getEncodingSize mem (mem data) (data + 1) +
        lettersSize mem rest (data + 1 + getEncodingSize mem (mem data) (data + 1))
    | _ => lettersSize mem rest data

section Bounds

variable {mem : Mem} {lo hi buf : Nat}

/-- A sequence is read inside the window when its last byte is. -/
theorem reads_fetchUlebLoop_iff (hlo : lo ≤ buf) (n count shift : Nat) (result : Word)
    (hhi : buf + count ≤ hi) {v : Word × Nat} :
    Reads mem lo hi (fetchUlebLoop buf n count shift result) v ↔
      buf + (decodeUlebLoop mem buf n count shift result).2 ≤ hi ∧
        v = decodeUlebLoop mem buf n count shift result := by
  induction n generalizing count shift result with
  | zero =>
    rw [fetchUlebLoop, reads_pure_iff, decodeUlebLoop]
    exact (and_iff_right hhi).symm
  | succ n ih =>
    rw [fetchUlebLoop, reads_fetch_bind_iff]
    simp only [decodeUlebLoop]
    split
    · rw [reads_pure_iff]
      refine and_congr_left fun _ => ?_
      dsimp only
      omega
    · have hgrows := decodeUlebLoop_count mem buf n (count + 1) (shift + 7)
        (result ||| shlInt (mem (buf + count)) shift)
      constructor
      · rintro ⟨⟨-, hlt⟩, hrest⟩
        exact (ih (count + 1) (shift + 7) _ (by omega)).mp hrest
      · intro h
        have hlt : buf + count < hi := by omega
        exact ⟨⟨by omega, hlt⟩, (ih (count + 1) (shift + 7) _ (by omega)).mpr h⟩

private theorem reads_fetchSlebLoop_iff (hlo : lo ≤ buf) (n count shift : Nat) (result : Word)
    (byte : Byte) (hhi : buf + count ≤ hi) {v : Word × Nat × Nat × Byte} :
    Reads mem lo hi (fetchSlebLoop buf n count shift result byte) v ↔
      buf + (decodeSlebLoop mem buf n count shift result byte).2.1 ≤ hi ∧
        v = decodeSlebLoop mem buf n count shift result byte := by
  induction n generalizing count shift result byte with
  | zero =>
    rw [fetchSlebLoop, reads_pure_iff, decodeSlebLoop]
    exact (and_iff_right hhi).symm
  | succ n ih =>
    rw [fetchSlebLoop, reads_fetch_bind_iff]
    simp only [decodeSlebLoop]
    split
    · rw [reads_pure_iff]
      refine and_congr_left fun _ => ?_
      dsimp only
      omega
    · have hgrows := decodeSlebLoop_count mem buf n (count + 1) (shift + 7)
        (result ||| ((mem (buf + count) &&& 0x7f#8).setWidth 64 <<< (shift % 64)))
        (mem (buf + count))
      constructor
      · rintro ⟨⟨-, hlt⟩, hrest⟩
        exact (ih (count + 1) (shift + 7) _ _ (by omega)).mp hrest
      · intro h
        have hlt : buf + count < hi := by omega
        exact ⟨⟨by omega, hlt⟩, (ih (count + 1) (shift + 7) _ _ (by omega)).mpr h⟩

private theorem reads_fetchSleb128_iff (hlo : lo ≤ buf) (hhi : buf ≤ hi) {v : Word × Nat} :
    Reads mem lo hi (fetchSleb128 buf) v ↔
      buf + (decodeSleb128 mem buf).2 ≤ hi ∧ v = decodeSleb128 mem buf := by
  have hvalue {c : Prop} [Decidable c] {a b : Word × Nat} :
      Reads mem lo hi (if c then pure a else pure b : Fetch Byte (Word × Nat)) v ↔
        v = if c then a else b := by
    split
    · exact reads_pure_iff
    · exact reads_pure_iff
  rw [fetchSleb128, reads_bind_iff, decodeSleb128_size, decodeSleb128]
  constructor
  · rintro ⟨r, hr, hv⟩
    obtain ⟨hfits, rfl⟩ := (reads_fetchSlebLoop_iff hlo 10 0 0 0#64 0#8 hhi).mp hr
    exact ⟨hfits, hvalue.mp hv⟩
  · rintro ⟨hfits, hv⟩
    exact ⟨_, (reads_fetchSlebLoop_iff hlo 10 0 0 0#64 0#8 hhi).mpr ⟨hfits, rfl⟩, hvalue.mpr hv⟩

private theorem le_encodingEnd (mem : Mem) (type : Byte) (buf : Nat) :
    buf ≤ encodingEnd mem type buf := by
  unfold encodingEnd
  split
  · exact Nat.le_refl buf
  split
  · exact Nat.le_add_right _ _
  · exact Nat.le_add_right _ _
  · exact Nat.le_refl buf

/-- The size of an encoded pointer is found inside the window when its bytes end there. -/
theorem reads_fetchEncodingSize_iff (hlo : lo ≤ buf) (hhi : buf ≤ hi) (type : Byte) {v : Nat} :
    Reads mem lo hi (fetchEncodingSize type buf) v ↔
      encodingEnd mem type buf ≤ hi ∧ v = getEncodingSize mem type buf := by
  unfold fetchEncodingSize encodingEnd getEncodingSize
  by_cases homit : type = dwEhPeOmit
  · simp [homit, hhi, reads_pure_iff]
  simp only [if_neg homit]
  cases ptrFormat type with
  | none => simp [hhi, reads_pure_iff]
  | some fmt =>
    cases fmt with
    | uleb128 =>
      simp only [reads_bind_iff, reads_pure_iff, reads_fetchUlebLoop_iff hlo 8 0 0 0#64 hhi]
      constructor
      · rintro ⟨r, ⟨hfits, rfl⟩, hv⟩
        exact ⟨hfits, hv⟩
      · rintro ⟨hfits, hv⟩
        exact ⟨_, ⟨hfits, rfl⟩, hv⟩
    | sleb128 =>
      simp only [reads_bind_iff, reads_pure_iff, reads_fetchSleb128_iff hlo hhi]
      constructor
      · rintro ⟨r, ⟨hfits, rfl⟩, hv⟩
        exact ⟨hfits, hv⟩
      · rintro ⟨hfits, hv⟩
        exact ⟨_, ⟨hfits, rfl⟩, hv⟩
    | _ => simp [hhi, reads_pure_iff]

private theorem le_lsdaEnd (mem : Mem) (sized : Bool) (type : Byte) (buf : Nat) :
    buf ≤ lsdaEnd mem sized type buf := by
  unfold lsdaEnd
  split
  · exact Nat.le_refl buf
  · exact le_encodingEnd mem type buf

private theorem reads_fetchLsdaSize_iff (hlo : lo ≤ buf) (hhi : buf ≤ hi) (sized : Bool)
    (type : Byte) {v : Nat} :
    Reads mem lo hi (fetchLsdaSize sized type buf) v ↔
      lsdaEnd mem sized type buf ≤ hi ∧
        v = if sized then 0 else getEncodingSize mem type buf := by
  unfold fetchLsdaSize lsdaEnd
  cases sized with
  | true => simp [hhi, reads_pure_iff]
  | false => simpa using reads_fetchEncodingSize_iff hlo hhi type

/-- Bytes that are read count to the end. -/
theorem le_augmentationEnd (mem : Mem) (string : List Byte) (data : Nat) (sized : Bool)
    (last : Nat) : last ≤ augmentationEnd mem string data sized last := by
  induction string generalizing data sized last with
  | nil => exact Nat.le_refl last
  | cons c rest ih =>
    unfold augmentationEnd
    cases augmentationLetter c with
    | z => exact ih data true last
    | signal => exact ih data sized last
    | lsda | fde | personality => exact (Nat.le_max_left _ _).trans (ih _ _ _)
    | other =>
      dsimp only
      split
      · exact ih data sized last
      · exact Nat.le_refl last

/-- The letters from a position on stay inside the window when their bytes end there. -/
theorem reads_fetchAugmentation_iff (string : List Byte) {data : Nat} (hlo : lo ≤ data)
    {last : Nat} (hlast : last ≤ hi) (aug : Augmentation) {v : Augmentation} :
    Reads mem lo hi (fetchAugmentation string data aug) v ↔
      augmentationEnd mem string data aug.sizedAugmentationData last ≤ hi ∧
        v = readAugmentation mem string data aug := by
  induction string generalizing data last aug with
  | nil =>
    rw [fetchAugmentation, reads_pure_iff, readAugmentation, augmentationEnd]
    exact (and_iff_right hlast).symm
  | cons c rest ih =>
    rw [readAugmentation_cons]
    unfold fetchAugmentation augmentationEnd
    cases augmentationLetter c with
    | z | signal => exact ih hlo hlast _
    | lsda =>
      have hpeek := le_lsdaEnd mem aug.sizedAugmentationData (mem data) (data + 1)
      have hend := le_augmentationEnd mem rest (data + 1) aug.sizedAugmentationData
        (max last (lsdaEnd mem aug.sizedAugmentationData (mem data) (data + 1)))
      dsimp only
      rw [reads_fetch_bind_iff, reads_bind_iff]
      constructor
      · rintro ⟨⟨-, hlt⟩, size, hsize, hrest⟩
        obtain ⟨hfits, rfl⟩ := (reads_fetchLsdaSize_iff (by omega) hlt _ _).mp hsize
        exact (ih (by omega) (Nat.max_le.mpr ⟨hlast, hfits⟩) _).mp hrest
      · rintro ⟨hfits, hv⟩
        have hsize : lsdaEnd mem aug.sizedAugmentationData (mem data) (data + 1) ≤ hi := by omega
        exact ⟨⟨hlo, by omega⟩, _,
          (reads_fetchLsdaSize_iff (by omega) (by omega) _ _).mpr ⟨hsize, rfl⟩,
          (ih (by omega) (Nat.max_le.mpr ⟨hlast, hsize⟩) _).mpr ⟨hfits, hv⟩⟩
    | fde =>
      have hend := le_augmentationEnd mem rest (data + 1) aug.sizedAugmentationData
        (max last (data + 1))
      dsimp only
      rw [reads_fetch_bind_iff]
      constructor
      · rintro ⟨⟨-, hlt⟩, hrest⟩
        exact (ih (by omega) (Nat.max_le.mpr ⟨hlast, hlt⟩) _).mp hrest
      · rintro ⟨hfits, hv⟩
        have hlt : data < hi := by omega
        exact ⟨⟨hlo, hlt⟩, (ih (by omega) (Nat.max_le.mpr ⟨hlast, hlt⟩) _).mpr ⟨hfits, hv⟩⟩
    | personality =>
      have hpeek := le_encodingEnd mem (mem data) (data + 1)
      have hend := le_augmentationEnd mem rest
        (data + 1 + getEncodingSize mem (mem data) (data + 1)) aug.sizedAugmentationData
        (max last (encodingEnd mem (mem data) (data + 1)))
      dsimp only
      rw [reads_fetch_bind_iff, reads_bind_iff]
      constructor
      · rintro ⟨⟨-, hlt⟩, size, hsize, hrest⟩
        obtain ⟨hfits, rfl⟩ := (reads_fetchEncodingSize_iff (by omega) hlt _).mp hsize
        exact (ih (by omega) (Nat.max_le.mpr ⟨hlast, hfits⟩) _).mp hrest
      · rintro ⟨hfits, hv⟩
        have hsize : encodingEnd mem (mem data) (data + 1) ≤ hi := by omega
        exact ⟨⟨hlo, by omega⟩, _,
          (reads_fetchEncodingSize_iff (by omega) (by omega) _).mpr ⟨hsize, rfl⟩,
          (ih (by omega) (Nat.max_le.mpr ⟨hlast, hsize⟩) _).mpr ⟨hfits, hv⟩⟩
    | other =>
      cases hsized : aug.sizedAugmentationData with
      | true => simpa [hsized] using ih hlo hlast aug
      | false => simp [reads_pure_iff, hlast]

/-- Only the size of a number is looked at. -/
theorem encodingEnd_le (mem : Mem) (type : Byte) (buf : Nat) :
    encodingEnd mem type buf ≤ buf + getEncodingSize mem type buf := by
  unfold encodingEnd
  split
  · exact Nat.le_add_right _ _
  · split <;> simp

/-- A sized string asks for no byte behind what its letters stand for. -/
theorem augmentationEnd_le (mem : Mem) (string : List Byte) (data last : Nat) :
    augmentationEnd mem string data true last ≤ max last (data + lettersSize mem string data) := by
  induction string generalizing data last with
  | nil => exact Nat.le_max_left _ _
  | cons c rest ih =>
    unfold augmentationEnd lettersSize
    cases augmentationLetter c with
    | z | signal | other => simpa using ih data last
    | lsda | fde =>
      have hrest := ih (data + 1) (max last (data + 1))
      simp only [lsdaEnd, if_true]
      omega
    | personality =>
      have hpeek := encodingEnd_le mem (mem data) (data + 1)
      have hrest := ih (data + 1 + getEncodingSize mem (mem data) (data + 1))
        (max last (encodingEnd mem (mem data) (data + 1)))
      dsimp only
      omega

/-- Without a personality routine every byte that the letters stand for is read. -/
theorem augmentationEnd_of_no_personality (mem : Mem) {string : List Byte}
    (hnone : ∀ c ∈ string, augmentationLetter c ≠ .personality) (data : Nat) {last : Nat}
    (hlast : data ≤ last) :
    data + lettersSize mem string data ≤ augmentationEnd mem string data true last := by
  induction string generalizing data last with
  | nil => exact hlast
  | cons c rest ih =>
    rw [List.forall_mem_cons] at hnone
    unfold augmentationEnd lettersSize
    cases hc : augmentationLetter c with
    | z | signal | other => simpa using ih hnone.2 data hlast
    | lsda | fde =>
      have hrest := ih hnone.2 (data + 1) (Nat.le_max_right last (data + 1))
      simp only [lsdaEnd, if_true]
      omega
    | personality => exact absurd hc hnone.1

end Bounds

/-- What `init_cie_from_buf` starts from. -/
def initAugmentation : Augmentation := ⟨0, false, false, dwEhPeAbsptr, dwEhPeOmit⟩

/-- The loop reads only bytes of the augmentation data, and gives there what the model gives. -/
def AugmentationInside (mem : Mem) (augmentation : List Byte) (augmentationData size : Nat) :
    Prop :=
  Reads mem augmentationData (augmentationData + size)
    (fetchAugmentation augmentation augmentationData initAugmentation)
    (readAugmentation mem augmentation augmentationData initAugmentation)

/-- The loop stays inside the augmentation data exactly when the string asks for no byte behind
it. For a string that starts with `z` this is so if the sizes of its letters add up to no more
than that of the data, and only then if there is no `P`. -/
theorem fetchAugmentation_inside_iff (mem : Mem) (augmentation : List Byte)
    (augmentationData size : Nat) :
    (AugmentationInside mem augmentation augmentationData size ↔
      augmentationEnd mem augmentation augmentationData false augmentationData ≤
        augmentationData + size) ∧
    ∀ rest, augmentation = 0x7a#8 :: rest →
      (lettersSize mem rest augmentationData ≤ size →
        AugmentationInside mem augmentation augmentationData size) ∧
      ((∀ c ∈ rest, augmentationLetter c ≠ .personality) →
        AugmentationInside mem augmentation augmentationData size →
        lettersSize mem rest augmentationData ≤ size) := by
  have hinside : AugmentationInside mem augmentation augmentationData size ↔
      augmentationEnd mem augmentation augmentationData false augmentationData ≤
        augmentationData + size :=
    (reads_fetchAugmentation_iff augmentation (Nat.le_refl _) (Nat.le_add_right _ _) _).trans
      (and_iff_left rfl)
  refine ⟨hinside, ?_⟩
  rintro rest rfl
  have hend : augmentationEnd mem (0x7a#8 :: rest) augmentationData false augmentationData =
      augmentationEnd mem rest augmentationData true augmentationData := rfl
  have hle := augmentationEnd_le mem rest augmentationData augmentationData
  rw [hinside, hend]
  refine ⟨fun hsize => by omega, fun hnone hfits => ?_⟩
  have hge := augmentationEnd_of_no_personality mem hnone augmentationData (Nat.le_refl _)
  omega

/-- `zR` without augmentation data: the FDE encoding is read from the byte behind the data. -/
theorem fetchAugmentation_leaves_data :
    (fetchAugmentation [0x7a, 0x52] 0x1000 initAugmentation).run
      (window (fun _ => 0#8) 0x1000 0x1000) = none := by
  decide +kernel

end Gunwinder
