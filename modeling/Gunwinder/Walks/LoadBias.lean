import Gunwinder.Native.Segments

/-!
# Load bias of a mapping

A mapping is resolved by its file offset: the first segment whose window in the file holds it
gives its address. Windows are widened to the alignment of their segments, and one that is wide
enough also holds the mapping of another segment, which then gets the wrong address.
-/

namespace Gunwinder

variable {P : Type}

/-! ## Segments and their mappings -/

/-- A segment as linkers lay it out for a page size. -/
structure ProgramHeader.Aligned (page : Word) (phdr : ProgramHeader) : Prop where
  power : ∃ k, phdr.pAlign.toNat = 2 ^ k
  page_dvd : page.toNat ∣ phdr.pAlign.toNat
  congruent : phdr.pVaddr.toNat % phdr.pAlign.toNat = phdr.pOffset.toNat % phdr.pAlign.toNat

/-- A mapping the kernel makes of a segment under a load bias. -/
structure KernelMapping (page bias : Word) (phdr : ProgramHeader) (map : MapsInfo) : Prop where
  page_dvd : page.toNat ∣ bias.toNat
  start : map.start = bias + alignDown phdr.pVaddr page
  offset : map.offset = alignDown phdr.pOffset page
  nonempty : map.start < map.fin
  within : map.fin - map.start ≤
    alignUp (phdr.pVaddr + phdr.pMemsz) page - alignDown phdr.pVaddr page

/-- The distance from file offsets to addresses. -/
def ProgramHeader.displacement (phdr : ProgramHeader) : Word := phdr.pVaddr - phdr.pOffset

/-- The window of the segment holds the mapping. -/
def ProgramHeader.resolves (map : MapsInfo) (phdr : ProgramHeader) : Bool :=
  (guElfExecRangesFindByOffset phdr.execRange.toList map.offset (map.fin - map.start)).isSome

/-- Rounding an address and an offset down by congruent amounts keeps their distance. -/
theorem alignDown_add_sub {v o align : Word} (h : v.toNat % align.toNat = o.toNat % align.toNat)
    (offset : Word) : alignDown v align + (offset - alignDown o align) = v - o + offset := by
  have hmod : v % align = o % align := by
    apply BitVec.eq_of_toNat_eq
    rw [BitVec.toNat_umod, BitVec.toNat_umod, h]
  unfold alignDown
  split
  · bv_omega
  · rw [hmod]
    generalize o % align = rem
    bv_omega

variable {page : Word}

/-- The page of a segment's start, from the page of its offset. -/
theorem ProgramHeader.Aligned.alignDown_pVaddr {phdr : ProgramHeader} (h : phdr.Aligned page) :
    alignDown phdr.pVaddr page = phdr.displacement + alignDown phdr.pOffset page := by
  have hmod : phdr.pVaddr.toNat % page.toNat = phdr.pOffset.toNat % page.toNat := by
    rw [← Nat.mod_mod_of_dvd _ h.page_dvd, h.congruent, Nat.mod_mod_of_dvd _ h.page_dvd]
  have heq := alignDown_add_sub hmod (alignDown phdr.pOffset page)
  rw [BitVec.sub_self, BitVec.add_zero] at heq
  exact heq

/-! ## The first window -/

/-- A segment gives a mapping in its window the address at its own distance. -/
theorem ProgramHeader.Aligned.find {phdr : ProgramHeader} (h : phdr.Aligned page)
    {range : ExecRange} (hrange : phdr.execRange = some range) {offset size addr : Word}
    (hfind : range.find offset size = some addr) : addr = phdr.displacement + offset := by
  unfold ProgramHeader.execRange at hrange
  split at hrange
  · cases hrange
  dsimp only at hrange
  split at hrange
  · cases hrange
  cases hrange
  unfold ExecRange.find at hfind
  split at hfind
  · cases hfind
  dsimp only at hfind
  split at hfind
  · cases hfind
  split at hfind
  · cases hfind
    exact alignDown_add_sub h.congruent offset
  · cases hfind

private theorem guElfExecRangesFindByOffset_cons (range : ExecRange) (ranges : List ExecRange)
    (offset size : Word) :
    guElfExecRangesFindByOffset (range :: ranges) offset size =
      (guElfExecRangesFindByOffset [range] offset size).or
        (guElfExecRangesFindByOffset ranges offset size) := by
  unfold guElfExecRangesFindByOffset
  split
  · rfl
  · split
    · rfl
    · cases hfind : range.find offset size <;> simp [hfind]

private theorem find_of_findByOffset {range : ExecRange} {offset size addr : Word}
    (h : guElfExecRangesFindByOffset [range] offset size = some addr) :
    range.find offset size = some addr := by
  unfold guElfExecRangesFindByOffset at h
  split at h
  · cases h
  split at h
  · cases h
  · cases hfind : range.find offset size with
    | none => simp [hfind] at h
    | some found => simpa [hfind] using h

/-- A mapping gets its address from the first segment whose window holds it. -/
theorem findByOffset_eq {phdrs : List ProgramHeader} (haligned : ∀ phdr ∈ phdrs, phdr.Aligned page)
    (map : MapsInfo) :
    guElfExecRangesFindByOffset (phdrs.filterMap ProgramHeader.execRange) map.offset
        (map.fin - map.start) =
      (phdrs.find? (ProgramHeader.resolves map)).map (·.displacement + map.offset) := by
  induction phdrs with
  | nil => simp [guElfExecRangesFindByOffset]
  | cons phdr rest ih =>
    have ih := ih fun p hp => haligned p (List.mem_cons_of_mem phdr hp)
    rw [List.find?_cons]
    cases hrange : phdr.execRange with
    | none =>
      have hno : phdr.resolves map = false := by
        simp [ProgramHeader.resolves, hrange, guElfExecRangesFindByOffset]
      rw [List.filterMap_cons_none hrange, hno]
      exact ih
    | some range =>
      rw [List.filterMap_cons_some hrange, guElfExecRangesFindByOffset_cons, ih]
      cases hfind : guElfExecRangesFindByOffset [range] map.offset (map.fin - map.start) with
      | none =>
        have hno : phdr.resolves map = false := by simp [ProgramHeader.resolves, hrange, hfind]
        rw [hno, Option.none_or]
      | some addr =>
        have hyes : phdr.resolves map = true := by simp [ProgramHeader.resolves, hrange, hfind]
        have haddr := (haligned phdr List.mem_cons_self).find hrange (find_of_findByOffset hfind)
        rw [hyes, haddr]
        rfl

/-! ## The bias -/

/-- The address of a mapping, where the first window or the first executable range puts it. -/
theorem mapExecVirtAddr_eq {phdrs : List ProgramHeader}
    (haligned : ∀ phdr ∈ phdrs, phdr.Aligned page) {elfCtx : PerElfCtx P}
    (hload : (elfCtx.execRanges, elfCtx.execVirtAddr) = loadExecRanges (phdrs.map some))
    {map : MapsInfo} (hmap : map.start < map.fin) :
    (guElfMapCtx elfCtx (guResolveMapExecVirtAddr elfCtx map)).mapExecVirtAddr =
      match phdrs.find? (ProgramHeader.resolves map) with
      | some found =>
        if found.displacement + map.offset = 0#64 then elfCtx.execVirtAddr
        else found.displacement + map.offset
      | none => elfCtx.execVirtAddr := by
  rw [loadExecRanges_map_some] at hload
  obtain ⟨hranges, -⟩ := Prod.mk.inj hload
  have hresolve : guResolveMapExecVirtAddr elfCtx map =
      ((phdrs.find? (ProgramHeader.resolves map)).map (·.displacement + map.offset)).getD 0#64 := by
    unfold guResolveMapExecVirtAddr
    rw [if_neg (BitVec.not_le.mpr hmap), hranges, findByOffset_eq haligned]
  rw [guElfMapCtx, hresolve]
  cases phdrs.find? (ProgramHeader.resolves map) <;> rfl

/-- The bias of a mapping is right exactly when the first window that holds it belongs to a segment
with the same distance between file and memory and the address is not 0, or when the mapping is
at the first executable range and no window puts it elsewhere. -/
theorem mapExecVirtAddr_bias_iff {page bias : Word} {phdrs : List ProgramHeader}
    (haligned : ∀ phdr ∈ phdrs, phdr.Aligned page) {elfCtx : PerElfCtx P}
    (hload : (elfCtx.execRanges, elfCtx.execVirtAddr) = loadExecRanges (phdrs.map some))
    {phdr : ProgramHeader} (hphdr : phdr ∈ phdrs) {map : MapsInfo}
    (hmap : KernelMapping page bias phdr map) :
    map.start - (guElfMapCtx elfCtx (guResolveMapExecVirtAddr elfCtx map)).mapExecVirtAddr = bias ↔
      (∃ found, phdrs.find? (ProgramHeader.resolves map) = some found ∧
        found.displacement = phdr.displacement ∧ alignDown phdr.pVaddr page ≠ 0#64) ∨
      ((∀ found, phdrs.find? (ProgramHeader.resolves map) = some found →
        found.displacement + map.offset = 0#64) ∧
        elfCtx.execVirtAddr = alignDown phdr.pVaddr page) := by
  have hpage : alignDown phdr.pVaddr page = phdr.displacement + map.offset := by
    rw [hmap.offset]
    exact (haligned phdr hphdr).alignDown_pVaddr
  have hright : ∀ addr, map.start - addr = bias ↔ addr = alignDown phdr.pVaddr page := by
    intro addr
    rw [hmap.start]
    bv_omega
  rw [hright, mapExecVirtAddr_eq haligned hload hmap.nonempty, hpage]
  cases phdrs.find? (ProgramHeader.resolves map) with
  | none => simp
  | some found =>
    dsimp only
    split
    · rename_i hzero
      constructor
      · exact fun h => .inr ⟨fun _ heq => Option.some.inj heq ▸ hzero, h⟩
      · rintro (⟨_, ⟨⟩, hsame, hne⟩ | ⟨-, h⟩)
        · rw [← hsame] at hne
          exact absurd hzero hne
        · exact h
    · rename_i hne
      constructor
      · exact fun h => .inl ⟨found, rfl, (BitVec.add_left_inj _).mp h, h ▸ hne⟩
      · rintro (⟨_, ⟨⟩, hsame, -⟩ | ⟨hzero, -⟩)
        · rw [hsame]
        · exact absurd (hzero found rfl) hne

/-! ## Two segments in one window -/

/-- The metadata of a file with given headers. -/
def elfCtxOf (phdrs : List ProgramHeader) : PerElfCtx Unit where
  id := 1
  buildId := []
  golang := false
  symbols := none
  symSearchSize := 0
  guCfi := none
  refcnt := 1
  execVirtAddr := (loadExecRanges (phdrs.map some)).2
  execRanges := (loadExecRanges (phdrs.map some)).1
  retired := false
  retireDeadlineNs := 0#64

/-- Segments of one page each at `0x1000` and `0x202000`, next to each other in the file and aligned
to 2 MiB. -/
def hugeAligned : List ProgramHeader :=
  [⟨true, true, 0x1000#64, 0x1000#64, 0x1000#64, 0x200000#64⟩,
    ⟨true, true, 0x2000#64, 0x202000#64, 0x1000#64, 0x200000#64⟩]

private theorem hugeAligned_aligned : ∀ phdr ∈ hugeAligned, phdr.Aligned 0x1000#64 := by
  simp only [hugeAligned, List.forall_mem_cons]
  exact ⟨⟨⟨21, rfl⟩, by decide, by decide⟩, ⟨⟨21, rfl⟩, by decide, by decide⟩, nofun⟩

/-- The first one mapped with the bias `0x7f0000000000`, which is found. -/
theorem mapExecVirtAddr_bias_iff_first :
    let map : MapsInfo := ⟨"a", 0x7f0000001000#64, 0x7f0000002000#64, 0x1000#64, false⟩
    let elfCtx := elfCtxOf hugeAligned
    map.start - (guElfMapCtx elfCtx (guResolveMapExecVirtAddr elfCtx map)).mapExecVirtAddr =
      0x7f0000000000#64 :=
  (mapExecVirtAddr_bias_iff hugeAligned_aligned rfl List.mem_cons_self
    ⟨by decide, by decide, by decide, by decide, by decide⟩).mpr (.inl ⟨_, rfl, rfl, by decide⟩)

/-- The second one is taken for a part of the first, and its bias is 2 MiB off. -/
theorem mapExecVirtAddr_wrong_window :
    let phdr : ProgramHeader := ⟨true, true, 0x2000#64, 0x202000#64, 0x1000#64, 0x200000#64⟩
    let map : MapsInfo := ⟨"a", 0x7f0000202000#64, 0x7f0000203000#64, 0x2000#64, false⟩
    let elfCtx := elfCtxOf hugeAligned
    (phdr ∈ hugeAligned ∧ phdr.Aligned 0x1000#64) ∧
    KernelMapping 0x1000#64 0x7f0000000000#64 phdr map ∧
    map.start - (guElfMapCtx elfCtx (guResolveMapExecVirtAddr elfCtx map)).mapExecVirtAddr =
      0x7f0000200000#64 := by
  refine ⟨⟨by decide, hugeAligned_aligned _ (by decide)⟩, ?_, by decide +kernel⟩
  exact ⟨by decide, by decide, by decide, by decide, by decide⟩

end Gunwinder
