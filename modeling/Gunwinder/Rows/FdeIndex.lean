import Gunwinder.Native.CfiIndex
import Mathlib.Data.List.Perm.Basic

/-!
# Two ways to index the FDEs of a section

Whichever way the search table is filled, an FDE enters it as it decodes on its own: the hash
table of CIEs only ever returns what decoding the CIE again would give. The two loops collect the
same items in different orders, and sorting forgets the order.
-/

namespace Gunwinder

open Gunwinder.Core

namespace EhFrame

variable {frame : EhFrame} {rules : CalcRules}

/-! ## What a section holds -/

/-- The offsets of the FDEs from an offset on, one entry behind the other. -/
inductive Chain (frame : EhFrame) : Word → List Word → Prop where
  | done {off : Word} (h : frame.dwarfNextCfi off = none) : Chain frame off []
  | cie {off nextOff : Word} {cie : DwarfCie} {offsets : List Word}
      (h : frame.dwarfNextCfi off = some (.cie cie, nextOff))
      (rest : Chain frame nextOff offsets) : Chain frame off offsets
  | fde {off nextOff : Word} {fde : DwarfFde} {offsets : List Word}
      (h : frame.dwarfNextCfi off = some (.fde fde, nextOff))
      (rest : Chain frame nextOff offsets) : Chain frame off (off :: offsets)

/-- The offsets of the entries from the start of the section on. -/
inductive Visited (frame : EhFrame) : Word → Prop where
  | start : Visited frame 0#64
  | next {off nextOff : Word} {entry : CfiEntry} (h : Visited frame off)
      (hentry : frame.dwarfNextCfi off = some (entry, nextOff)) : Visited frame nextOff

/-- No entry starts inside another one. -/
theorem Visited.le_of_lt {a b nextOff : Word} {entry : CfiEntry} (ha : frame.Visited a)
    (hb : frame.Visited b) (hentry : frame.dwarfNextCfi a = some (entry, nextOff)) (hlt : a < b) :
    nextOff ≤ b := by
  -- induction on both offsets: the entry before `b` is `a`, behind it or in front of it
  induction hn : a.toNat + b.toNat using Nat.strong_induction_on
    generalizing a b nextOff entry with
  | h n ih =>
    have hlt : a.toNat < b.toNat := hlt
    cases hb with
    | start => simp at hlt
    | @next c _ before hc hbefore =>
      have hcb : c.toNat < b.toNat := (frame.advances hbefore).1
      rcases Nat.lt_trichotomy a.toNat c.toNat with hac | hac | hca
      · have hle : nextOff.toNat ≤ c.toNat := ih (a.toNat + c.toNat) (by omega) ha hc hentry hac rfl
        exact Nat.le_of_lt (Nat.lt_of_le_of_lt hle hcb)
      · obtain rfl := BitVec.eq_of_toNat_eq hac
        rw [hentry] at hbefore
        cases hbefore
        exact Nat.le_refl _
      · have hle : b.toNat ≤ a.toNat := ih (c.toNat + a.toNat) (by omega) hc ha hbefore hca rfl
        omega

/-- The CIE at an offset, decoded on its own. -/
def cieAt (frame : EhFrame) (rules : CalcRules) (off : Word) : Option (Cie (List CalcRules)) :=
  match frame.dwarfNextCfi off with
  | some (.cie dwarfCie, _) =>
    (initCieFromBuf savedValues frame.arch frame.sec off dwarfCie (some rules) ()).cie
  | _ => none

/-- The FDE at an offset, decoded on its own. -/
def fdeAt (frame : EhFrame) (rules : CalcRules) (off : Word) : Option (Fde (List CalcRules)) :=
  match frame.dwarfNextCfi off with
  | some (.fde fde, _) => (frame.cieAt rules fde.ciePointer).bind (fdeOfCie frame fde)
  | _ => none

/-- The FDEs of an `.eh_frame` section all decode, with CIEs of the section, and their ranges are
non-empty and pairwise disjoint. -/
structure Indexable (frame : EhFrame) (rules : CalcRules) (offsets : List Word) : Prop where
  chain : frame.Chain 0#64 offsets
  /-- A CIE pointer is stored as a distance back from its own place in the entry. -/
  pointsBack : ∀ {off nextOff : Word} {fde : DwarfFde},
    frame.dwarfNextCfi off = some (.fde fde, nextOff) → fde.ciePointer < nextOff
  cies : ∀ off ∈ offsets, ∀ fde nextOff, frame.dwarfNextCfi off = some (.fde fde, nextOff) →
    frame.Visited fde.ciePointer
  decodes : ∀ off ∈ offsets, (frame.fdeAt rules off).isSome = true
  nonempty : ∀ off ∈ offsets, ∀ fde ∈ frame.fdeAt rules off, fde.start < fde.fin
  disjoint : offsets.Pairwise fun a b => ∀ f ∈ frame.fdeAt rules a, ∀ g ∈ frame.fdeAt rules b,
    f.fin ≤ g.start ∨ g.fin ≤ f.start

variable {offsets : List Word} {off : Word}

/-- The offsets of a chain are offsets of entries. -/
theorem Chain.visited (h : frame.Chain off offsets) (hoff : frame.Visited off) :
    ∀ o ∈ offsets, frame.Visited o := by
  induction h with
  | done => exact nofun
  | cie h rest ih => exact ih (hoff.next h)
  | fde h rest ih => exact List.forall_mem_cons.mpr ⟨hoff, ih (hoff.next h)⟩

/-- The CIE of an FDE stands before it. -/
theorem Indexable.cie_lt (h : frame.Indexable rules offsets) :
    ∀ off ∈ offsets, ∀ fde nextOff, frame.dwarfNextCfi off = some (.fde fde, nextOff) →
      fde.ciePointer < off := by
  intro off hoff fde nextOff hentry
  have hfde := h.chain.visited .start off hoff
  have hcie := h.cies off hoff fde nextOff hentry
  have hback : fde.ciePointer.toNat < nextOff.toNat := h.pointsBack hentry
  rcases Nat.lt_trichotomy fde.ciePointer.toNat off.toNat with hlt | heq | hgt
  · exact hlt
  · -- what decodes at the FDE's own offset is no CIE
    obtain ⟨decoded, hdecoded⟩ := Option.isSome_iff_exists.mp (h.decodes off hoff)
    simp only [fdeAt, hentry, BitVec.eq_of_toNat_eq heq, cieAt, Option.bind_none] at hdecoded
    cases hdecoded
  · have hle : nextOff.toNat ≤ fde.ciePointer.toNat := hfde.le_of_lt hcie hentry hgt
    omega

/-! ## The table of CIEs -/

variable {cie : Cie (List CalcRules)}

/-- A CIE keeps the offset it was decoded at. -/
theorem cieAt_offset (h : frame.cieAt rules off = some cie) : cie.offset = off := by
  unfold cieAt at h
  split at h
  · simp only [initCieFromBuf] at h
    split at h
    · cases h
      rfl
    · cases h
  · cases h

/-- The offset is its own key. -/
def Narrow (off : Word) : Prop := off.toNat < 2 ^ 32

private theorem Narrow.eq_of_key {a b : Word} (ha : Narrow a) (hb : Narrow b)
    (h : intKey a = intKey b) : a = b := by
  have hkey := congrArg BitVec.toNat h
  simp only [intKey, BitVec.toNat_setWidth] at hkey
  rw [Nat.mod_eq_of_lt ha, Nat.mod_eq_of_lt hb] at hkey
  exact BitVec.eq_of_toNat_eq hkey

/-- The table holds CIEs as they decode on their own. -/
structure TableSound (frame : EhFrame) (rules : CalcRules)
    (table : CieTable Unit (List CalcRules)) : Prop where
  defaults : table.defaults = some rules
  narrow : ∀ cie ∈ table.cieList, Narrow cie.offset
  decoded : ∀ cie ∈ table.cieList, frame.cieAt rules cie.offset = some cie

/-- No CIE has been built. -/
theorem tableSound_empty : frame.TableSound rules ⟨[], some rules, ()⟩ where
  defaults := rfl
  narrow _ hcie := absurd hcie List.not_mem_nil
  decoded _ hcie := absurd hcie List.not_mem_nil

/-- Default rules that are set stay as they are. -/
theorem initCieFromBuf_defaults (arch : Arch) (sec : Section) (off : Word) (dwarfCie : DwarfCie)
    (rules : CalcRules) (heap : Unit) :
    (initCieFromBuf savedValues arch sec off dwarfCie (some rules) heap).defaults = some rules :=
  rfl

variable {table : CieTable Unit (List CalcRules)}

section

variable (htable : frame.TableSound rules table) (hoff : Narrow off)
  (hcie : frame.cieAt rules off = some cie)
include htable hoff hcie

/-- A CIE as it decodes on its own may join the table. -/
theorem TableSound.add : frame.TableSound rules ⟨table.cieList ++ [cie], some rules, ()⟩ := by
  have hself := cieAt_offset hcie
  refine ⟨rfl, fun c hc => ?_, fun c hc => ?_⟩
  · rcases List.mem_append.mp hc with hc | hc
    · exact htable.narrow c hc
    · rw [List.mem_singleton.mp hc, hself]
      exact hoff
  · rcases List.mem_append.mp hc with hc | hc
    · exact htable.decoded c hc
    · rw [List.mem_singleton.mp hc, hself]
      exact hcie

/-- Whether it is found or built, the CIE is the one that decodes at the offset. -/
theorem findCie_eq :
    ∃ table', findCie savedValues frame table off = .ok (some cie, table') ∧
      frame.TableSound rules table' := by
  unfold findCie
  cases hfound : lookup cieKey table.cieList (intKey off) with
  | some found =>
    obtain ⟨hmem, hkey⟩ := mem_of_lookup hfound
    have hsame : found.offset = off := (htable.narrow found hmem).eq_of_key hoff hkey
    have hdecoded := htable.decoded found hmem
    rw [hsame, hcie] at hdecoded
    cases hdecoded
    exact ⟨table, rfl, htable⟩
  | none =>
    refine ⟨_, ?_, htable.add hoff hcie⟩
    unfold cieAt at hcie
    rcases hentry : frame.dwarfNextCfi off with _ | ⟨dwarfCie | dwarfFde, nextOff⟩
    · simp only [hentry, reduceCtorEq] at hcie
    · simp only [hentry] at hcie
      simp only [htable.defaults, hcie, initCieFromBuf_defaults]
    · simp only [hentry, reduceCtorEq] at hcie

end

/-- An FDE at an offset of the header's reach becomes the item it is on its own. -/
theorem addItem_eq {κ : Type} {s : IndexState Unit (List CalcRules) κ}
    (htable : frame.TableSound rules s.table) {nextOff : Word} {entry : CfiEntry}
    (hentry : frame.dwarfNextCfi off = some (entry, nextOff)) (hoff : Narrow off)
    (hback : ∀ fde nextOff, frame.dwarfNextCfi off = some (.fde fde, nextOff) →
      fde.ciePointer < off) {fde : Fde (List CalcRules)} (hfde : frame.fdeAt rules off = some fde)
    (next : κ) :
    ∃ table', addItem savedValues frame s entry next =
        .next ⟨next, table', s.items ++ [fdeItem fde]⟩ ∧ frame.TableSound rules table' := by
  simp only [fdeAt, hentry] at hfde
  cases entry with
  | cie cie => cases hfde
  | fde dwarfFde =>
    obtain ⟨cie, hcie, hrange⟩ := Option.bind_eq_some_iff.mp hfde
    have hlt : dwarfFde.ciePointer.toNat < off.toNat := hback dwarfFde nextOff hentry
    obtain ⟨table', hfind, hsound⟩ := findCie_eq htable (hlt.trans hoff) hcie
    refine ⟨table', ?_, hsound⟩
    simp only [addItem, initFdeFromEntry, hfind, hrange]

/-! ## The scan -/

/-- From any head of the scan, the FDEs of the chain become items in their order. -/
theorem Chain.scan (h : frame.Chain off offsets) (hnarrow : ∀ o ∈ offsets, Narrow o)
    (hback : ∀ o ∈ offsets, ∀ fde nextOff, frame.dwarfNextCfi o = some (.fde fde, nextOff) →
      fde.ciePointer < o) (hdecodes : ∀ o ∈ offsets, (frame.fdeAt rules o).isSome = true) {n : Nat}
    (hn : frame.sec.dSize < off.toNat + n) (htable : frame.TableSound rules table)
    (items : List (Interval (Option (Fde (List CalcRules))))) :
    loop (scanTurn savedValues frame) (fun s => .ok s.items) n ⟨off, table, items⟩ =
      .ok (items ++ (offsets.filterMap (frame.fdeAt rules)).map fdeItem) := by
  induction h generalizing n table items with
  | done h =>
    cases n with
    | zero => simp
    | succ n =>
      rw [loop_stop (r := .ok items) (by simp only [scanTurn, h])]
      simp
  | @cie off nextOff cie offsets h rest ih =>
    obtain ⟨hlt, hle⟩ := frame.advances h
    have hlt : off.toNat < nextOff.toNat := hlt
    cases n with
    | zero => omega
    | succ n =>
      have hturn : scanTurn savedValues frame ⟨off, table, items⟩ =
          .next ⟨nextOff, table, items⟩ := by simp only [scanTurn, h]
      rw [loop_next hturn]
      exact ih hnarrow hback hdecodes (by omega) htable items
  | @fde off nextOff fde offsets h rest ih =>
    obtain ⟨hlt, hle⟩ := frame.advances h
    have hlt : off.toNat < nextOff.toNat := hlt
    cases n with
    | zero => omega
    | succ n =>
      obtain ⟨decoded, hdecoded⟩ := Option.isSome_iff_exists.mp (hdecodes off List.mem_cons_self)
      obtain ⟨table', hadd, hsound⟩ := addItem_eq (s := ⟨off, table, items⟩) htable h
        (hnarrow off List.mem_cons_self) (hback off List.mem_cons_self) hdecoded nextOff
      have hturn : scanTurn savedValues frame ⟨off, table, items⟩ =
          .next ⟨nextOff, table', items ++ [fdeItem decoded]⟩ := by simp only [scanTurn, h, hadd]
      rw [loop_next hturn, ih (fun o ho => hnarrow o (List.mem_cons_of_mem off ho))
        (fun o ho => hback o (List.mem_cons_of_mem off ho))
        (fun o ho => hdecodes o (List.mem_cons_of_mem off ho)) (by omega) hsound]
      simp [hdecoded]

/-! ## The header -/

/-- A header at an address with the usual encodings, a pc-relative pointer to the section, the
number of FDEs and a table of their addresses relative to its own, in any order. -/
structure Lists (frame : EhFrame) (hdr : Section) (addr : Word) (offsets : List Word) : Prop where
  nonnull : hdr.dBuf ≠ 0
  version : hdr.mem hdr.dBuf = 0x01#8
  ehFrameT : hdr.mem (hdr.dBuf + 1) = 0x1b#8
  fdeCountT : hdr.mem (hdr.dBuf + 2) = 0x03#8
  fdePT : hdr.mem (hdr.dBuf + 3) = 0x3b#8
  size : 12 + 8 * offsets.length ≤ hdr.dSize
  points : addr + 4#64 + (load32 hdr.mem (hdr.dBuf + 4)).signExtend 64 = frame.shOff
  count : (load32 hdr.mem (hdr.dBuf + 8)).toNat = offsets.length
  table : ((List.range offsets.length).map fun i =>
    addr + (load32 hdr.mem (hdr.dBuf + 16 + 8 * i)).signExtend 64 - frame.shOff).Perm offsets

/-- A sign-extended word is small or close to the top. -/
theorem signExtend_bounds (x : BitVec 32) :
    (x.signExtend 64).toNat < 2 ^ 31 ∨ 2 ^ 64 - 2 ^ 31 ≤ (x.signExtend 64).toNat := by
  rw [BitVec.toNat_signExtend]
  have hx := x.isLt
  have hmsb := BitVec.msb_eq_decide x
  cases hneg : x.msb with
  | false | true =>
    rw [hneg] at hmsb
    simp at hmsb ⊢
    omega

/-- A difference of two such words that lies in a section is narrow. -/
theorem narrow_of_reach (a e : BitVec 32)
    (h : (a.signExtend 64 - (e.signExtend 64 + 4#64)).toNat < 2 ^ 56) :
    Narrow (a.signExtend 64 - (e.signExtend 64 + 4#64)) := by
  have ha := signExtend_bounds a
  have he := signExtend_bounds e
  unfold Narrow
  generalize a.signExtend 64 = x at *
  generalize e.signExtend 64 = y at *
  bv_omega

section Header

variable {hdr : Section} {addr : Word} {offsets : List Word}

/-- The offset the code computes from an entry of the table. -/
def tableOffset (hdr : Section) (i : Nat) : Word :=
  (load32 hdr.mem (hdr.dBuf + 16 + 8 * i)).signExtend 64 -
    ((load32 hdr.mem (hdr.dBuf + 4)).signExtend 64 + 4#64)

section

variable (h : frame.Lists hdr addr offsets)
include h

/-- It is the offset of the FDE whose address the entry gives. -/
theorem Lists.tableOffset_eq (i : Nat) :
    tableOffset hdr i =
      addr + (load32 hdr.mem (hdr.dBuf + 16 + 8 * i)).signExtend 64 - frame.shOff := by
  rw [← h.points, tableOffset]
  bv_omega

/-- The table lists each FDE once. -/
theorem Lists.perm : ((List.range offsets.length).map (tableOffset hdr)).Perm offsets := by
  rw [List.map_congr_left fun i _ => h.tableOffset_eq i]
  exact h.table

private theorem Lists.tableOffset_mem {i : Nat} (hi : i < offsets.length) :
    tableOffset hdr i ∈ offsets :=
  h.perm.mem_iff.mp (List.mem_map_of_mem (List.mem_range.mpr hi))

end

/-- An FDE that decodes lies in the section. -/
theorem lt_of_fdeAt (h : (frame.fdeAt rules off).isSome = true) : off.toNat < 2 ^ 56 := by
  unfold fdeAt at h
  split at h
  · rename_i hentry
    obtain ⟨hlt, hle⟩ := frame.advances hentry
    have hlt : off.toNat < _ := hlt
    have hspace := frame.sec.inSpace
    omega
  · cases h

/-- A header reaches narrow offsets only. -/
theorem Lists.narrow (h : frame.Lists hdr addr offsets)
    (hdecodes : ∀ off ∈ offsets, (frame.fdeAt rules off).isSome = true) :
    ∀ off ∈ offsets, Narrow off := by
  intro off hoff
  obtain ⟨i, -, rfl⟩ := List.mem_map.mp (h.perm.mem_iff.mpr hoff)
  exact narrow_of_reach _ _ (lt_of_fdeAt (hdecodes _ hoff))

/-- A four-byte value inside the buffer is read as it is. -/
theorem decodeReadChecked_sdata4 {mem : Mem} {buf fin : Nat} {type : Byte}
    (htype : ptrFormat type = some .sdata4) (hbuf : buf ≠ 0) (hfin : buf + 4 ≤ fin) :
    decodeReadChecked mem buf fin type = some ((load32 mem buf).signExtend 64, buf + 4) := by
  have hfits : decodeReadFits mem buf fin .sdata4 = true := by
    rw [decodeReadFits, if_neg (by omega)]
    exact decide_eq_true (by omega)
  simp only [decodeReadChecked, htype, hfits, if_true, decodeRead]
  exact if_neg (Nat.not_lt.mpr hfin)

private theorem decodeReadChecked_udata4 {mem : Mem} {buf fin : Nat} {type : Byte}
    (htype : ptrFormat type = some .udata4) (hbuf : buf ≠ 0) (hfin : buf + 4 ≤ fin) :
    decodeReadChecked mem buf fin type = some ((load32 mem buf).setWidth 64, buf + 4) := by
  have hfits : decodeReadFits mem buf fin .udata4 = true := by
    rw [decodeReadFits, if_neg (by omega)]
    exact decide_eq_true (by omega)
  simp only [decodeReadChecked, htype, hfits, if_true, decodeRead]
  exact if_neg (Nat.not_lt.mpr hfin)

/-- The header is accepted. -/
theorem Lists.readHdr (h : frame.Lists hdr addr offsets) :
    Gunwinder.readHdr hdr = some ((load32 hdr.mem (hdr.dBuf + 4)).signExtend 64,
      (load32 hdr.mem (hdr.dBuf + 8)).setWidth 64, hdr.dBuf + 12) := by
  have hsize := h.size
  have hptr : decodeReadChecked hdr.mem (hdr.dBuf + 4) hdr.fin 0x1b#8 =
      some ((load32 hdr.mem (hdr.dBuf + 4)).signExtend 64, hdr.dBuf + 8) :=
    decodeReadChecked_sdata4 rfl (by omega) (by unfold Section.fin; omega)
  have hcount : decodeReadChecked hdr.mem (hdr.dBuf + 8) hdr.fin 0x03#8 =
      some ((load32 hdr.mem (hdr.dBuf + 8)).setWidth 64, hdr.dBuf + 12) :=
    decodeReadChecked_udata4 rfl (by omega) (by unfold Section.fin; omega)
  have hstart : ¬(hdr.dSize < 4 ∨ hdr.mem hdr.dBuf ≠ hdrVersion) := by
    rintro (hlt | hne)
    · omega
    · exact hne h.version
  have hencoded : ¬(hdr.mem (hdr.dBuf + 1) = dwEhPeOmit ∨ hdr.mem (hdr.dBuf + 2) = dwEhPeOmit ∨
      hdr.mem (hdr.dBuf + 3) = dwEhPeOmit) := by
    rw [h.ehFrameT, h.fdeCountT, h.fdePT]
    decide
  unfold Gunwinder.readHdr
  dsimp only
  rw [if_neg hstart, if_neg hencoded, h.ehFrameT, h.fdeCountT, hptr, Option.bind_eq_bind,
    Option.bind_some, hcount]
  rfl

/-- From any head of the loop, the entries of the table that are left become items in their
order. -/
theorem Lists.fill (h : frame.Lists hdr addr offsets) (hframe : frame.Indexable rules offsets)
    {k m : Nat} (hk : k + m = offsets.length) (htable : frame.TableSound rules table)
    {items : List (Interval (Option (Fde (List CalcRules))))} (hitems : items.length = k) :
    loop (hdrTurn savedValues frame hdr.mem hdr.fin
        ((load32 hdr.mem (hdr.dBuf + 4)).signExtend 64)
        ((load32 hdr.mem (hdr.dBuf + 8)).setWidth 64))
      (fun s => .ok s.items) m ⟨hdr.dBuf + 12 + 8 * k, table, items⟩ =
      .ok (items ++ (((List.range' k m).map (tableOffset hdr)).filterMap
        (frame.fdeAt rules)).map fdeItem) := by
  induction m generalizing k table items with
  | zero => simp
  | succ m ih =>
    have hmem := h.tableOffset_mem (i := k) (by omega)
    obtain ⟨fde, hfde⟩ := Option.isSome_iff_exists.mp (hframe.decodes _ hmem)
    obtain ⟨entry, nextOff, hentry⟩ : ∃ entry nextOff,
        frame.dwarfNextCfi (tableOffset hdr k) = some (entry, nextOff) := by
      cases hnone : frame.dwarfNextCfi (tableOffset hdr k) with
      | none => simp [fdeAt, hnone] at hfde
      | some found => exact ⟨found.1, found.2, rfl⟩
    obtain ⟨table', hadd, hsound⟩ := addItem_eq
      (s := ⟨hdr.dBuf + 12 + 8 * k, table, items⟩) htable hentry (h.narrow hframe.decodes _ hmem)
      (hframe.cie_lt _ hmem) hfde (hdr.dBuf + 12 + 8 * (k + 1))
    have hsize := h.size
    have hloc : decodeReadChecked hdr.mem (hdr.dBuf + 12 + 8 * k) hdr.fin dwEhPeSdata4 =
        some ((load32 hdr.mem (hdr.dBuf + 12 + 8 * k)).signExtend 64, hdr.dBuf + 16 + 8 * k) := by
      rw [decodeReadChecked_sdata4 rfl (by omega) (by unfold Section.fin; omega)]
      congr 2
      omega
    have haddr : decodeReadChecked hdr.mem (hdr.dBuf + 16 + 8 * k) hdr.fin dwEhPeSdata4 =
        some ((load32 hdr.mem (hdr.dBuf + 16 + 8 * k)).signExtend 64,
          hdr.dBuf + 12 + 8 * (k + 1)) := by
      rw [decodeReadChecked_sdata4 rfl (by omega) (by unfold Section.fin; omega)]
      congr 2
      omega
    have hmore : items.length < ((load32 hdr.mem (hdr.dBuf + 8)).setWidth 64).toNat ∧
        hdr.dBuf + 12 + 8 * k < hdr.fin := by
      rw [BitVec.toNat_setWidth, h.count, Nat.mod_eq_of_lt, hitems]
      · unfold Section.fin
        omega
      · have := (load32 hdr.mem (hdr.dBuf + 8)).isLt
        rw [h.count] at this
        omega
    have hturn : hdrTurn savedValues frame hdr.mem hdr.fin
        ((load32 hdr.mem (hdr.dBuf + 4)).signExtend 64)
        ((load32 hdr.mem (hdr.dBuf + 8)).setWidth 64) ⟨hdr.dBuf + 12 + 8 * k, table, items⟩ =
        .next ⟨hdr.dBuf + 12 + 8 * (k + 1), table', items ++ [fdeItem fde]⟩ := by
      unfold tableOffset at hentry
      simp only [hdrTurn, if_pos hmore, hloc, haddr, hentry, hadd]
    rw [loop_next hturn, ih (by omega) hsound (by simp [hitems])]
    simp [List.range'_succ, hfde]

/-! ## One table -/

/-- The starts of the FDEs are different. -/
theorem Indexable.starts (h : frame.Indexable rules offsets) :
    (((offsets.filterMap (frame.fdeAt rules)).map fdeItem).map Interval.start).Nodup := by
  have hne : offsets.Pairwise fun a b => ∀ f ∈ frame.fdeAt rules a, ∀ g ∈ frame.fdeAt rules b,
      f.start ≠ g.start := by
    refine h.disjoint.imp_of_mem fun {a b} ha hb hdisjoint f hf g hg heq => ?_
    have hfa : f.start.toNat < f.fin.toNat := h.nonempty a ha f hf
    have hgb : g.start.toNat < g.fin.toNat := h.nonempty b hb g hg
    have hstart := congrArg BitVec.toNat heq
    rcases hdisjoint f hf g hg with hle | hle
    · have hle : f.fin.toNat ≤ g.start.toNat := hle
      omega
    · have hle : g.fin.toNat ≤ f.start.toNat := hle
      omega
  rw [List.map_map, List.Nodup, List.pairwise_map, List.pairwise_filterMap]
  exact hne

/-- The index filled from the header is the index filled by the scan, so for every pc the same
FDE is selected: range, CIE and instructions, or none. There is an index unless the section has
no FDE. -/
theorem guCfiHdrInit_agree (hframe : frame.Indexable rules offsets)
    (hlists : frame.Lists hdr addr offsets) : ∃ byHdr byScan,
      guCfiHdrInitByHdr savedValues frame hdr (some rules) () = .ok byHdr ∧
      guCfiHdrInitByScan savedValues frame (some rules) () = .ok byScan ∧
      (∀ pc, findFde ⟨frame.arch, frame.sec, byHdr⟩ pc =
        findFde ⟨frame.arch, frame.sec, byScan⟩ pc) ∧
      byHdr = byScan ∧ (byScan = none ↔ offsets = []) := by
  let items := fun offs : List Word => (offs.filterMap (frame.fdeAt rules)).map fdeItem
  have hscan : guCfiHdrInitByScan savedValues frame (some rules) () =
      .ok (guIntervalArrayInit (items offsets)) := by
    have hloop := hframe.chain.scan (hlists.narrow hframe.decodes) hframe.cie_lt hframe.decodes
      (n := frame.sec.dSize + 1) (by simp) tableSound_empty []
    unfold guCfiHdrInitByScan
    rw [hloop]
    rfl
  have hcount : ((load32 hdr.mem (hdr.dBuf + 8)).setWidth 64).toNat = offsets.length := by
    rw [BitVec.toNat_setWidth, hlists.count, Nat.mod_eq_of_lt]
    have hlt := (load32 hdr.mem (hdr.dBuf + 8)).isLt
    rw [hlists.count] at hlt
    omega
  have hhdr : guCfiHdrInitByHdr savedValues frame hdr (some rules) () =
      .ok (guIntervalArrayInit (items ((List.range offsets.length).map (tableOffset hdr)))) := by
    have hloop := hlists.fill hframe (k := 0) (m := offsets.length) (Nat.zero_add _)
      tableSound_empty List.length_nil
    unfold guCfiHdrInitByHdr
    rw [hlists.readHdr]
    dsimp only
    rw [hcount, hloop, List.range_eq_range']
    rfl
  have hsame : guIntervalArrayInit (items ((List.range offsets.length).map (tableOffset hdr))) =
      guIntervalArrayInit (items offsets) :=
    (guIntervalArrayInit_perm ((hlists.perm.filterMap _).map _).symm hframe.starts).symm
  rw [hsame] at hhdr
  refine ⟨_, _, hhdr, hscan, fun _ => rfl, rfl, ?_⟩
  rw [guIntervalArrayInit_eq_none, List.map_eq_nil_iff, List.filterMap_eq_nil_iff]
  constructor
  · intro hnone
    refine List.eq_nil_iff_forall_not_mem.mpr fun off hoff => ?_
    have hsome := hframe.decodes off hoff
    rw [hnone off hoff] at hsome
    cases hsome
  · rintro rfl
    exact nofun

end Header

/-! ## A section of one CIE and two FDEs -/

/-- A CIE in the first 16 bytes, then FDEs for `[0x10, 0x20)` and `[0x40, 0x60)`. -/
def twoFdes : EhFrame where
  arch := .x86
  sec := bytesSection (List.replicate 24 0#8 ++ [0x10#8] ++ List.replicate 7 0#8 ++ [0x10#8] ++
    List.replicate 15 0#8 ++ [0x40#8] ++ List.replicate 7 0#8 ++ [0x20#8] ++
    List.replicate 7 0#8) (by decide)
  shOff := 0x2000#64
  dwarfNextCfi off :=
    if off = 0#64 then
      some (.cie ⟨1#64, -8#64, 16#64, 0x1010, 0x1010, [], 0x1010⟩, 16#64)
    else if off = 16#64 then some (.fde ⟨0#64, 0x1018, 0x1028⟩, 40#64)
    else if off = 40#64 then some (.fde ⟨0#64, 0x1030, 0x1040⟩, 64#64)
    else none
  advances {off nextOff entry} h := by
    split_ifs at h with h0 h1 h2
    all_goals
      cases h
      subst off
      decide

/-- Its header at `0x3000`, with the second FDE in front. -/
def twoFdesHdr : Section :=
  bytesSection [0x01#8, 0x1b#8, 0x03#8, 0x3b#8, 0xfc#8, 0xef#8, 0xff#8, 0xff#8, 2#8, 0#8, 0#8, 0#8,
    0#8, 0#8, 0#8, 0#8, 0x28#8, 0xf0#8, 0xff#8, 0xff#8,
    0#8, 0#8, 0#8, 0#8, 0x10#8, 0xf0#8, 0xff#8, 0xff#8] (by decide)

private theorem twoFdes_ranges :
    (twoFdes.fdeAt .zero 16#64).map (fun f => (f.start, f.fin)) = some (0x10#64, 0x20#64) ∧
    (twoFdes.fdeAt .zero 40#64).map (fun f => (f.start, f.fin)) = some (0x40#64, 0x60#64) := by
  decide +kernel

private theorem twoFdes_indexable : twoFdes.Indexable .zero [16#64, 40#64] := by
  obtain ⟨hfirst, hsecond⟩ := twoFdes_ranges
  obtain ⟨f, hf, hfrange⟩ := Option.map_eq_some_iff.mp hfirst
  obtain ⟨g, hg, hgrange⟩ := Option.map_eq_some_iff.mp hsecond
  obtain ⟨hfstart, hffin⟩ := Prod.mk.inj hfrange
  obtain ⟨hgstart, hgfin⟩ := Prod.mk.inj hgrange
  refine ⟨.cie rfl (.fde rfl (.fde rfl (.done rfl))), ?_, ?_, ?_, ?_, ?_⟩
  · intro off nextOff fde hentry
    simp only [twoFdes] at hentry
    split_ifs at hentry
    · cases hentry
    · cases hentry
      decide
    · cases hentry
      decide
  · intro off _ fde nextOff hentry
    have hzero : fde.ciePointer = 0#64 := by
      simp only [twoFdes] at hentry
      split_ifs at hentry
      · cases hentry
      · cases hentry
        rfl
      · cases hentry
        rfl
    rw [hzero]
    exact .start
  · simp [hf, hg]
  · simp [hf, hg, hfstart, hffin, hgstart, hgfin]
  · simp [hf, hg, hfstart, hffin, hgstart, hgfin]

private theorem twoFdes_lists : twoFdes.Lists twoFdesHdr 0x3000#64 [16#64, 40#64] where
  nonnull := by decide +kernel
  version := by decide +kernel
  ehFrameT := by decide +kernel
  fdeCountT := by decide +kernel
  fdePT := by decide +kernel
  size := by decide
  points := by decide +kernel
  count := by decide +kernel
  table := by decide +kernel

/-- A section with two FDEs. -/
theorem guCfiHdrInit_agree_twoFdes : ∃ array,
    guCfiHdrInitByHdr savedValues twoFdes twoFdesHdr (some .zero) () = .ok (some array) ∧
    guCfiHdrInitByScan savedValues twoFdes (some .zero) () = .ok (some array) := by
  obtain ⟨byHdr, byScan, hhdr, hscan, -, rfl, hnone⟩ :=
    guCfiHdrInit_agree twoFdes_indexable twoFdes_lists
  cases byHdr with
  | none => exact absurd (hnone.mp rfl) (by decide)
  | some array => exact ⟨array, hhdr, hscan⟩

end EhFrame

end Gunwinder
