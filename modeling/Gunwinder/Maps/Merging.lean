import Gunwinder.Native.Maps
import Mathlib.Data.List.Pairwise

/-!
# Merged mappings

The merge loop of `gu_get_maps_info` keeps addresses. The invariant is about the lines that were
processed so far, and the guard against a file offset that wraps is what makes the offset of an
entry carry over to its continuation.
-/

namespace Gunwinder

/-- A range of addresses, the path mapped there and the file offset of its start. -/
structure Extent where
  start : Word
  fin : Word
  offset : Word
  path : List Char

def MapsLine.extent (line : MapsLine) : Extent := ⟨line.start, line.fin, line.offset, line.path⟩

def MapsEntry.extent (entry : MapsEntry) : Extent :=
  ⟨entry.start, entry.fin, entry.offset, entry.path⟩

namespace Extent

/-- The address is mapped. -/
def Covers (x : Extent) (a : Word) : Prop := x.start ≤ a ∧ a < x.fin

/-- The file offset of an address. -/
def fileOffset (x : Extent) (a : Word) : Nat := x.offset.toNat + (a.toNat - x.start.toNat)

/-- No address is in both ranges. -/
def Disjoint (x y : Extent) : Prop := ∀ a, ¬(x.Covers a ∧ y.Covers a)

/-- An address means the same in both. -/
structure Agrees (x y : Extent) (a : Word) : Prop where
  path : x.path = y.path
  fileOffset : x.fileOffset a = y.fileOffset a

end Extent

/-- What the entries are to the lines they were made of. -/
structure Merged (lines : List MapsLine) (info : List MapsEntry) : Prop where
  ordered : ∀ entry ∈ info, entry.start ≤ entry.fin
  backed : ∀ entry ∈ info, ∀ a, entry.extent.Covers a →
    ∃ line ∈ lines, line.extent.Covers a ∧ entry.extent.Agrees line.extent a
  kept : ∀ line ∈ lines, ∀ a, line.extent.Covers a → ∃ entry ∈ info, entry.extent.Covers a

private theorem merged_nil : Merged [] [] :=
  ⟨fun _ h => absurd h List.not_mem_nil, fun _ h => absurd h List.not_mem_nil,
    fun _ h => absurd h List.not_mem_nil⟩

variable {line : MapsLine} {info : List MapsEntry} {lines : List MapsLine}

/-- One more line, and the entry that takes it up: it may also stand for entries that are gone. -/
theorem Merged.take {before : List MapsEntry} {entry : MapsEntry} (h : Merged lines info)
    (hbefore : before ⊆ info) (hordered : entry.start ≤ entry.fin)
    (hbacked : ∀ a, entry.extent.Covers a → ∃ l ∈ lines ++ [line],
      l.extent.Covers a ∧ entry.extent.Agrees l.extent a)
    (hgone : ∀ e ∈ info, e ∈ before ∨ ∀ a, e.extent.Covers a → entry.extent.Covers a)
    (hline : ∀ a, line.extent.Covers a → entry.extent.Covers a) :
    Merged (lines ++ [line]) (entry :: before) := by
  refine ⟨fun e he => ?_, fun e he a ha => ?_, fun l hl a ha => ?_⟩
  · rcases List.mem_cons.mp he with rfl | he
    · exact hordered
    · exact h.ordered e (hbefore he)
  · rcases List.mem_cons.mp he with rfl | he
    · exact hbacked a ha
    · obtain ⟨l, hl, hcovers, hagrees⟩ := h.backed e (hbefore he) a ha
      exact ⟨l, List.mem_append_left _ hl, hcovers, hagrees⟩
  · rcases List.mem_append.mp hl with hl | hl
    · obtain ⟨e, he, hcovers⟩ := h.kept l hl a ha
      rcases hgone e he with hstays | hcovered
      · exact ⟨e, List.mem_cons_of_mem _ hstays, hcovers⟩
      · exact ⟨entry, List.mem_cons_self, hcovered a hcovers⟩
    · rw [List.mem_singleton.mp hl] at ha
      exact ⟨entry, List.mem_cons_self, hline a ha⟩

/-- A new entry is its line. -/
theorem Merged.push (h : Merged lines info) (hline : line.start ≤ line.fin) :
    Merged (lines ++ [line]) (line.entry :: info) :=
  h.take (List.Subset.refl info) hline
    (fun _ ha => ⟨line, List.mem_append_right _ (List.mem_singleton_self line), ha, rfl, rfl⟩)
    (fun _ he => .inl he) (fun _ ha => ha)

/-- What the test for a continuation says about addresses and offsets. -/
theorem MapsEntry.continuedBy_spec {prev : MapsEntry} (hprev : prev.start ≤ prev.fin)
    (h : prev.continuedBy line = true) :
    prev.fin = line.start ∧ prev.path = line.path ∧
      line.offset.toNat = prev.offset.toNat + (prev.fin.toNat - prev.start.toNat) := by
  simp only [continuedBy, Bool.and_eq_true, decide_eq_true_eq] at h
  obtain ⟨⟨⟨⟨hfin, hguard⟩, hoffset⟩, -⟩, hpath⟩ := h
  refine ⟨hfin, hpath, ?_⟩
  have hle : prev.start.toNat ≤ prev.fin.toNat := hprev
  have hsize : prev.size.toNat = prev.fin.toNat - prev.start.toNat := BitVec.toNat_sub_of_le hprev
  have hlt := prev.fin.isLt
  rw [← hoffset, BitVec.toNat_add, hsize, Nat.mod_eq_of_lt (by omega)]

/-- An entry that a line extends covers both, and file offsets go on from one to the other. -/
theorem Merged.extend {prev : MapsEntry} {before : List MapsEntry}
    (h : Merged lines (prev :: before)) (hline : line.start ≤ line.fin)
    (hnext : prev.continuedBy line = true) :
    Merged (lines ++ [line]) ({ prev with fin := line.fin } :: before) := by
  have hprev : prev.start ≤ prev.fin := h.ordered prev List.mem_cons_self
  obtain ⟨hfin, hpath, hoffset⟩ := MapsEntry.continuedBy_spec hprev hnext
  have hle : prev.start.toNat ≤ prev.fin.toNat := hprev
  have hle' : line.start.toNat ≤ line.fin.toNat := hline
  have hjoin : prev.fin.toNat = line.start.toNat := congrArg BitVec.toNat hfin
  refine h.take (List.subset_cons_self prev before) ?_ (fun a ha => ?_) (fun e he => ?_)
    fun a ha => ?_
  · change prev.start.toNat ≤ line.fin.toNat
    omega
  · -- below the seam the address was in the entry already
    obtain ⟨hlow, hhigh⟩ := ha
    have hlow : prev.start.toNat ≤ a.toNat := hlow
    by_cases hseam : a < prev.fin
    · obtain ⟨l, hl, hcovers, hagrees⟩ := h.backed prev List.mem_cons_self a ⟨hlow, hseam⟩
      exact ⟨l, List.mem_append_left _ hl, hcovers, hagrees.path, hagrees.fileOffset⟩
    · have hge : prev.fin.toNat ≤ a.toNat := BitVec.not_lt.mp hseam
      refine ⟨line, List.mem_append_right _ (List.mem_singleton_self line), ⟨?_, hhigh⟩, hpath, ?_⟩
      · change line.start.toNat ≤ a.toNat
        omega
      · change prev.offset.toNat + (a.toNat - prev.start.toNat) =
          line.offset.toNat + (a.toNat - line.start.toNat)
        omega
  · rcases List.mem_cons.mp he with rfl | he
    · refine .inr fun a ha => ⟨ha.1, ?_⟩
      have hhigh : a.toNat < e.fin.toNat := ha.2
      change a.toNat < line.fin.toNat
      omega
    · exact .inl he
  · have hlow : line.start.toNat ≤ a.toNat := ha.1
    refine ⟨?_, ha.2⟩
    change prev.start.toNat ≤ a.toNat
    omega

/-- A turn of the loop keeps the relation, with the line among the processed ones if it passes. -/
theorem Merged.addMapsLine (h : Merged lines info) (permissionFlag : Nat)
    (hline : line.start ≤ line.fin) :
    Merged (lines ++ [line].filter (·.passes permissionFlag))
      (Gunwinder.addMapsLine permissionFlag info line) := by
  unfold Gunwinder.addMapsLine
  split
  · rename_i hpasses
    simp only [List.filter_cons, hpasses, ite_true, List.filter_nil]
    cases info with
    | nil => exact h.push hline
    | cons prev before =>
      dsimp only
      split
      · rename_i hnext
        exact h.extend hline hnext
      · exact h.push hline
  · rename_i hpasses
    simpa [hpasses] using h

private theorem merged_foldl (permissionFlag : Nat) {done : List MapsLine} (h : Merged done info)
    (hlines : ∀ line ∈ lines, line.start ≤ line.fin) :
    Merged (done ++ lines.filter (·.passes permissionFlag))
      (lines.foldl (addMapsLine permissionFlag) info) := by
  induction lines generalizing done info with
  | nil => simpa using h
  | cons line lines ih =>
    obtain ⟨hline, hlines⟩ := List.forall_mem_cons.mp hlines
    have hstep := ih (h.addMapsLine permissionFlag hline) hlines
    rwa [List.append_assoc, ← List.filter_append, List.singleton_append] at hstep

/-- The entries cover exactly the addresses of the lines that pass, without a gap, and for
disjoint lines an address has the path and the file offset of its line. -/
theorem mergeMapsLines_preserves (permissionFlag : Nat) (lines : List MapsLine)
    (hlines : ∀ line ∈ lines, line.start ≤ line.fin) :
    let passing := lines.filter (·.passes permissionFlag)
    let info := mergeMapsLines permissionFlag lines
    (∀ a, (∃ entry ∈ info, entry.extent.Covers a) ↔ ∃ line ∈ passing, line.extent.Covers a) ∧
    (passing.Pairwise (fun l l' => l.extent.Disjoint l'.extent) →
      ∀ entry ∈ info, ∀ line ∈ passing, ∀ a, entry.extent.Covers a → line.extent.Covers a →
        entry.extent.Agrees line.extent a) ∧
    ∀ entry ∈ info, entry.start ≤ entry.fin ∧
      ∀ a, entry.extent.Covers a → ∃ line ∈ passing, line.extent.Covers a := by
  intro passing info
  have hmerged : Merged passing info := by
    have h := merged_foldl permissionFlag merged_nil hlines
    exact ⟨fun e he => h.ordered e (List.mem_reverse.mp he),
      fun e he => h.backed e (List.mem_reverse.mp he), fun l hl a ha => by
        obtain ⟨e, he, hcovers⟩ := h.kept l hl a ha
        exact ⟨e, List.mem_reverse.mpr he, hcovers⟩⟩
  refine ⟨fun a => ⟨?_, ?_⟩, fun hdisjoint entry hentry line hline a hcovers hcovers' => ?_,
    fun entry hentry => ⟨hmerged.ordered entry hentry, fun a ha => ?_⟩⟩
  · rintro ⟨entry, hentry, hcovers⟩
    obtain ⟨line, hline, hcovers', -⟩ := hmerged.backed entry hentry a hcovers
    exact ⟨line, hline, hcovers'⟩
  · rintro ⟨line, hline, hcovers⟩
    exact hmerged.kept line hline a hcovers
  · obtain ⟨l, hl, hbacked, hagrees⟩ := hmerged.backed entry hentry a hcovers
    have hsame : l = line := by
      by_contra hne
      have hsymm : Std.Symm fun l l' : MapsLine => l.extent.Disjoint l'.extent :=
        ⟨fun l l' h a ha => h a ⟨ha.2, ha.1⟩⟩
      exact hdisjoint.forall hl hline hne a ⟨hbacked, hcovers'⟩
    exact hsame ▸ hagrees
  · obtain ⟨line, hline, hcovers', -⟩ := hmerged.backed entry hentry a ha
    exact ⟨line, hline, hcovers'⟩

/-- A program header that shows up as two lines, and an anonymous mapping behind a gap. -/
def splitHeader : List MapsLine :=
  [⟨0x1000#64, 0x2000#64, "r-xp".toList, 0#64, "/bin/a".toList, false⟩,
   ⟨0x2000#64, 0x3000#64, "r-xp".toList, 0x1000#64, "/bin/a".toList, false⟩,
   ⟨0x5000#64, 0x6000#64, "r-xp".toList, 0#64, [], false⟩]

/-- The two lines become one entry, and the second half keeps its file offset. -/
theorem mergeMapsLines_preserves_splitHeader :
    (mergeMapsLines permissionX splitHeader).map MapsEntry.start = [0x1000#64, 0x5000#64] ∧
    ∃ entry ∈ mergeMapsLines permissionX splitHeader, entry.extent.Covers 0x2800#64 := by
  refine ⟨by decide +kernel, ?_⟩
  refine ((mergeMapsLines_preserves permissionX splitHeader (by decide)).1 0x2800#64).mpr ?_
  exact ⟨_, List.mem_cons_of_mem _ List.mem_cons_self, by decide, by decide⟩

end Gunwinder
