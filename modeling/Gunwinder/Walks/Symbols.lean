import Gunwinder.Intervals.Lookup
import Gunwinder.Walks.Logging

/-!
# Symbols in the three walks

`gu_unwind_by_fp`, the DWARF loop and `gu_append_pc_frame` each look a symbol up in code of their
own. The first searches at the pc itself where the other two step back from a return address, the
third does not hide the names of Go files, and the loop takes a caller for the sampled frame while
it does not log.
-/

namespace Gunwinder

open Gunwinder.Core

variable {H P : Type}

/-- A frame to be reported: the walk that has reached it, its pc, the number of frames
before it, and whether the last of them is a signal frame. -/
structure FrameSite (P : Type) where
  walk : Walk P
  pc : Word
  turn : Nat
  signalFrame : Bool

section Searches

variable (elfCtx : PerElfCtx P) (addr : Word)

variable {elfCtx addr}

end Searches

/-- The turn of a walk hands these records to the callback, behind those emitted before it. -/
def Appends {σ ρ : Type} (frames : σ → List FrameRecord) (framesAtEnd : ρ → List FrameRecord)
    (before records : List FrameRecord) (t : Turn σ (Except Stuck ρ)) : Prop :=
  t.All (fun s => frames s = before ++ records)
    (fun r => ∀ done, r = .ok done → framesAtEnd done = before ++ records)

namespace FrameSite

/-- The ELF file behind the pc and its load bias, with the walk once its mapping is in hand. -/
def elf (w : World P) (site : FrameSite P) : Option (Walk P × PerElfCtx P × Word) :=
  match site.walk.locate w site.pc with
  | .error _ => none
  | .ok walk =>
    match guGetElfCtxFromItem walk with
    | .ok (some (elfCtx, bias)) => some (walk, elfCtx, bias)
    | _ => none

/-! ## The records of one place -/

/-- A state of the walk along the sampler's chain, moved to the place. -/
def fpHead (site : FrameSite P) (s : FpState P) : FpState P :=
  { s with walk := site.walk, pc := site.pc }

/-- What the callback gets from a turn of that walk. -/
def fpRecords (w : World P) (allowUnknown : Bool) (site : FrameSite P) : List FrameRecord :=
  match fpTurn w (fun _ => 0#64) 0 allowUnknown ⟨site.walk, site.pc, 0, 0, []⟩ with
  | .next s => s.frames
  | .stop (.ok done) => done.frames
  | .stop (.error _) => []

/-- A state of the DWARF loop, moved to the place. The loop counts its turns while it logs. -/
def dwarfHead (verbose : Bool) (site : FrameSite P) (s : DwarfState H P) : DwarfState H P :=
  { s with
    walk := site.walk
    pc := site.pc
    loopCount := if verbose then site.turn else 0
    currentSignalFrame := site.signalFrame }

/-- The symbol of the DWARF loop. -/
def dwarfSymbol (verbose : Bool) (site : FrameSite P) (elfCtx : PerElfCtx P) (bias : Word) :
    Option String × Word :=
  guLookupElfSymbol elfCtx (guFrameLookupPcForReturnAddress (site.pc - bias)
    ((if verbose then site.turn else 0) == 0) site.signalFrame)

/-- What the callback gets from a turn of the DWARF loop. -/
def dwarfRecords (w : World P) (verbose : Bool) (site : FrameSite P) : List FrameRecord :=
  match site.elf w with
  | none => []
  | some (walk, elfCtx, bias) =>
    let (sym, funcOffset) := site.dwarfSymbol verbose elfCtx bias
    [elfFrame walk.ctx elfCtx site.pc (site.pc - bias) funcOffset sym]

/-- The symbol of `gu_append_pc_frame`. -/
def tailSymbol (site : FrameSite P) (elfCtx : PerElfCtx P) (bias : Word) :
    Option String × Word :=
  guLookupElfSymbol elfCtx
    (guFrameLookupPcForReturnAddress (site.pc - bias) (site.turn == 0) site.signalFrame)

/-- What the callback gets from `gu_append_pc_frame`. -/
def tailRecords (w : World P) (site : FrameSite P) : List FrameRecord :=
  match guAppendPcFrame w site.walk site.pc (site.turn == 0) site.signalFrame with
  | .ok (_, some frame) => [frame]
  | _ => []

/-- The records for the place. -/
def records (w : World P) (verbose allowUnknown : Bool) (site : FrameSite P) :
    List FrameRecord :=
  site.fpRecords w allowUnknown ++ site.dwarfRecords w verbose ++ site.tailRecords w

/-! ## What the turns emit -/

variable {w : World P} {verbose allowUnknown : Bool} {site : FrameSite P} {walk : Walk P}
  {elfCtx : PerElfCtx P} {bias : Word}

private theorem elf_eq_some (h : site.elf w = some (walk, elfCtx, bias)) :
    site.walk.locate w site.pc = .ok walk ∧
      guGetElfCtxFromItem walk = .ok (some (elfCtx, bias)) := by
  unfold elf at h
  split at h
  · cases h
  rename_i located hlocated
  split at h
  · rename_i hmapped
    cases h
    exact ⟨hlocated, hmapped⟩
  · cases h

/-- A turn of the walk along the sampler's chain appends the records of its place. -/
theorem fpTurn_emits (w : World P) (allowUnknown : Bool) (site : FrameSite P)
    (ustackFp : Nat → Word) (maxFpLevel : Nat) (s : FpState P) :
    Appends FpState.frames WalkEnd.frames s.frames (site.fpRecords w allowUnknown)
      (fpTurn w ustackFp maxFpLevel allowUnknown (site.fpHead s)) := by
  unfold Appends fpRecords fpTurn fpHead
  by_cases hpc : site.pc = 0#64
  · simp [hpc, Turn.All]
  simp only [hpc, if_false]
  cases site.walk.locate w site.pc with
  | error stuck => simp [Turn.All]
  | ok walk =>
    dsimp only
    cases guGetElfCtxFromItem walk with
    | error stuck => simp [Turn.All]
    | ok found =>
      cases found with
      | none =>
        cases allowUnknown with
        | false => simp [Turn.All]
        | true =>
          simp only [if_true, Nat.zero_le]
          split <;> simp [Turn.All]
      | some mapped =>
        simp only [Nat.zero_le, or_true, if_true]
        split <;> simp [Turn.All]

/-- A turn of the DWARF loop that goes on or stops appends the records of its place. -/
theorem dwarfTurn_emits (e : UnwindEnv H P) (rawSp : Word) (site : FrameSite P)
    (s : DwarfState H P) :
    Appends DwarfState.frames DwarfEnd.frames s.frames (site.dwarfRecords e.world e.verbose)
      (dwarfTurn e rawSp (site.dwarfHead e.verbose s)) := by
  unfold Appends
  cases hturn : dwarfTurn e rawSp (site.dwarfHead e.verbose s) with
  | next s' =>
    obtain ⟨c, rfl⟩ := exists_caller hturn
    have hlocated : site.walk.locate e.world site.pc = .ok c.walk := c.located
    have helf : site.elf e.world = some (c.walk, c.elfCtx, c.bias) := by
      simp only [elf, hlocated, c.mapped]
    simp only [Turn.All, dwarfRecords, helf]
    rfl
  | stop r =>
    rintro done rfl
    unfold dwarfTurn at hturn
    dsimp only [dwarfHead] at hturn
    unfold dwarfRecords elf
    cases hlocated : site.walk.locate e.world site.pc with
    | error stuck => simp [hlocated] at hturn
    | ok walk =>
      simp only [hlocated] at hturn ⊢
      cases hmapped : guGetElfCtxFromItem walk with
      | error stuck => simp [hmapped] at hturn
      | ok found =>
        simp only [hmapped] at hturn ⊢
        cases found with
        | none =>
          cases hturn
          exact (List.append_nil _).symm
        | some mapped => exact (emitFrame_stop hturn).frames

section

variable (h : site.elf w = some (walk, elfCtx, bias)) (hpc : site.pc ≠ 0#64)
include h hpc

/-- A record of the frame-pointer walk. -/
theorem fpRecords_elf :
    site.fpRecords w allowUnknown = [elfFrame walk.ctx elfCtx site.pc (site.pc - bias)
      (fpSymbol elfCtx (site.pc - bias)).2 (fpSymbol elfCtx (site.pc - bias)).1] := by
  obtain ⟨hlocated, hmapped⟩ := elf_eq_some h
  simp only [fpRecords, fpTurn, hpc, hlocated, hmapped, if_false, Nat.zero_le, or_true, if_true,
    List.nil_append]

/-- A record of the tail. -/
theorem tailRecords_elf :
    site.tailRecords w = [⟨site.pc - bias, site.pc, (site.tailSymbol elfCtx bias).2,
      (site.tailSymbol elfCtx bias).1, some elfCtx.id, 0#64⟩] := by
  obtain ⟨hlocated, hmapped⟩ := elf_eq_some h
  have hitem : walk.elfItem.isNone = false := by
    cases hitem : walk.elfItem with
    | none => simp [guGetElfCtxFromItem, hitem] at hmapped
    | some item => rfl
  simp only [tailRecords, guAppendPcFrame, hpc, hlocated, hitem, hmapped, if_false,
    Bool.false_eq_true, tailSymbol]

end

/-- At address 0 only the DWARF loop emits. -/
theorem records_zero (hpc : site.pc = 0#64) :
    site.records w verbose allowUnknown = site.dwarfRecords w verbose := by
  simp only [records, fpRecords, fpTurn, tailRecords, guAppendPcFrame, hpc, if_true,
    List.nil_append, List.append_nil]

/-- Outside every ELF file the only record is the anonymous one. -/
theorem records_of_no_elf (h : site.elf w = none) :
    ∀ r ∈ site.records w verbose allowUnknown, r = anonFrame site.pc := by
  by_cases hpc : site.pc = 0#64
  · simp only [records_zero hpc, dwarfRecords, h]
    exact nofun
  · simp only [records, dwarfRecords, h, List.append_nil, fpRecords, fpTurn, tailRecords,
      guAppendPcFrame, hpc, if_false]
    unfold elf at h
    cases hlocated : site.walk.locate w site.pc with
    | error stuck => exact nofun
    | ok walk =>
      simp only [hlocated] at h ⊢
      cases hmapped : guGetElfCtxFromItem walk with
      | error stuck =>
        cases walk.elfItem.isNone <;> exact nofun
      | ok found =>
        cases found with
        | some elf => simp [hmapped] at h
        | none => cases allowUnknown <;> cases walk.elfItem.isNone <;> simp

section

variable (h : site.elf w = some (walk, elfCtx, bias)) (hpc : site.pc ≠ 0#64)
include h hpc

end

end FrameSite

/-! ## A return address at the end of a function -/

end Gunwinder
