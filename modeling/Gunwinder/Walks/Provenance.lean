import Gunwinder.Walks.Symbols

/-!
# Where the frames of a walk come from

Every record a call of `gu_unwind` hands to its callback is emitted at a head of one of its
loops, or for the pc at which the DWARF loop has stopped. A place of the call is such a head,
with the code that reports it.
-/

namespace Gunwinder

open Gunwinder.Core

variable {H P : Type}

/-- The code that emits a record: `gu_unwind_by_fp`, the DWARF loop of `gu_unwind` or
`gu_append_pc_frame`. -/
inductive Reporter where
  | byFp
  | dwarfLoop
  | appendPcFrame
  deriving DecidableEq, Repr

/-- What the callback gets for a place. -/
def FrameSite.recordsBy (e : UnwindEnv H P) (allowUnknown : Bool) (site : FrameSite P) :
    Reporter → List FrameRecord
  | .byFp => site.fpRecords e.world allowUnknown
  | .dwarfLoop => site.dwarfRecords e.world e.verbose
  | .appendPcFrame => site.tailRecords e.world

/-! ## Loops that emit -/

/-- A loop whose turns append records leaves nothing but the records of its heads. -/
theorem loop_frames {σ ρ : Type} {step : σ → Turn σ (Except Stuck ρ)} {out : σ → Except Stuck ρ}
    {start : σ} {Good : FrameRecord → Prop} (frames : σ → List FrameRecord)
    (framesAtEnd : ρ → List FrameRecord) (records : Nat → σ → List FrameRecord)
    (hstep : ∀ n s, headState step n start = some s →
      Appends frames framesAtEnd (frames s) (records n s) (step s))
    (hgood : ∀ n s, headState step n start = some s → ∀ r ∈ records n s, Good r)
    (hout : ∀ s done, out s = .ok done → framesAtEnd done = frames s)
    (hstart : ∀ r ∈ frames start, Good r) (n : Nat) {done : ρ}
    (h : loop step out n start = .ok done) : ∀ r ∈ framesAtEnd done, Good r := by
  let I : σ → Prop := fun s =>
    (∃ n, headState step n start = some s) ∧ ∀ r ∈ frames s, Good r
  let Q : Except Stuck ρ → Prop := fun r =>
    ∀ done, r = .ok done → ∀ r ∈ framesAtEnd done, Good r
  have happend : ∀ {s n}, headState step n start = some s → (∀ r ∈ frames s, Good r) →
      ∀ r ∈ frames s ++ records n s, Good r :=
    fun hhead hframes => List.forall_mem_append.mpr ⟨hframes, hgood _ _ hhead⟩
  have hresult : Q (loop step out n start) := by
    refine loop_all I Q ?_ ?_ n ⟨⟨0, headState_zero step start⟩, hstart⟩
    · rintro s ⟨⟨n, hhead⟩, hframes⟩
      have hemits := hstep n s hhead
      cases hturn : step s with
      | next s' =>
        rw [hturn] at hemits
        have heq : frames s' = frames s ++ records n s := hemits
        refine ⟨⟨n + 1, headState_succ hhead hturn⟩, ?_⟩
        rw [heq]
        exact happend hhead hframes
      | stop r =>
        rw [hturn] at hemits
        intro done hdone
        rw [hemits done hdone]
        exact happend hhead hframes
    · rintro s ⟨-, hframes⟩ done hdone
      rw [hout s done hdone]
      exact hframes
  exact hresult done h

/-! ## The start of a call -/

variable (w : World P)

/-- The state a call of `gu_unwind` starts its walk from, when there is a process to walk. -/
def startWalk (ctx : GuContext P) (info : StackInfo) : Option (Walk P) :=
  match openProcess w ctx info with
  | (.error _, _, _) => none
  | (.ok pidCtx, info, ctx) => some (Walk.init ctx info pidCtx)

variable {e : UnwindEnv H P} {info : StackInfo} {ctx : GuContext P}

/-- The hint of the sample selects the walk. -/
theorem guUnwind_of_startWalk {walk : Walk P} (h : startWalk e.world ctx info = some walk)
    (globals : Globals H) :
    guUnwind e ctx globals info =
      if guFlagsIsSet info guFlagHintSetFp then unwindFp e.world walk globals
      else unwindDwarf e walk globals := by
  unfold startWalk at h
  split at h
  · cases h
  · rename_i hopen
    cases h
    simp only [guUnwind, hopen]

variable {result : UnwindResult H P} {globals : Globals H}

/-- Without a process a call emits nothing and returns -1. -/
theorem guUnwind_of_no_walk (h : startWalk e.world ctx info = none)
    (hresult : guUnwind e ctx globals info = .ok result) :
    result.ret = -1 ∧ result.frames = [] := by
  unfold startWalk at h
  split at h
  · rename_i hopen
    simp only [guUnwind, hopen] at hresult
    cases hresult
    exact ⟨rfl, rfl⟩
  · cases h

/-- What the walk along the sampler's chain returns. -/
theorem unwindFp_ends {w : World P} {walk : Walk P} (h : unwindFp w walk globals = .ok result) :
    ∃ done, guUnwindByFp w walk = .ok done ∧
      result = ⟨done.level, done.walk.ctx, guFlagsSetReason done.walk.info done.reason, globals,
        done.frames⟩ := by
  unfold unwindFp at h
  obtain ⟨done, hdone, h⟩ := exists_of_bind_ok h
  exact ⟨done, hdone, (Except.ok.inj h).symm⟩

/-- What the DWARF walk returns. -/
theorem unwindDwarf_ends {walk : Walk P} (h : unwindDwarf e walk globals = .ok result) :
    ∃ done last tail, dwarfLoop e (.init e.target.arch walk globals) = .ok done ∧
      followTail e (DwarfState.init e.target.arch walk globals).sp done = .ok (last, tail) ∧
      result = ⟨done.level, last.ctx,
        guFlagsSetReason last.info (if tail.isEmpty then done.reason else .endOfStack),
        done.globals, done.frames ++ tail⟩ := by
  unfold unwindDwarf at h
  obtain ⟨done, hloop, h⟩ := exists_of_bind_ok h
  obtain ⟨⟨last, tail⟩, htail, h⟩ := exists_of_bind_ok h
  exact ⟨done, last, tail, hloop, htail, (Except.ok.inj h).symm⟩

/-- The DWARF loop starts from the state of the call, unless the hint asks for the other walk. -/
theorem startWalk_of_dwarfStart {start : DwarfState H P}
    (h : dwarfStart e ctx globals info = some start) :
    ∃ walk, startWalk e.world ctx info = some walk ∧ guFlagsIsSet info guFlagHintSetFp = false ∧
      start = .init e.target.arch walk globals := by
  unfold dwarfStart at h
  split at h
  · cases h
  rename_i hopen
  split at h
  · cases h
  rename_i hfp
  cases h
  refine ⟨_, ?_, Bool.eq_false_iff.mpr hfp, rfl⟩
  simp only [startWalk, hopen]

/-! ## Places of a call -/

/-- The head of the walk along the sampler's chain. -/
def fpStart (walk : Walk P) : FpState P := ⟨walk, walk.info.ustackFp 0, 1, 0, []⟩

/-- The turn of that walk. -/
def fpStep (walk : Walk P) : FpState P → Turn (FpState P) (Except Stuck (WalkEnd P)) :=
  fpTurn w walk.info.ustackFp (min walk.info.ustackFpLevel.toNat maxFpStackLevel)
    (guFlagsIsSet walk.info guFlagFpAllowUnknown)

/-- What the tail starts from when the DWARF loop has ended. -/
def DwarfEnd.tailWalk (done : DwarfEnd H P) : Walk P :=
  { done.walk with elfItem := none, mapsReloaded := false }

/-- The places a walk reports, by the code that does it. The tail takes the pc of the DWARF loop for
that of a sampled frame, and the pcs it reads for return addresses. -/
inductive Place (e : UnwindEnv H P) (walk : Walk P) (globals : Globals H) :
    Reporter → FrameSite P → Prop where
  | fp {n : Nat} {s : FpState P} (h : headState (fpStep e.world walk) n (fpStart walk) = some s) :
      Place e walk globals .byFp ⟨s.walk, s.pc, n, false⟩
  | dwarf {n : Nat} {s : DwarfState H P}
      (h : headState (dwarfTurn e (DwarfState.init e.target.arch walk globals).sp) n
        (DwarfState.init e.target.arch walk globals) = some s) :
      Place e walk globals .dwarfLoop ⟨s.walk, s.pc, n, s.currentSignalFrame⟩
  | current {done : DwarfEnd H P}
      (h : dwarfLoop e (DwarfState.init e.target.arch walk globals) = .ok done)
      (happend : done.appendCurrentPc = true) :
      Place e walk globals .appendPcFrame ⟨done.tailWalk, done.pc, 0, false⟩
  | tail {done : DwarfEnd H P} {tailWalk : Walk P} {first : Option FrameRecord} {bp nextPc : Word}
      {n : Nat} {s : TailState P}
      (h : dwarfLoop e (DwarfState.init e.target.arch walk globals) = .ok done)
      (hfirst : appendCurrent e.world done.tailWalk done.pc done.appendCurrentPc =
        .ok (tailWalk, first))
      (hbp : getRegs e.target.arch done.walk.info e.target.arch.regNameRbp = some bp)
      (hhead : headState
        (tailTurn e.world e.target (DwarfState.init e.target.arch walk globals).sp) n
        ⟨tailWalk, bp, first.toList⟩ = some s)
      (hread : guStackSnapshotReadU64 e.target s.walk.info
        (DwarfState.init e.target.arch walk globals).sp (s.bp + 8#64) = some nextPc) :
      Place e walk globals .appendPcFrame ⟨s.walk, nextPc, n + 1, false⟩

/-- The record is emitted at a place of the walk. -/
def Reported (e : UnwindEnv H P) (walk : Walk P) (globals : Globals H) (r : FrameRecord) : Prop :=
  ∃ reporter site, Place e walk globals reporter site ∧
    r ∈ site.recordsBy e (guFlagsIsSet walk.info guFlagFpAllowUnknown) reporter

variable {e : UnwindEnv H P} {walk : Walk P} {globals : Globals H}

/-- The walk along the sampler's chain emits at its heads. -/
theorem guUnwindByFp_reported {done : WalkEnd P} (h : guUnwindByFp e.world walk = .ok done) :
    ∀ r ∈ done.frames, Reported e walk globals r := by
  unfold guUnwindByFp at h
  dsimp only at h
  split at h
  · cases h
    exact nofun
  · refine loop_frames FpState.frames WalkEnd.frames (fun n s => FrameSite.fpRecords e.world
      (guFlagsIsSet walk.info guFlagFpAllowUnknown) ⟨s.walk, s.pc, n, false⟩) ?_ ?_ ?_ ?_
      maxFpStackLevel h
    · intro n s _
      exact FrameSite.fpTurn_emits e.world _ ⟨s.walk, s.pc, n, false⟩ _ _ s
    · intro n s hhead r hr
      exact ⟨.byFp, _, .fp hhead, hr⟩
    · intro s done hdone
      cases hdone
      rfl
    · exact nofun

/-- The turn counter of the DWARF loop, which advances while it logs. -/
theorem headState_loopCount {rawSp : Word} {n : Nat} {start s : DwarfState H P}
    (h : headState (dwarfTurn e rawSp) n start = some s) :
    s.loopCount = if e.verbose then start.loopCount + n else start.loopCount := by
  induction n generalizing start with
  | zero =>
    cases h
    simp
  | succ n ih =>
    cases hturn : dwarfTurn e rawSp start with
    | stop r =>
      rw [headState_stop hturn] at h
      cases h
    | next s' =>
      rw [headState_next hturn] at h
      obtain ⟨c, rfl⟩ := exists_caller hturn
      rw [ih h]
      simp only [Caller.next]
      split <;> omega

variable {done : DwarfEnd H P}

/-- The DWARF loop emits at its heads. -/
theorem dwarfLoop_reported
    (h : dwarfLoop e (DwarfState.init e.target.arch walk globals) = .ok done) :
    ∀ r ∈ done.frames, Reported e walk globals r := by
  refine loop_frames DwarfState.frames DwarfEnd.frames (fun n s =>
    FrameSite.dwarfRecords e.world e.verbose ⟨s.walk, s.pc, n, s.currentSignalFrame⟩) ?_ ?_ ?_ ?_
    maxBacktraceLevel h
  · intro n s hhead
    have hemits := FrameSite.dwarfTurn_emits e (DwarfState.init e.target.arch walk globals).sp
      ⟨s.walk, s.pc, n, s.currentSignalFrame⟩ s
    have hcount : (if e.verbose then n else 0) = s.loopCount := by
      rw [headState_loopCount hhead]
      simp only [DwarfState.init, Nat.zero_add]
    have hsame : FrameSite.dwarfHead e.verbose ⟨s.walk, s.pc, n, s.currentSignalFrame⟩ s = s := by
      unfold FrameSite.dwarfHead
      rw [hcount]
    rw [hsame] at hemits
    exact hemits
  · intro n s hhead r hr
    exact ⟨.dwarfLoop, _, .dwarf hhead, hr⟩
  · intro s done hdone
    cases hdone
    rfl
  · exact nofun

/-! ## The tail -/

variable (target : Target)

/-- The frame record at a frame pointer, when the tail takes it: the frame pointer and the return
address it saves. -/
def tailLink (info : StackInfo) (rawSp bp : Word) : Option (Word × Word) :=
  match guStackSnapshotReadU64 target info rawSp bp,
      guStackSnapshotReadU64 target info rawSp (bp + 8#64) with
  | some nextBp, some nextPc =>
    if guFramePointerSane bp nextBp ∧ nextPc ≠ 0#64 then some (nextBp, nextPc) else none
  | _, _ => none

variable (rawSp : Word)

/-- The return address a turn of the tail goes on to. -/
def tailNext (s : TailState P) : Option Word :=
  (tailLink target s.walk.info rawSp s.bp).map Prod.snd

/-- A turn of the tail by the frame record it is at. -/
theorem tailTurn_eq (s : TailState P) :
    tailTurn w target rawSp s =
      match tailLink target s.walk.info rawSp s.bp with
      | none => .stop (.ok s)
      | some (nextBp, nextPc) =>
        match guAppendPcFrame w s.walk nextPc false false with
        | .error stuck => .stop (.error stuck)
        | .ok (walk, none) => .stop (.ok { s with walk := walk })
        | .ok (walk, some frame) =>
          if isStackBottomSymbol frame.symbol then .stop (.ok ⟨walk, s.bp, s.frames ++ [frame]⟩)
          else .next ⟨walk, nextBp, s.frames ++ [frame]⟩ := by
  unfold tailTurn tailLink
  cases guStackSnapshotReadU64 target s.walk.info rawSp s.bp with
  | none => rfl
  | some nextBp =>
    cases guStackSnapshotReadU64 target s.walk.info rawSp (s.bp + 8#64) with
    | none => rfl
    | some nextPc =>
      dsimp only
      by_cases hsane : guFramePointerSane s.bp nextBp = true ∧ nextPc ≠ 0#64
      · rcases hfound : guAppendPcFrame w s.walk nextPc false false with _ | ⟨walk, _ | frame⟩ <;>
          simp only [if_pos hsane, hfound]
      · simp only [if_neg hsane]

/-- A turn of the tail appends the records of its return address. -/
theorem tailTurn_emits (n : Nat) (s : TailState P) :
    Appends TailState.frames TailState.frames s.frames
      ((tailLink target s.walk.info rawSp s.bp).elim [] fun link =>
        FrameSite.tailRecords w ⟨s.walk, link.2, n + 1, false⟩) (tailTurn w target rawSp s) := by
  rw [tailTurn_eq]
  unfold Appends
  cases tailLink target s.walk.info rawSp s.bp with
  | none => simp [Turn.All]
  | some link =>
    obtain ⟨nextBp, nextPc⟩ := link
    have hinitial : (n + 1 == 0) = false := rfl
    simp only [Option.elim_some, FrameSite.tailRecords, hinitial]
    cases guAppendPcFrame w s.walk nextPc false false with
    | error stuck => simp [Turn.All]
    | ok found =>
      obtain ⟨walk, frame⟩ := found
      cases frame with
      | none => simp [Turn.All]
      | some frame =>
        dsimp only
        split <;> simp [Turn.All]

/-- The frame record the tail takes is sane and returns somewhere. -/
theorem tailLink_spec {target : Target} {rawSp bp : Word} {link : Word × Word}
    (h : tailLink target info rawSp bp = some link) :
    guStackSnapshotReadU64 target info rawSp (bp + 8#64) = some link.2 ∧ link.2 ≠ 0#64 := by
  unfold tailLink at h
  split at h
  · rename_i hpc
    split at h
    · rename_i hsane
      cases h
      exact ⟨hpc, hsane.2⟩
    · cases h
  · cases h

section

variable (h : dwarfLoop e (DwarfState.init e.target.arch walk globals) = .ok done)
include h

/-- The tail may emit at the pc of the DWARF loop first. -/
theorem appendCurrent_reported {tailWalk : Walk P} {first : Option FrameRecord}
    (hfirst : appendCurrent e.world done.tailWalk done.pc done.appendCurrentPc =
      .ok (tailWalk, first)) : ∀ r ∈ first.toList, Reported e walk globals r := by
  unfold appendCurrent at hfirst
  split at hfirst
  · rename_i happend
    intro r hr
    refine ⟨.appendPcFrame, _, .current h happend, ?_⟩
    have hframe : first = some r := by simpa using hr
    have hinitial : (0 == 0) = true := rfl
    simp only [FrameSite.recordsBy, FrameSite.tailRecords, hinitial, hfirst, hframe]
    exact List.mem_singleton_self r
  · cases hfirst
    exact List.forall_mem_nil _

/-- The tail emits at the pc of the DWARF loop and at its own heads. -/
theorem followTail_reported {last : Walk P} {tail : List FrameRecord}
    (htail : followTail e (DwarfState.init e.target.arch walk globals).sp done = .ok (last, tail)) :
    ∀ r ∈ tail, Reported e walk globals r := by
  unfold followTail at htail
  split at htail
  · cases htail
    exact nofun
  · split at htail
    · cases htail
      exact nofun
    · rename_i bp hbp
      unfold guUnwindDwarfTailByFp at htail
      split at htail
      · cases htail
        exact nofun
      · obtain ⟨⟨tailWalk, first⟩, hfirst, htail⟩ := exists_of_bind_ok htail
        have hcurrent := appendCurrent_reported h hfirst
        dsimp only at htail
        split at htail
        · cases htail
          exact hcurrent
        · obtain ⟨tailEnd, hloop, htail⟩ := exists_of_bind_ok htail
          cases htail
          refine loop_frames TailState.frames TailState.frames (fun n s =>
            (tailLink e.target s.walk.info (DwarfState.init e.target.arch walk globals).sp
              s.bp).elim [] fun link =>
                FrameSite.tailRecords e.world ⟨s.walk, link.2, n + 1, false⟩)
            (fun n s _ => tailTurn_emits e.world e.target _ n s) ?_ ?_ hcurrent maxFpStackLevel
            hloop
          · intro n s hhead r hr
            cases hlink : tailLink e.target s.walk.info
                (DwarfState.init e.target.arch walk globals).sp s.bp with
            | none =>
              rw [hlink] at hr
              cases hr
            | some link =>
              rw [hlink] at hr
              exact ⟨.appendPcFrame, _, .tail h hfirst hbp hhead (tailLink_spec hlink).1, hr⟩
          · intro s done hdone
            cases hdone
            rfl

end

/-- Every record of a call is emitted at a place of its walk. -/
theorem guUnwind_reported (h : guUnwind e ctx globals info = .ok result) {r : FrameRecord}
    (hr : r ∈ result.frames) :
    ∃ pidCtx info' ctx', openProcess e.world ctx info = (.ok pidCtx, info', ctx') ∧
      Reported e (Walk.init ctx' info' pidCtx) globals r := by
  unfold guUnwind at h
  dsimp only at h
  split at h
  · cases h
    cases hr
  · rename_i pidCtx info' ctx' hopen
    refine ⟨pidCtx, info', ctx', hopen, ?_⟩
    split at h
    · obtain ⟨done, hdone, rfl⟩ := unwindFp_ends h
      exact guUnwindByFp_reported hdone r hr
    · obtain ⟨done, last, tail, hloop, htail, rfl⟩ := unwindDwarf_ends h
      rcases List.mem_append.mp hr with hr | hr
      · exact dwarfLoop_reported hloop r hr
      · exact followTail_reported hloop htail r hr

end Gunwinder
