import Gunwinder.Native.Lifecycle
import Gunwinder.Walks.Turn

/-!
# Verbose logging and the initial frame

Two runs on the same input, one with verbose logging and one without, differ in a single
local: the turn counter, which is advanced inside the arguments of a log statement. With
logging off it stays zero, so every turn takes its pc for an exact address. The two runs
are alike exactly when there is no second turn.
-/

namespace Gunwinder

open Gunwinder.Core

variable {H P : Type} {e : UnwindEnv H P} {rawSp : Word} {s : DwarfState H P}

/-- The same environment with verbose logging on or off. -/
def UnwindEnv.log (e : UnwindEnv H P) (verbose : Bool) : UnwindEnv H P :=
  { e with verbose := verbose }

/-- What the caller of `gu_unwind` sees; the flags carry the stop reason. -/
structure Observed where
  frames : List FrameRecord
  ret : Int
  flags : Word
  regs : Option (Nat → Word)

def UnwindResult.observed (r : UnwindResult H P) : Observed :=
  ⟨r.frames, r.ret, r.info.flags, r.info.regs⟩

/-- The head of the first turn of the DWARF loop, when `gu_unwind` gets there. -/
def dwarfStart (e : UnwindEnv H P) (ctx : GuContext P) (globals : Globals H) (info : StackInfo) :
    Option (DwarfState H P) :=
  match openProcess e.world ctx info with
  | (.error _, _, _) => none
  | (.ok pidCtx, info', ctx) =>
    if guFlagsIsSet info guFlagHintSetFp then none
    else some (.init e.target.arch (.init ctx info' pidCtx) globals)

/-- The relative pc of a turn, with the pc it looks symbol and row up at. -/
def DwarfState.lookups (w : World P) (s : DwarfState H P) : Option (Word × Word) :=
  match s.walk.locate w s.pc with
  | .error _ => none
  | .ok walk =>
    match guGetElfCtxFromItem walk with
    | .ok (some (_, bias)) => some (s.pc - bias, s.lookupPc bias)
    | _ => none

/-- Exactly the first turn of the loop treats its frame as the initial one, and the turns of
later frames, unless a signal was delivered to them, look up the address minus one. -/
def InitialOnce (e : UnwindEnv H P) (start : DwarfState H P) : Prop :=
  ∀ k s, k < maxBacktraceLevel → headState (dwarfTurn e start.sp) k start = some s →
    ((s.loopCount == 0) = true ↔ k = 0) ∧
    (k ≠ 0 → s.currentSignalFrame = false → ∀ p ∈ s.lookups e.world, p.2 = p.1 - 1#64)

/-- Logging changes nothing: both modes give the same result, and both treat exactly the first
frame as the initial one. -/
def LoggingTransparent (e : UnwindEnv H P) (ctx : GuContext P) (globals : Globals H)
    (info : StackInfo) : Prop :=
  (guUnwind (e.log true) ctx globals info).map UnwindResult.observed =
    (guUnwind (e.log false) ctx globals info).map UnwindResult.observed ∧
  ∀ verbose, ∀ start ∈ dwarfStart (e.log verbose) ctx globals info,
    InitialOnce (e.log verbose) start

/-! ## One turn in both modes -/

/-- The caller of a frame does not depend on logging. -/
def Caller.log (c : Caller e rawSp s) (verbose : Bool) : Caller (e.log verbose) rawSp s :=
  ⟨c.walk, c.elfCtx, c.bias, c.cfi, c.recovered, c.globals, c.located, c.mapped, c.not_bottom,
    c.has_cfi, c.parsed, c.recovers, c.returns, c.progress⟩

/-- Two turns that stop, if they do, with the same result. -/
abbrev SameStop {σ ρ : Type} : Turn σ ρ → Turn σ ρ → Prop := Turn.Rel (fun _ _ => True) Eq

private theorem enterCaller_loopCount (arch : Arch) (s : DwarfState H P) (signalFrame : Bool)
    (r : Recovered) (n m : Nat) :
    SameStop (enterCaller arch { s with loopCount := n } signalFrame r)
      (enterCaller arch { s with loopCount := m } signalFrame r) := by
  simp only [enterCaller]
  by_cases hra : r.ra = 0#64
  · simp only [if_pos hra]
    exact .stop rfl
  · simp only [if_neg hra]
    by_cases hprogress : r.sp ≤ s.prevSp ∨ r.ra = s.prevPc
    · simp only [if_pos hprogress]
      exact .stop rfl
    · simp only [if_neg hprogress]
      exact .next trivial

/-- Behind the emitted frame only the state that a turn goes on in has the counter. -/
theorem unwindFrame_loopCount (e : UnwindEnv H P) (rawSp : Word) (initialFrame : Bool)
    (s : DwarfState H P) (elfCtx : PerElfCtx P) (bias : Word) (n m : Nat) :
    SameStop (unwindFrame e rawSp initialFrame { s with loopCount := n } elfCtx bias)
      (unwindFrame e rawSp initialFrame { s with loopCount := m } elfCtx bias) := by
  unfold unwindFrame
  cases elfCtx.guCfi with
  | none => exact .stop rfl
  | some cfi =>
    dsimp only
    generalize parseElf e.saved s.walk.ctx s.globals elfCtx.id cfi _ = parsed
    cases parsed.1.ok with
    | false => exact .stop rfl
    | true =>
      simp only [if_true]
      split
      · exact .stop rfl
      · exact .stop rfl
      · exact enterCaller_loopCount _ { s with
          walk := { s.walk with ctx := parsed.2.1 }, globals := _ } _ _ n m

private theorem emitFrame_loopCount (e : UnwindEnv H P) (rawSp : Word) (initialFrame : Bool)
    (s : DwarfState H P) (elfCtx : PerElfCtx P) (bias : Word) (n m : Nat) :
    SameStop (emitFrame e rawSp initialFrame { s with loopCount := n } elfCtx bias)
      (emitFrame e rawSp initialFrame { s with loopCount := m } elfCtx bias) := by
  simp only [emitFrame]
  generalize s.frames ++ [_] = frames
  split
  · exact .stop rfl
  · exact unwindFrame_loopCount e rawSp initialFrame { s with frames := frames } elfCtx bias n m

/-- Only the head of a turn reads the mode. -/
theorem emitFrame_log (verbose : Bool) : emitFrame (e.log verbose) = emitFrame e := rfl

/-- A turn that stops does so in both modes, with the same result. -/
theorem dwarfTurn_log (e : UnwindEnv H P) (rawSp : Word) (s : DwarfState H P) :
    SameStop (dwarfTurn (e.log true) rawSp s) (dwarfTurn (e.log false) rawSp s) := by
  simp only [dwarfTurn, emitFrame_log]
  change SameStop (match s.walk.locate e.world s.pc with | .error _ => _ | .ok _ => _)
    (match s.walk.locate e.world s.pc with | .error _ => _ | .ok _ => _)
  cases s.walk.locate e.world s.pc with
  | error stuck => exact .stop rfl
  | ok walk =>
    dsimp only
    cases guGetElfCtxFromItem walk with
    | error stuck => exact .stop rfl
    | ok found =>
      cases found with
      | none => exact .stop rfl
      | some p =>
        exact emitFrame_loopCount e rawSp (s.loopCount == 0)
          { s with walk := walk, level := s.level + 1 } p.1 p.2 (s.loopCount + 1) s.loopCount

/-- A first turn without a caller is the whole loop, in both modes. -/
theorem dwarfTurn_of_no_caller (h : IsEmpty (Caller e rawSp s)) :
    ∃ result, ∀ verbose, dwarfTurn (e.log verbose) rawSp s = .stop result := by
  have hstop : ∀ verbose, ∃ result, dwarfTurn (e.log verbose) rawSp s = .stop result := by
    intro verbose
    cases hturn : dwarfTurn (e.log verbose) rawSp s with
    | next s' =>
      obtain ⟨c, -⟩ := exists_caller hturn
      exact h.elim (c.log e.verbose)
    | stop result => exact ⟨result, rfl⟩
  obtain ⟨result, hon⟩ := hstop true
  obtain ⟨result', hoff⟩ := hstop false
  have hsame := dwarfTurn_log e rawSp s
  rw [hon, hoff] at hsame
  cases hsame with
  | stop heq =>
    refine ⟨result, fun verbose => ?_⟩
    cases verbose with
    | true => exact hon
    | false => rw [hoff, heq]

/-! ## Whole runs in both modes -/

variable {start : DwarfState H P}

/-- `gu_unwind` is its DWARF walk once the loop is entered. -/
theorem guUnwind_of_dwarfStart {ctx : GuContext P} {globals : Globals H} {info : StackInfo}
    (h : dwarfStart e ctx globals info = some start) (verbose : Bool) :
    start.loopCount = 0 ∧ guUnwind (e.log verbose) ctx globals info =
      (dwarfLoop (e.log verbose) start >>= finishDwarf e start.sp) := by
  unfold dwarfStart at h
  split at h
  · cases h
  rename_i pidCtx info' ctx' hopen
  have hopen' : openProcess (e.log verbose).world ctx info = (.ok pidCtx, info', ctx') := hopen
  split at h
  · cases h
  rename_i hfp
  cases h
  simp only [guUnwind, hopen', if_neg hfp]
  exact ⟨rfl, rfl⟩

/-- Outside the DWARF loop the mode is not read. -/
theorem guUnwind_log_of_no_dwarf {ctx : GuContext P} {globals : Globals H} {info : StackInfo}
    (h : dwarfStart e ctx globals info = none) (verbose : Bool) :
    guUnwind (e.log verbose) ctx globals info = guUnwind e ctx globals info := by
  unfold dwarfStart at h
  unfold guUnwind
  change (match openProcess e.world ctx info with
    | (.error _, _, _) => _ | (.ok _, _, _) => _) = _
  rcases hopen : openProcess e.world ctx info with ⟨reason | pidCtx, info', ctx'⟩
  · rfl
  simp only [hopen] at h
  split at h
  · rename_i hfp
    simp only [if_pos hfp]
    rfl
  · cases h

/-- The loop stops in its first turn, in both modes with the same result. -/
theorem dwarfLoop_of_no_caller (h : IsEmpty (Caller e start.sp start)) :
    ∃ result, ∀ verbose, dwarfLoop (e.log verbose) start = result := by
  obtain ⟨result, hstop⟩ := dwarfTurn_of_no_caller h
  exact ⟨result, fun verbose => loop_stop (hstop verbose) _ _⟩

/-- Without a second head the first one is the only one. -/
theorem initialOnce_of_no_caller (hzero : start.loopCount = 0)
    (h : IsEmpty (Caller e start.sp start)) (verbose : Bool) :
    InitialOnce (e.log verbose) start := by
  obtain ⟨result, hstop⟩ := dwarfTurn_of_no_caller h
  intro k s _ hhead
  cases k with
  | zero =>
    cases hhead
    simp [hzero]
  | succ k =>
    rw [headState_stop (hstop verbose)] at hhead
    cases hhead

/-- Logging is transparent exactly when the DWARF loop does not enter a second frame. -/
theorem logging_transparent_iff {H P : Type} (e : UnwindEnv H P) (ctx : GuContext P)
    (globals : Globals H) (info : StackInfo) :
    LoggingTransparent e ctx globals info ↔
      ∀ start ∈ dwarfStart e ctx globals info, IsEmpty (Caller e start.sp start) := by
  constructor
  · rintro ⟨-, honce⟩ start hstart
    refine ⟨fun c => ?_⟩
    -- with logging off the second head still has the counter at zero
    have hhead : headState (dwarfTurn (e.log false) start.sp) 1 start =
        some (c.log false).next := headState_next (c.log false).turn 0
    have hinitial := (honce false start hstart 1 _ (by decide) hhead).1
    have hzero : (c.log false).next.loopCount = 0 := (guUnwind_of_dwarfStart hstart false).1
    rw [hzero] at hinitial
    exact absurd (hinitial.mp rfl) one_ne_zero
  · intro hnone
    cases hstart : dwarfStart e ctx globals info with
    | none =>
      refine ⟨?_, fun verbose start hmem => ?_⟩
      · rw [guUnwind_log_of_no_dwarf hstart, guUnwind_log_of_no_dwarf hstart]
      · rw [show dwarfStart (e.log verbose) ctx globals info = none from hstart] at hmem
        cases hmem
    | some start =>
      have hcaller := hnone start hstart
      obtain ⟨result, hloop⟩ := dwarfLoop_of_no_caller hcaller
      refine ⟨?_, fun verbose start' hmem => ?_⟩
      · rw [(guUnwind_of_dwarfStart hstart true).2, (guUnwind_of_dwarfStart hstart false).2,
          hloop, hloop]
      · cases hstart.symm.trans hmem
        exact initialOnce_of_no_caller (guUnwind_of_dwarfStart hstart verbose).1 hcaller verbose

/-! ## A return address at the end of a function -/

/-- CFI for `[0, 0x1000)`: CFA `rsp + 8`, return address saved below it. -/
def callerCfi : GuCfi (List CalcRules) where
  data := {
    arch := .x86
    sec := bytesSection [] (by decide)
    hdrIntervalArray := guIntervalArrayInit
      [⟨0#64, 0x1000#64, some ⟨some (callerCie []), 0#64, 0x1000#64, 0x1000, 0x1000⟩⟩] }
  cache := .empty
  cfiMemUsage := 0
  cfiDataMemUsage := 0

/-- A program of three functions, mapped at `0x400000`. -/
def threeFunctions : World (List CalcRules) where
  now := fun _ => 1#64
  sweepPending := fun _ => false
  alive := fun _ _ => true
  maps := fun _ _ => [⟨"/bin/tool", 0x400000#64, 0x401000#64, 0#64, false⟩]
  elf := fun _ _ _ _ => some {
    buildId := [7#8]
    debugScanned := true
    golang := false
    execRanges := []
    execVirtAddr := 0#64
    symbols := guIntervalArrayInit [⟨0x100#64, 0x180#64, some "leaf"⟩,
      ⟨0x180#64, 0x200#64, some "work"⟩, ⟨0x200#64, 0x300#64, some "rest"⟩]
    symSearchSize := 0
    cfi := some callerCfi }
  alloc := fun _ => true
  seed := fun _ => 5#64
  comm := fun _ _ => "tool"
  startTime := fun _ _ => 9#64

/-- A sample in `leaf`, called by the last instruction of `work`. -/
def leafSample : StackInfo where
  pid := 11
  stackSize := 4096#64
  uniqueId := 0#64
  regs := some fun r => if r = 16 then 0x400110#64 else if r = 7 then 0x7000#64 else 0#64
  flags := 0#64
  ustackFp := fun _ => 0#64
  ustackFpLevel := 0#64
  stackData := some fun i => [0x00#8, 0x02#8, 0x40#8].getD i 0#8

def leafEnv : UnwindEnv Unit (List CalcRules) where
  target := ⟨.x86, 4096#64⟩
  saved := savedValues
  world := threeFunctions
  depth := 2
  verbose := false

/-- A walk of the sample in a new context. -/
def leafWalk (verbose : Bool) : Except Stuck (UnwindResult Unit (List CalcRules)) :=
  guUnwind (leafEnv.log verbose) (guInit false false false) ⟨.empty, (), .clear⟩ leafSample

/-- The names of the frames a walk emits. -/
def frameSymbols (r : Except Stuck (UnwindResult H P)) : Except Stuck (List (Option String)) :=
  (r.map UnwindResult.observed).map fun o => o.frames.map FrameRecord.symbol

/-- With logging on the caller is `work`, with logging off it is the function behind it. -/
theorem logging_changes_caller :
    frameSymbols (leafWalk true) = .ok [some "leaf", some "work"] ∧
    frameSymbols (leafWalk false) = .ok [some "leaf", some "rest"] ∧
    ¬LoggingTransparent leafEnv (guInit false false false) ⟨.empty, (), .clear⟩ leafSample := by
  have hon : frameSymbols (leafWalk true) = .ok [some "leaf", some "work"] := by decide +kernel
  have hoff : frameSymbols (leafWalk false) = .ok [some "leaf", some "rest"] := by decide +kernel
  refine ⟨hon, hoff, fun h => ?_⟩
  have hsame : frameSymbols (leafWalk true) = frameSymbols (leafWalk false) := by
    rw [frameSymbols, leafWalk, h.1]
    rfl
  rw [hon, hoff] at hsame
  exact absurd hsame (by decide)

end Gunwinder
