import Gunwinder.Native.FramePointer

/-!
# The DWARF loop and `gu_unwind`

A sample is unwound one frame per turn. The first turn is meant to treat the pc as an exact
address and every later one as a return address; the turn counter that tells them apart is
advanced inside the arguments of a log statement, which are evaluated only while verbose logging
is on.
-/

namespace Gunwinder

open Gunwinder.Core

variable {H P : Type}

/-- Static data of the library: the operation lists of the last parse, the store of saved
states and the record of the last rejected read. -/
structure Globals (H : Type) where
  ops : Scratch
  heap : H
  oor : OutOfRange

/-- What a walk runs in: the build, the system, the logging mode, and the bound of the
model on nested evaluations. -/
structure UnwindEnv (H P : Type) where
  target : Target
  saved : SavedStates H P
  world : World P
  depth : Nat
  verbose : Bool

/-- Locals of the DWARF loop at its head; `level` counts the turns taken. -/
structure DwarfState (H P : Type) where
  walk : Walk P
  globals : Globals H
  pc : Word
  sp : Word
  loopCount : Nat
  level : Nat
  currentSignalFrame : Bool
  prevSp : Word
  prevPc : Word
  reason : UnwindReason
  frames : List FrameRecord

/-- How the DWARF loop ends; `level` is `512 - max_backtrace_level`. -/
structure DwarfEnd (H P : Type) where
  walk : Walk P
  globals : Globals H
  pc : Word
  reason : UnwindReason
  level : Nat
  appendCurrentPc : Bool
  frames : List FrameRecord

/-- Leave the loop for a reason. -/
def DwarfState.leave (s : DwarfState H P) (reason : UnwindReason) (appendCurrentPc : Bool) :
    DwarfEnd H P :=
  ⟨s.walk, s.globals, s.pc, reason, s.level, appendCurrentPc, s.frames⟩

/-- What one frame's rules give for its caller. -/
structure Recovered where
  ra : Word
  sp : Word
  bp : Except UnwindReason Word

/-- `gen_reg` on the installed lists. -/
def recoverReg (depth : Nat) (env : EvalEnv) (globals : Globals H) (regno : Nat) :
    Except Stuck (Except UnwindReason Word × Globals H) :=
  match genReg env globals.ops depth regno globals.oor with
  | none => .error .tooDeep
  | some (result, oor) => .ok (result, { globals with oor := oor })

variable (arch : Arch)

/-- The return address: in the initial frame the sampled register stands in for a rule that
fails. -/
def orSampled (info : StackInfo) (initialFrame : Bool) (ra : Except UnwindReason Word) :
    Except UnwindReason Word :=
  match ra with
  | .ok val => .ok val
  | .error reason =>
    match initialFrame, getRegs arch info arch.pcRegno with
    | true, some val => .ok val
    | _, _ => .error reason

/-- The three `gen_reg` calls of a turn. -/
def recoverCaller (depth : Nat) (env : EvalEnv) (initialFrame : Bool) (globals : Globals H) :
    Except Stuck (Except UnwindReason Recovered × Globals H) := do
  let arch := env.target.arch
  let (ra, globals) ← recoverReg depth env globals arch.pcRegno
  match orSampled arch env.info initialFrame ra with
  | .error reason => return (.error reason, globals)
  | .ok ra =>
    let (sp, globals) ← recoverReg depth env globals arch.regNameRsp
    match sp with
    | .error reason => return (.error reason, globals)
    | .ok sp =>
      let (bp, globals) ← recoverReg depth env globals arch.regNameRbp
      return (.ok ⟨ra, sp, bp⟩, globals)

/-- A frame pointer that was recovered is written to the register block. -/
def writeFramePointer (info : StackInfo) : Except UnwindReason Word → StackInfo
  | .ok bp => writeRegs arch info arch.regNameRbp bp
  | .error _ => info

/-- The value `gen_reg` returns for a result. -/
def returnedReason : Except UnwindReason Word → UnwindReason
  | .ok _ => .ok
  | .error reason => reason

/-- The end of a turn: the frame pointer is written at once, the other two registers once
the frame has made progress. -/
def enterCaller (s : DwarfState H P) (signalFrame : Bool) (r : Recovered) :
    Turn (DwarfState H P) (Except Stuck (DwarfEnd H P)) :=
  let info := writeFramePointer arch s.walk.info r.bp
  let s := { s with
    walk := { s.walk with info := info }
    pc := r.ra
    sp := r.sp
    currentSignalFrame := signalFrame
    reason := returnedReason r.bp }
  if s.pc = 0#64 then .stop (.ok (s.leave .endOfStack false))
  else if s.sp ≤ s.prevSp ∨ s.pc = s.prevPc then .stop (.ok (s.leave .noProgress false))
  else
    let info := writeRegs arch (writeRegs arch info arch.regNameRsp s.sp) arch.pcRegno s.pc
    .next { s with walk := { s.walk with info := info }, prevSp := s.sp, prevPc := s.pc }

/-- `gu_cfi_parse_cfi_ex` on the CFI of an entry, which keeps the cache. -/
def parseElf (S : SavedStates H P) (ctx : GuContext P) (globals : Globals H) (id : Nat)
    (cfi : GuCfi P) (pc : Word) : ParseOutcome × GuContext P × Globals H :=
  let (outcome, st) := guCfiParseCfiEx S cfi.data ⟨cfi.cache, globals.ops, globals.heap⟩ pc
  (outcome,
    ctx.modifyElf id fun e => { e with guCfi := e.guCfi.map fun c => { c with cache := st.cache } },
    { globals with ops := st.ops, heap := st.heap })

variable (e : UnwindEnv H P)

/-- The part of a turn behind the emitted frame. -/
def unwindFrame (rawSp : Word) (initialFrame : Bool) (s : DwarfState H P) (elfCtx : PerElfCtx P)
    (bias : Word) : Turn (DwarfState H P) (Except Stuck (DwarfEnd H P)) :=
  match elfCtx.guCfi with
  | none => .stop (.ok (s.leave .noCfi false))
  | some cfi =>
    let (outcome, ctx, globals) := parseElf e.saved s.walk.ctx s.globals elfCtx.id cfi
      (guCfiLookupPcForFrame (s.pc - bias) initialFrame s.currentSignalFrame)
    let s := { s with walk := { s.walk with ctx := ctx }, globals := globals }
    if outcome.ok then
      match recoverCaller e.depth ⟨e.target, bias, rawSp, s.walk.info⟩ initialFrame globals with
      | .error stuck => .stop (.error stuck)
      | .ok (.error reason, globals) =>
        .stop (.ok ({ s with globals := globals }.leave reason false))
      | .ok (.ok recovered, globals) =>
        enterCaller e.target.arch { s with globals := globals } outcome.signalFrame recovered
    else .stop (.ok (s.leave .cfiFrameDecodeFailed false))

/-- The frame of a pc in an ELF file, and the rest of the turn. -/
def emitFrame (rawSp : Word) (initialFrame : Bool) (s : DwarfState H P) (elfCtx : PerElfCtx P)
    (bias : Word) : Turn (DwarfState H P) (Except Stuck (DwarfEnd H P)) :=
  let relativePc := s.pc - bias
  let (sym, funcOffset) := guLookupElfSymbol elfCtx
    (guFrameLookupPcForReturnAddress relativePc initialFrame s.currentSignalFrame)
  let s := { s with
    frames := s.frames ++ [elfFrame s.walk.ctx elfCtx s.pc relativePc funcOffset sym] }
  if isStackBottomSymbol sym then .stop (.ok (s.leave .endOfStack false))
  else unwindFrame e rawSp initialFrame s elfCtx bias

/-- One turn of the DWARF loop. -/
def dwarfTurn (rawSp : Word) (s : DwarfState H P) :
    Turn (DwarfState H P) (Except Stuck (DwarfEnd H P)) :=
  let initialFrame := s.loopCount == 0
  -- the increment stands in the arguments of GU_VERBOSE
  let s := { s with
    level := s.level + 1
    loopCount := if e.verbose then s.loopCount + 1 else s.loopCount }
  match s.walk.locate e.world s.pc with
  | .error stuck => .stop (.error stuck)
  | .ok walk =>
    let s := { s with walk := walk }
    match guGetElfCtxFromItem walk with
    | .error stuck => .stop (.error stuck)
    | .ok none => .stop (.ok (s.leave .noExecPc walk.elfItem.isSome))
    | .ok (some (elfCtx, bias)) => emitFrame e rawSp initialFrame s elfCtx bias

/-- First value of `max_backtrace_level`. -/
def maxBacktraceLevel : Nat := 512

/-- State before the first turn. `gu_unwind` has checked that there is a register block, so
both registers are read. -/
def DwarfState.init (walk : Walk P) (globals : Globals H) : DwarfState H P where
  walk := walk
  globals := globals
  pc := (getRegs arch walk.info arch.regNameRip).getD 0#64
  sp := (getRegs arch walk.info arch.regNameRsp).getD 0#64
  loopCount := 0
  level := 0
  currentSignalFrame := false
  prevSp := (getRegs arch walk.info arch.regNameRsp).getD 0#64
  prevPc := 0#64
  reason := .unknown
  frames := []

/-- The DWARF loop. Left by its counter it has taken one more decrement, and the reason is
that of the last frame pointer. -/
def dwarfLoop (s : DwarfState H P) : Except Stuck (DwarfEnd H P) :=
  loop (dwarfTurn e s.sp)
    (fun s => .ok { s.leave (if s.reason = .unknown then .truncated else s.reason) false with
      level := s.level + 1 })
    maxBacktraceLevel s

/-- What a call of `gu_unwind` leaves. -/
structure UnwindResult (H P : Type) where
  ret : Int
  ctx : GuContext P
  info : StackInfo
  globals : Globals H
  frames : List FrameRecord

/-- The walk along the sampler's chain, as `gu_unwind` returns it. -/
def unwindFp (w : World P) (walk : Walk P) (globals : Globals H) :
    Except Stuck (UnwindResult H P) := do
  let done ← guUnwindByFp w walk
  return ⟨done.level, done.walk.ctx, guFlagsSetReason done.walk.info done.reason, globals,
    done.frames⟩

/-- Unless the DWARF loop has reached the end of the stack, the frame pointer it has left is
followed through the snapshot. -/
def followTail (rawSp : Word) (done : DwarfEnd H P) : Except Stuck (Walk P × List FrameRecord) :=
  if done.reason = .endOfStack ∨ done.reason = .processExit then .ok (done.walk, [])
  else
    match getRegs e.target.arch done.walk.info e.target.arch.regNameRbp with
    | none => .ok (done.walk, [])
    | some bp =>
      guUnwindDwarfTailByFp e.world e.target done.walk rawSp bp done.pc done.appendCurrentPc

/-- What follows the DWARF loop. -/
def finishDwarf (rawSp : Word) (done : DwarfEnd H P) :
    Except Stuck (UnwindResult H P) := do
  let (walk, tail) ← followTail e rawSp done
  let reason := if tail.isEmpty then done.reason else .endOfStack
  return ⟨done.level, walk.ctx, guFlagsSetReason walk.info reason, done.globals,
    done.frames ++ tail⟩

/-- The DWARF walk. -/
def unwindDwarf (walk : Walk P) (globals : Globals H) :
    Except Stuck (UnwindResult H P) := do
  let start := DwarfState.init e.target.arch walk globals
  let done ← dwarfLoop e start
  finishDwarf e start.sp done

/-- The entry `gu_unwind` finds; one that was loaded for another process of the same pid is
destroyed first. -/
def reuseEntry (w : World P) (ctx : GuContext P) (info : StackInfo) :
    Option PerPidCtx × GuContext P :=
  match ctx.pid info.pid with
  | none => (none, ctx)
  | some pidCtx =>
    if info.uniqueId ≠ 0#64 ∧ pidCtx.uniqueId ≠ info.uniqueId ∧ ctx.debug = false then
      let ctx := ctx.count fun st =>
        { st with uniqueIdCausedReloadCount := st.uniqueIdCausedReloadCount + 1 }
      (none, destroyPidCtx w ctx pidCtx)
    else (some pidCtx, ctx)

/-- A process without a table of records is not walked. -/
def requireElfs (pidCtx : PerPidCtx) : Except UnwindReason PerPidCtx :=
  if pidCtx.elfCtxList.isNone then .error .noElf else .ok pidCtx

/-- `gu_unwind` up to its walk: the entry of the process, or the reason there is none. -/
def openProcess (w : World P) (ctx : GuContext P) (info : StackInfo) :
    Except UnwindReason PerPidCtx × StackInfo × GuContext P :=
  if info.regs.isNone then (.error .noRegs, info, ctx)
  else
    let ctx := guMaybeSweepRetiredElf w ctx
    match reuseEntry w ctx info with
    | (some pidCtx, ctx) => (requireElfs pidCtx, info, ctx)
    | (none, ctx) =>
      let (alive, ctx) := ctx.ask fun t => w.alive t info.pid
      if alive = false ∧ ctx.debug = false then (.error .processExit, info, ctx)
      else
        match guLoadPid w ctx info with
        | (none, ctx) => (.error .processExit, info, ctx)
        | (some pidCtx, ctx) =>
          (requireElfs pidCtx, hintGolang pidCtx info, addPidCtx ctx pidCtx)

variable (ctx : GuContext P)

/-- The state a walk starts from. -/
def Walk.init (info : StackInfo) (pidCtx : PerPidCtx) : Walk P :=
  ⟨ctx, info, some pidCtx.pid, none, false⟩

/-- `gu_unwind`. The hint that selects the walk is read before the process is loaded. -/
def guUnwind (globals : Globals H) (info : StackInfo) : Except Stuck (UnwindResult H P) :=
  let fp := guFlagsIsSet info guFlagHintSetFp
  match openProcess e.world ctx info with
  | (.error reason, info, ctx) => .ok ⟨-1, ctx, guFlagsSetReason info reason, globals, []⟩
  | (.ok pidCtx, info, ctx) =>
    let walk := Walk.init ctx info pidCtx
    if fp then unwindFp e.world walk globals else unwindDwarf e walk globals

end Gunwinder
