import Gunwinder.Native.Unwind
import Gunwinder.Rows.CacheTransparency

/-!
# Unwinding without state

What `gu_unwind` is for, as a function of a process and a sample. The process is its list of
executable mappings and the files behind them; nothing is cached, shared, retired or loaded
again, and a frame names its file by build id.
-/

namespace Gunwinder

open Gunwinder.Core

/-! ## Processes -/

/-- What the walks read of an ELF file. -/
structure FileView (P : Type) where
  buildId : List Byte
  golang : Bool
  symbols : Option (IntervalArray (Option String))
  execRanges : List ExecRange
  execVirtAddr : Word
  cfi : Option (CfiData P)

variable {P : Type}

/-- What an image shows. The CFI of a Go file is not read. -/
def ElfImage.view (image : ElfImage P) : FileView P where
  buildId := image.buildId
  golang := image.golang
  symbols := image.symbols
  execRanges := image.execRanges
  execVirtAddr := image.execVirtAddr
  cfi := if image.golang then none else image.cfi.map GuCfi.data

/-- The address in the file that a mapping starts at. -/
def FileView.mappedAt (file : FileView P) (map : MapsInfo) : Word :=
  let found := if map.fin ≤ map.start then 0#64
    else (guElfExecRangesFindByOffset file.execRanges map.offset (map.fin - map.start)).getD 0#64
  if found = 0#64 then file.execVirtAddr else found

/-- A process that does not change: its mappings, and its files by path. -/
structure Process (P : Type) where
  maps : List MapsInfo
  file : String → Option OpenPath → Option (ElfImage P)

/-- The file behind a mapping with its address, if there is one that can be read whole. -/
abbrev FileAt (P : Type) := Option (FileView P × Word)

/-- What is behind one mapping. -/
def fileAt (map : MapsInfo) (file : Option (ElfImage P)) : FileAt P :=
  match file with
  | none => none
  | some image => if image.debugScanned then some (image.view, image.view.mappedAt map) else none

/-- The path a mapping is opened by; `debug` is the setting of the library. -/
def openedPath (debug first : Bool) (map : MapsInfo) : Option OpenPath :=
  if !debug && map.deleted then some (if first then .exe else .mapFiles map.start map.fin)
  else none

/-- The mappings of a process with their files. -/
def Process.records (process : Process P) (debug : Bool) :
    Bool → List MapsInfo → List (Interval (FileAt P))
  | _, [] => []
  | first, map :: rest =>
    ⟨map.start, map.fin, fileAt map (process.file map.path (openedPath debug first map))⟩ ::
      process.records debug false rest

/-- The table a pc is looked up in; `none` for a process without mappings. -/
def Process.table (process : Process P) (debug : Bool) : Option (IntervalArray (FileAt P)) :=
  guIntervalArrayInit (process.records debug true process.maps)

/-! ## Frames -/

/-- A frame, with the build id of its file. -/
structure FrameView where
  pc : Word
  absPc : Word
  offset : Word
  symbol : Option String
  buildId : Option (List Byte)
  flags : Word
  deriving DecidableEq, Repr

namespace Stateless

/-- What a run of the unwinder is given besides the sample. -/
structure Setup where
  target : Target
  depth : Nat
  verbose : Bool
  goOnlyBuildid : Bool
  table : IntervalArray (FileAt (List CalcRules))

/-- The record in hand. -/
abbrev Item := Option (Interval (FileAt (List CalcRules)))

/-- The record in hand is that of the pc. -/
def covers (item : Item) (pc : Word) : Bool :=
  match item with
  | none => false
  | some item => item.payload.isSome && decide (item.start ≤ pc ∧ pc < item.fin)

/-- The record of a pc. -/
def locate (table : IntervalArray (FileAt (List CalcRules))) (item : Item) (pc : Word) : Item :=
  if covers item pc then item else (guIntervalArraySearch table pc).map Prod.snd

/-- The file of the record in hand, with its load bias. -/
def fileOf (item : Item) : Option (FileView (List CalcRules) × Word) :=
  item.bind fun item => item.payload.map fun (file, address) => (file, item.start - address)

/-- The symbol a relative pc is in, with the offset into it. -/
def symbolAt (file : FileView P) (pc : Word) : Option (Option String × Word) :=
  file.symbols.bind fun symbols =>
    (guIntervalArraySearch symbols pc).map fun (_, item) => (item.payload, pc - item.start)

/-- The name of a pc with its offset; a pc that has no name has offset 0. -/
def nameAt (file : FileView P) (pc : Word) : Option String × Word :=
  match symbolAt file pc with
  | some (some name, offset) => (some name, offset)
  | _ => (none, 0#64)

/-- The frame of a pc in a file. Go files may be reported by function entry. -/
def fileFrame (goOnlyBuildid : Bool) (file : FileView P) (pc relativePc offset : Word)
    (symbol : Option String) : FrameView :=
  if !goOnlyBuildid || !file.golang then
    ⟨relativePc, pc, offset, symbol, some file.buildId, 0#64⟩
  else ⟨relativePc - offset, pc, 0#64, none, some file.buildId, 0#64⟩

/-- The frame of a pc outside every file. -/
def anonFrame (pc : Word) : FrameView := ⟨pc, pc, 0#64, none, none, guFrameAnonExec⟩

/-! ## The chain of the sampler -/

/-- The head of a turn along the chain. -/
structure FpState where
  item : Item
  pc : Word
  fpLevel : Nat
  level : Nat
  frames : List FrameView

/-- How a walk ends. -/
structure WalkEnd where
  reason : UnwindReason
  level : Nat
  frames : List FrameView

variable (setup : Setup)

/-- One turn along the chain. -/
def fpTurn (ustackFp : Nat → Word) (maxFpLevel : Nat) (allowUnknown : Bool) (s : FpState) :
    Turn FpState WalkEnd :=
  let level := s.level + 1
  if s.pc = 0#64 then .stop ⟨.endOfStack, level, s.frames⟩
  else
    let item := locate setup.table s.item s.pc
    match fileOf item with
    | none =>
      if allowUnknown then
        let frames := s.frames ++ [anonFrame s.pc]
        if maxFpLevel ≤ s.fpLevel then .stop ⟨.endOfStack, level, frames⟩
        else .next ⟨item, ustackFp s.fpLevel, s.fpLevel + 1, level, frames⟩
      else .stop ⟨.noExecPc, level, s.frames⟩
    | some (file, bias) =>
      let relativePc := s.pc - bias
      let (symbol, offset) := (symbolAt file relativePc).getD (none, 0#64)
      let frames := s.frames ++ [fileFrame setup.goOnlyBuildid file s.pc relativePc offset symbol]
      if isStackBottomSymbol symbol ∨ maxFpLevel ≤ s.fpLevel then
        .stop ⟨.endOfStack, level, frames⟩
      else .next ⟨item, ustackFp s.fpLevel, s.fpLevel + 1, level, frames⟩

/-- The walk along the chain of the sampler. -/
def unwindByFp (info : StackInfo) : WalkEnd :=
  let maxFpLevel := min info.ustackFpLevel.toNat maxFpStackLevel
  if maxFpLevel = 0 then ⟨.endOfStack, 0, []⟩
  else loop (fpTurn setup info.ustackFp maxFpLevel (guFlagsIsSet info guFlagFpAllowUnknown))
    (fun s => ⟨.truncated, s.level + 1, s.frames⟩) maxFpStackLevel
    ⟨none, info.ustackFp 0, 1, 0, []⟩

/-! ## The tail of the DWARF walk -/

/-- The frame of a pc, or `none` when it is in no mapping. -/
def appendPc (item : Item) (pc : Word) (initialFrame signalFrame : Bool) :
    Item × Option FrameView :=
  if pc = 0#64 then (item, none)
  else
    let item := locate setup.table item pc
    if item.isNone then (item, none)
    else
      match fileOf item with
      | none => (item, some (anonFrame pc))
      | some (file, bias) =>
        let relativePc := pc - bias
        let (symbol, offset) := nameAt file
          (guFrameLookupPcForReturnAddress relativePc initialFrame signalFrame)
        (item, some ⟨relativePc, pc, offset, symbol, some file.buildId, 0#64⟩)

/-- The head of a turn of the tail. -/
structure TailState where
  item : Item
  bp : Word
  frames : List FrameView

/-- One turn of the tail. -/
def tailTurn (info : StackInfo) (rawSp : Word) (s : TailState) : Turn TailState TailState :=
  match guStackSnapshotReadU64 setup.target info rawSp s.bp,
      guStackSnapshotReadU64 setup.target info rawSp (s.bp + 8#64) with
  | some nextBp, some nextPc =>
    if guFramePointerSane s.bp nextBp ∧ nextPc ≠ 0#64 then
      match appendPc setup s.item nextPc false false with
      | (item, none) => .stop { s with item := item }
      | (item, some frame) =>
        let frames := s.frames ++ [frame]
        if isStackBottomSymbol frame.symbol then .stop ⟨item, s.bp, frames⟩
        else .next ⟨item, nextBp, frames⟩
    else .stop s
  | _, _ => .stop s

/-- The frames of the tail, from the pc the DWARF loop has stopped at. -/
def unwindTail (info : StackInfo) (rawSp bp pc : Word) (appendCurrentPc : Bool) : List FrameView :=
  let (item, first) := if appendCurrentPc then appendPc setup none pc true false else (none, none)
  if first.any fun frame => isStackBottomSymbol frame.symbol then first.toList
  else (loop (tailTurn setup info rawSp) id maxFpStackLevel ⟨item, bp, first.toList⟩).frames

/-! ## The DWARF loop -/

/-- What the operation lists of a row give for the caller. -/
def callerOf (depth : Nat) (env : EvalEnv) (initialFrame : Bool) (ops : Scratch) :
    Except Stuck (Except UnwindReason Recovered) :=
  (recoverCaller depth env initialFrame (⟨ops, (), .clear⟩ : Globals Unit)).map Prod.fst

/-- The head of a turn of the DWARF loop. -/
structure DwarfState where
  item : Item
  info : StackInfo
  pc : Word
  sp : Word
  loopCount : Nat
  level : Nat
  currentSignalFrame : Bool
  prevSp : Word
  prevPc : Word
  reason : UnwindReason
  frames : List FrameView

/-- How the DWARF loop ends. -/
structure DwarfEnd where
  info : StackInfo
  pc : Word
  reason : UnwindReason
  level : Nat
  appendCurrentPc : Bool
  frames : List FrameView

def DwarfState.leave (s : DwarfState) (reason : UnwindReason) (appendCurrentPc : Bool) :
    DwarfEnd :=
  ⟨s.info, s.pc, reason, s.level, appendCurrentPc, s.frames⟩

/-- The registers of the caller replace those of the frame, if there is progress. -/
def enterCaller (arch : Arch) (s : DwarfState) (signalFrame : Bool) (r : Recovered) :
    Turn DwarfState (Except Stuck DwarfEnd) :=
  let info := writeFramePointer arch s.info r.bp
  let s := { s with
    info := info
    pc := r.ra
    sp := r.sp
    currentSignalFrame := signalFrame
    reason := returnedReason r.bp }
  if s.pc = 0#64 then .stop (.ok (s.leave .endOfStack false))
  else if s.sp ≤ s.prevSp ∨ s.pc = s.prevPc then .stop (.ok (s.leave .noProgress false))
  else .next { s with
    info := writeRegs arch (writeRegs arch info arch.regNameRsp s.sp) arch.pcRegno s.pc
    prevSp := s.sp
    prevPc := s.pc }

/-- The caller of a frame, by the row of its pc. -/
def unwindFrame (rawSp : Word) (initialFrame : Bool) (s : DwarfState)
    (file : FileView (List CalcRules)) (bias : Word) : Turn DwarfState (Except Stuck DwarfEnd) :=
  match file.cfi with
  | none => .stop (.ok (s.leave .noCfi false))
  | some cfi =>
    let row := freshParse cfi
      (guCfiLookupPcForFrame (s.pc - bias) initialFrame s.currentSignalFrame)
    if row.ok then
      match callerOf setup.depth ⟨setup.target, bias, rawSp, s.info⟩ initialFrame row.ops with
      | .error stuck => .stop (.error stuck)
      | .ok (.error reason) => .stop (.ok (s.leave reason false))
      | .ok (.ok recovered) => enterCaller setup.target.arch s row.signalFrame recovered
    else .stop (.ok (s.leave .cfiFrameDecodeFailed false))

/-- The frame of a pc in a file, and the rest of the turn. -/
def emitFrame (rawSp : Word) (initialFrame : Bool) (s : DwarfState)
    (file : FileView (List CalcRules)) (bias : Word) : Turn DwarfState (Except Stuck DwarfEnd) :=
  let relativePc := s.pc - bias
  let (symbol, offset) := nameAt file
    (guFrameLookupPcForReturnAddress relativePc initialFrame s.currentSignalFrame)
  let s := { s with
    frames := s.frames ++ [fileFrame setup.goOnlyBuildid file s.pc relativePc offset symbol] }
  if isStackBottomSymbol symbol then .stop (.ok (s.leave .endOfStack false))
  else unwindFrame setup rawSp initialFrame s file bias

/-- One turn of the DWARF loop. -/
def dwarfTurn (rawSp : Word) (s : DwarfState) : Turn DwarfState (Except Stuck DwarfEnd) :=
  let initialFrame := s.loopCount == 0
  let item := locate setup.table s.item s.pc
  let s := { s with
    item := item
    level := s.level + 1
    loopCount := if setup.verbose then s.loopCount + 1 else s.loopCount }
  match fileOf item with
  | none => .stop (.ok (s.leave .noExecPc item.isSome))
  | some (file, bias) => emitFrame setup rawSp initialFrame s file bias

/-- The head of the first turn. -/
def DwarfState.init (arch : Arch) (info : StackInfo) : DwarfState where
  item := none
  info := info
  pc := (getRegs arch info arch.regNameRip).getD 0#64
  sp := (getRegs arch info arch.regNameRsp).getD 0#64
  loopCount := 0
  level := 0
  currentSignalFrame := false
  prevSp := (getRegs arch info arch.regNameRsp).getD 0#64
  prevPc := 0#64
  reason := .unknown
  frames := []

/-- The DWARF loop. -/
def dwarfLoop (s : DwarfState) : Except Stuck DwarfEnd :=
  loop (dwarfTurn setup s.sp)
    (fun s => .ok { s.leave (if s.reason = .unknown then .truncated else s.reason) false with
      level := s.level + 1 })
    maxBacktraceLevel s

/-- The frames the tail adds. -/
def followTail (rawSp : Word) (done : DwarfEnd) : List FrameView :=
  if done.reason = .endOfStack ∨ done.reason = .processExit then []
  else
    match getRegs setup.target.arch done.info setup.target.arch.regNameRbp with
    | none => []
    | some bp => unwindTail setup done.info rawSp bp done.pc done.appendCurrentPc

/-! ## `gu_unwind` -/

/-- What a caller of `gu_unwind` sees. -/
structure Report where
  ret : Int
  reason : UnwindReason
  frames : List FrameView

/-- The DWARF walk. -/
def unwindDwarf (info : StackInfo) : Except Stuck Report := do
  let start := DwarfState.init setup.target.arch info
  let done ← dwarfLoop setup start
  let tail := followTail setup start.sp done
  return ⟨done.level, if tail.isEmpty then done.reason else .endOfStack, done.frames ++ tail⟩

/-- A walk of a process. -/
def walk (info : StackInfo) : Except Stuck Report :=
  if guFlagsIsSet info guFlagHintSetFp then
    let done := unwindByFp setup info
    .ok ⟨done.level, done.reason, done.frames⟩
  else unwindDwarf setup info

/-- The report on a sample of a process. -/
def unwind (target : Target) (depth : Nat) (verbose debug goOnlyBuildid : Bool)
    (process : Process (List CalcRules)) (info : StackInfo) : Except Stuck Report :=
  if info.regs.isNone then .ok ⟨-1, .noRegs, []⟩
  else
    match process.table debug with
    | none => .ok ⟨-1, .processExit, []⟩
    | some table => walk ⟨target, depth, verbose, goOnlyBuildid, table⟩ info

end Stateless

end Gunwinder
