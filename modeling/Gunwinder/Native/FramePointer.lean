import Gunwinder.Native.Loader

/-!
# Frame records and the two frame-pointer walks

`gu_unwind_by_fp` symbolises the chain the sampler has already followed; the tail walk follows
saved frame pointers in the snapshot where the DWARF loop has stopped. In both, the entry behind
`elf_item` is read off the item: the source keeps it in a local that is set whenever the item is.
-/

namespace Gunwinder

open Gunwinder.Core

variable {P : Type}

/-- `struct gu_frame_record`. -/
structure FrameRecord where
  pc : Word
  absPc : Word
  offset : Word
  symbol : Option String
  elfInfo : Option Nat
  flags : Word
  deriving DecidableEq, Repr

/-- `GU_FRAME_ANON_EXEC`. -/
def guFrameAnonExec : Word := 1#64

/-- `is_stack_bottom_symbol`. -/
def isStackBottomSymbol (sym : Option String) : Bool :=
  match sym with
  | none => false
  | some name => ["_start", "__libc_start_main", "__libc_start_call_main", "start_thread",
      "clone", "__clone"].contains name

/-- `gu_frame_lookup_pc_for_return_address`. -/
def guFrameLookupPcForReturnAddress (pc : Word) (initialFrame signalFrame : Bool) : Word :=
  if initialFrame || signalFrame || pc == 0#64 then pc else pc - 1#64

/-- `gu_cfi_lookup_pc_for_frame`. -/
def guCfiLookupPcForFrame (pc : Word) (initialFrame signalFrame : Bool) : Word :=
  guFrameLookupPcForReturnAddress pc initialFrame signalFrame

/-- `gu_lookup_elf_symbol`: the name and the offset into it, NULL and 0 when it fails. -/
def guLookupElfSymbol (elfCtx : PerElfCtx P) (lookupRelativePc : Word) : Option String × Word :=
  match elfCtx.symbols with
  | none => (none, 0#64)
  | some symbols =>
    match guIntervalArraySearch symbols lookupRelativePc with
    | none => (none, 0#64)
    | some (_, item) =>
      match item.payload with
      | none => (none, 0#64)
      | some symbol => (some symbol, lookupRelativePc - item.start)

/-- The record of a frame in an ELF file. Go files may be reported by function entry. -/
def elfFrame (ctx : GuContext P) (elfCtx : PerElfCtx P) (pc relativePc funcOffset : Word)
    (sym : Option String) : FrameRecord :=
  if !ctx.goOnlyBuildid || !elfCtx.golang then
    ⟨relativePc, pc, funcOffset, sym, some elfCtx.id, 0#64⟩
  else ⟨relativePc - funcOffset, pc, 0#64, none, some elfCtx.id, 0#64⟩

/-- The record of a frame outside every ELF file. -/
def anonFrame (pc : Word) : FrameRecord := ⟨pc, pc, 0#64, none, none, guFrameAnonExec⟩

/-! ## The chain of the sampler -/

/-- Locals of `gu_unwind_by_fp` at the head of its loop; `level` counts the turns taken. -/
structure FpState (P : Type) where
  walk : Walk P
  pc : Word
  fpLevel : Nat
  level : Nat
  frames : List FrameRecord

/-- How a walk ends. -/
structure WalkEnd (P : Type) where
  walk : Walk P
  reason : UnwindReason
  level : Nat
  frames : List FrameRecord

/-- The symbol search of `gu_unwind_by_fp`, at the pc itself. -/
def fpSymbol (elfCtx : PerElfCtx P) (relativePc : Word) : Option String × Word :=
  match elfCtx.symbols with
  | none => (none, 0#64)
  | some symbols =>
    match guIntervalArraySearch symbols relativePc with
    | none => (none, 0#64)
    | some (_, item) => (item.payload, relativePc - item.start)

variable (w : World P)

/-- One turn of the loop. -/
def fpTurn (ustackFp : Nat → Word) (maxFpLevel : Nat) (allowUnknown : Bool) (s : FpState P) :
    Turn (FpState P) (Except Stuck (WalkEnd P)) :=
  let s := { s with level := s.level + 1 }
  if s.pc = 0#64 then .stop (.ok ⟨s.walk, .endOfStack, s.level, s.frames⟩)
  else
    match s.walk.locate w s.pc with
    | .error stuck => .stop (.error stuck)
    | .ok walk =>
      match guGetElfCtxFromItem walk with
      | .error stuck => .stop (.error stuck)
      | .ok none =>
        if allowUnknown then
          let frames := s.frames ++ [anonFrame s.pc]
          if maxFpLevel ≤ s.fpLevel then .stop (.ok ⟨walk, .endOfStack, s.level, frames⟩)
          else .next ⟨walk, ustackFp s.fpLevel, s.fpLevel + 1, s.level, frames⟩
        else .stop (.ok ⟨walk, .noExecPc, s.level, s.frames⟩)
      | .ok (some (elfCtx, bias)) =>
        let relativePc := s.pc - bias
        let (sym, funcOffset) := fpSymbol elfCtx relativePc
        let frames := s.frames ++ [elfFrame walk.ctx elfCtx s.pc relativePc funcOffset sym]
        if isStackBottomSymbol sym ∨ maxFpLevel ≤ s.fpLevel then
          .stop (.ok ⟨walk, .endOfStack, s.level, frames⟩)
        else .next ⟨walk, ustackFp s.fpLevel, s.fpLevel + 1, s.level, frames⟩

/-- `gu_unwind_by_fp`; the loop that is left by its counter has taken one more decrement. -/
def guUnwindByFp (walk : Walk P) : Except Stuck (WalkEnd P) :=
  let info := walk.info
  let maxFpLevel := min info.ustackFpLevel.toNat maxFpStackLevel
  if maxFpLevel = 0 then .ok ⟨walk, .endOfStack, 0, []⟩
  else loop (fpTurn w info.ustackFp maxFpLevel (guFlagsIsSet info guFlagFpAllowUnknown))
    (fun s => .ok ⟨s.walk, .truncated, s.level + 1, s.frames⟩) maxFpStackLevel
    ⟨walk, info.ustackFp 0, 1, 0, []⟩

/-! ## The tail of the DWARF walk -/

variable (target : Target)

/-- `gu_stack_snapshot_read_u64`. -/
def guStackSnapshotReadU64 (info : StackInfo) (rawSp addr : Word) : Option Word :=
  match info.stackData with
  | none => none
  | some data =>
    let stackStart := rawSp - rawSp % target.pageSize
    let stackEnd := stackStart + info.stackSize
    if addr < stackStart ∨ stackEnd ≤ addr ∨ addr + 8#64 < addr ∨ stackEnd - addr < 8#64 then none
    else some (load64 data (addr - stackStart).toNat)

/-- `gu_frame_pointer_sane`. -/
def guFramePointerSane (bp nextBp : Word) : Bool :=
  bp != 0#64 && nextBp != 0#64 && bp &&& 7#64 == 0#64 && nextBp &&& 7#64 == 0#64 &&
    decide (bp < nextBp)

/-- `gu_append_pc_frame`: the record it emits, or `none` for its `false`. -/
def guAppendPcFrame (walk : Walk P) (pc : Word) (initialFrame signalFrame : Bool) :
    Except Stuck (Walk P × Option FrameRecord) :=
  if pc = 0#64 then .ok (walk, none)
  else
    match walk.locate w pc with
    | .error stuck => .error stuck
    | .ok walk =>
      if walk.elfItem.isNone then .ok (walk, none)
      else
        match guGetElfCtxFromItem walk with
        | .error stuck => .error stuck
        | .ok none => .ok (walk, some (anonFrame pc))
        | .ok (some (elfCtx, bias)) =>
          let relativePc := pc - bias
          let (sym, offset) := guLookupElfSymbol elfCtx
            (guFrameLookupPcForReturnAddress relativePc initialFrame signalFrame)
          .ok (walk, some ⟨relativePc, pc, offset, sym, some elfCtx.id, 0#64⟩)

/-- Locals of `gu_unwind_dwarf_tail_by_fp` at the head of its loop. -/
structure TailState (P : Type) where
  walk : Walk P
  bp : Word
  frames : List FrameRecord

/-- One turn of the tail; the record of a stack bottom is the last one. -/
def tailTurn (rawSp : Word) (s : TailState P) : Turn (TailState P) (Except Stuck (TailState P)) :=
  match guStackSnapshotReadU64 target s.walk.info rawSp s.bp,
      guStackSnapshotReadU64 target s.walk.info rawSp (s.bp + 8#64) with
  | some nextBp, some nextPc =>
    if guFramePointerSane s.bp nextBp ∧ nextPc ≠ 0#64 then
      match guAppendPcFrame w s.walk nextPc false false with
      | .error stuck => .stop (.error stuck)
      | .ok (walk, none) => .stop (.ok { s with walk := walk })
      | .ok (walk, some frame) =>
        let frames := s.frames ++ [frame]
        if isStackBottomSymbol frame.symbol then .stop (.ok ⟨walk, s.bp, frames⟩)
        else .next ⟨walk, nextBp, frames⟩
    else .stop (.ok s)
  | _, _ => .stop (.ok s)

/-- The loop of the tail. -/
def tailLoop (rawSp : Word) (s : TailState P) : Except Stuck (TailState P) :=
  loop (tailTurn w target rawSp) .ok maxFpStackLevel s

/-- The frame of the pc the DWARF loop has stopped at, when the tail is to emit it. -/
def appendCurrent (walk : Walk P) (pc : Word) (appendCurrentPc : Bool) :
    Except Stuck (Walk P × Option FrameRecord) :=
  if appendCurrentPc then guAppendPcFrame w walk pc true false else .ok (walk, none)

/-- `gu_unwind_dwarf_tail_by_fp`: the walk and the records it emits. The caller's reason
becomes `END_OF_STACK` when there is a record. -/
def guUnwindDwarfTailByFp (walk : Walk P) (rawSp bp pc : Word) (appendCurrentPc : Bool) :
    Except Stuck (Walk P × List FrameRecord) :=
  if walk.pidCtx.isNone then .ok (walk, [])
  else do
    let (walk, first) ← appendCurrent w { walk with elfItem := none, mapsReloaded := false } pc
      appendCurrentPc
    if first.any fun frame => isStackBottomSymbol frame.symbol then return (walk, first.toList)
    let tail ← tailLoop w target rawSp ⟨walk, bp, first.toList⟩
    return (tail.walk, tail.frames)

end Gunwinder
