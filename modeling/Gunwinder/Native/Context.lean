import Gunwinder.Core.Keyed
import Gunwinder.Native.Elf

/-!
# The cache of processes and ELF files

A `gu_context` keeps one entry per process, with a record for each executable mapping of an ELF
file, and one entry per ELF file, which counts the records that point to it. What the process asks
of the system, the clock and the allocator is answered by a `World`, one answer per question, so
any pattern of failures is a world. Hash tables are lists in insertion order with a key.
-/

namespace Gunwinder

open Gunwinder.Core

variable {P : Type}

/-- Subtraction of unsigned 64-bit values. -/
def wrapSub (a b : Nat) : Nat := if b ≤ a then a - b else a + 2 ^ 64 - b

/-- `struct gu_statistics`, without the kernel symbols. -/
structure Statistics where
  elfCtxCount : Nat
  pidCtxCount : Nat
  elfCtxAllocCount : Nat
  pidCtxAllocCount : Nat
  retiredElfCtxCount : Nat
  retiredElfCacheHit : Nat
  retiredElfExpired : Nat
  pidMapsReloadCount : Nat
  pidMapsReloadThrottleCount : Nat
  symbolsMemSize : Nat
  cfiMemSize : Nat
  cfiDataMemSize : Nat
  uniqueIdCausedReloadCount : Nat
  deriving DecidableEq, Repr

def Statistics.zero : Statistics := ⟨0, 0, 0, 0, 0, 0, 0, 0, 0, 0, 0, 0, 0⟩

/-- `struct per_pid_ctx`. A pointer to it is its `pid`. -/
structure PerPidCtx where
  pid : Int
  comm : String
  golang : Bool
  preload : Bool
  uniqueId : Word
  /-- Mapping records by address; a mapping without an ELF file has none. -/
  elfCtxList : Option (IntervalArray (Option MapCtx))
  lastMapsLoadNs : Word
  nextMapsReloadNs : Word
  mapsReloadRandState : Word
  /-- `private` with its size. -/
  privateInfo : Option (List Byte)

/-- `enum gu_pid_ctx_event_type`. -/
inductive PidCtxEventType where
  | create
  | destroy
  deriving DecidableEq, Repr

/-- `struct gu_pid_ctx_event`. -/
structure PidCtxEvent where
  pid : Int
  startTime : Word
  comm : String
  type : PidCtxEventType
  deriving DecidableEq, Repr

/-- Answers to the questions a context asks, by the number of the question. -/
structure World (P : Type) where
  /-- `gu_cache_now_ns`. -/
  now : Nat → Word
  /-- The timer thread has asked for a sweep since the last one. -/
  sweepPending : Nat → Bool
  /-- `kill(pid, 0) == 0`. -/
  alive : Nat → Int → Bool
  /-- `gu_get_maps_info` for executable mappings. -/
  maps : Nat → Int → List MapsInfo
  /-- The file opened, scanned and decoded; `none` when that fails. -/
  elf : Nat → Int → String → Option OpenPath → Option (ElfImage P)
  /-- An allocation succeeds. -/
  alloc : Nat → Bool
  /-- The first state of the reload jitter. -/
  seed : Nat → Word
  comm : Nat → Int → String
  /-- Start time in `/proc/<pid>/stat`, 0 when it cannot be read. -/
  startTime : Nat → Int → Word
  deriving Inhabited

/-- `struct gu_context`, with the events it has delivered. -/
structure GuContext (P : Type) where
  pidCtxList : List PerPidCtx
  elfCtxList : List (PerElfCtx P)
  nextRetiredElfDeadlineNs : Word
  retireTimerStarted : Bool
  debug : Bool
  goOnlyBuildid : Bool
  statistics : Statistics
  events : List PidCtxEvent
  /-- Questions asked so far. -/
  tick : Nat
  /-- The next ELF entry that is allocated. -/
  nextElf : Nat

variable (ctx : GuContext P)

/-- Ask the world. -/
def GuContext.ask {α : Type} (question : Nat → α) : α × GuContext P :=
  (question ctx.tick, { ctx with tick := ctx.tick + 1 })

/-- `HASH_FIND` by build id. -/
def GuContext.findBuildId (buildId : List Byte) : Option (PerElfCtx P) :=
  lookup PerElfCtx.buildId ctx.elfCtxList buildId

/-- The entry behind a pointer. -/
def GuContext.elf (id : Nat) : Option (PerElfCtx P) :=
  lookup PerElfCtx.id ctx.elfCtxList id

/-- Write through a pointer. -/
def GuContext.modifyElf (id : Nat) (f : PerElfCtx P → PerElfCtx P) : GuContext P :=
  { ctx with elfCtxList := update PerElfCtx.id ctx.elfCtxList id f }

/-- `HASH_FIND_INT` by pid. -/
def GuContext.pid (ctx : GuContext P) (pid : Int) : Option PerPidCtx :=
  lookup PerPidCtx.pid ctx.pidCtxList pid

def GuContext.modifyPid (pid : Int) (f : PerPidCtx → PerPidCtx) : GuContext P :=
  { ctx with pidCtxList := update PerPidCtx.pid ctx.pidCtxList pid f }

/-- Change the statistics. -/
def GuContext.count (f : Statistics → Statistics) : GuContext P :=
  { ctx with statistics := f ctx.statistics }

/-- `gu_pid_ctx_event_notify_pid_ctx`. -/
def GuContext.notify (pidCtx : PerPidCtx) (type : PidCtxEventType) : GuContext P :=
  { ctx with events := ctx.events ++ [⟨pidCtx.pid, pidCtx.uniqueId, pidCtx.comm, type⟩] }

end Gunwinder
