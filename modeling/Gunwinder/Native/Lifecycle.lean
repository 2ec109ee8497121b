import Gunwinder.Native.Loader

/-!
# The life of a context

Initialisation, process events, preloading and the final cleanup: the public operations
on a context other than unwinding. Kernel symbols are kept apart from the two tables and
are left out.
-/

namespace Gunwinder

variable {P : Type}

/-- `gu_init`. -/
def guInit (debug goOnlyBuildid retireTimerStarted : Bool) : GuContext P where
  pidCtxList := []
  elfCtxList := []
  nextRetiredElfDeadlineNs := 0#64
  retireTimerStarted := retireTimerStarted
  debug := debug
  goOnlyBuildid := goOnlyBuildid
  statistics := .zero
  events := []
  tick := 0
  nextElf := 0

variable (w : World P) (ctx : GuContext P)

/-- `gu_set_pid_private_info`; the blob is `none` when it is NULL or empty. -/
def guSetPidPrivateInfo (pid : Int) (blob : Option (List Byte)) : GuContext P :=
  match ctx.pid pid, blob with
  | none, _ => ctx
  | some _, none => ctx.modifyPid pid fun p => { p with privateInfo := none }
  | some _, some bytes =>
    let (granted, ctx) := ctx.ask w.alloc
    ctx.modifyPid pid fun p => { p with privateInfo := if granted then some bytes else none }

/-- `gu_get_pid_unique_id`: the id the entry was loaded with, or the start time. -/
def guGetPidUniqueId (pid : Int) : Word × GuContext P :=
  if pid ≤ 0 then (0#64, ctx)
  else
    match ctx.pid pid with
    | none => ctx.ask fun t => w.startTime t pid
    | some pidCtx =>
      if pidCtx.uniqueId = 0#64 then ctx.ask fun t => w.startTime t pid
      else (pidCtx.uniqueId, ctx)

/-- `gu_set_pid_exit_unique`. -/
def guSetPidExitUnique (pid : Int) (uniqueId : Word) : GuContext P :=
  match ctx.pid pid with
  | none => ctx
  | some pidCtx =>
    if uniqueId ≠ 0#64 ∧ pidCtx.uniqueId ≠ uniqueId then ctx else destroyPidCtx w ctx pidCtx

/-- `enum gu_event_type`, with the pid of an exit. -/
inductive GuEvent where
  | processExit (pid : Option Int)
  | moduleReload
  deriving DecidableEq, Repr

/-- `gu_event_occur`. -/
def guEventOccur (event : GuEvent) : GuContext P :=
  let ctx := guMaybeSweepRetiredElf w ctx
  match event with
  | .processExit (some pid) => guSetPidExitUnique w ctx pid 0#64
  | .processExit none => ctx
  | .moduleReload => ctx

/-- The sample `gu_preload_pid_debug_info` loads a process with. -/
def preloadInfo (pid : Int) (uniqueId : Word) : StackInfo where
  pid := pid
  stackSize := 0#64
  uniqueId := uniqueId
  regs := none
  flags := 0#64
  ustackFp := fun _ => 0#64
  ustackFpLevel := 0#64
  stackData := none

/-- `gu_preload_pid_debug_info`, with its return value. -/
def guPreloadPidDebugInfo (pid : Int) : Word × GuContext P :=
  let (uniqueId, ctx) := guGetPidUniqueId w ctx pid
  let ctx := guMaybeSweepRetiredElf w ctx
  match ctx.pid pid with
  | some pidCtx => (pidCtx.uniqueId, ctx)
  | none =>
    let (alive, ctx) := ctx.ask fun t => w.alive t pid
    if alive then
      match guLoadPid w ctx (preloadInfo pid uniqueId) with
      | (none, ctx) => (0#64, ctx)
      | (some pidCtx, ctx) =>
        let pidCtx := { pidCtx with preload := true }
        (pidCtx.uniqueId, addPidCtx ctx pidCtx)
    else (0#64, ctx)

/-- The two tables when `gu_cleanup` frees the context. -/
def guCleanup : GuContext P :=
  guRetiredElfSweep (ctx.pidCtxList.foldl (guClearPidCtx w) ctx) uint64Max

end Gunwinder
