import Gunwinder.Native.Context

/-!
# Loading, sharing and retiring

The operations on the two tables of a context. Entries of ELF files are shared by build
id: loading a file that is known takes another reference, also on a retired entry, which
becomes active again. Clearing the entry of a process drops the references of all its
mapping records; so does a load that fails half-way.
-/

namespace Gunwinder

open Gunwinder.Core

variable {P : Type}

/-- `GU_ELF_RETIRE_TTL_NS`. -/
def guElfRetireTtlNs : Word := 10000000000#64

/-- `GU_PID_MAPS_RELOAD_MIN_INTERVAL_NS`. -/
def guPidMapsReloadMinIntervalNs : Word := 30000000000#64

/-- `GU_PID_MAPS_RELOAD_MAX_INTERVAL_NS`. -/
def guPidMapsReloadMaxIntervalNs : Word := 90000000000#64

/-! ## ELF entries -/

variable (w : World P) (ctx : GuContext P)

/-- `gu_unretire_elf_ctx`. -/
def guUnretireElfCtx (elfCtx : PerElfCtx P) (activate : Bool) : GuContext P :=
  if elfCtx.retired then
    (ctx.modifyElf elfCtx.id fun e => { e with retired := false, retireDeadlineNs := 0#64 }).count
      fun st => { st with
        retiredElfCtxCount := st.retiredElfCtxCount - 1
        elfCtxCount := if activate then st.elfCtxCount + 1 else st.elfCtxCount }
  else ctx

/-- The statistics give back what an entry's symbols and CFI were charged for. -/
def Statistics.refund (st : Statistics) (symbols : Option (IntervalArray (Option String)))
    (symSearchSize : Nat) (cfi : Option (GuCfi P)) : Statistics :=
  { st with
    symbolsMemSize :=
      if symbols.isSome then wrapSub st.symbolsMemSize symSearchSize else st.symbolsMemSize
    cfiMemSize := wrapSub st.cfiMemSize ((cfi.map GuCfi.cfiMemUsage).getD 0)
    cfiDataMemSize := wrapSub st.cfiDataMemSize ((cfi.map GuCfi.cfiDataMemUsage).getD 0) }

/-- The statistics are charged for new symbols and CFI. -/
def Statistics.charge (st : Statistics) (symbols : Option (IntervalArray (Option String)))
    (symSearchSize : Nat) (cfi : Option (GuCfi P)) : Statistics :=
  { st with
    symbolsMemSize := if symbols.isSome then st.symbolsMemSize + symSearchSize
      else st.symbolsMemSize
    cfiMemSize := st.cfiMemSize + (cfi.map GuCfi.cfiMemUsage).getD 0
    cfiDataMemSize := st.cfiDataMemSize + (cfi.map GuCfi.cfiDataMemUsage).getD 0 }

/-- `clear_elf_ctx` for an entry of the table. -/
def clearElfCtx (elfCtx : PerElfCtx P) : GuContext P :=
  let ctx := guUnretireElfCtx ctx elfCtx false
  let ctx := ctx.count fun st => st.refund elfCtx.symbols elfCtx.symSearchSize elfCtx.guCfi
  let ctx := { ctx with elfCtxList := remove PerElfCtx.id ctx.elfCtxList elfCtx.id }
  if elfCtx.retired then ctx
  else ctx.count fun st => { st with elfCtxCount := st.elfCtxCount - 1 }

/-- `gu_retire_elf_ctx`. -/
def guRetireElfCtx (elfCtx : PerElfCtx P) : GuContext P :=
  if elfCtx.retired then ctx
  else
    let (now, ctx) := ctx.ask w.now
    let deadline := now + guElfRetireTtlNs
    let ctx := ctx.modifyElf elfCtx.id fun e =>
      { e with retired := true, retireDeadlineNs := deadline }
    let ctx := ctx.count fun st => { st with
      elfCtxCount := st.elfCtxCount - 1
      retiredElfCtxCount := st.retiredElfCtxCount + 1 }
    if ctx.nextRetiredElfDeadlineNs = 0#64 ∨ deadline < ctx.nextRetiredElfDeadlineNs then
      { ctx with nextRetiredElfDeadlineNs := deadline }
    else ctx

/-- `gu_put_elf_ctx`, through a pointer. -/
def guPutElfCtx (id : Nat) : GuContext P :=
  match ctx.elf id with
  | none => ctx
  | some elfCtx =>
    let elfCtx := { elfCtx with refcnt := wrapSub elfCtx.refcnt 1 }
    let ctx := ctx.modifyElf id fun e => { e with refcnt := wrapSub e.refcnt 1 }
    if elfCtx.refcnt = 0 then guRetireElfCtx w ctx elfCtx else ctx

/-- One entry of the sweep, with the earliest deadline that is left. -/
def sweepEntry (now : Word) (acc : GuContext P × Word) (elfCtx : PerElfCtx P) :
    GuContext P × Word :=
  if !elfCtx.retired then acc
  else if now = uint64Max ∨ elfCtx.retireDeadlineNs ≤ now then
    (clearElfCtx (acc.1.count fun st => { st with retiredElfExpired := st.retiredElfExpired + 1 })
      elfCtx, acc.2)
  else if acc.2 = 0#64 ∨ elfCtx.retireDeadlineNs < acc.2 then (acc.1, elfCtx.retireDeadlineNs)
  else acc

/-- `gu_retired_elf_sweep`. -/
def guRetiredElfSweep (now : Word) : GuContext P :=
  if now = 0#64 then ctx
  else if now ≠ uint64Max ∧ (ctx.statistics.retiredElfCtxCount = 0 ∨
      (ctx.nextRetiredElfDeadlineNs ≠ 0#64 ∧ now < ctx.nextRetiredElfDeadlineNs)) then ctx
  else
    let (swept, nextDeadline) := ctx.elfCtxList.foldl (sweepEntry now)
      ({ ctx with nextRetiredElfDeadlineNs := 0#64 }, 0#64)
    { swept with nextRetiredElfDeadlineNs := nextDeadline }

/-- `gu_maybe_sweep_retired_elf`. -/
def guMaybeSweepRetiredElf : GuContext P :=
  if ctx.statistics.retiredElfCtxCount = 0 then ctx
  else
    let (pending, ctx) := ctx.ask w.sweepPending
    if ctx.retireTimerStarted ∧ pending = false then ctx
    else
      let (now, ctx) := ctx.ask w.now
      guRetiredElfSweep ctx now

/-- Take a reference on an entry, which makes a retired one active again. -/
def reuseElf (elfCtx : PerElfCtx P) : GuContext P :=
  let ctx := if elfCtx.retired then
    (guUnretireElfCtx ctx elfCtx true).count fun st =>
      { st with retiredElfCacheHit := st.retiredElfCacheHit + 1 }
    else ctx
  ctx.modifyElf elfCtx.id fun e => { e with refcnt := e.refcnt + 1 }

/-- The entry of a new image, with one reference. Go images have no CFI. -/
def newElf (id : Nat) (image : ElfImage P) : PerElfCtx P where
  id := id
  buildId := image.buildId
  golang := image.golang
  symbols := image.symbols
  symSearchSize := image.symSearchSize
  guCfi := if image.golang then none else image.cfi.map fun cfi => { cfi with cache := .empty }
  refcnt := 1
  execVirtAddr := image.execVirtAddr
  execRanges := image.execRanges
  retired := false
  retireDeadlineNs := 0#64

/-- The part of `load_elf` behind the cache miss. -/
def addElf (image : ElfImage P) : Option (PerElfCtx P) × GuContext P :=
  let ctx := ctx.count fun st => { st with elfCtxAllocCount := st.elfCtxAllocCount + 1 }
  if image.debugScanned then
    let elfCtx := newElf ctx.nextElf image
    let ctx := ctx.count fun st => st.charge elfCtx.symbols elfCtx.symSearchSize elfCtx.guCfi
    let (granted, ctx) := ctx.ask w.alloc
    if granted then
      (some elfCtx, { ctx with
        elfCtxList := ctx.elfCtxList ++ [elfCtx]
        nextElf := ctx.nextElf + 1
        statistics := { ctx.statistics with elfCtxCount := ctx.statistics.elfCtxCount + 1 } })
    else
      (none, ctx.count fun st => st.refund elfCtx.symbols elfCtx.symSearchSize elfCtx.guCfi)
  else (none, ctx)

/-- `load_elf`; `none` is its NULL. -/
def loadElf (path : String) (pid : Int) (openPath : Option OpenPath) :
    Option (PerElfCtx P) × GuContext P :=
  let (file, ctx) := ctx.ask fun t => w.elf t pid path openPath
  match file with
  | none => (none, ctx)
  | some image =>
    match ctx.findBuildId image.buildId with
    | some elfCtx => (some elfCtx, reuseElf ctx elfCtx)
    | none => addElf w ctx image

/-! ## Process entries -/

/-- `__private_clean_elf_ctx` on every mapping record of a list. -/
def cleanElfCtxs (items : List (Interval (Option MapCtx))) : GuContext P :=
  items.foldl (fun ctx item =>
    match item.payload with
    | none => ctx
    | some mapCtx => guPutElfCtx w ctx mapCtx.elfCtx) ctx

/-- The file behind a mapping: a deleted one is read through the live mapping. -/
def livePath (first : Bool) (map : MapsInfo) : Option OpenPath :=
  if !ctx.debug && map.deleted then
    some (if first then .exe else .mapFiles map.start map.fin)
  else none

/-- What the mapping loop of `gu_load_pid` leaves; it stops at the first record that cannot
be allocated. -/
structure LoadedMaps (P : Type) where
  ok : Bool
  items : List (Interval (Option MapCtx))
  golang : Bool
  ctx : GuContext P

/-- The mapping loop of `gu_load_pid`. -/
def loadMaps (w : World P) (pid : Int) : Bool → List MapsInfo → GuContext P → LoadedMaps P
  | _, [], ctx => ⟨true, [], false, ctx⟩
  | first, map :: rest, ctx =>
    match loadElf w ctx map.path pid (livePath ctx first map) with
    | (none, ctx) =>
      let loaded := loadMaps w pid false rest ctx
      { loaded with items := ⟨map.start, map.fin, none⟩ :: loaded.items }
    | (some elf, ctx) =>
      let (granted, ctx) := ctx.ask w.alloc
      if granted then
        let loaded := loadMaps w pid false rest ctx
        let mapCtx := guElfMapCtx elf (guResolveMapExecVirtAddr elf map)
        { loaded with
          items := ⟨map.start, map.fin, some mapCtx⟩ :: loaded.items
          golang := (first && elf.golang) || loaded.golang }
      else ⟨false, [], false, guPutElfCtx w ctx elf.id⟩

/-- `gu_maps_reload_random_u64`. -/
def guMapsReloadRandomU64 (pidCtx : PerPidCtx) : Word × GuContext P :=
  let (x, ctx) := if pidCtx.mapsReloadRandState = 0#64 then
      let (seed, ctx) := ctx.ask w.seed
      (((BitVec.ofInt 32 pidCtx.pid).setWidth 64 <<< 32) ^^^ pidCtx.uniqueId ^^^ seed, ctx)
    else (pidCtx.mapsReloadRandState, ctx)
  let x := if x = 0#64 then 0x9e3779b97f4a7c15#64 else x
  let x := x ^^^ (x <<< 13)
  let x := x ^^^ (x >>> 7)
  let x := x ^^^ (x <<< 17)
  (if x = 0#64 then 0xd1b54a32d192ed03#64 else x, ctx)

/-- `gu_schedule_next_maps_reload`. -/
def guScheduleNextMapsReload (pidCtx : PerPidCtx) : PerPidCtx × GuContext P :=
  let (now, ctx) := ctx.ask w.now
  let span := guPidMapsReloadMaxIntervalNs - guPidMapsReloadMinIntervalNs
  let (x, ctx) := guMapsReloadRandomU64 w ctx pidCtx
  let delay := guPidMapsReloadMinIntervalNs + x % (span + 1#64)
  ({ pidCtx with
      mapsReloadRandState := x
      lastMapsLoadNs := now
      nextMapsReloadNs := now + delay }, ctx)

/-- The table of mapping records. The items are sorted in place before the second
allocation, so they are returned with it. -/
def initElfCtxList (items : List (Interval (Option MapCtx))) :
    Option (IntervalArray (Option MapCtx)) × List (Interval (Option MapCtx)) × GuContext P :=
  let (granted, ctx) := ctx.ask w.alloc
  if granted then
    let sorted := fillEnds (items.insertionSort fun a b => a.start ≤ b.start)
    let (granted, ctx) := ctx.ask w.alloc
    (if granted then guIntervalArrayInit items else none, sorted, ctx)
  else (none, items, ctx)

/-- The entry `gu_load_pid` has filled, up to its reload deadline. -/
def newPidCtx (info : StackInfo) (golang : Bool) (list : IntervalArray (Option MapCtx))
    (comm : String) : PerPidCtx where
  pid := info.pid
  comm := comm
  golang := golang
  preload := false
  uniqueId := info.uniqueId
  elfCtxList := some list
  lastMapsLoadNs := 0#64
  nextMapsReloadNs := 0#64
  mapsReloadRandState := 0#64
  privateInfo := none

/-- `gu_load_pid` once its two buffers are allocated. -/
def loadPidMaps (info : StackInfo) (maps : List MapsInfo) : Option PerPidCtx × GuContext P :=
  let ctx := ctx.count fun st => { st with pidCtxAllocCount := st.pidCtxAllocCount + 1 }
  let loaded := loadMaps w info.pid true maps ctx
  if loaded.ok then
    match initElfCtxList w loaded.ctx loaded.items with
    | (none, items, ctx) => (none, cleanElfCtxs w ctx items)
    | (some list, _, ctx) =>
      let (comm, ctx) := ctx.ask fun t => w.comm t info.pid
      let (pidCtx, ctx) := guScheduleNextMapsReload w ctx (newPidCtx info loaded.golang list comm)
      (some pidCtx, ctx)
  else (none, cleanElfCtxs w loaded.ctx loaded.items)

/-- `gu_load_pid`; `none` is its NULL. A process that is known is returned as it is. -/
def guLoadPid (info : StackInfo) : Option PerPidCtx × GuContext P :=
  match ctx.pid info.pid with
  | some pidCtx => (some pidCtx, ctx)
  | none =>
    let (maps, ctx) := ctx.ask fun t => w.maps t info.pid
    if maps.isEmpty then (none, ctx)
    else
      let (granted, ctx) := ctx.ask w.alloc
      if granted then
        let (granted, ctx) := ctx.ask w.alloc
        if granted then loadPidMaps w ctx info maps else (none, ctx)
      else (none, ctx)

/-- `HASH_ADD_INT` of a loaded entry, with its event. -/
def addPidCtx (pidCtx : PerPidCtx) : GuContext P :=
  let ctx := { ctx with pidCtxList := ctx.pidCtxList ++ [pidCtx] }
  let ctx := ctx.count fun st => { st with pidCtxCount := st.pidCtxCount + 1 }
  ctx.notify pidCtx .create

/-- The records of a process, with the mappings that have none. -/
def PerPidCtx.items (pidCtx : PerPidCtx) : List (Interval (Option MapCtx)) :=
  (pidCtx.elfCtxList.map IntervalArray.items).getD []

/-- `gu_clear_pid_ctx`. -/
def guClearPidCtx (pidCtx : PerPidCtx) : GuContext P :=
  let ctx := { ctx with pidCtxList := remove PerPidCtx.pid ctx.pidCtxList pidCtx.pid }
  let ctx := ctx.count fun st => { st with pidCtxCount := wrapSub st.pidCtxCount 1 }
  cleanElfCtxs w ctx pidCtx.items

/-- The destroy event and the clearing of an entry. -/
def destroyPidCtx (pidCtx : PerPidCtx) : GuContext P :=
  guClearPidCtx w (ctx.notify pidCtx .destroy) pidCtx

/-- A process of a Go binary is unwound by frame pointers from its next sample on. -/
def hintGolang (pidCtx : PerPidCtx) (info : StackInfo) : StackInfo :=
  if pidCtx.golang then guFlagsSet info guFlagHintSetFp else info

/-! ## Reloading the mappings -/

/-- An entry without a reload deadline gets one. -/
def ensureScheduled (pidCtx : PerPidCtx) : PerPidCtx × GuContext P :=
  if pidCtx.nextMapsReloadNs = 0#64 then
    let (scheduled, ctx) := guScheduleNextMapsReload w ctx pidCtx
    (scheduled, ctx.modifyPid pidCtx.pid fun p => { p with
      mapsReloadRandState := scheduled.mapsReloadRandState
      lastMapsLoadNs := scheduled.lastMapsLoadNs
      nextMapsReloadNs := scheduled.nextMapsReloadNs })
  else (pidCtx, ctx)

/-- `gu_maps_reload_allowed`. -/
def guMapsReloadAllowed (pidCtx : PerPidCtx) : Bool × GuContext P :=
  let (pidCtx, ctx) := ensureScheduled w ctx pidCtx
  let (now, ctx) := ctx.ask w.now
  if pidCtx.nextMapsReloadNs ≤ now then (true, ctx)
  else (false, ctx.count fun st =>
    { st with pidMapsReloadThrottleCount := st.pidMapsReloadThrottleCount + 1 })

/-- The copy of the client's blob a reload makes; it is lost when the copy cannot be
allocated. -/
def copyPrivate (pidCtx : PerPidCtx) : Option (List Byte) × GuContext P :=
  match pidCtx.privateInfo with
  | none => (none, ctx)
  | some bytes =>
    let (granted, ctx) := ctx.ask w.alloc
    (if granted then some bytes else none, ctx)

/-- `gu_reload_pid_ctx`. The old entry is gone whether or not the new one can be loaded. -/
def guReloadPidCtx (oldCtx : PerPidCtx) (info : StackInfo) :
    Option PerPidCtx × StackInfo × GuContext P :=
  let (privateCopy, ctx) := copyPrivate w ctx oldCtx
  let ctx := destroyPidCtx w ctx oldCtx
  match guLoadPid w ctx info with
  | (none, ctx) => (none, info, ctx)
  | (some newCtx, ctx) =>
    let newCtx := { newCtx with preload := oldCtx.preload, privateInfo := privateCopy }
    (some newCtx, hintGolang newCtx info, addPidCtx ctx newCtx)

/-- What the three walks share: the context, the sample and the mapping of the last pc. -/
structure Walk (P : Type) where
  ctx : GuContext P
  info : StackInfo
  /-- `pid_ctx`; NULL after a reload that failed. -/
  pidCtx : Option Int
  /-- `elf_item`; `none` is a cleared item. -/
  elfItem : Option (Interval (Option MapCtx))
  mapsReloaded : Bool

/-- Follow `pid_ctx`. -/
def Walk.entry (v : Walk P) : Except Stuck PerPidCtx :=
  match v.pidCtx with
  | none => .error .nullPointer
  | some pid =>
    match v.ctx.pid pid with
    | none => .error .stalePointer
    | some pidCtx => .ok pidCtx

/-- `gu_interval_array_search` in the records of a process; a miss clears the item. -/
def PerPidCtx.search (pidCtx : PerPidCtx) (pc : Word) : Option (Interval (Option MapCtx)) :=
  match pidCtx.elfCtxList with
  | none => none
  | some array => (guIntervalArraySearch array pc).map Prod.snd

/-- The reload of `gu_search_pid_elf_ctx`, with the search behind it. -/
def reloadAndSearch (v : Walk P) (pidCtx : PerPidCtx) (pc : Word) : Walk P :=
  let ctx := v.ctx.count fun st => { st with pidMapsReloadCount := st.pidMapsReloadCount + 1 }
  match guReloadPidCtx w ctx pidCtx v.info with
  | (none, info, ctx) => ⟨ctx, info, none, none, true⟩
  | (some newCtx, info, ctx) => ⟨ctx, info, some newCtx.pid, newCtx.search pc, true⟩

/-- The test before a reload; in debug mode the process is not looked for. -/
def stillAlive (pid : Int) : Bool × GuContext P :=
  if ctx.debug then (true, ctx) else ctx.ask fun t => w.alive t pid

/-- `gu_search_pid_elf_ctx`; the return value is negative when no item is left. -/
def guSearchPidElfCtx (v : Walk P) (pc : Word) : Except Stuck (Walk P) := do
  let pidCtx ← v.entry
  match pidCtx.search pc with
  | some item => return { v with elfItem := some item }
  | none =>
    let v := { v with elfItem := none }
    if v.mapsReloaded then return v
    match guMapsReloadAllowed w v.ctx pidCtx with
    | (false, ctx) => return { v with ctx := ctx }
    | (true, ctx) =>
      let (alive, ctx) := stillAlive w ctx v.info.pid
      -- scheduling writes none of the fields a reload reads from the old entry
      if alive then return reloadAndSearch w { v with ctx := ctx } pidCtx pc
      else return { v with ctx := ctx, info := guFlagsSetReason v.info .processExit }

/-- The item in hand already covers the pc. -/
def Walk.covers (v : Walk P) (pc : Word) : Bool :=
  match v.elfItem with
  | none => false
  | some item => item.payload.isSome && decide (item.start ≤ pc ∧ pc < item.fin)

/-- `gu_get_elf_ctx_from_item`: the entry of the ELF file behind the item in hand and the
load bias that follows from the address of the mapping. -/
def guGetElfCtxFromItem (v : Walk P) : Except Stuck (Option (PerElfCtx P × Word)) :=
  match v.elfItem with
  | none => .ok none
  | some item =>
    match item.payload with
    | none => .ok none
    | some mapCtx =>
      match v.ctx.elf mapCtx.elfCtx with
      | none => .error .stalePointer
      | some elfCtx => .ok (some (elfCtx, item.start - mapCtx.mapExecVirtAddr))

/-- The mapping of a pc: the item in hand when it covers the pc, or a search. -/
def Walk.locate (v : Walk P) (pc : Word) : Except Stuck (Walk P) :=
  if v.covers pc then .ok v else guSearchPidElfCtx w v pc

end Gunwinder
