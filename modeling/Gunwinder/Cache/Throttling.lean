import Gunwinder.Cache.Traces

/-!
# Throttling of reloads

A process is not reloaded again for thirty to ninety seconds after its mappings were
loaded, however many pcs are missing from them. The time is drawn when the entry is
loaded, so the bound survives the replacement of the entry. Deadlines are sums of unsigned
64-bit values; the bound holds as long as they do not wrap.
-/

namespace Gunwinder

open Gunwinder.Core

variable {H P : Type} {ctx ctx' : GuContext P} {w : World P} {record : List (CacheEvent P)}

/-- What an event says about the last load of a process. -/
def CacheEvent.loads (pid : Int) (last : Option Word) : CacheEvent P → Option Word
  | .loaded pidCtx _ => if pidCtx.pid = pid then some pidCtx.lastMapsLoadNs else last
  | _ => last

/-- The clock at the last load or reload of a process. -/
def lastLoad (record : List (CacheEvent P)) (pid : Int) : Option Word :=
  record.foldl (CacheEvent.loads pid) none

private theorem lastLoad_snoc (record : List (CacheEvent P)) (event : CacheEvent P) (pid : Int) :
    lastLoad (record ++ [event]) pid = event.loads pid (lastLoad record pid) := by
  rw [lastLoad, List.foldl_append]
  rfl

/-- A PC miss of a process that was answered in one of the two ways. -/
def CacheEvent.isMiss (answer : Bool) : CacheEvent P → Bool
  | .missed _ _ reload => reload == answer
  | _ => false

/-- An event that is neither a load nor a miss. -/
def CacheEvent.neutral : CacheEvent P → Bool
  | .loaded _ _ => false
  | .missed _ _ _ => false
  | _ => true

variable {event : CacheEvent P}

private theorem CacheEvent.neutral_loads (h : event.neutral = true) (pid : Int)
    (last : Option Word) : event.loads pid last = last := by
  cases event <;> first | rfl | cases h

private theorem CacheEvent.neutral_isMiss (h : event.neutral = true) (answer : Bool) :
    event.isMiss answer = false := by
  cases event <;> first | rfl | cases h

/-- A reload comes thirty seconds after the last load at the earliest, and a miss that is put
off less than ninety seconds after it. -/
def Answered (record : List (CacheEvent P)) : Prop :=
  ∀ before pid now reload after, record = before ++ .missed pid now reload :: after →
    ∃ last, lastLoad before pid = some last ∧
      (reload = true → last.toNat + 30000000000 ≤ now.toNat) ∧
      (reload = false → now.toNat < last.toNat + 90000000000)

/-- An event that is no miss. -/
theorem Answered.snoc (h : Answered record) (hevent : ∀ answer, event.isMiss answer = false) :
    Answered (record ++ [event]) := by
  intro before pid now reload after heq
  rcases List.eq_nil_or_concat after with rfl | ⟨after, last, rfl⟩
  · have hmiss := List.cons.inj (List.append_inj_right' heq rfl)
    have := hevent reload
    rw [hmiss.1] at this
    simp [CacheEvent.isMiss] at this
  · rw [List.concat_eq_append, ← List.cons_append, ← List.append_assoc] at heq
    exact h before pid now reload after (List.append_inj_left' heq rfl)

/-- A miss at the end of a record. -/
theorem Answered.miss (h : Answered record) {pid : Int} {now last : Word} {reload : Bool}
    (hlast : lastLoad record pid = some last)
    (hreload : reload = true → last.toNat + 30000000000 ≤ now.toNat)
    (hthrottle : reload = false → now.toNat < last.toNat + 90000000000) :
    Answered (record ++ [.missed pid now reload]) := by
  intro before pid' now' reload' after heq
  rcases List.eq_nil_or_concat after with rfl | ⟨after, last', rfl⟩
  · obtain ⟨rfl, hmiss⟩ := List.append_inj' heq rfl
    simp only [List.cons.injEq, CacheEvent.missed.injEq, and_true] at hmiss
    obtain ⟨rfl, rfl, rfl⟩ := hmiss
    exact ⟨last, hlast, hreload, hthrottle⟩
  · rw [List.concat_eq_append, ← List.cons_append, ← List.append_assoc] at heq
    exact h before pid' now' reload' after (List.append_inj_left' heq rfl)

/-- The entry of a process is scheduled by its last load. -/
def PerPidCtx.Scheduled (record : List (CacheEvent P)) (pidCtx : PerPidCtx) : Prop :=
  lastLoad record pidCtx.pid = some pidCtx.lastMapsLoadNs ∧
    pidCtx.lastMapsLoadNs.toNat + 30000000000 ≤ pidCtx.nextMapsReloadNs.toNat ∧
    pidCtx.nextMapsReloadNs.toNat ≤ pidCtx.lastMapsLoadNs.toNat + 90000000000

/-- Misses are answered by the schedule of the entry, and the statistics count the answers. -/
structure Throttled (record : List (CacheEvent P)) (ctx : GuContext P) : Prop where
  answered : Answered record
  scheduled : ∀ pidCtx ∈ ctx.pidCtxList, pidCtx.Scheduled record
  reloads : ctx.statistics.pidMapsReloadCount = record.countP (CacheEvent.isMiss true)
  throttles : ctx.statistics.pidMapsReloadThrottleCount =
    record.countP (CacheEvent.isMiss false)

variable {pidCtx : PerPidCtx}

/-- What a load schedules does not wrap. -/
theorem LoadedFrom.scheduled {sources : List (Source P)}
    (hclock : ∀ t, (w.now t).toNat + 90000000000 < 2 ^ 64) (h : LoadedFrom w ctx pidCtx sources)
    (record : List (CacheEvent P)) : pidCtx.Scheduled (record ++ [.loaded pidCtx sources]) := by
  obtain ⟨t, -, hlast⟩ := h.clock
  obtain ⟨delay, hmin, hmax, hnext⟩ := h.delay
  have hbound := hclock t
  have hmin' : 30000000000 ≤ delay.toNat := hmin
  have hmax' : delay.toNat ≤ 90000000000 := hmax
  have hsum : pidCtx.nextMapsReloadNs.toNat = pidCtx.lastMapsLoadNs.toNat + delay.toNat := by
    rw [hnext, BitVec.toNat_add, hlast]
    exact Nat.mod_eq_of_lt (by omega)
  refine ⟨?_, by omega, by omega⟩
  rw [lastLoad_snoc]
  exact if_pos rfl

namespace Throttled

/-- Events that are neither loads nor misses. -/
theorem quiet (h : Throttled record ctx) (hevent : event.neutral = true)
    (hpids : ∀ q ∈ ctx'.pidCtxList, ∃ p ∈ ctx.pidCtxList, q.pid = p.pid ∧
      q.lastMapsLoadNs = p.lastMapsLoadNs ∧ q.nextMapsReloadNs = p.nextMapsReloadNs)
    (hreloads : ctx'.statistics.pidMapsReloadCount = ctx.statistics.pidMapsReloadCount)
    (hthrottles : ctx'.statistics.pidMapsReloadThrottleCount =
      ctx.statistics.pidMapsReloadThrottleCount) : Throttled (record ++ [event]) ctx' := by
  have hcount := CacheEvent.neutral_isMiss hevent
  refine ⟨h.answered.snoc hcount, fun q hq => ?_, ?_, ?_⟩
  · obtain ⟨p, hp, hpid, hlast, hnext⟩ := hpids q hq
    rw [PerPidCtx.Scheduled, lastLoad_snoc, CacheEvent.neutral_loads hevent, hpid, hlast, hnext]
    exact h.scheduled p hp
  · rw [List.countP_append, List.countP_singleton, hcount, hreloads]
    exact h.reloads
  · rw [List.countP_append, List.countP_singleton, hcount, hthrottles]
    exact h.throttles

/-- Operations on the ELF table. -/
theorem of_frame (h : Throttled record ctx) (hevent : event.neutral = true)
    (hframe : ctx'.frame = ctx.frame) : Throttled (record ++ [event]) ctx' := by
  have hpids : ctx'.pidCtxList = ctx.pidCtxList := congrArg ContextFrame.pidCtxList hframe
  exact h.quiet hevent (fun q hq => ⟨q, hpids ▸ hq, rfl, rfl, rfl⟩)
    (congrArg ContextFrame.pidMapsReloadCount hframe)
    (congrArg ContextFrame.pidMapsReloadThrottleCount hframe)

section

variable (hclock : ∀ t, (w.now t).toNat + 90000000000 < 2 ^ 64) (h : Throttled record ctx)
include hclock h

/-- A process is loaded. -/
theorem load {sources : List (Source P)} (hnew : ctx.pid pidCtx.pid = none)
    (hfrom : LoadedFrom w ctx pidCtx sources) :
    Throttled (record ++ [.loaded pidCtx sources]) (addPidCtx ctx pidCtx) := by
  refine ⟨h.answered.snoc fun _ => rfl, fun q hq => ?_, ?_, ?_⟩
  · rcases List.mem_append.mp hq with hq | hq
    · have hne : pidCtx.pid ≠ q.pid := Ne.symm (lookup_eq_none.mp hnew q hq)
      rw [PerPidCtx.Scheduled, lastLoad_snoc, CacheEvent.loads, if_neg hne]
      exact h.scheduled q hq
    · rw [List.mem_singleton.mp hq]
      exact hfrom.scheduled hclock record
  · rw [List.countP_append]
    exact h.reloads
  · rw [List.countP_append]
    exact h.throttles

/-- An event keeps reloads apart. -/
theorem step (hstep : CacheStep w ctx event ctx') : Throttled (record ++ [event]) ctx' := by
  cases hstep with
  | ask | cacheRow | create => exact h.of_frame rfl rfl
  | count f hf =>
    exact h.quiet rfl (fun q hq => ⟨q, hq, rfl, rfl, rfl⟩) hf.reloads hf.throttles
  | amend pid f hf =>
    refine h.quiet rfl (fun q hq => ?_) rfl rfl
    rcases mem_update.mp hq with ⟨p, hp, -, rfl⟩ | ⟨hq, -⟩
    · exact ⟨p, hp, by rw [hf p], by rw [hf p], by rw [hf p]⟩
    · exact ⟨q, hq, rfl, rfl, rfl⟩
  | reschedule pidCtx last next rand hp hzero =>
    -- no deadline is zero
    obtain ⟨-, hle, -⟩ := h.scheduled pidCtx (mem_of_lookup hp).1
    rw [hzero] at hle
    exact absurd hle (by simp)
  | take e => exact h.of_frame rfl (reuseElf_frame ctx e)
  | put e => exact h.of_frame rfl (guPutElfCtx_frame w ctx e.id)
  | sweep now =>
    exact h.of_frame rfl (guRetiredElfSweep_frame ctx now)
  | load pidCtx sources hnew hfrom => exact h.load hclock hnew hfrom
  | destroy pidCtx hp =>
    exact h.quiet rfl (fun q hq => ⟨q, (mem_remove.mp hq).1, rfl, rfl, rfl⟩) rfl rfl
  | throttle pidCtx now hp hnow hlt =>
    obtain ⟨hlast, -, hle⟩ := h.scheduled pidCtx (mem_of_lookup hp).1
    have hlt' : now.toNat < pidCtx.nextMapsReloadNs.toNat := hlt
    refine ⟨h.answered.miss hlast nofun fun _ => by omega, fun q hq => ?_, ?_, ?_⟩
    · rw [PerPidCtx.Scheduled, lastLoad_snoc]
      exact h.scheduled q hq
    · rw [List.countP_append]
      exact h.reloads
    · rw [List.countP_append]
      exact congrArg (· + 1) h.throttles
  | reload pidCtx now hp hnow hle =>
    obtain ⟨hlast, hge, -⟩ := h.scheduled pidCtx (mem_of_lookup hp).1
    have hle' : pidCtx.nextMapsReloadNs.toNat ≤ now.toNat := hle
    refine ⟨h.answered.miss hlast (fun _ => by omega) nofun, fun q hq => ?_, ?_, ?_⟩
    · rw [PerPidCtx.Scheduled, lastLoad_snoc]
      exact h.scheduled q hq
    · rw [List.countP_append]
      exact congrArg (· + 1) h.reloads
    · rw [List.countP_append]
      exact h.throttles

end

private theorem init (debug goOnlyBuildid retireTimerStarted : Bool) :
    Throttled [] (guInit debug goOnlyBuildid retireTimerStarted : GuContext P) :=
  ⟨fun _ _ _ _ _ heq => by simp at heq, nofun, rfl, rfl⟩

end Throttled

/-! ## The answer to one miss -/

/-- The numbers of reloads and of misses that were put off. -/
def GuContext.misses (ctx : GuContext P) : Nat × Nat :=
  (ctx.statistics.pidMapsReloadCount, ctx.statistics.pidMapsReloadThrottleCount)

private theorem GuContext.misses_of_frame (hframe : ctx'.frame = ctx.frame) :
    ctx'.misses = ctx.misses :=
  Prod.ext (congrArg ContextFrame.pidMapsReloadCount hframe)
    (congrArg ContextFrame.pidMapsReloadThrottleCount hframe)

private theorem ensureScheduled_misses (w : World P) (ctx : GuContext P) (pidCtx : PerPidCtx) :
    (ensureScheduled w ctx pidCtx).2.misses = ctx.misses := by
  have hframe := GuContext.misses_of_frame (guScheduleNextMapsReload_frame w ctx pidCtx)
  unfold ensureScheduled
  split
  · exact hframe
  · rfl

/-- A miss that is put off is counted when it is. -/
theorem guMapsReloadAllowed_misses (w : World P) (ctx : GuContext P) (pidCtx : PerPidCtx) :
    (guMapsReloadAllowed w ctx pidCtx).2.misses =
      if (guMapsReloadAllowed w ctx pidCtx).1 then ctx.misses
      else (ctx.misses.1, ctx.misses.2 + 1) := by
  have hscheduled := ensureScheduled_misses w ctx pidCtx
  simp only [guMapsReloadAllowed]
  split
  · rw [if_pos rfl, ← hscheduled]
    rfl
  · rw [if_neg Bool.false_ne_true, ← hscheduled]
    rfl

private theorem stillAlive_misses (w : World P) (ctx : GuContext P) (pid : Int) :
    (stillAlive w ctx pid).2.misses = ctx.misses := by
  unfold stillAlive
  split <;> rfl

/-- A reload is counted before it starts. -/
theorem guReloadPidCtx_misses (w : World P) (ctx : GuContext P) (oldCtx : PerPidCtx)
    (info : StackInfo) : (guReloadPidCtx w ctx oldCtx info).2.2.misses = ctx.misses := by
  have hcopy : (copyPrivate w ctx oldCtx).2.misses = ctx.misses := by
    unfold copyPrivate
    split <;> rfl
  have hdestroy : (destroyPidCtx w (copyPrivate w ctx oldCtx).2 oldCtx).misses = ctx.misses :=
    (GuContext.misses_of_frame (cleanElfCtxs_frame w _ oldCtx.items)).trans hcopy
  have hload := (GuContext.misses_of_frame (guLoadPid_frame w
    (destroyPidCtx w (copyPrivate w ctx oldCtx).2 oldCtx) info)).trans hdestroy
  unfold guReloadPidCtx
  dsimp only
  split
  case h_1 ctx' heq =>
    rw [heq] at hload
    exact hload
  case h_2 newCtx ctx' heq =>
    rw [heq] at hload
    exact hload

private theorem reloadAndSearch_misses (w : World P) (v : Walk P) (pidCtx : PerPidCtx) (pc : Word) :
    (reloadAndSearch w v pidCtx pc).ctx.misses = (v.ctx.misses.1 + 1, v.ctx.misses.2) := by
  rw [reloadAndSearch_ctx, guReloadPidCtx_misses]
  rfl

/-- The first miss of a walk is put off or answered by a reload, if the process is alive then.
-/
theorem guSearchPidElfCtx_misses (w : World P) (v : Walk P) {pc : Word}
    (hentry : v.entry = .ok pidCtx) (hmiss : pidCtx.search pc = none)
    (hfirst : v.mapsReloaded = false) (halive : (guMapsReloadAllowed w v.ctx pidCtx).1 = true →
      (stillAlive w (guMapsReloadAllowed w v.ctx pidCtx).2 v.info.pid).1 = true) :
    ∃ v', guSearchPidElfCtx w v pc = .ok v' ∧
      (v'.ctx.misses = (v.ctx.misses.1 + 1, v.ctx.misses.2) ∨
        v'.ctx.misses = (v.ctx.misses.1, v.ctx.misses.2 + 1)) := by
  obtain ⟨v', hsearch, hend⟩ := guSearchPidElfCtx_ends w hentry pc
  refine ⟨v', hsearch, ?_⟩
  have hmisses := guMapsReloadAllowed_misses w v.ctx pidCtx
  cases hend with
  | found hitem =>
    rw [hmiss] at hitem
    cases hitem
  | missed _ hreloaded =>
    rw [hfirst] at hreloaded
    cases hreloaded
  | postponed _ _ hallowed =>
    rw [hallowed] at hmisses
    exact .inr hmisses
  | exited _ _ hallowed hgone => exact absurd (halive hallowed) (Bool.eq_false_iff.mp hgone)
  | reloaded _ _ hallowed =>
    rw [hallowed] at hmisses
    left
    rw [reloadAndSearch_misses]
    simp only [askReload, stillAlive_misses, hmisses, if_true]

/-- As long as ninety seconds past the clock fit into 64 bits, a PC miss reloads a process
thirty seconds after its last load at the earliest, and ninety seconds after it without fail.
Every miss that the record does not answer by a reload it puts off, and each miss of a search
counts one of the two, unless the process is gone when its reload is due. -/
theorem reloads_throttled {H P : Type} {w : World P} {S : SavedStates H P} {ctx : GuContext P}
    (hclock : ∀ t, (w.now t).toNat + 90000000000 < 2 ^ 64) (h : ReachableIn w S ctx) :
    (∃ record, Recorded w record ctx) ∧
    (∀ record, Recorded w record ctx →
      ctx.statistics.pidMapsReloadCount = record.countP (CacheEvent.isMiss true) ∧
      ctx.statistics.pidMapsReloadThrottleCount = record.countP (CacheEvent.isMiss false) ∧
      ∀ before pid now reload after, record = before ++ .missed pid now reload :: after →
        ∃ last, lastLoad before pid = some last ∧
          (reload = true → last.toNat + 30000000000 ≤ now.toNat) ∧
          (last.toNat + 90000000000 ≤ now.toNat → reload = true)) ∧
    ∀ (v : Walk P) pidCtx pc, v.entry = .ok pidCtx → pidCtx.search pc = none →
      v.mapsReloaded = false →
      ((guMapsReloadAllowed w v.ctx pidCtx).1 = true →
        (stillAlive w (guMapsReloadAllowed w v.ctx pidCtx).2 v.info.pid).1 = true) →
      ∃ v', guSearchPidElfCtx w v pc = .ok v' ∧
        (v'.ctx.misses = (v.ctx.misses.1 + 1, v.ctx.misses.2) ∨
          v'.ctx.misses = (v.ctx.misses.1, v.ctx.misses.2 + 1)) := by
  refine ⟨h.recorded, fun record hrecord => ?_, fun v pidCtx pc => guSearchPidElfCtx_misses w v⟩
  have hthrottled : Throttled record ctx :=
    hrecord.history Throttled .init fun _ _ _ _ hctx hstep => hctx.step hclock hstep
  refine ⟨hthrottled.reloads, hthrottled.throttles, fun before pid now reload after heq => ?_⟩
  obtain ⟨last, hlast, hreload, hthrottle⟩ := hthrottled.answered before pid now reload after heq
  refine ⟨last, hlast, hreload, fun hlate => ?_⟩
  cases reload with
  | true => rfl
  | false => exact absurd (hthrottle rfl) (Nat.not_lt.mpr hlate)

/-- A sample of a process by its frame-pointer chain, with one pc. -/
def chainSample (pc : Word) : StackInfo :=
  { guFlagsSet (preloadInfo 11 9#64) guFlagHintSetFp with
    regs := some fun _ => 0#64
    ustackFp := fun _ => pc
    ustackFpLevel := 1#64 }

/-- The numbers of misses after a process was preloaded and sampled at a pc outside its
mappings. -/
def missAfterPreload (w : World (List CalcRules)) : Except Stuck (Nat × Nat) :=
  (guUnwind ⟨⟨.x86, 4096#64⟩, savedValues, w, 2, false⟩
    (guPreloadPidDebugInfo w (guInit false false false) 11).2 ⟨.empty, (), .clear⟩
    (chainSample 0x9000#64)).map fun r => r.ctx.misses

/-- The first miss after a load. -/
theorem reloads_throttled_first_miss :
    let ctx := (guPreloadPidDebugInfo twiceMapped (guInit false false false) 11).2
    (∃ record, Recorded twiceMapped record ctx ∧ record.countP (CacheEvent.isMiss true) = 0) ∧
    ∃ pidCtx v', ctx.pid 11 = some pidCtx ∧ pidCtx.search 0x9000#64 = none ∧
      guSearchPidElfCtx twiceMapped (Walk.init ctx (chainSample 0x9000#64) pidCtx) 0x9000#64 =
        .ok v' ∧
      (v'.ctx.misses = (1, 0) ∨ v'.ctx.misses = (0, 1)) := by
  intro ctx
  have hreach : ReachableIn twiceMapped savedValues ctx :=
    .step (.init false false false) (.preload _ 11)
  obtain ⟨⟨record, hrecord⟩, hcounts, hmisses⟩ := reloads_throttled
    (fun _ => show (1#64).toNat + 90000000000 < 2 ^ 64 by decide) hreach
  have hmiss : (ctx.pid 11).map (fun p => (p.pid, p.search 0x9000#64)) = some (11, none) := by
    decide +kernel
  obtain ⟨pidCtx, hfound, hentry⟩ := Option.map_eq_some_iff.mp hmiss
  obtain ⟨hpid, hnone⟩ := Prod.mk.inj hentry
  obtain ⟨v', hsearch, hcounted⟩ := hmisses (Walk.init ctx (chainSample 0x9000#64) pidCtx) pidCtx
    0x9000#64 (Walk.entry_ok rfl (hpid ▸ hfound)) hnone rfl fun _ => by
      unfold stillAlive
      split <;> rfl
  exact ⟨⟨record, hrecord, (hcounts record hrecord).1 ▸ by decide +kernel⟩, pidCtx, v', hfound,
    hnone, hsearch, hcounted⟩

/-- The clock stands still at its last value, and the deadline of the load wraps: the miss that
follows at once reloads the process. -/
theorem reload_at_once_by_wrapping :
    missAfterPreload { twiceMapped with now := fun _ => uint64Max } = .ok (1, 0) := by
  decide +kernel

end Gunwinder
