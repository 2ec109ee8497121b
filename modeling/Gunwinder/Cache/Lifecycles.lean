import Gunwinder.Cache.Traces

/-!
# Lifecycle events

A listener hears a CREATE when a process enters the table and a DESTROY when it leaves.
All operations up to the cleanup keep the two together. The cleanup clears the processes
that are left without a DESTROY for any of them.
-/

namespace Gunwinder

open Gunwinder.Core

variable {H P : Type} {ctx ctx' : GuContext P} {w : World P}

/-- A CREATE opens a lifecycle and a DESTROY with its id closes it. The state is the CREATE
that has not been answered. -/
def PidCtxEvent.follow (opened : Option PidCtxEvent) (event : PidCtxEvent) :
    Option (Option PidCtxEvent) :=
  match opened, event.type with
  | none, .create => some (some event)
  | some create, .destroy => if event.startTime = create.startTime then some none else none
  | _, _ => none

/-- The CREATE that the events of a process leave unanswered; `none` when an event is out of
place. -/
def lifecycle (events : List PidCtxEvent) : Option (Option PidCtxEvent) :=
  events.foldlM PidCtxEvent.follow none

/-- One more event. -/
theorem lifecycle_snoc {events : List PidCtxEvent} {opened : Option PidCtxEvent}
    (h : lifecycle events = some opened) (event : PidCtxEvent) :
    lifecycle (events ++ [event]) = PidCtxEvent.follow opened event := by
  rw [lifecycle, List.foldlM_append]
  change (lifecycle events >>= fun opened => [event].foldlM PidCtxEvent.follow opened) = _
  rw [h]
  exact bind_pure (PidCtxEvent.follow opened event)

/-- The events of a process. -/
def GuContext.eventsOf (ctx : GuContext P) (pid : Int) : List PidCtxEvent :=
  ctx.events.filter fun event => event.pid = pid

/-- The events of every process alternate, and its entry is in the table while the last CREATE
is open. -/
def GuContext.EventsMatch (ctx : GuContext P) : Prop :=
  ∀ pid, ∃ opened, lifecycle (ctx.eventsOf pid) = some opened ∧
    (ctx.pid pid).map PerPidCtx.uniqueId = opened.map PidCtxEvent.startTime

namespace GuContext.EventsMatch

private theorem of_eq (h : ctx.EventsMatch) (hevents : ctx'.events = ctx.events)
    (hpids : ∀ pid, (ctx'.pid pid).map PerPidCtx.uniqueId = (ctx.pid pid).map PerPidCtx.uniqueId) :
    ctx'.EventsMatch := by
  intro pid
  obtain ⟨opened, hopened, hid⟩ := h pid
  refine ⟨opened, ?_, (hpids pid).trans hid⟩
  rw [eventsOf, hevents]
  exact hopened

/-- Only the frame matters. -/
theorem of_frame (h : ctx.EventsMatch) (hframe : ctx'.frame = ctx.frame) : ctx'.EventsMatch :=
  have hpids : ctx'.pidCtxList = ctx.pidCtxList := congrArg ContextFrame.pidCtxList hframe
  h.of_eq (congrArg ContextFrame.events hframe) fun pid => by
    rw [GuContext.pid, hpids, ← GuContext.pid]

/-- Writes to an entry that keep its pid and its id. -/
theorem modifyPid (h : ctx.EventsMatch) (pid : Int) {f : PerPidCtx → PerPidCtx}
    (hpid : ∀ p, (f p).pid = p.pid) (hid : ∀ p, (f p).uniqueId = p.uniqueId) :
    (ctx.modifyPid pid f).EventsMatch := by
  refine h.of_eq rfl fun j => ?_
  simp only [GuContext.pid, GuContext.modifyPid, lookup_update hpid, Option.map_map]
  refine congrArg (fun g => Option.map g _) (funext fun p => ?_)
  simp only [Function.comp_apply]
  split
  · exact hid p
  · rfl

variable {pidCtx : PerPidCtx}

/-- The events of other processes. -/
theorem eventsOf_notify_of_ne {pid : Int} (type : PidCtxEventType) (hne : pidCtx.pid ≠ pid) :
    (ctx.notify pidCtx type).eventsOf pid = ctx.eventsOf pid := by
  simp [eventsOf, GuContext.notify, List.filter_append, hne]

private theorem eventsOf_notify_self (ctx : GuContext P) (pidCtx : PerPidCtx)
    (type : PidCtxEventType) : (ctx.notify pidCtx type).eventsOf pidCtx.pid =
      ctx.eventsOf pidCtx.pid ++ [⟨pidCtx.pid, pidCtx.uniqueId, pidCtx.comm, type⟩] := by
  simp [eventsOf, GuContext.notify, List.filter_append]

/-- A process that enters the table opens a lifecycle. -/
theorem load (h : ctx.EventsMatch) (hnew : ctx.pid pidCtx.pid = none) :
    (addPidCtx ctx pidCtx).EventsMatch := by
  intro pid
  obtain ⟨opened, hopened, hid⟩ := h pid
  by_cases hpid : pidCtx.pid = pid
  · subst hpid
    have hclosed : opened = none := by
      rw [hnew] at hid
      exact Option.map_eq_none_iff.mp hid.symm
    subst hclosed
    refine ⟨some ⟨pidCtx.pid, pidCtx.uniqueId, pidCtx.comm, .create⟩, ?_, ?_⟩
    · exact (congrArg lifecycle (eventsOf_notify_self ctx pidCtx .create)).trans
        (lifecycle_snoc hopened _)
    · exact congrArg (Option.map PerPidCtx.uniqueId) (lookup_append_self hnew)
  · refine ⟨opened, ?_, Eq.trans ?_ hid⟩
    · exact (congrArg lifecycle (eventsOf_notify_of_ne .create hpid)).trans hopened
    · exact congrArg (Option.map PerPidCtx.uniqueId) (lookup_append_of_ne hpid)

/-- A process that leaves the table closes it. -/
theorem destroy (h : ctx.EventsMatch) (hp : ctx.pid pidCtx.pid = some pidCtx) :
    GuContext.EventsMatch
      ({ ctx.notify pidCtx .destroy with
        pidCtxList := remove PerPidCtx.pid ctx.pidCtxList pidCtx.pid }.count
          fun st => { st with pidCtxCount := wrapSub st.pidCtxCount 1 }) := by
  intro pid
  obtain ⟨opened, hopened, hid⟩ := h pid
  by_cases hpid : pidCtx.pid = pid
  · subst hpid
    rw [hp] at hid
    obtain ⟨create, rfl, hcreate⟩ := Option.map_eq_some_iff.mp hid.symm
    refine ⟨none, ?_, ?_⟩
    · refine (congrArg lifecycle (eventsOf_notify_self ctx pidCtx .destroy)).trans
        ((lifecycle_snoc hopened _).trans ?_)
      exact if_pos hcreate.symm
    · exact congrArg (Option.map PerPidCtx.uniqueId) lookup_remove_self
  · refine ⟨opened, ?_, Eq.trans ?_ hid⟩
    · exact (congrArg lifecycle (eventsOf_notify_of_ne .destroy hpid)).trans hopened
    · exact congrArg (Option.map PerPidCtx.uniqueId) (lookup_remove_of_ne (Ne.symm hpid))

/-- Every step keeps events and table together. -/
theorem step (h : ctx.EventsMatch) {event : CacheEvent P} (hstep : CacheStep w ctx event ctx') :
    ctx'.EventsMatch := by
  cases hstep with
  | ask | cacheRow | create => exact h.of_frame rfl
  | count f hf | throttle | reload => exact h.of_eq rfl fun _ => rfl
  | amend pid f hf =>
    exact h.modifyPid pid (fun p => by rw [hf p]) (fun p => by rw [hf p])
  | reschedule => exact h.modifyPid _ (fun _ => rfl) (fun _ => rfl)
  | take e he => exact h.of_frame (reuseElf_frame ctx e)
  | put e he hpos => exact h.of_frame (guPutElfCtx_frame w ctx e.id)
  | sweep now => exact h.of_frame (guRetiredElfSweep_frame ctx now)
  | load pidCtx sources hnew => exact h.load hnew
  | destroy pidCtx hp => exact h.destroy hp

private theorem init (debug goOnlyBuildid retireTimerStarted : Bool) :
    (guInit debug goOnlyBuildid retireTimerStarted : GuContext P).EventsMatch :=
  fun _ => ⟨none, rfl, rfl⟩

end GuContext.EventsMatch

/-! ## The cleanup -/

/-- Clearing a process delivers no event. -/
theorem guClearPidCtx_events (w : World P) (ctx : GuContext P) (pidCtx : PerPidCtx) :
    (guClearPidCtx w ctx pidCtx).events = ctx.events :=
  congrArg ContextFrame.events (cleanElfCtxs_frame w _ pidCtx.items)

private theorem guCleanup_events (w : World P) (ctx : GuContext P) :
    (guCleanup w ctx).events = ctx.events := by
  have hsweep : (guCleanup w ctx).events =
      (ctx.pidCtxList.foldl (guClearPidCtx w) ctx).events :=
    congrArg ContextFrame.events (guRetiredElfSweep_frame _ uint64Max)
  rw [hsweep]
  clear hsweep
  generalize ctx.pidCtxList = todo
  induction todo generalizing ctx with
  | nil => rfl
  | cons p todo ih => exact (ih _).trans (guClearPidCtx_events w ctx p)

/-- In every reachable context the events of each process alternate and match its entry. After
the cleanup every CREATE has had its DESTROY exactly when no process was left to clear. -/
theorem lifecycles_closed_iff {H P : Type} {S : SavedStates H P} {ctx : GuContext P}
    (h : Reachable S ctx) :
    (∀ pid, ∃ opened, lifecycle (ctx.eventsOf pid) = some opened ∧
      (ctx.pid pid).map PerPidCtx.uniqueId = opened.map PidCtxEvent.startTime) ∧
    ∀ w, (∀ pid, lifecycle ((guCleanup w ctx).eventsOf pid) = some none) ↔
      ctx.pidCtxList = [] := by
  have hmatch : ctx.EventsMatch :=
    h.invariant GuContext.EventsMatch .init fun _ _ _ _ hctx hstep => hctx.step hstep
  refine ⟨hmatch, fun w => ⟨fun hclosed => ?_, fun hnone pid => ?_⟩⟩
  · refine List.eq_nil_iff_forall_not_mem.mpr fun p hp => ?_
    obtain ⟨opened, hopened, hid⟩ := hmatch p.pid
    have hfound : ctx.pid p.pid = some p :=
      lookup_of_mem (h.references CfiProperty.any_kept).pids hp
    have hafter := hclosed p.pid
    rw [GuContext.eventsOf, guCleanup_events, ← GuContext.eventsOf, hopened] at hafter
    rw [Option.some.inj hafter, hfound] at hid
    cases hid
  · obtain ⟨opened, hopened, hid⟩ := hmatch pid
    rw [GuContext.eventsOf, guCleanup_events, ← GuContext.eventsOf, hopened]
    have hfree : ctx.pid pid = none := by rw [GuContext.pid, hnone]; rfl
    rw [hfree] at hid
    rw [Option.map_eq_none_iff.mp hid.symm]

/-- A preloaded process exits before the cleanup. -/
theorem lifecycles_closed_after_exits :
    let ctx := guEventOccur twiceMapped
      (guPreloadPidDebugInfo twiceMapped (guInit false false false) 11).2 (.processExit (some 11))
    ctx.events.length = 2 ∧ ∀ w pid, lifecycle ((guCleanup w ctx).eventsOf pid) = some none := by
  obtain ⟨-, hclosed⟩ := lifecycles_closed_iff
    (.event twiceMapped (.processExit (some 11))
      (.preload twiceMapped 11 (.init false false false)) :
      Reachable savedValues _)
  exact ⟨by decide +kernel, fun w => (hclosed w).mpr (by decide +kernel)⟩

/-- A process is preloaded and the context is cleaned up: its CREATE is never answered. -/
theorem cleanup_without_destroy :
    lifecycle ((guCleanup twiceMapped (guPreloadPidDebugInfo twiceMapped
      (guInit false false false) 11).2).eventsOf 11) = some (some ⟨11, 9#64, "tool", .create⟩) := by
  decide +kernel

end Gunwinder
