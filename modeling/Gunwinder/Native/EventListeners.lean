import Gunwinder.Core.Mutex
import Gunwinder.Native.Context

/-!
# Listeners of process events

`gu_register_pid_ctx_event_listener` puts a callback into the first free one of sixteen slots, and
`pid_ctx_event_notify` calls copies of the slots that are taken. The functions are cut at the
mutex, at each access to a slot and at each call of a callback.
-/

namespace Gunwinder

open Gunwinder.Core

/-- `GU_PID_CTX_EVENT_LISTENER_MAX`. -/
def guPidCtxEventListenerMax : Nat := 16

/-- Callbacks are of type `C`, the pointers they are registered with of type `V`. -/
structure ListenerSlots (C V : Type) where
  pidCtxEventCbs : Nat → Option C
  pidCtxEventCtxs : Nat → Option V

/-- Where a thread is, with its locals. -/
inductive ListenerPlace (C V : Type) where
  | outside
  /-- `gu_register_pid_ctx_event_listener`. -/
  | regLock (callback : C) (cbCtx : Option V)
  | regScan (callback : C) (cbCtx : Option V) (i : Nat)
  | regStoreCb (callback : C) (cbCtx : Option V) (i : Nat)
  | regStoreCtx (callback : C) (cbCtx : Option V) (i : Nat)
  | regUnlock (callback : C) (cbCtx : Option V) (ok : Bool)
  | regReturn (callback : C) (cbCtx : Option V) (ok : Bool)
  /-- `pid_ctx_event_notify`. -/
  | notifyLock (event : PidCtxEvent)
  | notifyScan (event : PidCtxEvent) (i : Nat) (cbs : List (C × Option V))
  | notifyUnlock (event : PidCtxEvent) (cbs : List (C × Option V))
  | notifyCall (event : PidCtxEvent) (cbs : List (C × Option V)) (i : Nat)

/-- What a thread reports. -/
inductive ListenerEvent (C V : Type) where
  | callRegister (callback : Option C) (cbCtx : Option V)
  /-- The listener is in its slot. -/
  | enter (callback : C) (cbCtx : Option V)
  | retRegister (callback : Option C) (cbCtx : Option V) (ok : Bool)
  | callNotify (event : PidCtxEvent)
  /-- A callback is called. -/
  | invoke (event : PidCtxEvent) (listener : C × Option V)
  | retNotify (event : PidCtxEvent)

variable {C V : Type}

/-- The operations other than those on the mutex. -/
inductive ListenerAct : ListenerPlace C V → ListenerSlots C V → ListenerPlace C V →
    ListenerSlots C V → Option (ListenerEvent C V) → Prop where
  | callRegister {sh} (callback : C) (cbCtx : Option V) :
      ListenerAct .outside sh (.regLock callback cbCtx) sh
        (some (.callRegister (some callback) cbCtx))
  /-- A NULL callback is refused at once. -/
  | refuse {sh} (cbCtx : Option V) :
      ListenerAct .outside sh .outside sh (some (.retRegister none cbCtx false))
  | taken {sh callback cbCtx i} (hi : i < guPidCtxEventListenerMax)
      (h : (sh.pidCtxEventCbs i).isSome = true) :
      ListenerAct (.regScan callback cbCtx i) sh (.regScan callback cbCtx (i + 1)) sh none
  | free {sh callback cbCtx i} (hi : i < guPidCtxEventListenerMax)
      (h : sh.pidCtxEventCbs i = none) :
      ListenerAct (.regScan callback cbCtx i) sh (.regStoreCb callback cbCtx i) sh none
  | full {sh callback cbCtx i} (hi : guPidCtxEventListenerMax ≤ i) :
      ListenerAct (.regScan callback cbCtx i) sh (.regUnlock callback cbCtx false) sh none
  | storeCb {sh callback cbCtx i} :
      ListenerAct (.regStoreCb callback cbCtx i) sh (.regStoreCtx callback cbCtx i)
        { sh with pidCtxEventCbs := Function.update sh.pidCtxEventCbs i (some callback) } none
  | storeCtx {sh callback cbCtx i} :
      ListenerAct (.regStoreCtx callback cbCtx i) sh (.regUnlock callback cbCtx true)
        { sh with pidCtxEventCtxs := Function.update sh.pidCtxEventCtxs i cbCtx }
        (some (.enter callback cbCtx))
  | retRegister {sh callback cbCtx ok} :
      ListenerAct (.regReturn callback cbCtx ok) sh .outside sh
        (some (.retRegister (some callback) cbCtx ok))
  | callNotify {sh} (event : PidCtxEvent) :
      ListenerAct .outside sh (.notifyLock event) sh (some (.callNotify event))
  | skip {sh event i cbs} (hi : i < guPidCtxEventListenerMax) (h : sh.pidCtxEventCbs i = none) :
      ListenerAct (.notifyScan event i cbs) sh (.notifyScan event (i + 1) cbs) sh none
  | copy {sh event i cbs callback} (hi : i < guPidCtxEventListenerMax)
      (h : sh.pidCtxEventCbs i = some callback) :
      ListenerAct (.notifyScan event i cbs) sh
        (.notifyScan event (i + 1) (cbs ++ [(callback, sh.pidCtxEventCtxs i)])) sh none
  | copied {sh event i cbs} (hi : guPidCtxEventListenerMax ≤ i) :
      ListenerAct (.notifyScan event i cbs) sh (.notifyUnlock event cbs) sh none
  | invoke {sh event cbs i listener} (h : cbs[i]? = some listener) :
      ListenerAct (.notifyCall event cbs i) sh (.notifyCall event cbs (i + 1)) sh
        (some (.invoke event listener))
  | retNotify {sh event cbs i} (h : cbs.length ≤ i) :
      ListenerAct (.notifyCall event cbs i) sh .outside sh (some (.retNotify event))

/-- What a thread does at its place. -/
def ListenerPlace.op :
    ListenerPlace C V → MutexOp (ListenerSlots C V) (ListenerPlace C V) (ListenerEvent C V)
  | regLock callback cbCtx => .lock (regScan callback cbCtx 0)
  | regUnlock callback cbCtx ok => .unlock (regReturn callback cbCtx ok)
  | notifyLock event => .lock (notifyScan event 0 [])
  | notifyUnlock event cbs => .unlock (notifyCall event cbs 0)
  | place => .act (ListenerAct place)

/-- The thread holds the mutex. -/
def ListenerPlace.inside : ListenerPlace C V → Bool
  | regScan .. | regStoreCb .. | regStoreCtx .. | regUnlock .. | notifyScan ..
  | notifyUnlock .. => true
  | _ => false

abbrev ListenerState (ι C V : Type) := MutexState ι (ListenerSlots C V) (ListenerPlace C V)

abbrev ListenerLabel (ι C V : Type) := Option (ι × ListenerEvent C V)

variable {ι : Type}

/-- No listener is registered. -/
def ListenerState.initial : ListenerState ι C V :=
  ⟨none, ⟨fun _ => none, fun _ => none⟩, fun _ => .outside⟩

abbrev ListenerStep [DecidableEq ι] :
    ListenerState ι C V → ListenerLabel ι C V → ListenerState ι C V → Prop :=
  MutexStep ListenerPlace.op

/-- The listener a label registers. -/
def ListenerLabel.enter? : ListenerLabel ι C V → Option (C × Option V)
  | some (_, .enter callback cbCtx) => some (callback, cbCtx)
  | _ => none

/-- The listeners that are registered, after a record. -/
def listeners (as : List (ListenerLabel ι C V)) : List (C × Option V) :=
  as.filterMap ListenerLabel.enter?

end Gunwinder
