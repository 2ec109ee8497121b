import Gunwinder.Core.ReleaseAcquire
import Gunwinder.Core.Trace

/-!
# The retire timer

`gu_init` starts a thread that publishes the time in the context once in an interval and asks for
a sweep of the retired entries; the thread that uses the context takes its times from there and
answers the requests, until `gu_cleanup` joins the timer. The two share three atomic fields.

Each thread is an automaton: the operation it is about to perform, and where it goes with the
result. The clock never goes back, and a reading of it may fail and be 0. `poll` returns whenever
it likes. Times of the modification order are elements of any linear order `T`.
-/

namespace Gunwinder

open Gunwinder.Core

/-- The atomic fields of `struct gu_context`; the flags are 0 or 1. -/
inductive TimerField where
  | retireTimerStop
  | retireSweepPending
  | retireTimerNowNs
  deriving DecidableEq, Repr

/-- The next operation of a thread. -/
inductive TimerOp where
  | load (field : TimerField)
  | store (field : TimerField) (val : Nat)
  | exchange (field : TimerField) (val : Nat)
  /-- `gu_monotonic_ns`. -/
  | clock
  /-- `poll`, with result 1 when it is interrupted and 0 otherwise. -/
  | poll
  | create
  | join
  /-- The thread is not in a function of the timer. -/
  | outside
  deriving DecidableEq, Repr

/-- Where the timer thread is in `gu_retire_timer_thread`. -/
inductive TimerPc where
  /-- At the condition of the outer loop. -/
  | loop
  | clock
  | storeNow (nowNs : Nat)
  | storePending (nowNs : Nat)
  | poll
  /-- In the inner loop, after `EINTR`. -/
  | interrupted
  | exited
  deriving DecidableEq, Repr

/-- What the timer thread does next. -/
def TimerPc.op : TimerPc → TimerOp
  | loop => .load .retireTimerStop
  | clock => .clock
  | storeNow nowNs => .store .retireTimerNowNs nowNs
  | storePending _ => .store .retireSweepPending 1
  | poll => .poll
  | interrupted => .load .retireTimerStop
  | exited => .outside

/-- Where the timer thread goes with the result of the operation. -/
def TimerPc.next : TimerPc → Nat → TimerPc
  | loop, stop => if stop ≠ 0 then exited else clock
  | clock, nowNs => if nowNs ≠ 0 then storeNow nowNs else poll
  | storeNow nowNs, _ => storePending nowNs
  | storePending _, _ => poll
  | poll, eintr => if eintr ≠ 0 then interrupted else loop
  | interrupted, stop => if stop ≠ 0 then loop else poll
  | exited, _ => exited

variable {T : Type}

/-- Where the thread of the context is, with the request a sweep is to answer. -/
inductive ClientPc (T : Type) where
  /-- `gu_retire_timer_start` has initialised the fields. -/
  | start
  | storeStart (nowNs : Nat)
  | create
  | idle
  /-- `gu_cache_now_ns`. -/
  | cacheLoad
  | cacheClock
  /-- `gu_maybe_sweep_retired_elf`. -/
  | sweepExchange
  | sweepLoad (request : T)
  | sweepClock (request : Option T)
  /-- `gu_retire_timer_stop`. -/
  | stop
  | join

/-- What the thread of the context does next. -/
def ClientPc.op : ClientPc T → TimerOp
  | start => .clock
  | storeStart nowNs => .store .retireTimerNowNs nowNs
  | create => .create
  | idle => .outside
  | cacheLoad => .load .retireTimerNowNs
  | cacheClock => .clock
  | sweepExchange => .exchange .retireSweepPending 0
  | sweepLoad _ => .load .retireTimerNowNs
  | sweepClock _ => .clock
  | stop => .store .retireTimerStop 1
  | join => .join

/-- Where the thread of the context goes with the result of a load, a store or a clock
reading. -/
def ClientPc.next : ClientPc T → Nat → ClientPc T
  | start, nowNs => if nowNs ≠ 0 then storeStart nowNs else create
  | storeStart _, _ => create
  | cacheLoad, nowNs => if nowNs ≠ 0 then idle else cacheClock
  | cacheClock, _ => idle
  | sweepLoad request, nowNs => if nowNs ≠ 0 then idle else sweepClock (some request)
  | sweepClock _, _ => idle
  | stop, _ => join
  | pc, _ => pc

/-- What a run of the two threads records. -/
inductive TimerEvent (T : Type) where
  | quiet
  /-- The clock cannot be read in `gu_retire_timer_start`. -/
  | unclocked
  /-- The timer sets the flag, in this place of its modification order. -/
  | request (place : T) (nowNs : Nat)
  /-- A sweep clears the flag that was set in this place. -/
  | take (place : T)
  /-- `gu_cache_now_ns` returns. -/
  | answer (nowNs : Nat)
  /-- `gu_retired_elf_sweep` is called, for a request if the timer runs. -/
  | sweep (request : Option T) (nowNs : Nat)

/-- What is recorded when the timer stores. -/
def TimerPc.stored (pc : TimerPc) (place : T) : TimerEvent T :=
  match pc with
  | storePending nowNs => .request place nowNs
  | _ => .quiet

/-- What is recorded when the thread of the context gets a value. -/
def ClientPc.got (pc : ClientPc T) (val : Nat) : TimerEvent T :=
  match pc with
  | start => if val ≠ 0 then .quiet else .unclocked
  | cacheLoad => if val ≠ 0 then .answer val else .quiet
  | cacheClock => .answer val
  | sweepLoad request => if val ≠ 0 then .sweep (some request) val else .quiet
  | sweepClock request => .sweep request val
  | _ => .quiet

/-- The functions the thread of the context calls, and where they begin. -/
inductive ClientPc.Calls (started : Bool) : ClientPc T → Prop where
  | cacheNow : Calls started (if started then cacheLoad else cacheClock)
  | maybeSweep : Calls started (if started then sweepExchange else sweepClock none)
  | timerStop (h : started = true) : Calls started stop

/-- The two threads, the memory and the clock. -/
structure TimerState (T : Type) where
  mem : List (Message TimerField T Nat)
  clockNs : Nat
  client : ClientPc T
  clientView : TimerField → T
  retireTimerStarted : Bool
  /-- `retire_timer_event_fd` is open. -/
  eventFd : Bool
  /-- The timer thread, while it exists. -/
  timer : Option TimerPc
  timerView : TimerField → T

/-- After `atomic_init`: every field holds 0. -/
def TimerState.initial (lo first : T) (clockNs : Nat) : TimerState T where
  mem := [.retireTimerStop, .retireSweepPending, .retireTimerNowNs].map fun field =>
    ⟨field, lo, first, 0, fun _ => first⟩
  clockNs := clockNs
  client := .start
  clientView := fun _ => first
  retireTimerStarted := false
  eventFd := false
  timer := none
  timerView := fun _ => first

variable [LinearOrder T]

/-- A step of the timer thread. -/
inductive TimerStep : TimerState T → TimerEvent T → TimerState T → Prop where
  | load {s : TimerState T} {pc : TimerPc} {field : TimerField} {m : Message TimerField T Nat}
      (hpc : s.timer = some pc) (hop : pc.op = .load field)
      (hread : AcquireLoad s.mem s.timerView m) (hloc : m.loc = field) :
      TimerStep s .quiet
        { s with timer := some (pc.next m.val), timerView := s.timerView ⊔ m.view }
  | store {s : TimerState T} {pc : TimerPc} {m : Message TimerField T Nat}
      (hpc : s.timer = some pc) (hop : pc.op = .store m.loc m.val)
      (hwrite : ReleaseStore s.mem s.timerView m) :
      TimerStep s (pc.stored m.hi)
        { s with mem := m :: s.mem, timer := some (pc.next 0), timerView := m.view }
  | clock {s : TimerState T} {pc : TimerPc} {nowNs : Nat} (hpc : s.timer = some pc)
      (hop : pc.op = .clock) (hnow : nowNs = 0 ∨ nowNs = s.clockNs) :
      TimerStep s .quiet { s with timer := some (pc.next nowNs) }
  | poll {s : TimerState T} {pc : TimerPc} (eintr : Nat) (hpc : s.timer = some pc)
      (hop : pc.op = .poll) : TimerStep s .quiet { s with timer := some (pc.next eintr) }

/-- A step of the thread of the context. -/
inductive ClientStep : TimerState T → TimerEvent T → TimerState T → Prop where
  | load {s : TimerState T} {field : TimerField} {m : Message TimerField T Nat}
      (hop : s.client.op = .load field) (hread : AcquireLoad s.mem s.clientView m)
      (hloc : m.loc = field) :
      ClientStep s (s.client.got m.val)
        { s with client := s.client.next m.val, clientView := s.clientView ⊔ m.view }
  | store {s : TimerState T} {m : Message TimerField T Nat}
      (hop : s.client.op = .store m.loc m.val) (hwrite : ReleaseStore s.mem s.clientView m) :
      ClientStep s .quiet
        { s with mem := m :: s.mem, client := s.client.next 0, clientView := m.view }
  | clock {s : TimerState T} {nowNs : Nat} (hop : s.client.op = .clock)
      (hnow : nowNs = 0 ∨ nowNs = s.clockNs) :
      ClientStep s (s.client.got nowNs) { s with client := s.client.next nowNs }
  | exchange {s : TimerState T} {old m : Message TimerField T Nat}
      (hop : s.client.op = .exchange m.loc m.val) (hx : AcqRelExchange s.mem s.clientView old m) :
      ClientStep s (if old.val ≠ 0 then .take old.hi else .quiet)
        { s with
          mem := m :: s.mem
          client := if old.val ≠ 0 then .sweepLoad old.hi else .idle
          clientView := m.view }
  /-- No event descriptor, or no thread. -/
  | createFailed {s : TimerState T} (hop : s.client.op = .create) :
      ClientStep s .quiet { s with client := .idle }
  /-- What the new thread does comes after all that was done before it was created. -/
  | create {s : TimerState T} (hop : s.client.op = .create) :
      ClientStep s .quiet
        { s with
          client := .idle
          retireTimerStarted := true
          eventFd := true
          timer := some .loop
          timerView := s.clientView }
  | call {s : TimerState T} {pc : ClientPc T} (hpc : s.client.op = .outside)
      (hcall : pc.Calls s.retireTimerStarted) : ClientStep s .quiet { s with client := pc }
  /-- What the thread that is joined has done comes before all that is done later. -/
  | join {s : TimerState T} (hop : s.client.op = .join) (hexit : s.timer = some .exited) :
      ClientStep s .quiet
        { s with
          client := .idle
          clientView := s.clientView ⊔ s.timerView
          retireTimerStarted := false
          eventFd := false
          timer := none }

/-- A step of either thread, or time passes. -/
inductive RetireStep : TimerState T → TimerEvent T → TimerState T → Prop where
  | tick {s : TimerState T} {clockNs : Nat} (h : s.clockNs ≤ clockNs) :
      RetireStep s .quiet { s with clockNs }
  | timer {s s' : TimerState T} {event : TimerEvent T} (h : TimerStep s event s') :
      RetireStep s event s'
  | client {s s' : TimerState T} {event : TimerEvent T} (h : ClientStep s event s') :
      RetireStep s event s'

/-- The times the cache works with. -/
def TimerEvent.time? : TimerEvent T → Option Nat
  | .answer nowNs => some nowNs
  | .sweep _ nowNs => some nowNs
  | _ => none

/-- The request that is taken. -/
def TimerEvent.taken? : TimerEvent T → Option T
  | .take place => some place
  | _ => none

end Gunwinder
