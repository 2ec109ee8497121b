import Gunwinder.Native.EventListeners

/-!
# Notifications while listeners are registered

Threads register listeners and notify them in any order. Slots are filled from the front and
keep what they hold, so the slots are the listeners in the order of their registration; a
notification copies them in one piece and calls each of the copies once.
-/

namespace Gunwinder

open Gunwinder.Core

variable {ι C V : Type}

/-! ## Slots -/

/-- The slots hold these listeners. -/
structure ListenerSlots.Hold (sh : ListenerSlots C V) (ls : List (C × Option V)) : Prop where
  cbs : ∀ k, sh.pidCtxEventCbs k = (ls[k]?).map Prod.fst
  ctxs : ∀ k l, ls[k]? = some l → sh.pidCtxEventCtxs k = l.2
  length : ls.length ≤ guPidCtxEventListenerMax

/-- The slots hold these listeners, and a callback without its pointer behind them. -/
structure ListenerSlots.HalfHold (sh : ListenerSlots C V) (ls : List (C × Option V))
    (callback : C) : Prop where
  cbs : ∀ k, sh.pidCtxEventCbs k =
    if k = ls.length then some callback else (ls[k]?).map Prod.fst
  ctxs : ∀ k l, ls[k]? = some l → sh.pidCtxEventCtxs k = l.2
  length : ls.length < guPidCtxEventListenerMax

variable {k : Nat}

namespace ListenerSlots

variable {sh : ListenerSlots C V} {ls : List (C × Option V)} {callback : C}

private theorem Hold.storeCb (h : sh.Hold ls) (hlength : ls.length < guPidCtxEventListenerMax)
    (callback : C) : HalfHold
      { sh with
        pidCtxEventCbs := Function.update sh.pidCtxEventCbs ls.length (some callback) }
      ls callback := by
  refine ⟨fun k => ?_, h.ctxs, hlength⟩
  dsimp only
  by_cases hk : k = ls.length
  · subst hk
    rw [Function.update_self, if_pos rfl]
  · rw [Function.update_of_ne hk, if_neg hk]
    exact h.cbs k

private theorem HalfHold.storeCtx (h : sh.HalfHold ls callback) (cbCtx : Option V) :
    Hold { sh with pidCtxEventCtxs := Function.update sh.pidCtxEventCtxs ls.length cbCtx }
      (ls ++ [(callback, cbCtx)]) := by
  refine ⟨fun k => ?_, fun k l hk => ?_, ?_⟩
  · dsimp only
    rw [h.cbs k]
    by_cases hk : k = ls.length
    · subst hk
      rw [if_pos rfl, List.getElem?_concat_length]
      rfl
    · rw [if_neg hk]
      rcases Nat.lt_or_ge k ls.length with hlt | hge
      · rw [List.getElem?_append_left hlt]
      · rw [List.getElem?_eq_none (by omega), List.getElem?_eq_none (by simp; omega)]
  · dsimp only
    by_cases hlast : k = ls.length
    · subst hlast
      rw [List.getElem?_concat_length] at hk
      cases hk
      exact Function.update_self ..
    · rw [Function.update_of_ne hlast]
      have hlt : k < ls.length := by
        have := (List.getElem?_eq_some_iff.mp hk).1
        rw [List.length_append, List.length_singleton] at this
        omega
      rw [List.getElem?_append_left hlt] at hk
      exact h.ctxs k l hk
  · rw [List.length_append, List.length_singleton]
    exact h.length

/-- A slot that is taken is one of the front. -/
theorem Hold.lt_of_taken (h : sh.Hold ls) (hk : (sh.pidCtxEventCbs k).isSome = true) :
    k < ls.length := by
  rw [h.cbs k, Option.isSome_map] at hk
  obtain ⟨l, hl⟩ := Option.isSome_iff_exists.mp hk
  exact (List.getElem?_eq_some_iff.mp hl).1

private theorem Hold.length_le_of_free (h : sh.Hold ls) (hk : sh.pidCtxEventCbs k = none) :
    ls.length ≤ k := by
  rw [h.cbs k, Option.map_eq_none_iff] at hk
  exact List.getElem?_eq_none_iff.mp hk

/-- The listener in a slot is copied as it was registered. -/
theorem Hold.copy (h : sh.Hold ls) {callback : C} (hk : sh.pidCtxEventCbs k = some callback) :
    ls.take k ++ [(callback, sh.pidCtxEventCtxs k)] = ls.take (k + 1) := by
  rw [h.cbs k] at hk
  obtain ⟨l, hl, rfl⟩ := Option.map_eq_some_iff.mp hk
  rw [h.ctxs k l hl, List.take_add_one, hl]
  rfl

end ListenerSlots

/-! ## Places -/

/-- What holds of the slots while a thread is inside. -/
def ListenerPlace.Fits (sh : ListenerSlots C V) (ls : List (C × Option V)) :
    ListenerPlace C V → Prop
  | regScan _ _ k => sh.Hold ls ∧ k ≤ ls.length
  | regStoreCb _ _ k => sh.Hold ls ∧ k = ls.length ∧ k < guPidCtxEventListenerMax
  | regStoreCtx callback _ k => sh.HalfHold ls callback ∧ k = ls.length
  | notifyScan _ k cbs => sh.Hold ls ∧ cbs = ls.take k
  | regUnlock .. | notifyUnlock .. => sh.Hold ls
  | _ => True

/-- The last report of a thread, before it calls listeners. -/
def ListenerPlace.call? : ListenerPlace C V → Option (ListenerEvent C V)
  | regLock callback cbCtx | regScan callback cbCtx _ | regStoreCb callback cbCtx _
  | regStoreCtx callback cbCtx _ | regUnlock callback cbCtx false
  | regReturn callback cbCtx false => some (.callRegister (some callback) cbCtx)
  | regUnlock callback cbCtx true | regReturn callback cbCtx true =>
      some (.enter callback cbCtx)
  | notifyLock event | notifyScan event _ _ | notifyUnlock event _ => some (.callNotify event)
  | outside | notifyCall .. => none

/-- What a thread has found out about the listeners. -/
def ListenerPlace.Right (record : List (ListenerLabel ι C V)) : ListenerPlace C V → Prop
  | regUnlock _ _ false | regReturn _ _ false =>
      guPidCtxEventListenerMax ≤ (listeners record).length
  | notifyUnlock _ cbs => cbs = listeners record
  | _ => True

private theorem ListenerPlace.act_of_op {l : ListenerPlace C V}
    {run : ListenerSlots C V → ListenerPlace C V → ListenerSlots C V →
      Option (ListenerEvent C V) → Prop} (h : l.op = .act run) : run = ListenerAct l := by
  cases l <;> cases h <;> rfl

variable {sh' sh : ListenerSlots C V} {report : Option (ListenerEvent C V)}

private theorem ListenerAct.inside_eq {l l' : ListenerPlace C V}
    (h : ListenerAct l sh l' sh' report) : l'.inside = l.inside := by
  cases h <;> rfl

private theorem listener_disciplined :
    Disciplined (ListenerPlace.op (C := C) (V := V)) ListenerPlace.inside where
  lock {l next} h := by cases l <;> cases h <;> exact ⟨rfl, rfl⟩
  unlock {l next} h := by cases l <;> cases h <;> exact ⟨rfl, rfl⟩
  act {l next run shared shared' report} h hrun := by
    rw [ListenerPlace.act_of_op h] at hrun
    exact hrun.inside_eq

variable {p : ListenerPlace C V}

private theorem ListenerPlace.Fits.of_outside {ls : List (C × Option V)} (h : p.inside = false) :
    p.Fits sh ls := by
  cases p <;> trivial

private theorem listeners_snoc (as : List (ListenerLabel ι C V)) (label : ListenerLabel ι C V) :
    listeners (as ++ [label]) = listeners as ++ label.enter?.toList :=
  filterMap_snoc ..

private theorem listeners_none (as : List (ListenerLabel ι C V)) :
    listeners (as ++ [none]) = listeners as :=
  (listeners_snoc as none).trans (List.append_nil _)

variable {p' : ListenerPlace C V}

/-- What an operation makes true of the thread that performs it. -/
theorem ListenerAct.learns {as : List (ListenerLabel ι C V)} {i : ι}
    (hact : ListenerAct p sh p' sh' report) (hfits : p.Fits sh (listeners as))
    (hduring : ∀ call, p.call? = some call →
      DuringCall i call (fun record => p.Right record) as) :
    p'.Fits sh' (listeners (as ++ [report.map fun a => (i, a)])) ∧
    (∀ call, p'.call? = some call → DuringCall i call (fun record => p'.Right record)
      (as ++ [report.map fun a => (i, a)])) := by
  have hquiet : ∀ a, (none : ListenerLabel ι C V) ≠ some (i, a) := by rintro a ⟨⟩
  cases hact
  case callRegister callback cbCtx =>
    refine ⟨trivial, ?_⟩
    rintro call ⟨⟩
    exact DuringCall.start as i _
  case refuse cbCtx =>
    refine ⟨trivial, ?_⟩
    rintro call ⟨⟩
  case taken callback cbCtx k hk htaken =>
    obtain ⟨hhold, hle⟩ := hfits
    refine ⟨?_, ?_⟩
    · rw [Option.map_none, listeners_none]
      exact ⟨hhold, hhold.lt_of_taken htaken⟩
    · exact fun call hcall => (hduring call hcall).snoc hquiet
  case free callback cbCtx k hk hfree =>
    obtain ⟨hhold, hle⟩ := hfits
    refine ⟨?_, ?_⟩
    · rw [Option.map_none, listeners_none]
      exact ⟨hhold, Nat.le_antisymm hle (hhold.length_le_of_free hfree), hk⟩
    · exact fun call hcall => (hduring call hcall).snoc hquiet
  case full callback cbCtx k hk =>
    obtain ⟨hhold, hle⟩ := hfits
    refine ⟨?_, ?_⟩
    · rw [Option.map_none, listeners_none]
      exact hhold
    · intro call hcall
      exact ((hduring call hcall).now (hk.trans hle)).snoc hquiet
  case storeCb callback cbCtx k =>
    obtain ⟨hhold, rfl, hlt⟩ := hfits
    refine ⟨?_, ?_⟩
    · rw [Option.map_none, listeners_none]
      exact ⟨hhold.storeCb hlt callback, rfl⟩
    · exact fun call hcall => (hduring call hcall).snoc hquiet
  case storeCtx callback cbCtx k =>
    obtain ⟨hhalf, rfl⟩ := hfits
    refine ⟨?_, ?_⟩
    · rw [listeners_snoc]
      exact hhalf.storeCtx cbCtx
    · rintro call ⟨⟩
      exact DuringCall.start as i _
  case retRegister callback cbCtx ok =>
    refine ⟨trivial, ?_⟩
    rintro call ⟨⟩
  case callNotify event =>
    refine ⟨trivial, ?_⟩
    rintro call ⟨⟩
    exact DuringCall.start as i _
  case skip event k cbs hk hfree =>
    obtain ⟨hhold, rfl⟩ := hfits
    have hlength := hhold.length_le_of_free hfree
    refine ⟨?_, ?_⟩
    · rw [Option.map_none, listeners_none]
      refine ⟨hhold, ?_⟩
      rw [List.take_of_length_le hlength, List.take_of_length_le (by omega)]
    · exact fun call hcall => (hduring call hcall).snoc hquiet
  case copy event k cbs callback hk htaken =>
    obtain ⟨hhold, rfl⟩ := hfits
    refine ⟨?_, ?_⟩
    · rw [Option.map_none, listeners_none]
      exact ⟨hhold, hhold.copy htaken⟩
    · exact fun call hcall => (hduring call hcall).snoc hquiet
  case copied event k cbs hk =>
    obtain ⟨hhold, rfl⟩ := hfits
    have hall : (listeners as).take k = listeners as :=
      List.take_of_length_le (hhold.length.trans hk)
    refine ⟨?_, ?_⟩
    · rw [Option.map_none, listeners_none]
      exact hhold
    · intro call hcall
      exact ((hduring call hcall).now hall).snoc hquiet
  case invoke event cbs k listener hlistener =>
    refine ⟨trivial, ?_⟩
    rintro call ⟨⟩
  case retNotify event cbs k hk =>
    refine ⟨trivial, ?_⟩
    rintro call ⟨⟩

/-! ## Runs -/

variable [DecidableEq ι]

/-- A label is as it should be. -/
def RightListenerLabel (as : List (ListenerLabel ι C V)) : ListenerLabel ι C V → Prop
  | some (i, .retNotify event) => ∃ ls, SinceCall i (.callNotify event)
      (fun record => ls = listeners record) (ls.map (.invoke event)) as
  | some (i, .retRegister (some callback) cbCtx true) =>
      DuringCall i (.enter callback cbCtx) (fun _ => True) as
  | some (i, .retRegister (some callback) cbCtx false) =>
      DuringCall i (.callRegister (some callback) cbCtx)
        (fun record => guPidCtxEventListenerMax ≤ (listeners record).length) as
  | some (_, .retRegister none _ ok) => ok = false
  | _ => True

/-- Threads that register and notify, after this record. -/
structure ListenerInv (as : List (ListenerLabel ι C V)) (s : ListenerState ι C V) : Prop where
  guarded : s.Guarded ListenerPlace.inside
  slots : s.owner = none → s.shared.Hold (listeners as)
  fits : ∀ i, (s.place i).Fits s.shared (listeners as)
  during : ∀ i call, (s.place i).call? = some call →
    DuringCall i call (fun record => (s.place i).Right record) as
  calling : ∀ i event cbs k, s.place i = .notifyCall event cbs k →
    SinceCall i (.callNotify event) (fun record => cbs = listeners record)
      ((cbs.take k).map (.invoke event)) as
  right : Always RightListenerLabel as

namespace ListenerInv

variable {as : List (ListenerLabel ι C V)} {s : ListenerState ι C V} {i : ι}

private theorem initial : ListenerInv [] (ListenerState.initial : ListenerState ι C V) := by
  refine ⟨fun i => ⟨?_, ?_⟩, fun _ => ⟨fun k => rfl, ?_, Nat.zero_le _⟩, fun i => trivial, ?_, ?_,
    .nil _⟩
  · rintro ⟨⟩
  · rintro ⟨⟩
  · rintro k l ⟨⟩
  · rintro i call ⟨⟩
  · rintro i event cbs k ⟨⟩

/-- A step of one thread, with what it makes true. -/
theorem advance {owner : Option ι} {label : ListenerLabel ι C V} (h : ListenerInv as s)
    (hguarded : MutexState.Guarded ListenerPlace.inside
      ⟨owner, sh', Function.update s.place i p'⟩)
    (hslots : owner = none → sh'.Hold (listeners (as ++ [label])))
    (hother : (s.place i).inside = true ∨ sh' = s.shared ∧ label.enter? = none)
    (hlabel : ∀ j, j ≠ i → ∀ a, label ≠ some (j, a))
    (hfits : p'.Fits sh' (listeners (as ++ [label]))) (hduring : ∀ call, p'.call? = some call →
      DuringCall i call (fun record => p'.Right record) (as ++ [label]))
    (hcalling : ∀ event cbs k, p' = .notifyCall event cbs k →
      SinceCall i (.callNotify event) (fun record => cbs = listeners record)
        ((cbs.take k).map (.invoke event)) (as ++ [label])) (hright : RightListenerLabel as label) :
    ListenerInv (as ++ [label]) ⟨owner, sh', Function.update s.place i p'⟩ := by
  refine ⟨hguarded, hslots, ?_, ?_, ?_, h.right.snoc hright⟩
  · refine (Function.forall_update_iff s.place
      (p := fun _ q => q.Fits sh' (listeners (as ++ [label])))).mpr ⟨hfits, fun j hji => ?_⟩
    rcases hother with hin | ⟨rfl, hnone⟩
    · exact .of_outside (eq_false_of_ne_true fun hj => hji (h.guarded.exclusive hj hin))
    · rw [listeners_snoc, hnone, Option.toList_none, List.append_nil]
      exact h.fits j
  · exact (Function.forall_update_iff s.place (p := fun j q => ∀ call, q.call? = some call →
      DuringCall j call (fun record => q.Right record) (as ++ [label]))).mpr
        ⟨hduring, fun j hji call hcall => (h.during j call hcall).snoc (hlabel j hji)⟩
  · exact (Function.forall_update_iff s.place (p := fun j q => ∀ event cbs k,
      q = .notifyCall event cbs k → SinceCall j (.callNotify event)
        (fun record => cbs = listeners record) ((cbs.take k).map (.invoke event))
        (as ++ [label]))).mpr ⟨hcalling, fun j hji event cbs k hplace =>
          (h.calling j event cbs k hplace).snoc (hlabel j hji)⟩

/-- Each callback that is called is the next one of the copies. -/
theorem calls_next {event : PidCtxEvent} {cbs : List (C × Option V)}
    (hact : ListenerAct p sh (.notifyCall event cbs k) sh' report)
    (hcalling : ∀ event cbs k, p = .notifyCall event cbs k →
      SinceCall i (.callNotify event) (fun record => cbs = listeners record)
        ((cbs.take k).map (.invoke event)) as) :
    SinceCall i (.callNotify event) (fun record => cbs = listeners record)
      ((cbs.take k).map (.invoke event)) (as ++ [report.map fun a => (i, a)]) := by
  cases hact with
  | @invoke _ _ _ k listener hlistener =>
    rw [List.take_add_one, hlistener, List.map_append]
    exact (hcalling event cbs k rfl).report (.invoke event listener)

/-- What a thread reports is right. -/
theorem right_act (hact : ListenerAct p sh p' sh' report)
    (hduring : ∀ call, p.call? = some call → DuringCall i call (fun record => p.Right record) as)
    (hcalling : ∀ event cbs k, p = .notifyCall event cbs k →
      SinceCall i (.callNotify event) (fun record => cbs = listeners record)
        ((cbs.take k).map (.invoke event)) as) :
    RightListenerLabel as (report.map fun a => (i, a)) := by
  cases hact
  case refuse => exact rfl
  case retRegister callback cbCtx ok =>
    cases ok with
    | true => exact hduring (.enter callback cbCtx) rfl
    | false => exact hduring (.callRegister (some callback) cbCtx) rfl
  case retNotify event cbs k hk =>
    have hall := hcalling event cbs k rfl
    rw [List.take_of_length_le hk] at hall
    exact ⟨cbs, hall⟩
  all_goals trivial

section

variable (h : ListenerInv as s)
include h

/-- One operation of a thread. -/
theorem act (hact : ListenerAct (s.place i) s.shared p' sh' report)
    (hguarded : MutexState.Guarded ListenerPlace.inside
      ⟨s.owner, sh', Function.update s.place i p'⟩) :
    ListenerInv (as ++ [report.map fun a => (i, a)])
      ⟨s.owner, sh', Function.update s.place i p'⟩ := by
  obtain ⟨hfits, hduring⟩ := hact.learns (i := i) (h.fits i) (h.during i)
  have hother : (s.place i).inside = true ∨
      sh' = s.shared ∧ ListenerLabel.enter? (report.map fun a => (i, a)) = none := by
    generalize s.place i = q at hact
    cases hact <;> first | exact .inl rfl | exact .inr ⟨rfl, rfl⟩
  refine h.advance hguarded ?_ hother ?_ hfits hduring ?_ ?_
  · intro howner
    rcases hother with hin | ⟨rfl, hnone⟩
    · rw [(h.guarded i).mpr hin] at howner
      cases howner
    · rw [listeners_snoc, hnone, Option.toList_none, List.append_nil]
      exact h.slots howner
  · rintro j hji a hlabel
    cases report <;> cases hlabel
    exact hji rfl
  · rintro event cbs k rfl
    exact calls_next hact (h.calling i)
  · exact right_act hact (h.during i) (h.calling i)

/-- A thread that takes the mutex finds the listeners in the slots. -/
theorem lock (hlock : (s.place i).op = .lock p') (hfree : s.owner = none)
    (hguarded : MutexState.Guarded ListenerPlace.inside
      ⟨some i, s.shared, Function.update s.place i p'⟩) :
    ListenerInv (as ++ [none]) ⟨some i, s.shared, Function.update s.place i p'⟩ := by
  have hhold := h.slots hfree
  have hduring := h.during i
  have hquiet : ∀ (j : ι) a, (none : ListenerLabel ι C V) ≠ some (j, a) := by rintro j a ⟨⟩
  refine h.advance hguarded ?_ (.inr ⟨rfl, rfl⟩) (fun j _ => hquiet j) ?_ ?_ ?_ trivial
  · rintro ⟨⟩
  all_goals generalize s.place i = q at hlock hduring
  · rw [listeners_none]
    cases q <;> cases hlock
    · exact ⟨hhold, Nat.zero_le _⟩
    · exact ⟨hhold, rfl⟩
  · cases q <;> cases hlock
    all_goals exact fun call hcall => (hduring call hcall).snoc (hquiet i)
  · cases q <;> cases hlock
    all_goals rintro event cbs k ⟨⟩

/-- A thread that gives the mutex back leaves the listeners in the slots. -/
theorem unlock (hunlock : (s.place i).op = .unlock p')
    (hguarded : MutexState.Guarded ListenerPlace.inside
      ⟨none, s.shared, Function.update s.place i p'⟩) :
    ListenerInv (as ++ [none]) ⟨none, s.shared, Function.update s.place i p'⟩ := by
  have hfits := h.fits i
  have hduring := h.during i
  have hquiet : ∀ (j : ι) a, (none : ListenerLabel ι C V) ≠ some (j, a) := by rintro j a ⟨⟩
  refine h.advance hguarded ?_ (.inr ⟨rfl, rfl⟩) (fun j _ => hquiet j) ?_ ?_ ?_ trivial
  all_goals generalize s.place i = q at hunlock hfits hduring
  · intro _
    rw [listeners_none]
    cases q <;> cases hunlock
    all_goals exact hfits
  · cases q <;> cases hunlock <;> trivial
  · cases q <;> cases hunlock
    · rename_i callback cbCtx ok
      cases ok <;> exact fun call hcall => (hduring call hcall).snoc (hquiet i)
    · rintro call ⟨⟩
  · cases q <;> cases hunlock
    · rintro event cbs k ⟨⟩
    · rintro event cbs k ⟨⟩
      exact .of_during ((hduring _ rfl).snoc (hquiet i))

/-- One step of the threads. -/
theorem step {label : ListenerLabel ι C V} {t : ListenerState ι C V}
    (hstep : ListenerStep s label t) : ListenerInv (as ++ [label]) t := by
  have hguarded := hstep.guarded listener_disciplined h.guarded
  cases hstep with
  | lock hlock hfree => exact h.lock hlock hfree hguarded
  | unlock hunlock => exact h.unlock hunlock hguarded
  | act hop hrun =>
    rw [ListenerPlace.act_of_op hop] at hrun
    exact h.act hrun hguarded

end

/-- Every run. -/
theorem of_trace (h : Trace ListenerStep ListenerState.initial as s) : ListenerInv as s := by
  have hrun := h.history ListenerInv (fun _ _ _ _ hinv hstep => hinv.step hstep) initial
  rwa [List.nil_append] at hrun

end ListenerInv

/-- Whatever other threads register and notify in the meantime, a notification calls the
listeners that were registered at a moment of its call: all of them, each once with its own
pointer, in the order of registration. A registration fails only without a callback, or when
all slots were taken at a moment of its call. -/
theorem notifications_reach_listeners {as : List (ListenerLabel ι C V)}
    {s : ListenerState ι C V} (h : Trace ListenerStep ListenerState.initial as s) :
    (∀ pre i event post, as = pre ++ some (i, .retNotify event) :: post →
      ∃ ls, SinceCall i (.callNotify event) (fun record => ls = listeners record)
        (ls.map (.invoke event)) pre) ∧
    (∀ pre i callback cbCtx post,
      as = pre ++ some (i, .retRegister (some callback) cbCtx true) :: post →
      DuringCall i (.enter callback cbCtx) (fun _ => True) pre) ∧
    (∀ pre i callback cbCtx post,
      as = pre ++ some (i, .retRegister (some callback) cbCtx false) :: post →
      DuringCall i (.callRegister (some callback) cbCtx)
        (fun record => guPidCtxEventListenerMax ≤ (listeners record).length) pre) := by
  have hright := (ListenerInv.of_trace h).right
  refine ⟨?_, ?_, ?_⟩
  · exact fun pre i event post hsplit => hright pre _ post hsplit
  · exact fun pre i callback cbCtx post hsplit => hright pre _ post hsplit
  · exact fun pre i callback cbCtx post hsplit => hright pre _ post hsplit

/-- The rest of the slots is free. -/
theorem moves_skip {owner : Option ι} {place : ι → ListenerPlace C V} {i : ι} {event : PidCtxEvent}
    {cbs : List (C × Option V)} {n : Nat} (hn : k + n = guPidCtxEventListenerMax)
    (hfree : ∀ j, k ≤ j → sh.pidCtxEventCbs j = none) :
    Moves ListenerStep ⟨owner, sh, Function.update place i (.notifyScan event k cbs)⟩
      ⟨owner, sh, Function.update place i (.notifyUnlock event cbs)⟩ := by
  induction n generalizing k with
  | zero => exact .single (.act_at rfl (ListenerAct.copied (by omega)))
  | succ n ih =>
    have hskip : ListenerStep ⟨owner, sh, Function.update place i (.notifyScan event k cbs)⟩ none
        ⟨owner, sh, Function.update place i (.notifyScan event (k + 1) cbs)⟩ :=
      .act_at rfl (ListenerAct.skip (by omega) (hfree k (Nat.le_refl k)))
    exact (Moves.single hskip).trans (ih (by omega) fun j hj => hfree j (by omega))

/-- The slots after one registration. -/
def oneListener : ListenerSlots Nat Nat where
  pidCtxEventCbs := Function.update (fun _ => none) 0 (some 7)
  pidCtxEventCtxs := Function.update (fun _ => none) 0 (some 1)

/-- A listener is registered and called. -/
theorem notifications_reach_listeners_run :
    ∃ (as : List (ListenerLabel Bool Nat Nat)) (s : ListenerState Bool Nat Nat)
      (pre post : List (ListenerLabel Bool Nat Nat)) (event : PidCtxEvent),
      Trace ListenerStep ListenerState.initial as s ∧
      as = pre ++ some (false, .retNotify event) :: post ∧
      some (false, .invoke event (7, some 1)) ∈ as ∧
      ∃ ls, SinceCall false (.callNotify event) (fun record => ls = listeners record)
        (ls.map (.invoke event)) pre := by
  have hself : ∀ i, Function.update (fun _ : Bool => (.outside : ListenerPlace Nat Nat)) i
      .outside = fun _ => .outside := fun i => Function.update_eq_self i _
  set event : PidCtxEvent := ⟨1, 2#64, "init", .create⟩
  have hregister : Moves ListenerStep
      ⟨none, ⟨fun _ => none, fun _ => none⟩,
        Function.update (fun _ : Bool => .outside) true .outside⟩
      ⟨none, oneListener, Function.update (fun _ : Bool => .outside) true .outside⟩ :=
    (Moves.single (.act_at rfl (.callRegister 7 (some 1)))).snoc
      (.lock_at rfl) |>.snoc
      (.act_at rfl (.free (by decide) rfl)) |>.snoc
      (.act_at rfl .storeCb) |>.snoc
      (.act_at rfl .storeCtx) |>.snoc
      (.unlock_at rfl) |>.snoc
      (.act_at rfl .retRegister)
  have hcopy : Moves ListenerStep
      ⟨none, oneListener, Function.update (fun _ : Bool => .outside) false .outside⟩
      ⟨some false, oneListener, Function.update (fun _ : Bool => .outside) false
        (.notifyScan event 1 [(7, some 1)])⟩ :=
    (Moves.single (.act_at rfl (.callNotify event))).snoc
      (.lock_at rfl) |>.snoc
      (.act_at rfl (.copy (by decide) rfl))
  have hskip : Moves ListenerStep
      ⟨some false, oneListener, Function.update (fun _ : Bool => .outside) false
        (.notifyScan event 1 [(7, some 1)])⟩
      ⟨some false, oneListener, Function.update (fun _ : Bool => .outside) false
        (.notifyUnlock event [(7, some 1)])⟩ := by
    refine moves_skip (n := 15) rfl fun j hj => ?_
    have hne : j ≠ 0 := by omega
    exact Function.update_of_ne hne (some 7) fun _ => none
  have hcall : Trace ListenerStep
      ⟨some false, oneListener, Function.update (fun _ : Bool => .outside) false
        (.notifyUnlock event [(7, some 1)])⟩
      [none, some (false, .invoke event (7, some 1)), some (false, .retNotify event)]
      ⟨none, oneListener, Function.update (fun _ : Bool => .outside) false .outside⟩ :=
    .cons (.unlock_at rfl) <|
    .cons (.act_at rfl (ListenerAct.invoke rfl)) <|
    .cons (.act_at rfl (ListenerAct.retNotify (Nat.le_refl 1))) (.nil _)
  rw [hself] at hregister hcopy
  obtain ⟨as, has⟩ := (hregister.trans hcopy).trans hskip
  have hrun : Trace ListenerStep ListenerState.initial _ _ := has.append hcall
  refine ⟨_, _, as ++ [none, some (false, .invoke event (7, some 1))], [], event, hrun, by simp,
    by simp, ?_⟩
  exact (notifications_reach_listeners hrun).1 _ _ _ [] (by simp)

end Gunwinder
