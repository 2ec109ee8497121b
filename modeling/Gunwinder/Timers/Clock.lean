import Gunwinder.Native.RetireTimer

/-!
# Published times

One thread at a time writes the published time: the thread of the context until it has
created the timer, the timer until it is joined. What it publishes goes up along the
modification order, so the times the cache works with never go back, in whatever order the
threads run and however long a store takes to be seen.
-/

namespace Gunwinder

open Gunwinder.Core

variable {T : Type}

/-! ## Operations -/

variable {field : TimerField}

private theorem TimerPc.of_load {pc : TimerPc} (h : pc.op = .load field) :
    pc = loop ∨ pc = interrupted := by
  cases pc <;> first | exact .inl rfl | exact .inr rfl | cases h

variable {val : Nat}

/-- Where the timer stores. -/
theorem TimerPc.of_store {pc : TimerPc} (h : pc.op = .store field val) :
    (pc = storeNow val ∧ field = .retireTimerNowNs) ∨
      ∃ nowNs, pc = storePending nowNs ∧ field = .retireSweepPending ∧ val = 1 := by
  cases pc <;> cases h
  · exact .inl ⟨rfl, rfl⟩
  · exact .inr ⟨_, rfl, rfl, rfl⟩

private theorem TimerPc.of_clock {pc : TimerPc} (h : pc.op = .clock) : pc = clock := by
  cases pc <;> first | rfl | cases h

private theorem TimerPc.of_poll {pc : TimerPc} (h : pc.op = .poll) : pc = poll := by
  cases pc <;> first | rfl | cases h

variable {pc : ClientPc T}

/-- Where the client loads. -/
theorem ClientPc.of_load (h : pc.op = .load field) :
    field = .retireTimerNowNs ∧ (pc = cacheLoad ∨ ∃ request, pc = sweepLoad request) := by
  cases pc <;> cases h
  · exact ⟨rfl, .inl rfl⟩
  · exact ⟨rfl, .inr ⟨_, rfl⟩⟩

/-- Where the client stores. -/
theorem ClientPc.of_store (h : pc.op = .store field val) :
    (pc = storeStart val ∧ field = .retireTimerNowNs) ∨
      (pc = stop ∧ field = .retireTimerStop) := by
  cases pc <;> cases h
  · exact .inl ⟨rfl, rfl⟩
  · exact .inr ⟨rfl, rfl⟩

/-- Where the client exchanges. -/
theorem ClientPc.of_exchange (h : pc.op = .exchange field val) :
    pc = sweepExchange ∧ field = .retireSweepPending ∧ val = 0 := by
  cases pc <;> cases h
  exact ⟨rfl, rfl, rfl⟩

/-- Where the client reads the clock. -/
theorem ClientPc.of_clock (h : pc.op = .clock) :
    pc = start ∨ pc = cacheClock ∨ ∃ request, pc = sweepClock request := by
  cases pc <;> cases h
  · exact .inl rfl
  · exact .inr (.inl rfl)
  · exact .inr (.inr ⟨_, rfl⟩)

/-- Where the client starts the timer. -/
theorem ClientPc.of_create (h : pc.op = .create) : pc = create := by
  cases pc <;> first | rfl | cases h

/-- Where the client joins the timer. -/
theorem ClientPc.of_join (h : pc.op = .join) : pc = join := by
  cases pc <;> first | rfl | cases h

/-- Where the client is outside. -/
theorem ClientPc.of_outside (h : pc.op = .outside) : pc = idle := by
  cases pc <;> first | rfl | cases h

/-! ## Control -/

/-- `gu_retire_timer_start` is not over. -/
def ClientPc.early : ClientPc T → Bool
  | start | storeStart _ | create => true
  | _ => false

/-- The thread of the context has found the timer started. -/
def ClientPc.served : ClientPc T → Bool
  | cacheLoad | sweepExchange | sweepLoad _ | sweepClock (some _) | stop | join => true
  | _ => false

/-- The timer thread exists exactly while the context says so, and its descriptor is open
all the time. -/
structure Controlled (s : TimerState T) : Prop where
  started : s.retireTimerStarted = s.timer.isSome
  eventFd : s.eventFd = s.timer.isSome
  early : s.client.early = true → s.timer = none
  served : s.client.served = true → s.timer.isSome = true

/-- The view of the thread that writes the time. -/
def TimerState.writerView (s : TimerState T) : TimerField → T :=
  match s.timer with
  | some _ => s.timerView
  | none => s.clientView

variable {s : TimerState T}

/-- A timer that runs writes. -/
theorem TimerState.writerView_some (h : s.timer.isSome = true) : s.writerView = s.timerView := by
  obtain ⟨pc, hpc⟩ := Option.isSome_iff_exists.mp h
  rw [writerView, hpc]

/-- Without a timer the client writes. -/
theorem TimerState.writerView_none (h : s.timer = none) : s.writerView = s.clientView := by
  rw [writerView, h]

variable {started : Bool}

/-- A function that is called knows whether the timer is started. -/
theorem ClientPc.Calls.served (h : pc.Calls started) (hpc : pc.served = true) : started = true := by
  cases started with
  | true => rfl
  | false =>
    cases h with
    | cacheNow | maybeSweep => cases hpc
    | timerStop h => exact h

private theorem ClientPc.Calls.not_early (h : pc.Calls started) : pc.early = false := by
  cases h with
  | cacheNow | maybeSweep => cases started <;> rfl
  | timerStop h => rfl

/-- Once the start is over, it stays over. -/
theorem ClientPc.early_next (h : (pc.next val).early = true) : pc.early = true := by
  cases pc <;> simp only [next] at h <;> first | rfl | (split at h <;> exact h) | exact h

/-- Nothing but a call finds the timer started. -/
theorem ClientPc.served_next (h : (pc.next val).served = true) : pc.served = true := by
  cases pc <;> simp only [next] at h <;> first | rfl | (split at h <;> cases h) | cases h

private theorem Controlled.initial (lo first : T) (clockNs : Nat) :
    Controlled (.initial lo first clockNs) :=
  ⟨rfl, rfl, fun _ => rfl, nofun⟩

namespace Controlled

variable [LinearOrder T] {s s' : TimerState T} {event : TimerEvent T}

private theorem timer (h : Controlled s) (hstep : TimerStep s event s') : Controlled s' := by
  have hkeep : ∀ pc pc', s.timer = some pc → s.timer.isSome = (some pc' : Option TimerPc).isSome ∧
      (s.client.early = true → some pc' = none) := by
    intro pc pc' hpc
    refine ⟨by rw [hpc]; rfl, fun hearly => ?_⟩
    rw [h.early hearly] at hpc
    cases hpc
  cases hstep with
  | load hpc | store hpc | clock hpc | poll eintr hpc =>
    obtain ⟨hsome, hearly⟩ := hkeep _ _ hpc
    exact ⟨h.started.trans hsome, h.eventFd.trans hsome, hearly, fun _ => rfl⟩

private theorem client (h : Controlled s) (hstep : ClientStep s event s') : Controlled s' := by
  cases hstep with
  | load hop hread hloc | store hop hwrite | clock hop hnow =>
    exact ⟨h.started, h.eventFd, fun hearly => h.early (ClientPc.early_next hearly),
      fun hserved => h.served (ClientPc.served_next hserved)⟩
  | exchange hop hx =>
    have hserved : s.timer.isSome = true := by
      refine h.served ?_
      rw [(ClientPc.of_exchange hop).1]
      rfl
    refine ⟨h.started, h.eventFd, fun hearly => ?_, fun _ => hserved⟩
    dsimp only at hearly
    split at hearly <;> cases hearly
  | createFailed hop =>
    exact ⟨h.started, h.eventFd, nofun,
      nofun⟩
  | create hop =>
    exact ⟨rfl, rfl, nofun,
      nofun⟩
  | call hpc hcall =>
    refine ⟨h.started, h.eventFd, fun hearly => ?_, fun hserved => ?_⟩
    · exact absurd hearly (by rw [hcall.not_early]; exact Bool.false_ne_true)
    · exact h.started.symm.trans (hcall.served hserved)
  | join hop hexit =>
    exact ⟨rfl, rfl, fun _ => rfl, nofun⟩

/-- A step keeps control in order. -/
theorem step (h : Controlled s) (hstep : RetireStep s event s') : Controlled s' := by
  cases hstep with
  | tick _ => exact ⟨h.started, h.eventFd, h.early, h.served⟩
  | timer hstep => exact h.timer hstep
  | client hstep => exact h.client hstep

end Controlled

/-! ## The published time -/

/-- The times in the memory, as the thread that writes them sees it. -/
structure Published [LinearOrder T] (mem : List (Message TimerField T Nat)) (view : TimerField → T)
    (clockNs : Nat) : Prop where
  wellFormed : WellFormed mem
  sees : SeesAll mem view .retireTimerNowNs
  ascending : Ascending mem .retireTimerNowNs
  past : ∀ m ∈ mem, m.loc = .retireTimerNowNs → m.val ≤ clockNs

/-- A reading of the clock that can be published. -/
structure Reading (mem : List (Message TimerField T Nat)) (clockNs nowNs : Nat) : Prop where
  nonzero : nowNs ≠ 0
  past : nowNs ≤ clockNs
  latest : ∀ m ∈ mem, m.loc = .retireTimerNowNs → m.val ≤ nowNs

/-- What the timer holds while it publishes a reading. -/
def TimerPc.Holds (mem : List (Message TimerField T Nat)) (clockNs : Nat) : TimerPc → Prop
  | storeNow nowNs => Reading mem clockNs nowNs
  | storePending nowNs => Reading mem clockNs nowNs ∧
      ∃ m ∈ mem, m.loc = .retireTimerNowNs ∧ m.val = nowNs
  | _ => True

/-- What the thread of the context holds while it publishes its first reading. -/
def ClientPc.Holds (mem : List (Message TimerField T Nat)) (clockNs : Nat) :
    ClientPc T → Prop
  | storeStart nowNs => Reading mem clockNs nowNs
  | _ => True

section Memory

variable {mem : List (Message TimerField T Nat)} {view view' : TimerField → T}
  {m : Message TimerField T Nat} {clockNs clockNs' nowNs : Nat}

private theorem Reading.tick (h : Reading mem clockNs nowNs) (hclock : clockNs ≤ clockNs') :
    Reading mem clockNs' nowNs := ⟨h.nonzero, h.past.trans hclock, h.latest⟩

private theorem Reading.cons (h : Reading mem clockNs nowNs)
    (hval : m.loc = .retireTimerNowNs → m.val ≤ nowNs) : Reading (m :: mem) clockNs nowNs :=
  ⟨h.nonzero, h.past, List.forall_mem_cons.mpr ⟨hval, h.latest⟩⟩

/-- Only the start holds a reading. -/
theorem ClientPc.holds_of_not_early (h : pc.early = false) : pc.Holds mem clockNs := by
  cases pc <;> trivial

private theorem TimerPc.Holds.tick {pc : TimerPc} (h : pc.Holds mem clockNs)
    (hclock : clockNs ≤ clockNs') : pc.Holds mem clockNs' := by
  cases pc <;> first | exact Reading.tick h hclock | exact ⟨h.1.tick hclock, h.2⟩ | trivial

private theorem TimerPc.Holds.other {pc : TimerPc} (h : pc.Holds mem clockNs)
    (hloc : m.loc ≠ .retireTimerNowNs) : pc.Holds (m :: mem) clockNs := by
  have hval : ∀ {n}, m.loc = .retireTimerNowNs → m.val ≤ n := fun heq => absurd heq hloc
  cases pc <;> first | exact Reading.cons h hval | trivial | skip
  obtain ⟨hreading, m', hm', hrest⟩ := h
  exact ⟨hreading.cons hval, m', List.mem_cons_of_mem _ hm', hrest⟩

private theorem ClientPc.Holds.tick (h : pc.Holds mem clockNs) (hclock : clockNs ≤ clockNs') :
    pc.Holds mem clockNs' := by
  cases pc <;> first | exact Reading.tick h hclock | trivial

variable [LinearOrder T]

section

variable (h : Published mem view clockNs)
include h

private theorem Published.mono (hview : view ≤ view') (hclock : clockNs ≤ clockNs') :
    Published mem view' clockNs' :=
  ⟨h.wellFormed, h.sees.mono hview, h.ascending,
    fun m hm hloc => (h.past m hm hloc).trans hclock⟩

private theorem Published.write (hwrite : ReleaseStore mem view m)
    (hval : m.loc = .retireTimerNowNs → Reading mem clockNs m.val) :
    Published (m :: mem) m.view clockNs where
  wellFormed := hwrite.wellFormed h.wellFormed
  sees := h.sees.write hwrite
  ascending := by
    by_cases hloc : m.loc = .retireTimerNowNs
    · exact h.ascending.write h.sees hwrite (hval hloc).latest
    · exact h.ascending.other hloc
  past := List.forall_mem_cons.mpr ⟨fun hloc => (hval hloc).past, h.past⟩

private theorem Published.other (hwf : WellFormed (m :: mem)) (hloc : m.loc ≠ .retireTimerNowNs) :
    Published (m :: mem) view clockNs :=
  ⟨hwf, h.sees.other hloc, h.ascending.other hloc,
    List.forall_mem_cons.mpr ⟨fun heq => absurd heq hloc, h.past⟩⟩

private theorem Published.reading (hnonzero : clockNs ≠ 0) :
    Reading mem clockNs clockNs := ⟨hnonzero, le_refl _, h.past⟩

end

/-- What holds in the view of the timer holds in the view of the writer while it exists. -/
theorem Published.of_timer (hsome : s.timer.isSome = true)
    (h : Published s.mem s.timerView s.clockNs) : Published s.mem s.writerView s.clockNs :=
  (TimerState.writerView_some hsome).symm ▸ h

private theorem Published.of_client (hnone : s.timer = none)
    (h : Published s.mem s.clientView s.clockNs) : Published s.mem s.writerView s.clockNs :=
  (TimerState.writerView_none hnone).symm ▸ h

end Memory

/-- The times of a state are in order. -/
structure Timely [LinearOrder T] (s : TimerState T) : Prop where
  controlled : Controlled s
  published : Published s.mem s.writerView s.clockNs
  timer : ∀ pc, s.timer = some pc → pc.Holds s.mem s.clockNs
  client : s.client.Holds s.mem s.clockNs

namespace Timely

variable [LinearOrder T] {s s' : TimerState T} {event : TimerEvent T}

/-- No time is published at first. -/
theorem initial {lo first : T} (hlt : lo < first) (clockNs : Nat) :
    Timely (.initial lo first clockNs) := by
  have hmem : ∀ m ∈ (TimerState.initial lo first clockNs).mem,
      m.lo = lo ∧ m.hi = first ∧ m.val = 0 ∧ m.view = fun _ => first := by
    intro m hm
    obtain ⟨field, -, rfl⟩ := List.mem_map.mp hm
    exact ⟨rfl, rfl, rfl, rfl⟩
  refine ⟨.initial lo first clockNs, ⟨⟨?_, ?_, ?_⟩, ?_, ?_, ?_⟩, ?_, trivial⟩
  · intro m hm
    rw [(hmem m hm).1, (hmem m hm).2.1]
    exact hlt
  · refine List.Pairwise.map _ (R := (· ≠ ·)) (fun a b hne hloc => absurd hloc hne) ?_
    decide
  · intro m hm
    rw [(hmem m hm).2.2.2, (hmem m hm).2.1]
  · intro m hm _
    rw [(hmem m hm).2.1]
    exact le_refl _
  · intro m hm m' hm' _ _ _
    rw [(hmem m hm).2.2.1]
    exact Nat.zero_le _
  · intro m hm _
    rw [(hmem m hm).2.2.1]
    exact Nat.zero_le _
  · intro pc hpc
    cases hpc

variable (h : Timely s)
include h

private theorem tick {clockNs : Nat} (hclock : s.clockNs ≤ clockNs) : Timely { s with clockNs } :=
  ⟨h.controlled.step (.tick hclock), h.published.mono le_rfl hclock,
    fun pc hpc => (h.timer pc hpc).tick hclock, h.client.tick hclock⟩

/-- While the timer exists, it writes. -/
theorem published_timer (hsome : s.timer.isSome = true) : Published s.mem s.timerView s.clockNs :=
  TimerState.writerView_some hsome ▸ h.published

/-- Otherwise the thread of the context does. -/
theorem published_client (hnone : s.timer = none) : Published s.mem s.clientView s.clockNs :=
  TimerState.writerView_none hnone ▸ h.published

/-- Whoever is not starting the timer holds no reading. -/
theorem client_not_early (hsome : s.timer.isSome = true) : s.client.early = false := by
  by_contra hearly
  rw [h.controlled.early (Bool.not_eq_false _ ▸ hearly)] at hsome
  cases hsome

/-- A step of the timer keeps times in order. -/
theorem timerStep (hstep : TimerStep s event s') : Timely s' := by
  have hcontrolled := h.controlled.timer hstep
  cases hstep with
  | @load pc _ m hpc hop hread hloc =>
    refine ⟨hcontrolled, ?_, ?_, h.client⟩
    · exact (h.published_timer (hpc ▸ rfl)).mono le_sup_left le_rfl
    · intro pc' hpc'
      cases hpc'
      rcases TimerPc.of_load hop with rfl | rfl <;> (simp only [TimerPc.next]; split <;> trivial)
  | @store pc m hpc hop hwrite =>
    have hsome : s.timer.isSome = true := hpc ▸ rfl
    have hpublished := h.published_timer hsome
    have hearly := h.client_not_early hsome
    have hholds := h.timer pc hpc
    refine ⟨hcontrolled, ?_, ?_, ClientPc.holds_of_not_early hearly⟩
    · refine hpublished.write hwrite fun hloc => ?_
      rcases TimerPc.of_store hop with ⟨rfl, -⟩ | ⟨nowNs, -, hpending, -⟩
      · exact hholds
      · rw [hpending] at hloc
        cases hloc
    · intro pc' hpc'
      cases hpc'
      rcases TimerPc.of_store hop with ⟨rfl, hloc⟩ | ⟨nowNs, rfl, -, -⟩
      · exact ⟨hholds.cons fun _ => le_refl _, m, List.mem_cons_self, hloc, rfl⟩
      · trivial
  | @clock pc nowNs hpc hop hnow =>
    refine ⟨hcontrolled, h.published_timer (hpc ▸ rfl), ?_, h.client⟩
    intro pc' hpc'
    cases hpc'
    obtain rfl := TimerPc.of_clock hop
    simp only [TimerPc.next]
    split
    · next hne =>
      obtain rfl := hnow.resolve_left hne
      exact h.published.reading hne
    · trivial
  | @poll pc eintr hpc hop =>
    refine ⟨hcontrolled, h.published_timer (hpc ▸ rfl), ?_, h.client⟩
    intro pc' hpc'
    cases hpc'
    obtain rfl := TimerPc.of_poll hop
    simp only [TimerPc.next]
    split <;> trivial

/-- A step of the client keeps times in order. -/
theorem clientStep (hstep : ClientStep s event s') : Timely s' := by
  have hcontrolled := h.controlled.client hstep
  cases hstep with
  | @load _ m hop hread hloc =>
    have hserved : s.client.served = true ∧ (s.client.next m.val).early = false := by
      rcases (ClientPc.of_load hop).2 with hpc | ⟨request, hpc⟩ <;>
        (rw [hpc]; exact ⟨rfl, by simp only [ClientPc.next]; split <;> rfl⟩)
    have hsome := h.controlled.served hserved.1
    refine ⟨hcontrolled, ?_, h.timer, ClientPc.holds_of_not_early hserved.2⟩
    exact .of_timer hsome (h.published_timer hsome)
  | @store m hop hwrite =>
    have hclient := h.client
    rcases ClientPc.of_store hop with ⟨hpc, hloc⟩ | ⟨hpc, hloc⟩
    · have hnone : s.timer = none := h.controlled.early (hpc ▸ rfl)
      rw [hpc] at hclient
      refine ⟨hcontrolled, ?_, ?_, ?_⟩
      · exact .of_client hnone ((h.published_client hnone).write hwrite fun _ => hclient)
      · intro pc hpc'
        exact absurd (hnone.symm.trans hpc') (Option.some_ne_none pc).symm
      · dsimp only
        rw [hpc]
        trivial
    · have hsome : s.timer.isSome = true := h.controlled.served (hpc ▸ rfl)
      have hne : m.loc ≠ .retireTimerNowNs := hloc ▸ TimerField.noConfusion
      have hpublished := h.published_timer hsome
      refine ⟨hcontrolled, ?_, fun pc hpc' => (h.timer pc hpc').other hne, ?_⟩
      · exact .of_timer hsome (hpublished.other (hwrite.wellFormed hpublished.wellFormed) hne)
      · dsimp only
        rw [hpc]
        trivial
  | @clock nowNs hop hnow =>
    refine ⟨hcontrolled, h.published, h.timer, ?_⟩
    dsimp only
    rcases ClientPc.of_clock hop with hpc | hpc | ⟨request, hpc⟩
    · rw [hpc]
      simp only [ClientPc.next]
      split
      · next hne =>
        obtain rfl := hnow.resolve_left hne
        exact h.published.reading hne
      · trivial
    · rw [hpc]
      trivial
    · rw [hpc]
      trivial
  | @exchange old m hop hx =>
    obtain ⟨hpc, hloc, -⟩ := ClientPc.of_exchange hop
    have hsome : s.timer.isSome = true := h.controlled.served (hpc ▸ rfl)
    have hne : m.loc ≠ .retireTimerNowNs := hloc ▸ TimerField.noConfusion
    have hpublished := h.published_timer hsome
    refine ⟨hcontrolled, ?_, fun pc hpc' => (h.timer pc hpc').other hne, ?_⟩
    · exact .of_timer hsome (hpublished.other (hx.wellFormed hpublished.wellFormed) hne)
    · dsimp only
      split <;> trivial
  | createFailed hop => exact ⟨hcontrolled, h.published, h.timer, trivial⟩
  | create hop =>
    have hnone : s.timer = none := h.controlled.early (ClientPc.of_create hop ▸ rfl)
    refine ⟨hcontrolled, h.published_client hnone, ?_, trivial⟩
    intro pc hpc
    cases hpc
    trivial
  | call hpc hcall =>
    exact ⟨hcontrolled, h.published, h.timer, ClientPc.holds_of_not_early hcall.not_early⟩
  | join hop hexit =>
    refine ⟨hcontrolled, ?_, ?_, trivial⟩
    · exact (h.published_timer (hexit ▸ rfl)).mono le_sup_right le_rfl
    · intro pc hpc
      cases hpc

/-- A step keeps times in order. -/
theorem step (hstep : RetireStep s event s') : Timely s' := by
  cases hstep with
  | tick hclock => exact h.tick hclock
  | timer hstep => exact h.timerStep hstep
  | client hstep => exact h.clientStep hstep

end Timely

/-! ## The times of the cache -/

/-- The start has stored its reading, or found none. -/
def ClientPc.begun : ClientPc T → Bool
  | start | storeStart _ => false
  | _ => true

/-- The next time is read from the clock, in `gu_cache_now_ns` or for a sweep. -/
def ClientPc.unserved : ClientPc T → Bool
  | cacheClock | sweepClock _ => true
  | _ => false

/-- The times so far are in order, and whatever can be read next is not before them. -/
structure TimesOrdered [LinearOrder T] (times : List Nat) (s : TimerState T) : Prop where
  early : s.client.early = true → times = []
  nonzero : s.client.begun = true → ∀ m ∈ s.mem, m.loc = .retireTimerNowNs →
    s.clientView .retireTimerNowNs ≤ m.hi → m.val ≠ 0
  unserved : s.client.unserved = true → s.timer = none
  past : ∀ a ∈ times, a ≤ s.clockNs
  bounded : s.timer.isSome = true → ∀ a ∈ times, ∀ m ∈ s.mem, m.loc = .retireTimerNowNs →
    s.clientView .retireTimerNowNs ≤ m.hi → a ≤ m.val
  published : s.timer.isSome = true → ∀ a ∈ times, ∃ m ∈ s.mem, m.loc = .retireTimerNowNs ∧
    a ≤ m.val
  pairwise : times.Pairwise fun a b => b = 0 ∨ a ≤ b

private theorem ClientPc.Calls.unserved (h : pc.Calls started) (hpc : pc.unserved = true) :
    started = false := by
  cases started with
  | false => rfl
  | true =>
    cases h with
    | cacheNow | maybeSweep | timerStop h => cases hpc

variable {m : Message TimerField T Nat}

/-- Messages of other fields do not matter to the time. -/
theorem mem_cons_other {mem : List (Message TimerField T Nat)} (hne : m.loc ≠ .retireTimerNowNs) :
    ∀ m', m'.loc = .retireTimerNowNs → (m' ∈ m :: mem ↔ m' ∈ mem) := by
  intro m' hloc
  rw [List.mem_cons]
  exact or_iff_right fun heq => hne (heq ▸ hloc)

namespace TimesOrdered

variable [LinearOrder T] {s s' : TimerState T} {event : TimerEvent T} {times : List Nat}

private theorem initial (lo first : T) (clockNs : Nat) :
    TimesOrdered [] (.initial lo first clockNs) where
  early := fun _ => rfl
  nonzero := nofun
  unserved := nofun
  past := List.forall_mem_nil _
  bounded := nofun
  published := nofun
  pairwise := List.Pairwise.nil

variable (h : TimesOrdered times s)
include h

private theorem record (hquiet : event.time? = none) :
    TimesOrdered (times ++ event.time?.toList) s := by
  rwa [hquiet, Option.toList_none, List.append_nil]

/-- A step that neither stores a time nor returns one. -/
theorem quiet (hearly : s'.client.early = true → s.client.early = true)
    (hbegun : s'.client.begun = true → s.client.begun = true)
    (hunserved : s'.client.unserved = true → s'.timer = none)
    (htimer : s'.timer.isSome = true → s.timer.isSome = true) (hclock : s.clockNs ≤ s'.clockNs)
    (hview : s.clientView .retireTimerNowNs ≤ s'.clientView .retireTimerNowNs)
    (hmem : ∀ m, m.loc = .retireTimerNowNs → (m ∈ s'.mem ↔ m ∈ s.mem)) :
    TimesOrdered times s' where
  early := fun he => h.early (hearly he)
  nonzero := fun hb m hm hloc hle =>
    h.nonzero (hbegun hb) m ((hmem m hloc).mp hm) hloc (hview.trans hle)
  unserved := hunserved
  past := fun a ha => (h.past a ha).trans hclock
  bounded := fun ht a ha m hm hloc hle =>
    h.bounded (htimer ht) a ha m ((hmem m hloc).mp hm) hloc (hview.trans hle)
  published := by
    intro ht a ha
    obtain ⟨m, hm, hloc, hle⟩ := h.published (htimer ht) a ha
    exact ⟨m, (hmem m hloc).mpr hm, hloc, hle⟩
  pairwise := h.pairwise

/-- The timer stores a time that is not before those that were read. -/
theorem storeNow {nowNs : Nat} (hreading : Reading s.mem s.clockNs nowNs) (hval : m.val = nowNs)
    (hsome : s.timer.isSome = true) {pc : TimerPc} {view : TimerField → T} :
    TimesOrdered times { s with mem := m :: s.mem, timer := some pc, timerView := view } where
  early := h.early
  nonzero := fun hb => List.forall_mem_cons.mpr
    ⟨fun _ _ => hval ▸ hreading.nonzero, h.nonzero hb⟩
  unserved := by
    intro hu
    rw [h.unserved hu] at hsome
    cases hsome
  past := h.past
  bounded := by
    intro _ a ha
    refine List.forall_mem_cons.mpr ⟨fun hloc _ => ?_, h.bounded hsome a ha⟩
    obtain ⟨m', hm', hloc', hle⟩ := h.published hsome a ha
    exact hval ▸ hle.trans (hreading.latest m' hm' hloc')
  published := by
    intro _ a ha
    obtain ⟨m', hm', hrest⟩ := h.published hsome a ha
    exact ⟨m', List.mem_cons_of_mem _ hm', hrest⟩
  pairwise := h.pairwise

private theorem timerStep (ht : Timely s) (hstep : TimerStep s event s') :
    TimesOrdered times s' := by
  have hunserved : ∀ {pc pc' : TimerPc}, s.timer = some pc → s.client.unserved = true →
      some pc' = none := by
    intro pc pc' hpc hu
    rw [h.unserved hu] at hpc
    cases hpc
  cases hstep with
  | load hpc hop hread hloc | clock hpc hop hnow | poll eintr hpc hop =>
    exact h.quiet id id (hunserved hpc) (fun _ => hpc ▸ rfl) le_rfl le_rfl fun _ _ => Iff.rfl
  | @store pc m hpc hop hwrite =>
    have hholds := ht.timer pc hpc
    rcases TimerPc.of_store hop with ⟨rfl, hloc⟩ | ⟨nowNs, rfl, hloc, -⟩
    · exact h.storeNow hholds rfl (hpc ▸ rfl)
    · exact h.quiet id id (hunserved hpc) (fun _ => hpc ▸ rfl) le_rfl le_rfl
        (mem_cons_other (hloc ▸ TimerField.noConfusion))

/-- A published time is read. -/
theorem read (ht : Timely s) (hsome : s.timer.isSome = true)
    (hread : AcquireLoad s.mem s.clientView m) (hloc : m.loc = .retireTimerNowNs)
    (hbegun : s.client.begun = true) :
    TimesOrdered (times ++ [m.val])
      { s with client := .idle, clientView := s.clientView ⊔ m.view } := by
  have hseen : s.clientView .retireTimerNowNs ≤ m.hi := hloc ▸ hread.seen
  have hsees : m.hi ≤ (s.clientView ⊔ m.view) .retireTimerNowNs := by
    have := hread.sees ht.published.wellFormed
    rwa [hloc] at this
  refine ⟨nofun, ?_, nofun,
    ?_, ?_, ?_, ?_⟩
  · intro _ m' hm' hloc' hle
    exact h.nonzero hbegun m' hm' hloc' (le_sup_left.trans hle)
  · refine List.forall_mem_append.mpr ⟨h.past, List.forall_mem_singleton.mpr ?_⟩
    exact ht.published.past m hread.stored hloc
  · intro _
    refine List.forall_mem_append.mpr ⟨fun a ha m' hm' hloc' hle => ?_,
      List.forall_mem_singleton.mpr fun m' hm' hloc' hle => ?_⟩
    · exact h.bounded hsome a ha m' hm' hloc' (le_sup_left.trans hle)
    · exact ht.published.ascending m hread.stored m' hm' hloc hloc' (hsees.trans hle)
  · intro _
    exact List.forall_mem_append.mpr ⟨h.published hsome,
      List.forall_mem_singleton.mpr ⟨m, hread.stored, hloc, le_rfl⟩⟩
  · refine List.pairwise_append.mpr ⟨h.pairwise, List.pairwise_singleton _ _, ?_⟩
    intro a ha
    exact List.forall_mem_singleton.mpr (.inr (h.bounded hsome a ha m hread.stored hloc hseen))

/-- A time is read from the clock, without a timer. -/
theorem clock {nowNs : Nat} (hnow : nowNs = 0 ∨ nowNs = s.clockNs)
    (hunserved : s.client.unserved = true) :
    TimesOrdered (times ++ [nowNs]) { s with client := .idle } := by
  have hnone := h.unserved hunserved
  have habsurd : ∀ {p : Prop}, s.timer.isSome = true → p := by
    intro p hsome
    rw [hnone] at hsome
    cases hsome
  refine ⟨nofun, fun _ => h.nonzero ?_,
    nofun, ?_, habsurd, habsurd, ?_⟩
  · revert hunserved
    cases s.client <;> first | exact fun _ => rfl | exact nofun
  · refine List.forall_mem_append.mpr ⟨h.past, List.forall_mem_singleton.mpr ?_⟩
    dsimp only
    omega
  · refine List.pairwise_append.mpr ⟨h.pairwise, List.pairwise_singleton _ _, ?_⟩
    intro a ha
    refine List.forall_mem_singleton.mpr (hnow.imp id fun heq => ?_)
    exact heq ▸ h.past a ha

/-- The first time is stored before there is a timer. -/
theorem storeStart (ht : Timely s) (hpc : s.client = .storeStart m.val)
    (hloc : m.loc = .retireTimerNowNs) (hwrite : ReleaseStore s.mem s.clientView m) :
    TimesOrdered times { s with mem := m :: s.mem, client := .create, clientView := m.view } := by
  have htimes : times = [] := h.early (hpc ▸ rfl)
  have hnone : s.timer = none := ht.controlled.early (hpc ▸ rfl)
  have hclient := ht.client
  rw [hpc] at hclient
  subst htimes
  refine ⟨fun _ => rfl, fun _ => ?_, nofun,
    List.forall_mem_nil _, fun _ => List.forall_mem_nil _, fun _ => List.forall_mem_nil _,
    List.Pairwise.nil⟩
  refine List.forall_mem_cons.mpr ⟨fun _ _ => hclient.nonzero, fun m' hm' hloc' hle => ?_⟩
  have hlater := hwrite.later
  have hown := hwrite.own
  rw [hloc] at hlater hown
  have hbefore := (ht.published_client hnone).sees m' hm' hloc'
  exact absurd ((hown.symm.le.trans hle).trans hbefore) (not_le.mpr hlater)

private theorem clientStep (ht : Timely s) (hstep : ClientStep s event s')
    (hclocked : event ≠ .unclocked) : TimesOrdered (times ++ event.time?.toList) s' := by
  cases hstep with
  | @load _ m hop hread hloc =>
    obtain ⟨rfl, hpc⟩ := ClientPc.of_load hop
    have hbegun : s.client.begun = true := by
      rcases hpc with hpc | ⟨request, hpc⟩ <;> (rw [hpc]; rfl)
    have hsome : s.timer.isSome = true := by
      refine ht.controlled.served ?_
      rcases hpc with hpc | ⟨request, hpc⟩ <;> (rw [hpc]; rfl)
    have hval : m.val ≠ 0 := h.nonzero hbegun m hread.stored hloc (hloc ▸ hread.seen)
    have hread' := h.read ht hsome hread hloc hbegun
    rcases hpc with hpc | ⟨request, hpc⟩ <;>
      (rw [hpc]; simp only [ClientPc.got, ClientPc.next, if_pos hval]; exact hread')
  | @store m hop hwrite =>
    refine .record ?_ rfl
    rcases ClientPc.of_store hop with ⟨hpc, hloc⟩ | ⟨hpc, hloc⟩
    · have hstore := h.storeStart ht hpc hloc hwrite
      rwa [hpc]
    · rw [hpc]
      exact h.quiet nofun (fun _ => hpc ▸ rfl)
        nofun id le_rfl (hwrite.le_view _)
        (mem_cons_other (hloc ▸ TimerField.noConfusion))
  | @clock nowNs hop hnow =>
    rcases ClientPc.of_clock hop with hpc | hpc | ⟨request, hpc⟩
    · rw [hpc, ClientPc.got] at hclocked
      have hne : nowNs ≠ 0 := by
        by_contra hzero
        exact hclocked (if_neg (not_not.mpr hzero))
      rw [hpc]
      simp only [ClientPc.got, ClientPc.next, if_pos hne]
      refine .record ?_ rfl
      exact h.quiet (fun _ => hpc ▸ rfl) nofun nofun id le_rfl le_rfl fun _ _ => Iff.rfl
    · have hread := h.clock hnow (hpc ▸ rfl)
      rwa [hpc]
    · have hread := h.clock hnow (hpc ▸ rfl)
      rwa [hpc]
  | @exchange old m hop hx =>
    obtain ⟨hpc, hloc, -⟩ := ClientPc.of_exchange hop
    have hview := hx.le_view ht.published.wellFormed .retireTimerNowNs
    have hquiet : ∀ pc : ClientPc T, pc.early = false → pc.unserved = false →
        TimesOrdered times { s with mem := m :: s.mem, client := pc, clientView := m.view } := by
      intro pc hearly hunserved
      refine h.quiet (fun he => ?_) (fun _ => hpc ▸ rfl) (fun hu => ?_) id le_rfl
        (le_sup_left.trans hview) (mem_cons_other (hloc ▸ TimerField.noConfusion))
      · exact absurd (hearly.symm.trans he) Bool.false_ne_true
      · exact absurd (hunserved.symm.trans hu) Bool.false_ne_true
    split
    · exact .record (hquiet _ rfl rfl) rfl
    · exact .record (hquiet _ rfl rfl) rfl
  | createFailed hop =>
    refine .record ?_ rfl
    have hpc := ClientPc.of_create hop
    exact h.quiet (fun _ => hpc ▸ rfl) (fun _ => hpc ▸ rfl)
      nofun id le_rfl le_rfl fun _ _ => Iff.rfl
  | create hop =>
    refine .record ?_ rfl
    have hpc := ClientPc.of_create hop
    obtain rfl : times = [] := h.early (hpc ▸ rfl)
    exact ⟨fun _ => rfl, fun _ => h.nonzero (hpc ▸ rfl), nofun,
      List.forall_mem_nil _, fun _ => List.forall_mem_nil _, fun _ => List.forall_mem_nil _,
      List.Pairwise.nil⟩
  | call hpc hcall =>
    refine .record ?_ rfl
    refine h.quiet (fun he => ?_) (fun _ => ClientPc.of_outside hpc ▸ rfl) (fun hu => ?_) id
      le_rfl le_rfl fun _ _ => Iff.rfl
    · exact absurd (hcall.not_early.symm.trans he) Bool.false_ne_true
    · have hnone := ht.controlled.started.symm.trans (hcall.unserved hu)
      exact Option.isNone_iff_eq_none.mp (Option.isSome_eq_false_iff.mp hnone)
  | join hop hexit =>
    refine .record ?_ rfl
    exact h.quiet nofun
      (fun _ => ClientPc.of_join hop ▸ rfl) nofun
      nofun le_rfl le_sup_left fun _ _ => Iff.rfl

/-- A step extends the times in order. -/
theorem step (ht : Timely s) (hstep : RetireStep s event s') (hclocked : event ≠ .unclocked) :
    TimesOrdered (times ++ event.time?.toList) s' := by
  cases hstep with
  | tick hclock =>
    refine .record ?_ rfl
    exact h.quiet id id h.unserved id hclock le_rfl fun _ _ => Iff.rfl
  | timer hstep =>
    have hquiet : event.time? = none := by
      cases hstep with
      | @store pc m _ _ _ => cases pc <;> rfl
      | _ => rfl
    exact (h.timerStep ht hstep).record hquiet
  | client hstep => exact h.clientStep ht hstep hclocked

end TimesOrdered

/-- The times the cache works with, from `gu_cache_now_ns` and for sweeps, never go back if
the clock can be read when the timer is started; a time may be missing. -/
theorem retire_times_ascend [LinearOrder T] {lo first : T} (hlt : lo < first) {clockNs : Nat}
    {record : List (TimerEvent T)} {s : TimerState T}
    (hrun : Trace RetireStep (.initial lo first clockNs) record s)
    (hclocked : .unclocked ∉ record) :
    (record.filterMap TimerEvent.time?).Pairwise (fun a b => b = 0 ∨ a ≤ b) ∧
      ∀ a ∈ record.filterMap TimerEvent.time?, a ≤ s.clockNs := by
  have hordered := hrun.history
    (fun record s => Timely s ∧
      (.unclocked ∉ record → TimesOrdered (record.filterMap TimerEvent.time?) s))
    (by
      intro record s event s' h hstep
      refine ⟨h.1.step hstep, fun hclocked => ?_⟩
      rw [List.mem_append, not_or, List.mem_singleton] at hclocked
      rw [filterMap_snoc]
      exact (h.2 hclocked.1).step h.1 hstep (Ne.symm hclocked.2))
    (show _ ∧ (TimerEvent.unclocked ∉ [] → _) from
      ⟨.initial hlt clockNs, fun _ => .initial lo first clockNs⟩)
  have hfinal := hordered.2 hclocked
  exact ⟨hfinal.pairwise, hfinal.past⟩

/-- A message of the time, as the only one that is stored in its interval. -/
def timeMessage (nowNs place : Nat) : Message TimerField Nat Nat :=
  ⟨.retireTimerNowNs, place - 1, place, nowNs,
    Function.update (fun _ => 1) .retireTimerNowNs place⟩

/-- A message behind all others fits. -/
theorem timeMessage_fits {nowNs place : Nat} {mem : List (Message TimerField Nat Nat)}
    (hplace : 0 < place) (h : ∀ m ∈ mem, m.loc = .retireTimerNowNs → m.hi < place) :
    (timeMessage nowNs place).Fits mem := by
  refine ⟨Nat.sub_one_lt_of_lt hplace, fun m hm hloc => .inl ?_⟩
  exact Nat.le_sub_one_of_lt (h m hm hloc)

/-- The time is read as it was at the start and, after the timer has published one, as it is
later. -/
theorem exists_clocked_run : ∃ s, Trace RetireStep (.initial 0 1 5)
    [.quiet, .quiet, .quiet, .quiet, .answer 5, .quiet, .quiet, .quiet, .quiet, .quiet,
      .answer 9] s := by
  refine Trace.exists_cons (.client (.clock rfl (.inr rfl))) ?_
  refine Trace.exists_cons (.client (.store (m := timeMessage 5 2) rfl
    ⟨timeMessage_fits (by decide) (by simp [TimerState.initial]), by decide, rfl⟩)) ?_
  refine Trace.exists_cons (.client (.create rfl)) ?_
  refine Trace.exists_cons (.client (.call rfl .cacheNow)) ?_
  refine Trace.exists_cons (.client (.load (m := timeMessage 5 2) rfl
    ⟨List.mem_cons_self, ?_⟩ rfl)) ?_
  · decide
  refine Trace.exists_cons (.tick (show 5 ≤ 9 by decide)) ?_
  refine Trace.exists_cons (.timer (.load rfl rfl
    ⟨List.mem_cons_of_mem _ List.mem_cons_self, ?_⟩ rfl)) ?_
  · decide
  refine Trace.exists_cons (.timer (.clock rfl rfl (.inr rfl))) ?_
  refine Trace.exists_cons (.timer (@TimerStep.store _ _ _ (.storeNow 9) (timeMessage 9 3) rfl rfl
    ⟨timeMessage_fits (by decide) ?_, ?_, ?_⟩)) ?_
  · simp [TimerState.initial, timeMessage]
  · decide
  · funext field
    cases field <;> rfl
  refine Trace.exists_cons (.client (.call rfl .cacheNow)) ?_
  refine ⟨_, .single (.client (.load (m := timeMessage 9 3) rfl ⟨List.mem_cons_self, ?_⟩ rfl))⟩
  decide

/-- A run that hands out 5 and 9. -/
theorem retire_times_ascend_run : ∃ record s,
    Trace RetireStep (.initial 0 1 5) record s ∧ record.filterMap TimerEvent.time? = [5, 9] ∧
      (record.filterMap TimerEvent.time?).Pairwise (fun a b => b = 0 ∨ a ≤ b) := by
  obtain ⟨s, hrun⟩ := exists_clocked_run
  exact ⟨_, s, hrun, rfl, (retire_times_ascend Nat.zero_lt_one hrun (by simp)).1⟩

end Gunwinder
