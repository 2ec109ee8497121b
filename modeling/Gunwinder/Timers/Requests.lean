import Gunwinder.Timers.Clock

/-!
# Requests for a sweep

The timer sets a flag after it has published a time, and a sweep clears the flag with an exchange
before it reads the time. Nothing is stored between the message an exchange reads and its own, so
a request is taken once, by a sweep with a time no earlier than the request's.
-/

namespace Gunwinder

open Gunwinder.Core

variable {T : Type}

/-- The request that is made, with the time published before. -/
def TimerEvent.request? : TimerEvent T → Option (T × Nat)
  | .request place nowNs => some (place, nowNs)
  | _ => none

/-- The request that is answered, with the time of the sweep. -/
def TimerEvent.sweep? : TimerEvent T → Option (T × Nat)
  | .sweep (some place) nowNs => some (place, nowNs)
  | _ => none

/-- The request that is taken and not answered. -/
def ClientPc.underWay : ClientPc T → List T
  | sweepLoad request => [request]
  | _ => []

variable {place : T}

private theorem ClientPc.of_underWay {pc : ClientPc T} (h : place ∈ pc.underWay) :
    pc = sweepLoad place := by
  unfold underWay at h
  split at h
  · rw [List.mem_singleton.mp h]
  · cases h

/-- A sweep has taken a request and found no time published. -/
def ClientPc.fallsBack : ClientPc T → Bool
  | sweepClock (some _) => true
  | _ => false

/-- The flag, as the thread that sets it sees it, after these requests were made and these
were taken. -/
structure Flagged [LinearOrder T] (requests : List (T × Nat)) (takes : List T)
    (mem : List (Message TimerField T Nat)) (view : TimerField → T) : Prop where
  /-- The message of a request carries a view of its time. -/
  made : ∀ place nowNs, (place, nowNs) ∈ requests → nowNs ≠ 0 ∧ ∃ p ∈ mem,
    p.loc = .retireSweepPending ∧ p.hi = place ∧ p.val = 1 ∧
      ∃ m ∈ mem, m.loc = .retireTimerNowNs ∧ m.val = nowNs ∧ m.hi ≤ p.view .retireTimerNowNs
  asked : ∀ p ∈ mem, p.loc = .retireSweepPending → p.val ≠ 0 → ∃ nowNs, (p.hi, nowNs) ∈ requests
  ordered : ∀ place nowNs place' nowNs', (place, nowNs) ∈ requests →
    (place', nowNs') ∈ requests → place ≤ place' → nowNs ≤ nowNs'
  sees : ∀ place nowNs, (place, nowNs) ∈ requests → place ≤ view .retireSweepPending
  /-- The messages of exchanges follow without a gap on one the writer has seen. -/
  covered : ∀ f ∈ mem, f.loc = .retireSweepPending → ∃ a ≤ view .retireSweepPending,
    Covered mem .retireSweepPending a f.hi
  cleared : ∀ place nowNs, (place, nowNs) ∈ requests → ∀ f ∈ mem,
    f.loc = .retireSweepPending → f.val = 0 → place < f.hi → ∃ place' ∈ takes, place ≤ place'
  taken : ∀ place ∈ takes, (∃ f ∈ mem, f.loc = .retireSweepPending ∧ f.lo = place) ∧
    ∃ nowNs, (place, nowNs) ∈ requests
  once : takes.Nodup

variable {nowNs : Nat}

namespace Flagged

variable [LinearOrder T] {requests : List (T × Nat)} {takes : List T}
  {mem : List (Message TimerField T Nat)} {view view' : TimerField → T}
  {m old : Message TimerField T Nat}

private theorem mono (h : Flagged requests takes mem view) (hle : view ≤ view') :
    Flagged requests takes mem view' where
  made := h.made
  asked := h.asked
  ordered := h.ordered
  sees := fun place nowNs hr => (h.sees place nowNs hr).trans (hle _)
  covered := by
    intro f hf hloc
    obtain ⟨a, ha, hcov⟩ := h.covered f hf hloc
    exact ⟨a, ha.trans (hle _), hcov⟩
  cleared := h.cleared
  taken := h.taken
  once := h.once

private theorem of_timer {s : TimerState T} (hsome : s.timer.isSome = true)
    (h : Flagged requests takes s.mem s.timerView) : Flagged requests takes s.mem s.writerView :=
  (TimerState.writerView_some hsome).symm ▸ h

private theorem of_client {s : TimerState T} (hnone : s.timer = none)
    (h : Flagged requests takes s.mem s.clientView) : Flagged requests takes s.mem s.writerView :=
  (TimerState.writerView_none hnone).symm ▸ h

variable (h : Flagged requests takes mem view)
include h

/-- The messages of requests stay. -/
theorem made_cons (m : Message TimerField T Nat) :
    ∀ place nowNs, (place, nowNs) ∈ requests → nowNs ≠ 0 ∧ ∃ p ∈ m :: mem,
      p.loc = .retireSweepPending ∧ p.hi = place ∧ p.val = 1 ∧ ∃ m' ∈ m :: mem,
        m'.loc = .retireTimerNowNs ∧ m'.val = nowNs ∧ m'.hi ≤ p.view .retireTimerNowNs := by
  intro place nowNs hr
  obtain ⟨hne, p, hp, hloc, hhi, hval, m', hm', hrest⟩ := h.made place nowNs hr
  exact ⟨hne, p, List.mem_cons_of_mem _ hp, hloc, hhi, hval, m', List.mem_cons_of_mem _ hm', hrest⟩

private theorem taken_cons (m : Message TimerField T Nat) :
    ∀ place ∈ takes, (∃ f ∈ m :: mem, f.loc = .retireSweepPending ∧ f.lo = place) ∧
      ∃ nowNs, (place, nowNs) ∈ requests := by
  intro place hplace
  obtain ⟨⟨f, hf, hrest⟩, hrequest⟩ := h.taken place hplace
  exact ⟨⟨f, List.mem_cons_of_mem _ hf, hrest⟩, hrequest⟩

private theorem covered_cons (m : Message TimerField T Nat) :
    ∀ f ∈ mem, f.loc = .retireSweepPending → ∃ a ≤ view .retireSweepPending,
      Covered (m :: mem) .retireSweepPending a f.hi := by
  intro f hf hloc
  obtain ⟨a, ha, hcov⟩ := h.covered f hf hloc
  exact ⟨a, ha, hcov.cons⟩

/-- Another field is stored. -/
theorem other (hloc : m.loc ≠ .retireSweepPending) :
    Flagged requests takes (m :: mem) view where
  made := h.made_cons m
  asked := List.forall_mem_cons.mpr ⟨fun heq => absurd heq hloc, h.asked⟩
  ordered := h.ordered
  sees := h.sees
  covered := List.forall_mem_cons.mpr ⟨fun heq => absurd heq hloc, h.covered_cons m⟩
  cleared := fun place nowNs hr =>
    List.forall_mem_cons.mpr ⟨fun heq => absurd heq hloc, h.cleared place nowNs hr⟩
  taken := h.taken_cons m
  once := h.once

section

variable (hwrite : ReleaseStore mem view m) (hloc : m.loc = .retireSweepPending)
include hwrite hloc

/-- A request is behind all messages of the flag. -/
theorem behind : ∀ f ∈ mem, f.loc = .retireSweepPending → f.hi < m.hi := by
  intro f hf hflag
  obtain ⟨a, ha, hcov⟩ := h.covered f hf hflag
  have hlater := hwrite.later
  rw [hloc] at hlater
  exact (hloc ▸ hcov).fits hwrite.fits (ha.trans_lt hlater)

/-- No request was made in the place of a new one. -/
theorem new_place (hr : (place, nowNs) ∈ requests) : place < m.hi := by
  have hlater := hwrite.later
  rw [hloc] at hlater
  exact (h.sees place nowNs hr).trans_lt hlater

end

/-- The timer sets the flag. -/
theorem request {clockNs : Nat} (hpublished : Published mem view clockNs)
    (hreading : Reading mem clockNs nowNs)
    (htime : ∃ m ∈ mem, m.loc = .retireTimerNowNs ∧ m.val = nowNs)
    (hwrite : ReleaseStore mem view m) (hloc : m.loc = .retireSweepPending) (hval : m.val = 1) :
    Flagged (requests ++ [(m.hi, nowNs)]) takes (m :: mem) m.view := by
  have hnew : ∀ {place t : T} {n nowNs : Nat},
      (place, n) ∈ requests ++ [(t, nowNs)] → (place, n) ∈ requests ∨ (place = t ∧ n = nowNs) := by
    intro place t n nowNs hr
    rcases List.mem_append.mp hr with hr | hr
    · exact .inl hr
    · exact .inr (Prod.mk.inj (List.mem_singleton.mp hr))
  have hown : m.view .retireSweepPending = m.hi := hloc ▸ hwrite.own
  refine ⟨?_, ?_, ?_, ?_, ?_, ?_, ?_, h.once⟩
  · intro place n hr
    rcases hnew hr with hr | ⟨rfl, rfl⟩
    · exact h.made_cons m place n hr
    obtain ⟨m', hm', htloc, htval⟩ := htime
    refine ⟨hreading.nonzero, m, List.mem_cons_self, hloc, rfl, hval, m',
      List.mem_cons_of_mem _ hm', htloc, htval, ?_⟩
    exact (hpublished.sees m' hm' htloc).trans (hwrite.le_view _)
  · refine List.forall_mem_cons.mpr ⟨fun _ _ => ⟨nowNs, ?_⟩, fun p hp hploc hpval => ?_⟩
    · exact List.mem_append_right _ (List.mem_singleton_self _)
    · obtain ⟨n, hr⟩ := h.asked p hp hploc hpval
      exact ⟨n, List.mem_append_left _ hr⟩
  · intro place n place' n' hr hr' hle
    rcases hnew hr with hfirst | ⟨rfl, rfl⟩
    · rcases hnew hr' with hr' | ⟨-, rfl⟩
      · exact h.ordered place n place' n' hfirst hr' hle
      · obtain ⟨-, p, -, -, -, -, m', hm', htloc, htval, -⟩ := h.made place n hfirst
        exact htval ▸ hreading.latest m' hm' htloc
    · rcases hnew hr' with hr' | ⟨-, rfl⟩
      · exact absurd hle (not_le.mpr (h.new_place hwrite hloc hr'))
      · exact le_rfl
  · intro place n hr
    rcases hnew hr with hr | ⟨rfl, rfl⟩
    · exact (h.sees place n hr).trans (hwrite.le_view _)
    · exact hown.symm.le
  · refine List.forall_mem_cons.mpr ⟨fun _ => ⟨m.hi, hown.symm.le, ?_⟩, fun f hf hfloc => ?_⟩
    · intro x hlt hle
      exact absurd hle (not_le.mpr hlt)
    · obtain ⟨a, ha, hcov⟩ := h.covered_cons m f hf hfloc
      exact ⟨a, ha.trans (hwrite.le_view _), hcov⟩
  · intro place n hr
    refine List.forall_mem_cons.mpr ⟨fun _ hzero => ?_, fun f hf hfloc hzero hlt => ?_⟩
    · exact absurd (hval.symm.trans hzero) Nat.one_ne_zero
    · rcases hnew hr with hr | ⟨rfl, rfl⟩
      · exact h.cleared place n hr f hf hfloc hzero hlt
      · exact absurd (h.behind hwrite hloc f hf hfloc) (not_lt.mpr hlt.le)
  · intro place hplace
    obtain ⟨hread, n, hr⟩ := h.taken_cons m place hplace
    exact ⟨hread, n, List.mem_append_left _ hr⟩

/-- The request an exchange may hide is the one it reads, or before that one. -/
theorem le_read {reader : TimerField → T} (hx : AcqRelExchange mem reader old m)
    (hwf : WellFormed mem) (hloc : old.loc = .retireSweepPending) (hr : (place, nowNs) ∈ requests)
    (hlt : place < m.hi) : place < old.hi ∨ (place = old.hi ∧ old.val = 1) := by
  obtain ⟨-, p, hp, hploc, rfl, hpval, -⟩ := h.made place nowNs hr
  have hle : p.hi ≤ old.hi := by
    rcases hx.fits.2 p hp (hploc.trans (hx.loc.trans hloc).symm) with hle | hle
    · exact hx.next ▸ hle
    · exact absurd (hwf.nonempty p hp) (not_lt.mpr (hlt.le.trans hle))
  rcases hle.lt_or_eq with hlt | heq
  · exact .inl hlt
  · obtain rfl := hwf.eq_of_hi hp hx.reads.stored (hploc.trans hloc.symm) heq
    exact .inr ⟨rfl, hpval⟩

/-- The flag is cleared by an exchange, which takes the request it reads. -/
theorem exchange {reader : TimerField → T} (hx : AcqRelExchange mem reader old m)
    (hwf : WellFormed mem) (hloc : old.loc = .retireSweepPending) (hval : m.val = 0) :
    Flagged requests (takes ++ if old.val ≠ 0 then [old.hi] else []) (m :: mem) view := by
  have hmloc : m.loc = .retireSweepPending := hx.loc.trans hloc
  refine ⟨h.made_cons m, ?_, h.ordered, h.sees, ?_, ?_, ?_, ?_⟩
  · exact List.forall_mem_cons.mpr ⟨fun _ hne => absurd hval hne, h.asked⟩
  · refine List.forall_mem_cons.mpr ⟨fun _ => ?_, h.covered_cons m⟩
    obtain ⟨a, ha, hcov⟩ := h.covered old hx.reads.stored hloc
    exact ⟨a, ha, hloc ▸ Covered.exchange (hloc ▸ hcov) hx⟩
  · intro place nowNs hr
    have hmono : (∃ place' ∈ takes, place ≤ place') →
        ∃ place' ∈ takes ++ if old.val ≠ 0 then [old.hi] else [], place ≤ place' :=
      fun ⟨place', hmem, hle⟩ => ⟨place', List.mem_append_left _ hmem, hle⟩
    refine List.forall_mem_cons.mpr ⟨fun _ _ hlt => ?_, fun f hf hfloc hzero hlt =>
      hmono (h.cleared place nowNs hr f hf hfloc hzero hlt)⟩
    have hle := h.le_read hx hwf hloc hr hlt
    by_cases hold : old.val = 0
    · have hbefore : place < old.hi := hle.resolve_right fun heq => by omega
      exact hmono (h.cleared place nowNs hr old hx.reads.stored hloc hold hbefore)
    · refine ⟨old.hi, ?_, hle.elim le_of_lt fun heq => heq.1.le⟩
      rw [if_pos hold]
      exact List.mem_append_right _ (List.mem_singleton_self _)
  · intro place hplace
    rcases List.mem_append.mp hplace with hplace | hplace
    · exact h.taken_cons m place hplace
    split at hplace
    · next hold =>
      obtain rfl := List.mem_singleton.mp hplace
      exact ⟨⟨m, List.mem_cons_self, hmloc, hx.next⟩, h.asked old hx.reads.stored hloc hold⟩
    · cases hplace
  · split
    · refine List.nodup_append.mpr ⟨h.once, List.pairwise_singleton _ _, ?_⟩
      intro place hplace
      refine List.forall_mem_singleton.mpr fun heq => ?_
      obtain ⟨⟨f, hf, hfloc, hlo⟩, -⟩ := h.taken place hplace
      exact hx.first hwf f hf (hfloc.trans hloc.symm) (hlo.trans heq)
    · rw [List.append_nil]
      exact h.once

end Flagged

/-- The sweeps so far have answered the requests that were taken, up to the one under way,
with times no earlier than theirs. -/
structure Served [LinearOrder T] (requests : List (T × Nat)) (takes : List T)
    (sweeps : List (T × Nat)) (s : TimerState T) : Prop where
  timely : Timely s
  flagged : Flagged requests takes s.mem s.writerView
  answered : takes = sweeps.map Prod.fst ++ s.client.underWay
  fresh : ∀ place nowNs, (place, nowNs) ∈ sweeps → ∀ asked, (place, asked) ∈ requests →
    asked ≤ nowNs
  underWay : ∀ place, s.client = .sweepLoad place → ∀ asked, (place, asked) ∈ requests →
    ∃ m ∈ s.mem, m.loc = .retireTimerNowNs ∧ m.val = asked ∧
      m.hi ≤ s.clientView .retireTimerNowNs
  clocked : s.client.fallsBack = false

namespace Served

variable [LinearOrder T] {requests : List (T × Nat)} {takes : List T} {sweeps : List (T × Nat)}
  {s s' : TimerState T} {event : TimerEvent T}

private theorem initial {lo first : T} (hlt : lo < first) (clockNs : Nat) :
    Served [] [] [] (.initial lo first clockNs) := by
  refine ⟨.initial hlt clockNs, ⟨?_, ?_, ?_, ?_, ?_, ?_, List.forall_mem_nil _, .nil⟩, rfl, ?_, ?_,
    rfl⟩
  · intro place nowNs hr
    cases hr
  · intro p hp _ hval
    obtain ⟨field, -, rfl⟩ := List.mem_map.mp hp
    exact absurd rfl hval
  · intro place nowNs place' nowNs' hr
    cases hr
  · intro place nowNs hr
    cases hr
  · intro f hf _
    obtain ⟨field, -, rfl⟩ := List.mem_map.mp hf
    exact ⟨first, le_rfl, fun x hlt hle => absurd hle (not_le.mpr hlt)⟩
  · intro place nowNs hr
    cases hr
  · intro place nowNs hr
    cases hr
  · intro place hpc
    cases hpc

/-- A step outside a sweep, whatever it does to the other fields. -/
theorem keep (h : Served requests takes sweeps s) (ht : Timely s')
    (hflagged : Flagged requests takes s'.mem s'.writerView)
    (hclient : s'.client.underWay = s.client.underWay)
    (hmem : ∀ m ∈ s.mem, m ∈ s'.mem) (hview : s.clientView ≤ s'.clientView)
    (hclocked : s'.client.fallsBack = false) :
    Served requests takes sweeps s' := by
  refine ⟨ht, hflagged, hclient ▸ h.answered, h.fresh, ?_, hclocked⟩
  intro place hpc asked hr
  have hsame : s.client = .sweepLoad place := by
    refine ClientPc.of_underWay ?_
    rw [← hclient, hpc]
    exact List.mem_singleton_self _
  obtain ⟨m, hm, hloc, hval, hle⟩ := h.underWay place hsame asked hr
  exact ⟨m, hmem m hm, hloc, hval, hle.trans (hview _)⟩

/-- What is known of the flag, in the view of the timer while it exists. -/
theorem flagged_timer (h : Served requests takes sweeps s) (hsome : s.timer.isSome = true) :
    Flagged requests takes s.mem s.timerView :=
  TimerState.writerView_some hsome ▸ h.flagged

variable {m : Message TimerField T Nat}

/-- The timer asks for a sweep. -/
theorem request (h : Served requests takes sweeps s) (ht : Timely s')
    (hpc : s.timer = some (.storePending nowNs)) (hwrite : ReleaseStore s.mem s.timerView m)
    (hloc : m.loc = .retireSweepPending) (hval : m.val = 1)
    (hs' : s' = { s with mem := m :: s.mem, timer := some .poll, timerView := m.view }) :
    Served (requests ++ [(m.hi, nowNs)]) takes sweeps s' := by
  have hsome : s.timer.isSome = true := hpc ▸ rfl
  obtain ⟨hreading, htime⟩ := h.timely.timer _ hpc
  have hflagged := h.flagged_timer hsome
  have hold : ∀ place ∈ takes, ∀ asked, (place, asked) ∈ requests ++ [(m.hi, nowNs)] →
      (place, asked) ∈ requests := by
    intro place hplace asked hr
    rcases List.mem_append.mp hr with hr | hr
    · exact hr
    · cases List.mem_singleton.mp hr
      obtain ⟨-, n, hn⟩ := hflagged.taken _ hplace
      exact absurd (hflagged.new_place hwrite hloc hn) (lt_irrefl _)
  subst hs'
  refine ⟨ht, ?_, h.answered, ?_, ?_, h.clocked⟩
  · exact hflagged.request (h.timely.published_timer hsome) hreading htime hwrite hloc hval
  · intro place sweptNs hsweep asked hr
    refine h.fresh place sweptNs hsweep asked (hold place ?_ asked hr)
    rw [h.answered]
    exact List.mem_append_left _ (List.mem_map_of_mem hsweep)
  · intro place hclient asked hr
    have hplace : place ∈ takes := by
      rw [h.answered, show s.client = _ from hclient]
      exact List.mem_append_right _ (List.mem_singleton_self _)
    obtain ⟨m', hm', hrest⟩ := h.underWay place hclient asked (hold place hplace asked hr)
    exact ⟨m', List.mem_cons_of_mem _ hm', hrest⟩

/-- An event that is no request, take or sweep. -/
def Silent (event : TimerEvent T) : Prop :=
  event.request? = none ∧ event.taken? = none ∧ event.sweep? = none

variable (h : Served requests takes sweeps s)
include h

private theorem record (hsilent : Silent event) :
    Served (requests ++ event.request?.toList) (takes ++ event.taken?.toList)
      (sweeps ++ event.sweep?.toList) s := by
  obtain ⟨hrequest, htaken, hsweep⟩ := hsilent
  rw [hrequest, htaken, hsweep]
  simpa only [Option.toList_none, List.append_nil] using h

private theorem timerStep (hstep : TimerStep s event s') :
    Served (requests ++ event.request?.toList) (takes ++ event.taken?.toList)
      (sweeps ++ event.sweep?.toList) s' := by
  have ht := h.timely.timerStep hstep
  cases hstep with
  | load hpc hop hread hloc =>
    refine .record ?_ ⟨rfl, rfl, rfl⟩
    exact h.keep ht ((h.flagged_timer (hpc ▸ rfl)).mono le_sup_left) rfl (fun _ => id) le_rfl
      h.clocked
  | @store pc m hpc hop hwrite =>
    rcases TimerPc.of_store hop with ⟨rfl, hloc⟩ | ⟨nowNs, rfl, hloc, hval⟩
    · refine .record ?_ ⟨rfl, rfl, rfl⟩
      refine h.keep ht ?_ rfl (fun _ => List.mem_cons_of_mem _) le_rfl h.clocked
      exact ((h.flagged_timer (hpc ▸ rfl)).other (hloc ▸ TimerField.noConfusion)).mono
        hwrite.le_view
    · have hrequest := h.request ht hpc hwrite hloc hval rfl
      simpa only [TimerPc.stored, TimerEvent.request?, TimerEvent.taken?, TimerEvent.sweep?,
        Option.toList_none, Option.toList_some, List.append_nil] using hrequest
  | clock hpc hop hnow | poll eintr hpc hop =>
    refine .record ?_ ⟨rfl, rfl, rfl⟩
    exact h.keep ht (h.flagged_timer (hpc ▸ rfl)) rfl (fun _ => id) le_rfl h.clocked

section

variable (hpc : s.client = .sweepLoad place) (hread : AcquireLoad s.mem s.clientView m)
  (hloc : m.loc = .retireTimerNowNs)
include hpc hread hloc

/-- The sweep under way reads a time that is no earlier than the request's, which is not 0. -/
theorem load_fresh : m.val ≠ 0 ∧ ∀ asked, (place, asked) ∈ requests → asked ≤ m.val := by
  have hplace : place ∈ takes := by
    rw [h.answered, hpc]
    exact List.mem_append_right _ (List.mem_singleton_self _)
  have hfresh : ∀ asked, (place, asked) ∈ requests → asked ≤ m.val := by
    intro asked hr
    obtain ⟨m', hm', hloc', rfl, hle⟩ := h.underWay place hpc asked hr
    exact h.timely.published.ascending m' hm' m hread.stored hloc' hloc
      (hle.trans (hloc ▸ hread.seen))
  refine ⟨?_, hfresh⟩
  obtain ⟨-, asked, hr⟩ := h.flagged.taken place hplace
  have hne := (h.flagged.made place asked hr).1
  have hle := hfresh asked hr
  omega

/-- The sweep under way is made. -/
theorem sweep (hs' :
      s' = { s with client := .idle, clientView := s.clientView ⊔ m.view }) (ht : Timely s') :
    Served requests takes (sweeps ++ [(place, m.val)]) s' := by
  have hsome : s.timer.isSome = true := h.timely.controlled.served (hpc ▸ rfl)
  subst hs'
  refine ⟨ht, .of_timer hsome (h.flagged_timer hsome), ?_, ?_, ?_, ?_⟩
  · rw [h.answered, hpc, List.map_append]
    exact (List.append_nil _).symm
  · intro place' nowNs hsweep asked hr
    rcases List.mem_append.mp hsweep with hsweep | hsweep
    · exact h.fresh place' nowNs hsweep asked hr
    · cases List.mem_singleton.mp hsweep
      exact (h.load_fresh hpc hread hloc).2 asked hr
  · intro place' hclient
    cases hclient
  · rfl

end

/-- The flag is exchanged. -/
theorem exchange {old : Message TimerField T Nat} (ht : Timely s') (hpc : s.client = .sweepExchange)
    (hloc : m.loc = .retireSweepPending) (hval : m.val = 0)
    (hx : AcqRelExchange s.mem s.clientView old m) (hs' : s' = { s with
      mem := m :: s.mem
      client := if old.val ≠ 0 then .sweepLoad old.hi else .idle
      clientView := m.view }) :
    Served requests (takes ++ if old.val ≠ 0 then [old.hi] else []) sweeps s' := by
  have hsome : s.timer.isSome = true := h.timely.controlled.served (hpc ▸ rfl)
  have hwf := h.timely.published.wellFormed
  have hold : old.loc = .retireSweepPending := hx.loc.symm.trans hloc
  have hflagged := (h.flagged_timer hsome).exchange hx hwf hold hval
  have hanswered := h.answered
  rw [hpc, show (ClientPc.sweepExchange : ClientPc T).underWay = [] from rfl,
    List.append_nil] at hanswered
  subst hs'
  refine ⟨ht, .of_timer hsome hflagged, ?_, h.fresh, ?_, ?_⟩
  · rw [← hanswered]
    dsimp only
    split <;> rfl
  · intro place hclient asked hr
    dsimp only at hclient ⊢
    split at hclient
    · obtain rfl := ClientPc.sweepLoad.inj hclient
      obtain ⟨-, p, hp, hploc, hhi, -, m', hm', htloc, htval, hle⟩ := h.flagged.made _ asked hr
      obtain rfl := hwf.eq_of_hi hp hx.reads.stored (hploc.trans hold.symm) hhi
      refine ⟨m', List.mem_cons_of_mem _ hm', htloc, htval, hle.trans ?_⟩
      exact le_sup_right.trans (hx.le_view hwf .retireTimerNowNs)
    · cases hclient
  · dsimp only
    split <;> rfl

private theorem flagged_client (hnone : s.timer = none) :
    Flagged requests takes s.mem s.clientView :=
  TimerState.writerView_none hnone ▸ h.flagged

/-- A step after which no sweep is under way, as before it. -/
theorem outside (ht : Timely s') (hflagged : Flagged requests takes s'.mem s'.writerView)
    (hsilent : Silent event) (hbefore : s.client.underWay = []) (hafter : s'.client.underWay = [])
    (hclocked : s'.client.fallsBack = false) :
    Served (requests ++ event.request?.toList) (takes ++ event.taken?.toList)
      (sweeps ++ event.sweep?.toList) s' := by
  refine .record ⟨ht, hflagged, ?_, h.fresh, ?_, hclocked⟩ hsilent
  · rw [hafter, h.answered, hbefore]
  · intro place hpc
    rw [hpc] at hafter
    cases hafter

private theorem clientStep (hstep : ClientStep s event s') :
    Served (requests ++ event.request?.toList) (takes ++ event.taken?.toList)
      (sweeps ++ event.sweep?.toList) s' := by
  have ht := h.timely.clientStep hstep
  cases hstep with
  | @load _ m hop hread hloc =>
    obtain ⟨rfl, hpc⟩ := ClientPc.of_load hop
    rcases hpc with hpc | ⟨place, hpc⟩
    · have hsome : s.timer.isSome = true := h.timely.controlled.served (hpc ▸ rfl)
      refine h.outside ht (.of_timer hsome (h.flagged_timer hsome)) ?_ (hpc ▸ rfl) ?_ ?_ <;>
        (rw [hpc]; simp only [ClientPc.got, ClientPc.next])
      · split <;> exact ⟨rfl, rfl, rfl⟩
      · split <;> rfl
      · split <;> rfl
    · obtain ⟨hval, -⟩ := h.load_fresh hpc hread hloc
      rw [hpc] at ht ⊢
      simp only [ClientPc.got, ClientPc.next, if_pos hval] at ht ⊢
      have hsweep := h.sweep hpc hread hloc rfl ht
      simpa only [TimerEvent.request?, TimerEvent.taken?, TimerEvent.sweep?,
        Option.toList_none, Option.toList_some, List.append_nil] using hsweep
  | @store m hop hwrite =>
    rcases ClientPc.of_store hop with ⟨hpc, hloc⟩ | ⟨hpc, hloc⟩
    · have hnone : s.timer = none := h.timely.controlled.early (hpc ▸ rfl)
      have hne : m.loc ≠ .retireSweepPending := hloc ▸ TimerField.noConfusion
      have hflagged := ((h.flagged_client hnone).other hne).mono hwrite.le_view
      rw [hpc] at ht ⊢
      exact h.outside ht (.of_client hnone hflagged) ⟨rfl, rfl, rfl⟩ (hpc ▸ rfl) rfl rfl
    · have hsome : s.timer.isSome = true := h.timely.controlled.served (hpc ▸ rfl)
      have hne : m.loc ≠ .retireSweepPending := hloc ▸ TimerField.noConfusion
      rw [hpc] at ht ⊢
      exact h.outside ht (.of_timer hsome ((h.flagged_timer hsome).other hne)) ⟨rfl, rfl, rfl⟩
        (hpc ▸ rfl) rfl rfl
  | @clock nowNs hop hnow =>
    rcases ClientPc.of_clock hop with hpc | hpc | ⟨request, hpc⟩
    · refine h.outside ht h.flagged ?_ (hpc ▸ rfl) ?_ ?_ <;>
        (rw [hpc]; simp only [ClientPc.got, ClientPc.next])
      · split <;> exact ⟨rfl, rfl, rfl⟩
      · split <;> rfl
      · split <;> rfl
    · rw [hpc] at ht ⊢
      exact h.outside ht h.flagged ⟨rfl, rfl, rfl⟩ (hpc ▸ rfl) rfl rfl
    · cases request with
      | none =>
        rw [hpc] at ht ⊢
        exact h.outside ht h.flagged ⟨rfl, rfl, rfl⟩ (hpc ▸ rfl) rfl rfl
      | some place =>
        have hclocked := h.clocked
        rw [hpc] at hclocked
        cases hclocked
  | @exchange old m hop hx =>
    obtain ⟨hpc, hloc, hval⟩ := ClientPc.of_exchange hop
    have hexchange := h.exchange ht hpc hloc hval hx rfl
    split at hexchange <;> rename_i hold
    · simpa only [if_pos hold, TimerEvent.request?, TimerEvent.taken?, TimerEvent.sweep?,
        Option.toList_none, Option.toList_some, List.append_nil] using hexchange
    · simpa only [if_neg hold, TimerEvent.request?, TimerEvent.taken?, TimerEvent.sweep?,
        Option.toList_none, Option.toList_some, List.append_nil] using hexchange
  | createFailed hop =>
    exact h.outside ht h.flagged ⟨rfl, rfl, rfl⟩ (ClientPc.of_create hop ▸ rfl) rfl rfl
  | create hop =>
    have hpc := ClientPc.of_create hop
    have hnone : s.timer = none := h.timely.controlled.early (hpc ▸ rfl)
    exact h.outside ht (h.flagged_client hnone) ⟨rfl, rfl, rfl⟩ (hpc ▸ rfl) rfl rfl
  | call hpc hcall =>
    have hpc := ClientPc.of_outside hpc
    refine h.outside ht h.flagged ⟨rfl, rfl, rfl⟩ (hpc ▸ rfl) ?_ ?_
    · cases hcall with
      | cacheNow | maybeSweep => dsimp only; split <;> rfl
      | timerStop _ => rfl
    · cases hcall with
      | cacheNow | maybeSweep => dsimp only; split <;> rfl
      | timerStop _ => rfl
  | join hop hexit =>
    have hflagged : Flagged requests takes s.mem (s.clientView ⊔ s.timerView) :=
      (h.flagged_timer (hexit ▸ rfl)).mono le_sup_right
    exact h.outside ht hflagged ⟨rfl, rfl, rfl⟩ (ClientPc.of_join hop ▸ rfl) rfl rfl

/-- A step keeps requests and sweeps in step. -/
theorem step (hstep : RetireStep s event s') :
    Served (requests ++ event.request?.toList) (takes ++ event.taken?.toList)
      (sweeps ++ event.sweep?.toList) s' := by
  have ht := h.timely.step hstep
  cases hstep with
  | tick hclock =>
    exact .record (h.keep ht h.flagged rfl (fun _ => id) le_rfl h.clocked) ⟨rfl, rfl, rfl⟩
  | timer hstep => exact h.timerStep hstep
  | client hstep => exact h.clientStep hstep

end Served

private theorem TimerEvent.mem_requests {record : List (TimerEvent T)} :
    (place, nowNs) ∈ record.filterMap request? ↔ .request place nowNs ∈ record := by
  rw [List.mem_filterMap]
  constructor
  · rintro ⟨event, hevent, heq⟩
    cases event <;> cases heq
    exact hevent
  · exact fun hevent => ⟨_, hevent, rfl⟩

private theorem TimerEvent.mem_sweeps {record : List (TimerEvent T)} :
    (place, nowNs) ∈ record.filterMap sweep? ↔ .sweep (some place) nowNs ∈ record := by
  rw [List.mem_filterMap]
  constructor
  · rintro ⟨event, hevent, heq⟩
    unfold sweep? at heq
    split at heq <;> cases heq
    exact hevent
  · exact fun hevent => ⟨_, hevent, rfl⟩

/-- Every request for a sweep is answered at most once, with a time that is not before the
request's, and a request that the cleared flag hides is answered, by its own sweep or that of
a later request, or the sweep is under way. -/
theorem retire_requests_served [LinearOrder T] {lo first : T} (hlt : lo < first) {clockNs : Nat}
    {record : List (TimerEvent T)} {s : TimerState T}
    (hrun : Trace RetireStep (.initial lo first clockNs) record s) :
    ((record.filterMap TimerEvent.sweep?).map Prod.fst).Nodup ∧
    (∀ place nowNs, .sweep (some place) nowNs ∈ record →
      ∃ asked ≤ nowNs, .request place asked ∈ record) ∧
    ∀ place asked, .request place asked ∈ record → ∀ flag ∈ s.mem,
      flag.loc = .retireSweepPending → flag.val = 0 → place < flag.hi →
      ∃ place' ≥ place, s.client = .sweepLoad place' ∨
        ∃ nowNs ≥ asked, .sweep (some place') nowNs ∈ record := by
  have h := hrun.history
    (fun record s => Served (record.filterMap TimerEvent.request?)
      (record.filterMap TimerEvent.taken?) (record.filterMap TimerEvent.sweep?) s)
    (by
      intro record s event s' h hstep
      rw [filterMap_snoc, filterMap_snoc, filterMap_snoc]
      exact h.step hstep)
    (show Served ([].filterMap _) ([].filterMap _) ([].filterMap _) _ from
      .initial hlt clockNs)
  simp only [List.nil_append] at h
  have hasked : ∀ place ∈ record.filterMap TimerEvent.taken?,
      ∃ asked, (place, asked) ∈ record.filterMap TimerEvent.request? :=
    fun place hplace => (h.flagged.taken place hplace).2
  refine ⟨?_, ?_, ?_⟩
  · have honce := h.flagged.once
    rw [h.answered] at honce
    exact honce.sublist (List.sublist_append_left _ _)
  · intro place nowNs hsweep
    rw [← TimerEvent.mem_sweeps] at hsweep
    obtain ⟨asked, hr⟩ := hasked place
      (h.answered ▸ List.mem_append_left _ (List.mem_map_of_mem hsweep))
    exact ⟨asked, h.fresh place nowNs hsweep asked hr, TimerEvent.mem_requests.mp hr⟩
  · intro place asked hr flag hflag hloc hzero hlt
    rw [← TimerEvent.mem_requests] at hr
    obtain ⟨place', htaken, hle⟩ := h.flagged.cleared place asked hr flag hflag hloc hzero hlt
    refine ⟨place', hle, ?_⟩
    obtain ⟨asked', hr'⟩ := hasked place' htaken
    rw [h.answered] at htaken
    rcases List.mem_append.mp htaken with hswept | hunder
    · obtain ⟨⟨_, nowNs⟩, hsweep, rfl⟩ := List.mem_map.mp hswept
      refine .inr ⟨nowNs, ?_, TimerEvent.mem_sweeps.mp hsweep⟩
      exact (h.flagged.ordered place asked _ asked' hr hr' hle).trans
        (h.fresh _ nowNs hsweep asked' hr')
    · exact .inl (ClientPc.of_underWay hunder)

/-- A message of the flag behind the first. -/
def flagMessage (val place timePlace : Nat) : Message TimerField Nat Nat :=
  ⟨.retireSweepPending, place - 1, place, val, Function.update
    (Function.update (fun _ => 1) .retireTimerNowNs timePlace) .retireSweepPending place⟩

/-- The timer asks for a sweep, which is made. -/
theorem exists_served_run : ∃ s, Trace RetireStep (.initial 0 1 5)
    [.quiet, .quiet, .quiet, .quiet, .quiet, .quiet, .request 2 5, .quiet, .take 2,
      .sweep (some 2) 5] s := by
  refine Trace.exists_cons (.client (.clock rfl (.inr rfl))) ?_
  refine Trace.exists_cons (.client (.store (m := timeMessage 5 2) rfl
    ⟨timeMessage_fits (by decide) (by simp [TimerState.initial]), by decide, rfl⟩)) ?_
  refine Trace.exists_cons (.client (.create rfl)) ?_
  refine Trace.exists_cons (.timer (.load rfl rfl
    ⟨List.mem_cons_of_mem _ List.mem_cons_self, ?_⟩ rfl)) ?_
  · decide
  refine Trace.exists_cons (.timer (.clock rfl rfl (.inr rfl))) ?_
  refine Trace.exists_cons (.timer (@TimerStep.store _ _ _ (.storeNow 5) (timeMessage 5 3) rfl rfl
    ⟨timeMessage_fits (by decide) ?_, ?_, ?_⟩)) ?_
  · simp [TimerState.initial, timeMessage]
  · decide
  · funext field
    cases field <;> rfl
  refine Trace.exists_cons (.timer (@TimerStep.store _ _ _ (.storePending 5) (flagMessage 1 2 3)
    rfl rfl ⟨⟨?_, ?_⟩, ?_, ?_⟩)) ?_
  · decide
  · simp [TimerState.initial, timeMessage, flagMessage, Message.Apart]
  · decide
  · funext field
    cases field <;> rfl
  refine Trace.exists_cons (.client (.call rfl .maybeSweep)) ?_
  refine Trace.exists_cons (.client (@ClientStep.exchange _ _ _ (flagMessage 1 2 3)
    (flagMessage 0 3 3) rfl ⟨⟨List.mem_cons_self, ?_⟩, rfl, rfl, ⟨?_, ?_⟩, ?_⟩)) ?_
  · decide
  · decide
  · simp [TimerState.initial, timeMessage, flagMessage, Message.Apart]
  · funext field
    cases field <;> rfl
  refine ⟨_, .single (.client (.load (m := timeMessage 5 3) rfl
    ⟨List.mem_cons_of_mem _ (List.mem_cons_of_mem _ List.mem_cons_self), ?_⟩ rfl))⟩
  decide

/-- A run that serves a request. -/
theorem retire_requests_served_run :
    ∃ record s, Trace RetireStep (.initial 0 1 5) record s ∧
    .request 2 5 ∈ record ∧ .sweep (some 2) 5 ∈ record ∧
      ((record.filterMap TimerEvent.sweep?).map Prod.fst).Nodup := by
  obtain ⟨s, hrun⟩ := exists_served_run
  exact ⟨_, s, hrun, by simp, by simp, (retire_requests_served Nat.zero_lt_one hrun).1⟩

end Gunwinder
