import Gunwinder.Cache.Traces

/-!
# Memory statistics

The statistics keep three totals of the memory behind the ELF entries: symbols, CFI
objects and copies of CFI sections. A total is charged while a file is being loaded and
given back when the entry is freed or the load fails, so it is at every time the sum over
the table.
-/

namespace Gunwinder

open Gunwinder.Core

variable {H P : Type} {ctx ctx' : GuContext P} {w : World P}

/-- The three totals. -/
inductive MemoryKind where
  | symbols
  | cfi
  | cfiData
  deriving DecidableEq, Repr

def Statistics.memory (st : Statistics) : MemoryKind → Nat
  | .symbols => st.symbolsMemSize
  | .cfi => st.cfiMemSize
  | .cfiData => st.cfiDataMemSize

/-- The share of an entry in a total. -/
def PerElfCtx.memory (e : PerElfCtx P) : MemoryKind → Nat
  | .symbols => if e.symbols.isSome then e.symSearchSize else 0
  | .cfi => (e.guCfi.map GuCfi.cfiMemUsage).getD 0
  | .cfiData => (e.guCfi.map GuCfi.cfiDataMemUsage).getD 0

private theorem Statistics.memory_charge (st : Statistics) (e : PerElfCtx P) (kind : MemoryKind) :
    (st.charge e.symbols e.symSearchSize e.guCfi).memory kind =
      st.memory kind + e.memory kind := by
  cases kind with
  | symbols => cases h : e.symbols <;> simp [Statistics.charge, Statistics.memory,
      PerElfCtx.memory, h]
  | cfi => rfl
  | cfiData => rfl

private theorem Statistics.memory_refund (st : Statistics) (e : PerElfCtx P) (kind : MemoryKind) :
    (st.refund e.symbols e.symSearchSize e.guCfi).memory kind =
      wrapSub (st.memory kind) (e.memory kind) := by
  cases kind with
  | symbols => cases h : e.symbols <;> simp [Statistics.refund, Statistics.memory,
      PerElfCtx.memory, wrapSub, h]
  | cfi => rfl
  | cfiData => rfl

/-- Every total is the sum over the table. -/
structure GuContext.MemoryExact (ctx : GuContext P) : Prop where
  distinct : ctx.DistinctElfs
  total : ∀ kind, ctx.statistics.memory kind =
    (ctx.elfCtxList.map fun e => e.memory kind).sum

namespace GuContext.MemoryExact

section

variable (h : ctx.MemoryExact)
include h

/-- Only the shares matter. -/
theorem of_map (hdistinct : ctx'.DistinctElfs)
    (hstats : ctx'.statistics.memory = ctx.statistics.memory)
    (hmap : ctx'.elfCtxList.map PerElfCtx.memory = ctx.elfCtxList.map PerElfCtx.memory) :
    ctx'.MemoryExact := by
  refine ⟨hdistinct, fun kind => ?_⟩
  have hsum := congrArg (fun l => (l.map fun m : MemoryKind → Nat => m kind).sum) hmap
  simp only [List.map_map, Function.comp_def] at hsum
  rw [hstats, hsum]
  exact h.total kind

/-- No total is below the share of an entry. -/
theorem covers {e : PerElfCtx P} (he : e ∈ ctx.elfCtxList) (kind : MemoryKind) :
    e.memory kind ≤ ctx.statistics.memory kind := by
  have hsum := sum_remove h.distinct.ids (lookup_of_mem h.distinct.ids he) fun e => e.memory kind
  rw [h.total kind]
  omega

/-- Freeing an entry takes its share out of every total. -/
theorem clear {e : PerElfCtx P} (he : e ∈ ctx.elfCtxList) (hretired : e.retired = true) :
    (clearElfCtx (ctx.count fun st =>
      { st with retiredElfExpired := st.retiredElfExpired + 1 }) e).MemoryExact := by
  have hstats : ∀ kind, (clearElfCtx (ctx.count fun st =>
      { st with retiredElfExpired := st.retiredElfExpired + 1 }) e).statistics.memory kind =
      wrapSub (ctx.statistics.memory kind) (e.memory kind) := fun kind => by
    rw [← Statistics.memory_refund]
    simp only [clearElfCtx, guUnretireElfCtx, if_pos hretired]
    cases kind <;> rfl
  refine ⟨h.distinct.of_sublist ?_ ?_, fun kind => ?_⟩
  · simp only [clearElfCtx, guUnretireElfCtx, if_pos hretired]
    rfl
  · rw [clearElfCtx_elfCtxList hretired]
    exact List.filter_sublist
  · rw [hstats, wrapSub, if_pos (h.covers he kind), h.total kind, clearElfCtx_elfCtxList hretired]
    have hsum := sum_remove h.distinct.ids (lookup_of_mem h.distinct.ids he) fun e => e.memory kind
    simp only [GuContext.count]
    omega

/-- A sweep frees entries one by one. -/
theorem sweep (now : Word) : (guRetiredElfSweep ctx now).MemoryExact :=
  guRetiredElfSweep_keeps (I := GuContext.MemoryExact)
    (fun _ _ hctx he hretired => hctx.clear he hretired)
    (fun _ _ hctx => hctx.of_map (hctx.distinct.of_map rfl rfl) rfl rfl) h.distinct.ids h now

end

/-- Puts and takes change no share. -/
theorem fixed_memory : PerElfCtx.Fixed (PerElfCtx.memory (P := P)) :=
  fun _ _ _ _ => funext fun kind => by cases kind <;> rfl

/-- Every step keeps the totals exact. -/
theorem step (h : ctx.MemoryExact) {event : CacheEvent P} (hstep : CacheStep w ctx event ctx') :
    ctx'.MemoryExact := by
  have hdistinct := h.distinct.step hstep
  cases hstep with
  | count f hf =>
    refine h.of_map hdistinct (funext fun kind => ?_) rfl
    cases kind with
    | symbols => exact hf.symbols
    | cfi => exact hf.cfi
    | cfiData => exact hf.cfiData
  | cacheRow id cache =>
    refine h.of_map hdistinct rfl (map_update fun e => funext fun kind => ?_)
    cases kind with
    | symbols => rfl
    | cfi | cfiData => cases hcfi : e.guCfi <;> simp [PerElfCtx.memory, hcfi]
  | take e he =>
    refine h.of_map hdistinct (funext fun kind => ?_) (reuseElf_map fixed_memory ctx e)
    unfold reuseElf guUnretireElfCtx
    cases e.retired <;> cases kind <;> rfl
  | create image hnew =>
    refine ⟨hdistinct, fun kind => ?_⟩
    have hcharge := Statistics.memory_charge ctx.statistics (newElf ctx.nextElf image) kind
    rw [List.map_append, List.sum_append, List.map_singleton, List.sum_singleton, ← h.total kind,
      ← hcharge]
    cases kind <;> rfl
  | put e he hpos =>
    refine h.of_map hdistinct ?_ (guPutElfCtx_map fixed_memory w ctx e.id)
    by_cases hlast : e.refcnt = 1 ∧ e.retired = false
    · rw [guPutElfCtx_of_last w he hlast.1 hlast.2]
      exact funext fun kind => by cases kind <;> rfl
    · rw [guPutElfCtx_of_not_last w he hpos hlast]
      rfl
  | sweep now => exact h.sweep now
  | destroy | load | throttle =>
    exact h.of_map hdistinct (funext fun kind => by cases kind <;> rfl) rfl
  | reload => exact h.of_map hdistinct (funext fun kind => by cases kind <;> rfl) rfl
  | _ => exact h.of_map hdistinct rfl rfl

private theorem init (debug goOnlyBuildid retireTimerStarted : Bool) :
    (guInit debug goOnlyBuildid retireTimerStarted : GuContext P).MemoryExact :=
  ⟨.init _ _ _, fun kind => by cases kind <;> rfl⟩

/-- The cleanup clears the processes first, which takes nothing out of a total. -/
theorem clearAll (w : World P) (h : ctx.MemoryExact) (hrefs : References CfiProperty.any [] ctx) :
    (ctx.pidCtxList.foldl (guClearPidCtx w) ctx).MemoryExact := by
  refine (clearAll_keeps (I := fun ctx => References CfiProperty.any [] ctx ∧ ctx.MemoryExact)
    (fun _ hctx => hctx.1.pids) (fun ctx p hctx hfound => ⟨hctx.1.clearPidCtx w hfound rfl, ?_⟩)
    ctx.pidCtxList ⟨hrefs, h⟩ rfl).1.2
  obtain ⟨record, htrace⟩ := (cleanElfCtxs_advances w (hctx.1.removePid hfound rfl)).moves
  refine htrace.invariant GuContext.MemoryExact (fun _ _ _ h => h.step) ?_
  exact hctx.2.of_map (hctx.2.distinct.of_map rfl rfl)
    (funext fun kind => by cases kind <;> rfl) rfl

end GuContext.MemoryExact

/-- A sweep that has come past some entries of the table. -/
def sweepPast (ctx : GuContext P) (now : Word) (done : List (PerElfCtx P)) : GuContext P :=
  (done.foldl (sweepEntry now) ({ ctx with nextRetiredElfDeadlineNs := 0#64 }, 0#64)).1

/-- No entry of a sweep has a larger share than what is left of a total when its turn comes. -/
def GuContext.SweepsInRange (ctx : GuContext P) : Prop :=
  ∀ now done e rest, ctx.elfCtxList = done ++ e :: rest →
    ∀ kind, e.memory kind ≤ (sweepPast ctx now done).statistics.memory kind

private theorem GuContext.MemoryExact.sweepsInRange (h : ctx.MemoryExact) : ctx.SweepsInRange := by
  intro now done e rest hlist kind
  have hids := h.distinct.ids
  rw [hlist, List.map_append, List.map_cons] at hids
  obtain ⟨hdone, -, hdisjoint⟩ := List.nodup_append.mp hids
  have hpast : (sweepPast ctx now done).MemoryExact := by
    refine sweepEntries_keeps (I := GuContext.MemoryExact)
      (fun _ _ hctx he hretired => hctx.clear he hretired) done _
      (h.of_map (h.distinct.of_map rfl rfl) rfl rfl) hdone ?_
    intro b hb
    exact hlist ▸ List.mem_append_left _ hb
  refine hpast.covers ?_ kind
  -- the entries before it have other ids
  simp only [sweepPast, sweepEntries_elfCtxList, List.mem_filter]
  refine ⟨hlist ▸ List.mem_append_right _ List.mem_cons_self, ?_⟩
  rw [Bool.not_eq_eq_eq_not, Bool.not_true]
  refine List.any_eq_false.mpr fun b hb heq => ?_
  simp only [Bool.and_eq_true, beq_iff_eq] at heq
  exact hdisjoint _ (List.mem_map_of_mem hb) _ List.mem_cons_self heq.2

/-- In every reachable context the three totals are the sums over the table. Nothing is
subtracted that is not there: neither by a sweep, of the cleanup or before it, nor by a load
that fails behind its charge. The cleanup leaves nothing. -/
theorem reachable_memory_statistics_exact {H P : Type} {S : SavedStates H P} {ctx : GuContext P}
    (h : Reachable S ctx) :
    (∀ kind, ctx.statistics.memory kind = (ctx.elfCtxList.map fun e => e.memory kind).sum) ∧
    ctx.SweepsInRange ∧
    (∀ w, (ctx.pidCtxList.foldl (guClearPidCtx w) ctx).SweepsInRange) ∧
    (∀ image kind, let e : PerElfCtx P := newElf ctx.nextElf image
      e.memory kind ≤ (ctx.statistics.charge e.symbols e.symSearchSize e.guCfi).memory kind) ∧
    (ctx.elfCtxList = [] → ∀ kind, ctx.statistics.memory kind = 0) ∧
    ∀ w kind, (guCleanup w ctx).statistics.memory kind = 0 := by
  have hexact : ctx.MemoryExact :=
    h.invariant GuContext.MemoryExact .init fun _ _ _ _ hctx hstep => hctx.step hstep
  have hrefs := h.references CfiProperty.any_kept
  refine ⟨hexact.total, hexact.sweepsInRange, fun w => (hexact.clearAll w hrefs).sweepsInRange,
    fun image kind => ?_, fun hnone kind => ?_, fun w kind => ?_⟩
  · dsimp only
    rw [Statistics.memory_charge]
    exact Nat.le_add_left _ _
  · rw [hexact.total kind, hnone]
    rfl
  · have hcleared : (guCleanup w ctx).MemoryExact := (hexact.clearAll w hrefs).sweep uint64Max
    rw [hcleared.total kind, hrefs.cleanup w]
    rfl

/-- A file with symbols and no CFI, which a process maps twice. -/
def symbolised : World (List CalcRules) :=
  { twiceMapped with
    elf := fun _ _ _ _ => some ⟨[7#8], true, false, [], 0#64,
      guIntervalArrayInit [⟨0x1000#64, 0x1800#64, some "work"⟩], 48,
      none⟩ }

/-- A file with 48 bytes of symbols. -/
theorem reachable_memory_statistics_exact_loaded :
    let ctx := (guPreloadPidDebugInfo symbolised (guInit false false false) 11).2
    ctx.statistics.symbolsMemSize = 48 ∧
    (∀ kind, ctx.statistics.memory kind = (ctx.elfCtxList.map fun e => e.memory kind).sum) ∧
    ∀ w kind, (guCleanup w ctx).statistics.memory kind = 0 := by
  obtain ⟨htotal, -, -, -, -, hclean⟩ := reachable_memory_statistics_exact
    (.preload symbolised 11 (.init false false false) : Reachable savedValues _)
  exact ⟨by decide +kernel, htotal, hclean⟩

end Gunwinder
