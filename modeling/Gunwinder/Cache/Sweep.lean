import Gunwinder.Cache.References

/-!
# Sweeping retired entries

A sweep that is not skipped drops exactly the retired entries that are due, and the sweep
of the final cleanup takes every retired entry as due. Clearing all processes leaves no
reference, so every entry is retired by then and nothing is left.
-/

namespace Gunwinder

open Gunwinder.Core

variable {P : Type} {Q : CfiProperty P} {ctx : GuContext P} {held : List Nat}

/-- A retired entry whose time is up; the cleanup does not wait. -/
def PerElfCtx.due (now : Word) (e : PerElfCtx P) : Bool :=
  e.retired && decide (now = uint64Max ∨ e.retireDeadlineNs ≤ now)

/-- Freeing a retired entry takes it out of the table. -/
theorem clearElfCtx_elfCtxList {e : PerElfCtx P} (hretired : e.retired = true) :
    (clearElfCtx ctx e).elfCtxList = remove PerElfCtx.id ctx.elfCtxList e.id := by
  simp only [clearElfCtx, guUnretireElfCtx, if_pos hretired]
  exact remove_update fun _ => rfl

/-- A retired entry is freed. -/
theorem References.clearElfCtx {e : PerElfCtx P} (h : References Q held ctx)
    (he : e ∈ ctx.elfCtxList) (hretired : e.retired = true) :
    References Q held (clearElfCtx ctx e) := by
  have hlookup := lookup_of_mem h.counted.nodup he
  have hlist : (Gunwinder.clearElfCtx ctx e).elfCtxList = _ := clearElfCtx_elfCtxList hretired
  have hstats : (Gunwinder.clearElfCtx ctx e).statistics.elfCtxCount = ctx.statistics.elfCtxCount ∧
      (Gunwinder.clearElfCtx ctx e).statistics.retiredElfCtxCount =
        ctx.statistics.retiredElfCtxCount - 1 ∧
      (Gunwinder.clearElfCtx ctx e).statistics.pidCtxCount = ctx.statistics.pidCtxCount := by
    simp only [Gunwinder.clearElfCtx, guUnretireElfCtx, if_pos hretired]
    exact ⟨rfl, rfl, rfl⟩
  have hrest : (Gunwinder.clearElfCtx ctx e).pidCtxList = ctx.pidCtxList ∧
      (Gunwinder.clearElfCtx ctx e).nextElf = ctx.nextElf := by
    simp only [Gunwinder.clearElfCtx, guUnretireElfCtx, if_pos hretired]
    exact ⟨rfl, rfl⟩
  refine ⟨?_, ?_, ?_, ?_, ?_, ?_, ?_⟩
  · rw [hlist]
    refine (h.counted.erase he hretired).congr fun k => ?_
    simp only [GuContext.uses, GuContext.refs, hrest.1]
  · rw [hlist, hrest.2]
    exact fun b hb => h.below b (mem_remove.mp hb).1
  · rw [hlist]
    exact fun b hb => h.cfis b (mem_remove.mp hb).1
  · rw [hrest.1]
    exact h.pids
  · have hcount := countP_remove h.counted.nodup hlookup fun e => !e.retired
    rw [hretired] at hcount
    rw [hstats.1, hlist, h.tallied.elfs]
    exact hcount.symm
  · have hcount := countP_remove h.counted.nodup hlookup PerElfCtx.retired
    rw [hretired, Bool.toNat_true] at hcount
    rw [hstats.2.1, hlist, h.tallied.retired]
    omega
  · rw [hstats.2.2, hrest.1]
    exact h.tallied.pids

/-- What one entry does to the sweep. -/
theorem sweepEntry_elfCtxList (now : Word) (acc : GuContext P × Word) (e : PerElfCtx P) :
    (sweepEntry now acc e).1.elfCtxList =
      if e.due now then remove PerElfCtx.id acc.1.elfCtxList e.id else acc.1.elfCtxList := by
  unfold sweepEntry PerElfCtx.due
  cases hretired : e.retired with
  | false => rfl
  | true =>
    by_cases hdue : now = uint64Max ∨ e.retireDeadlineNs ≤ now
    · simp only [Bool.not_true, Bool.false_eq_true, if_false, decide_true, hdue,
        Bool.and_self, if_true, clearElfCtx, guUnretireElfCtx, hretired]
      exact remove_update fun _ => rfl
    · simp only [Bool.not_true, Bool.false_eq_true, if_false, hdue, decide_false, Bool.and_false]
      split <;> rfl

/-! ## What a sweep keeps -/

section Rule

variable {I : GuContext P → Prop} {now : Word}
  (hclear : ∀ ctx (e : PerElfCtx P), I ctx → e ∈ ctx.elfCtxList → e.retired = true →
    I (clearElfCtx
      (ctx.count fun st => { st with retiredElfExpired := st.retiredElfExpired + 1 }) e))

include hclear in
private theorem sweepEntry_keeps {acc : GuContext P × Word} {e : PerElfCtx P} (h : I acc.1)
    (he : e ∈ acc.1.elfCtxList) : I (sweepEntry now acc e).1 := by
  unfold sweepEntry
  split
  · exact h
  rename_i hretired
  split
  · exact hclear acc.1 e h he (by simpa using hretired)
  · split <;> exact h

include hclear in
/-- The entries are swept one by one: an entry still to come is not the one just removed. -/
theorem sweepEntries_keeps (todo : List (PerElfCtx P)) (acc : GuContext P × Word) (h : I acc.1)
    (htodo : (todo.map PerElfCtx.id).Nodup) (hmem : ∀ e ∈ todo, e ∈ acc.1.elfCtxList) :
    I (todo.foldl (sweepEntry now) acc).1 := by
  induction todo generalizing acc with
  | nil => exact h
  | cons e todo ih =>
    obtain ⟨hnot, htodo⟩ := List.nodup_cons.mp htodo
    refine ih _ (sweepEntry_keeps hclear h (hmem e List.mem_cons_self)) htodo fun b hb => ?_
    have hb' := hmem b (List.mem_cons_of_mem e hb)
    rw [sweepEntry_elfCtxList]
    split
    · exact mem_remove.mpr ⟨hb', fun heq => hnot (heq ▸ List.mem_map_of_mem hb)⟩
    · exact hb'

include hclear in
/-- A sweep, skipped or not, keeps what freeing a retired entry keeps. -/
theorem guRetiredElfSweep_keeps
    (hdeadline : ∀ ctx d, I ctx → I { ctx with nextRetiredElfDeadlineNs := d })
    (hids : (ctx.elfCtxList.map PerElfCtx.id).Nodup) (h : I ctx) (now : Word) :
    I (guRetiredElfSweep ctx now) := by
  unfold guRetiredElfSweep
  split
  · exact h
  split
  · exact h
  · refine hdeadline _ _ ?_
    exact sweepEntries_keeps hclear ctx.elfCtxList ({ ctx with nextRetiredElfDeadlineNs := 0#64 },
      0#64) (hdeadline ctx 0#64 h) hids fun _ he => he

end Rule

/-- The entries left by a list of sweep steps. -/
theorem sweepEntries_elfCtxList (now : Word) (todo : List (PerElfCtx P))
    (acc : GuContext P × Word) :
    (todo.foldl (sweepEntry now) acc).1.elfCtxList = acc.1.elfCtxList.filter fun b =>
      !todo.any fun e => e.due now && e.id == b.id := by
  induction todo generalizing acc with
  | nil => simp
  | cons e todo ih =>
    rw [List.foldl_cons, ih, sweepEntry_elfCtxList]
    cases hdue : e.due now with
    | false => simp [hdue]
    | true =>
      simp only [if_true, remove, List.filter_filter, List.any_cons, hdue, Bool.true_and]
      refine List.filter_congr fun b _ => ?_
      by_cases heq : e.id = b.id
      · simp [heq]
      · simp [heq, Ne.symm heq]

/-- A sweep keeps the references. -/
theorem References.sweep (h : References Q held ctx) (now : Word) :
    References Q held (guRetiredElfSweep ctx now) := by
  refine guRetiredElfSweep_keeps (fun ctx e hctx he hretired => ?_)
    (fun _ _ hctx => hctx.of_eq rfl rfl rfl ⟨rfl, rfl, rfl⟩) h.counted.nodup h now
  have hcount : References Q held (ctx.count fun st =>
      { st with retiredElfExpired := st.retiredElfExpired + 1 }) :=
    hctx.of_eq rfl rfl rfl ⟨rfl, rfl, rfl⟩
  exact hcount.clearElfCtx he hretired

/-- A sweep on demand keeps the references. -/
theorem References.maybeSweep (w : World P) (h : References Q held ctx) :
    References Q held (guMaybeSweepRetiredElf w ctx) := by
  unfold guMaybeSweepRetiredElf
  split
  · exact h
  dsimp only
  split
  · exact h.ask w.sweepPending
  · exact ((h.ask w.sweepPending).ask w.now).sweep _

/-- A sweep that is not skipped drops exactly the entries that are due. -/
theorem sweepAll_elfCtxList (hids : (ctx.elfCtxList.map PerElfCtx.id).Nodup) (now : Word)
    (acc : GuContext P × Word) (hacc : acc.1.elfCtxList = ctx.elfCtxList) :
    (ctx.elfCtxList.foldl (sweepEntry now) acc).1.elfCtxList =
      ctx.elfCtxList.filter fun e => !e.due now := by
  rw [sweepEntries_elfCtxList, hacc]
  refine List.filter_congr fun b hb => ?_
  -- the only entry with the id of `b` is `b`
  cases hdue : b.due now with
  | true => rw [List.any_eq_true.mpr ⟨b, hb, by simp [hdue]⟩]
  | false =>
    rw [Bool.not_eq_eq_eq_not, Bool.not_not]
    refine List.any_eq_false.mpr fun e he heq => ?_
    simp only [Bool.and_eq_true, beq_iff_eq] at heq
    have hfound := (heq.2 ▸ lookup_of_mem hids he).symm.trans (lookup_of_mem hids hb)
    rw [Option.some.inj hfound, hdue] at heq
    exact absurd heq.1 Bool.false_ne_true

/-- The sweep of the cleanup leaves the entries that are in use. -/
theorem guRetiredElfSweep_max (h : References Q held ctx) :
    (guRetiredElfSweep ctx uint64Max).elfCtxList = ctx.elfCtxList.filter fun e => !e.retired := by
  have hdue : ∀ e : PerElfCtx P, e.due uint64Max = e.retired := fun e => by simp [PerElfCtx.due]
  have hmax : uint64Max ≠ 0#64 := by decide
  simp only [guRetiredElfSweep, if_neg hmax, ne_eq, not_true_eq_false, false_and, if_false]
  refine (sweepAll_elfCtxList h.counted.nodup uint64Max
    ({ ctx with nextRetiredElfDeadlineNs := 0#64 }, 0#64) rfl).trans ?_
  simp only [hdue]

/-- Clearing every process one after the other. -/
theorem clearAll_keeps {I : GuContext P → Prop} {w : World P}
    (hpids : ∀ ctx, I ctx → (ctx.pidCtxList.map PerPidCtx.pid).Nodup)
    (hclear : ∀ ctx p, I ctx → ctx.pid p.pid = some p → I (guClearPidCtx w ctx p))
    (todo : List PerPidCtx) (h : I ctx) (htodo : ctx.pidCtxList = todo) :
    I (todo.foldl (guClearPidCtx w) ctx) ∧
      (todo.foldl (guClearPidCtx w) ctx).pidCtxList = [] := by
  induction todo generalizing ctx with
  | nil => exact ⟨h, htodo⟩
  | cons p todo ih =>
    have hnodup := hpids ctx h
    have hfound : ctx.pid p.pid = some p := lookup_of_mem hnodup (htodo ▸ List.mem_cons_self)
    refine ih (hclear ctx p h hfound) ?_
    rw [htodo] at hnodup
    obtain ⟨hnot, -⟩ := List.nodup_cons.mp hnodup
    have hrest : remove PerPidCtx.pid todo p.pid = todo :=
      remove_of_forall_ne fun q hq heq => hnot (heq ▸ List.mem_map_of_mem hq)
    rw [guClearPidCtx_pidCtxList, htodo]
    simpa [remove] using hrest

private theorem References.clearAll (w : World P) (h : References Q held ctx) :
    References Q held (ctx.pidCtxList.foldl (guClearPidCtx w) ctx) ∧
      (ctx.pidCtxList.foldl (guClearPidCtx w) ctx).pidCtxList = [] :=
  clearAll_keeps (fun _ hctx => hctx.pids) (fun _ _ hctx hfound => hctx.clearPidCtx w hfound rfl)
    ctx.pidCtxList h rfl

/-- After the cleanup no process and no ELF entry is left. -/
theorem References.cleanup (w : World P) (h : References Q [] ctx) :
    (guCleanup w ctx).elfCtxList = [] := by
  obtain ⟨hrefs, hnone⟩ := h.clearAll w
  refine (guRetiredElfSweep_max hrefs).trans (List.filter_eq_nil_iff.mpr fun e he => ?_)
  have hidle := hrefs.counted.idle_of_unused (fun k => ?_) he
  · simp [hidle]
  · simp [GuContext.uses, GuContext.refs, hnone]

end Gunwinder
