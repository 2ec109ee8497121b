import Gunwinder.Cache.Traces

/-!
# Deadlines of retired entries

A retired entry may be swept ten seconds after the put that has given its last reference
back. The context remembers the earliest deadline in order to skip sweeps that would find
nothing: a retirement lowers it, a sweep computes it anew, and a revival leaves it where
it is, so it is a lower bound and not a minimum.
-/

namespace Gunwinder

open Gunwinder.Core

variable {H P : Type} {ctx ctx' : GuContext P} {w : World P} {record : List (CacheEvent P)}

/-- What an event says about the time since which an entry has been retired. -/
def CacheEvent.retires (id : Nat) (since : Option Word) : CacheEvent P → Option Word
  | .put j last now => if j = id ∧ last = true then some now else since
  | .taken j => if j = id then none else since
  | .created j => if j = id then none else since
  | _ => since

/-- The clock at the put that gave the last reference of an entry back, unless a reference was
taken since. -/
def retiredAt (record : List (CacheEvent P)) (id : Nat) : Option Word :=
  record.foldl (CacheEvent.retires id) none

private theorem retiredAt_snoc (record : List (CacheEvent P)) (event : CacheEvent P) (id : Nat) :
    retiredAt (record ++ [event]) id = event.retires id (retiredAt record id) := by
  rw [retiredAt, List.foldl_append]
  rfl

/-- The earliest deadline is a lower bound, and every deadline is ten seconds after the put it
comes from. -/
structure Deadlines (record : List (CacheEvent P)) (ctx : GuContext P) : Prop where
  distinct : ctx.DistinctElfs
  counted : ctx.statistics.retiredElfCtxCount = ctx.elfCtxList.countP PerElfCtx.retired
  idle : ∀ e ∈ ctx.elfCtxList, e.retired = true → e.refcnt = 0
  earliest : ∀ e ∈ ctx.elfCtxList, e.retired = true →
    ctx.nextRetiredElfDeadlineNs ≠ 0#64 ∧ ctx.nextRetiredElfDeadlineNs ≤ e.retireDeadlineNs
  since : ∀ e ∈ ctx.elfCtxList, e.retired = true → ∃ now, retiredAt record e.id = some now ∧
    now.toNat < 2 ^ 63 ∧ e.retireDeadlineNs = now + guElfRetireTtlNs

namespace Deadlines

variable {event : CacheEvent P}

/-- A step that touches none of what the deadlines are made of. -/
theorem of_map (h : Deadlines record ctx) (hdistinct : ctx'.DistinctElfs)
    (hevent : ∀ id since, event.retires id since = since)
    (hcount : ctx'.statistics.retiredElfCtxCount = ctx.statistics.retiredElfCtxCount)
    (hearliest : ctx'.nextRetiredElfDeadlineNs = ctx.nextRetiredElfDeadlineNs)
    (hmap : ctx'.elfCtxList.map (fun e => (e.id, e.refcnt, e.retired, e.retireDeadlineNs)) =
      ctx.elfCtxList.map fun e => (e.id, e.refcnt, e.retired, e.retireDeadlineNs)) :
    Deadlines (record ++ [event]) ctx' := by
  have hmem : ∀ b ∈ ctx'.elfCtxList, ∃ e ∈ ctx.elfCtxList, e.id = b.id ∧ e.refcnt = b.refcnt ∧
      e.retired = b.retired ∧ e.retireDeadlineNs = b.retireDeadlineNs := fun b hb => by
    obtain ⟨e, he, heq⟩ := List.mem_map.mp (hmap ▸ List.mem_map_of_mem hb)
    simp only [Prod.mk.injEq] at heq
    exact ⟨e, he, heq⟩
  have hretired := congrArg (List.countP fun p : Nat × Nat × Bool × Word => p.2.2.1) hmap
  simp only [Function.comp_def, List.countP_map] at hretired
  refine ⟨hdistinct, ?_, ?_, ?_, ?_⟩
  · rw [hcount, h.counted]
    exact hretired.symm
  · intro b hb hb'
    obtain ⟨e, he, -, hcnt, hret, -⟩ := hmem b hb
    rw [← hcnt]
    exact h.idle e he (hret.trans hb')
  · intro b hb hb'
    obtain ⟨e, he, -, -, hret, hdeadline⟩ := hmem b hb
    rw [hearliest, ← hdeadline]
    exact h.earliest e he (hret.trans hb')
  · intro b hb hb'
    obtain ⟨e, he, hid, -, hret, hdeadline⟩ := hmem b hb
    rw [retiredAt_snoc, hevent, ← hid, ← hdeadline]
    exact h.since e he (hret.trans hb')

variable {e : PerElfCtx P}

/-- One entry changes, and the earliest deadline stays below those of the others. -/
theorem change (h : Deadlines record ctx) {f : PerElfCtx P → PerElfCtx P}
    (hdistinct : ctx'.DistinctElfs) (he : e ∈ ctx.elfCtxList) (hid : (f e).id = e.id)
    (helfs : ctx'.elfCtxList = update PerElfCtx.id ctx.elfCtxList e.id f)
    (hevent : ∀ id since, id ≠ e.id → event.retires id since = since)
    (hcount : ctx'.statistics.retiredElfCtxCount + e.retired.toNat =
      ctx.statistics.retiredElfCtxCount + (f e).retired.toNat)
    (hlower : ∀ b ∈ ctx.elfCtxList, b.retired = true →
      ctx'.nextRetiredElfDeadlineNs ≠ 0#64 ∧ ctx'.nextRetiredElfDeadlineNs ≤ b.retireDeadlineNs)
    (hentry : (f e).retired = true → (f e).refcnt = 0 ∧
      (ctx'.nextRetiredElfDeadlineNs ≠ 0#64 ∧
        ctx'.nextRetiredElfDeadlineNs ≤ (f e).retireDeadlineNs) ∧
      ∃ now, event.retires e.id (retiredAt record e.id) = some now ∧ now.toNat < 2 ^ 63 ∧
        (f e).retireDeadlineNs = now + guElfRetireTtlNs) : Deadlines (record ++ [event]) ctx' := by
  have hmem : ∀ b ∈ ctx'.elfCtxList, b = f e ∨ (b ∈ ctx.elfCtxList ∧ b.id ≠ e.id) :=
    fun b hb => mem_update_of_mem h.distinct.ids he (helfs ▸ hb)
  refine ⟨hdistinct, ?_, ?_, ?_, ?_⟩
  · have hsum := countP_update (f := f) h.distinct.ids (lookup_of_mem h.distinct.ids he)
      PerElfCtx.retired
    have := h.counted
    rw [helfs]
    omega
  · intro b hb hretired
    rcases hmem b hb with rfl | ⟨hb, -⟩
    · exact (hentry hretired).1
    · exact h.idle b hb hretired
  · intro b hb hretired
    rcases hmem b hb with rfl | ⟨hb, -⟩
    · exact (hentry hretired).2.1
    · exact hlower b hb hretired
  · intro b hb hretired
    rw [retiredAt_snoc]
    rcases hmem b hb with rfl | ⟨hb, hne⟩
    · rw [hid]
      exact (hentry hretired).2.2
    · rw [hevent _ _ hne]
      exact h.since b hb hretired

/-- A deadline does not wrap. -/
theorem deadline_toNat {now : Word} (h : now.toNat < 2 ^ 63) :
    (now + guElfRetireTtlNs).toNat = now.toNat + 10000000000 := by
  have httl : guElfRetireTtlNs.toNat = 10000000000 := by decide
  rw [BitVec.toNat_add, httl]
  exact Nat.mod_eq_of_lt (by omega)

section

variable (h : Deadlines record ctx)
include h

/-- The last put sets a deadline. -/
theorem put_last (he : ctx.elf e.id = some e) (hone : e.refcnt = 1) (hactive : e.retired = false)
    (hclock : (w.now ctx.tick).toNat < 2 ^ 63) :
    Deadlines (record ++ [.put e.id true (w.now ctx.tick)]) (guPutElfCtx w ctx e.id) := by
  have hnonzero : w.now ctx.tick + guElfRetireTtlNs ≠ 0#64 := fun hzero => by
    have := congrArg BitVec.toNat hzero
    rw [deadline_toNat hclock] at this
    simp at this
  have hdistinct := h.distinct.put w e.id
  rw [guPutElfCtx_of_last w he hone hactive] at hdistinct ⊢
  refine h.change hdistinct (mem_of_lookup he).1 (f := retireEntry (w.now ctx.tick)) rfl rfl
    (fun id since hne => if_neg fun hsame => hne hsame.1.symm) ?_ ?_ ?_
  · simp only [retireEntry, hactive, Bool.toNat_false, Bool.toNat_true]
  · intro b hb hretired
    obtain ⟨hne, hle⟩ := h.earliest b hb hretired
    dsimp only
    split
    · rename_i hsooner
      exact ⟨hnonzero, BitVec.le_trans (BitVec.le_of_lt (hsooner.resolve_left hne)) hle⟩
    · exact ⟨hne, hle⟩
  · intro _
    refine ⟨by rw [retireEntry, hone]; rfl, ?_, w.now ctx.tick, if_pos ⟨rfl, rfl⟩, hclock, rfl⟩
    dsimp only [retireEntry]
    split
    · exact ⟨hnonzero, BitVec.le_refl _⟩
    · rename_i hlater
      obtain ⟨hne, hge⟩ := not_or.mp hlater
      exact ⟨hne, BitVec.not_lt.mp hge⟩

/-- Any other put leaves an entry that is still in use. -/
theorem put_other (he : ctx.elf e.id = some e) (hmore : 1 < e.refcnt) :
    Deadlines (record ++ [.put e.id false (w.now ctx.tick)]) (guPutElfCtx w ctx e.id) := by
  have hmem := (mem_of_lookup he).1
  have hactive : e.retired = false := by
    by_contra hretired
    have := h.idle e hmem (by simpa using hretired)
    omega
  have hdistinct := h.distinct.put w e.id
  rw [guPutElfCtx_of_not_last w he (by omega) (by omega)] at hdistinct ⊢
  refine h.change hdistinct hmem (f := fun e => { e with refcnt := wrapSub e.refcnt 1 }) rfl rfl
    (fun id since hne => if_neg fun hsame => hne hsame.1.symm) rfl h.earliest ?_
  intro hretired
  rw [hactive] at hretired
  cases hretired

/-- A reference on an entry takes its deadline back. -/
theorem take (he : e ∈ ctx.elfCtxList) : Deadlines (record ++ [.taken e.id]) (reuseElf ctx e) := by
  have hevent : ∀ id since, id ≠ e.id →
      (CacheEvent.taken e.id : CacheEvent P).retires id since = since :=
    fun id since hne => if_neg fun hsame => hne hsame.symm
  have hdistinct := h.distinct.take e
  cases hretired : e.retired with
  | true =>
    have hpos : 0 < ctx.elfCtxList.countP PerElfCtx.retired :=
      List.countP_pos_iff.mpr ⟨e, he, hretired⟩
    rw [reuseElf_of_retired hretired] at hdistinct ⊢
    refine h.change hdistinct he (f := fun e =>
      { e with retired := false, retireDeadlineNs := 0#64, refcnt := e.refcnt + 1 })
      rfl rfl hevent ?_ h.earliest nofun
    have := h.counted
    simp only [hretired, Bool.toNat_true, Bool.toNat_false]
    omega
  | false =>
    rw [reuseElf_of_active hretired] at hdistinct ⊢
    refine h.change hdistinct he (f := fun e => { e with refcnt := e.refcnt + 1 }) rfl rfl hevent
      rfl h.earliest ?_
    intro hcontra
    rw [hretired] at hcontra
    cases hcontra

/-- A new entry is in use. -/
theorem create {image : ElfImage P} (hnew : ctx.findBuildId image.buildId = none) (st : Statistics)
    (hst : st.retiredElfCtxCount = ctx.statistics.retiredElfCtxCount) :
    Deadlines (record ++ [.created ctx.nextElf]) { ctx with
      elfCtxList := ctx.elfCtxList ++ [newElf ctx.nextElf image]
      nextElf := ctx.nextElf + 1
      statistics := st } := by
  have hmem : ∀ b ∈ ctx.elfCtxList ++ [newElf ctx.nextElf image], b.retired = true →
      b ∈ ctx.elfCtxList := by
    intro b hb hretired
    rcases List.mem_append.mp hb with hb | hb
    · exact hb
    · rw [List.mem_singleton.mp hb] at hretired
      cases hretired
  refine ⟨h.distinct.create hnew st, ?_,
    fun b hb hretired => h.idle b (hmem b hb hretired) hretired,
    fun b hb hretired => h.earliest b (hmem b hb hretired) hretired, ?_⟩
  · rw [List.countP_append, hst, h.counted]
    rfl
  · intro b hb hretired
    have hb' := hmem b hb hretired
    rw [retiredAt_snoc, CacheEvent.retires, if_neg (h.distinct.below b hb').ne']
    exact h.since b hb' hretired

end

/-! ### Sweeps -/

/-- No retired entry has the deadline zero. -/
theorem deadline_ne_zero (h : Deadlines record ctx) (he : e ∈ ctx.elfCtxList)
    (hretired : e.retired = true) : e.retireDeadlineNs ≠ 0#64 := by
  obtain ⟨now, -, hnow, heq⟩ := h.since e he hretired
  intro hzero
  have := congrArg BitVec.toNat (heq.symm.trans hzero)
  rw [deadline_toNat hnow] at this
  simp at this

/-- One entry of the sweep lowers the earliest deadline to its own at least, if it stays. -/
theorem sweepEntry_earliest (now : Word) (acc : GuContext P × Word) (e : PerElfCtx P)
    (hnonzero : e.retired = true → e.retireDeadlineNs ≠ 0#64) :
    (acc.2 ≠ 0#64 → (sweepEntry now acc e).2 ≠ 0#64 ∧ (sweepEntry now acc e).2 ≤ acc.2) ∧
    (e.retired = true → e.due now = false →
      (sweepEntry now acc e).2 ≠ 0#64 ∧ (sweepEntry now acc e).2 ≤ e.retireDeadlineNs) := by
  unfold sweepEntry PerElfCtx.due
  cases hretired : e.retired with
  | false => exact ⟨fun hne => ⟨hne, BitVec.le_refl _⟩, nofun⟩
  | true =>
    have hne := hnonzero hretired
    by_cases hdue : now = uint64Max ∨ e.retireDeadlineNs ≤ now
    · simp [hdue]
    simp only [Bool.not_true, Bool.false_eq_true, if_false, hdue]
    split
    · rename_i hsooner
      exact ⟨fun hacc => ⟨hne, BitVec.le_of_lt (hsooner.resolve_left hacc)⟩,
        fun _ _ => ⟨hne, BitVec.le_refl _⟩⟩
    · rename_i hlater
      obtain ⟨hacc, hge⟩ := not_or.mp hlater
      exact ⟨fun _ => ⟨hacc, BitVec.le_refl _⟩, fun _ _ => ⟨hacc, BitVec.not_lt.mp hge⟩⟩

/-- The sweep collects the earliest deadline of the entries it leaves. -/
theorem sweepEntries_earliest (now : Word) (todo : List (PerElfCtx P)) (acc : GuContext P × Word)
    (hnonzero : ∀ e ∈ todo, e.retired = true → e.retireDeadlineNs ≠ 0#64) :
    (acc.2 ≠ 0#64 → (todo.foldl (sweepEntry now) acc).2 ≠ 0#64 ∧
      (todo.foldl (sweepEntry now) acc).2 ≤ acc.2) ∧
    ∀ e ∈ todo, e.retired = true → e.due now = false →
      (todo.foldl (sweepEntry now) acc).2 ≠ 0#64 ∧
        (todo.foldl (sweepEntry now) acc).2 ≤ e.retireDeadlineNs := by
  induction todo generalizing acc with
  | nil => exact ⟨fun h => ⟨h, BitVec.le_refl _⟩, nofun⟩
  | cons b todo ih =>
    obtain ⟨hkeep, hrest⟩ := ih (sweepEntry now acc b)
      fun e he => hnonzero e (List.mem_cons_of_mem b he)
    obtain ⟨hkept, hhead⟩ := sweepEntry_earliest now acc b (hnonzero b List.mem_cons_self)
    rw [List.foldl_cons]
    refine ⟨fun hacc => ?_, fun e he hretired hdue => ?_⟩
    · obtain ⟨hne, hle⟩ := hkept hacc
      exact ⟨(hkeep hne).1, BitVec.le_trans (hkeep hne).2 hle⟩
    · rcases List.mem_cons.mp he with rfl | he
      · obtain ⟨hne, hle⟩ := hhead hretired hdue
        exact ⟨(hkeep hne).1, BitVec.le_trans (hkeep hne).2 hle⟩
      · exact hrest e he hretired hdue

section

variable (h : Deadlines record ctx)
include h

/-- A sweep that is skipped would have found nothing. -/
theorem nothing_due_of_skipped {now : Word}
    (hskip : now ≠ uint64Max ∧ (ctx.statistics.retiredElfCtxCount = 0 ∨
      (ctx.nextRetiredElfDeadlineNs ≠ 0#64 ∧ now < ctx.nextRetiredElfDeadlineNs)))
    (he : e ∈ ctx.elfCtxList) : e.due now = false := by
  obtain ⟨hmax, hskip⟩ := hskip
  cases hretired : e.retired with
  | false => simp [PerElfCtx.due, hretired]
  | true =>
    rcases hskip with hnone | ⟨-, hearly⟩
    · rw [h.counted] at hnone
      exact absurd hretired (List.countP_eq_zero.mp hnone e he)
    · have hlate : now < e.retireDeadlineNs :=
        Nat.lt_of_lt_of_le hearly (h.earliest e he hretired).2
      simp [PerElfCtx.due, hmax, BitVec.not_le.mpr hlate]

/-- A sweep removes exactly the entries that are due, whether or not it is skipped. -/
theorem sweep_exact {now : Word} (hnow : now ≠ 0#64) :
    (guRetiredElfSweep ctx now).elfCtxList = ctx.elfCtxList.filter fun e => !e.due now := by
  unfold guRetiredElfSweep
  rw [if_neg hnow]
  split
  · rename_i hskip
    refine (List.filter_eq_self.mpr fun e he => ?_).symm
    rw [h.nothing_due_of_skipped hskip he]
    rfl
  · exact sweepAll_elfCtxList h.distinct.ids now _ rfl

/-- The number of retired entries follows a sweep. -/
theorem sweep_counted (now : Word) :
    (guRetiredElfSweep ctx now).statistics.retiredElfCtxCount =
      (guRetiredElfSweep ctx now).elfCtxList.countP PerElfCtx.retired := by
  let I : GuContext P → Prop := fun ctx => (ctx.elfCtxList.map PerElfCtx.id).Nodup ∧
    ctx.statistics.retiredElfCtxCount = ctx.elfCtxList.countP PerElfCtx.retired
  refine (guRetiredElfSweep_keeps (I := I) (fun ctx e hctx he hretired => ?_)
    (fun _ _ hctx => hctx) h.distinct.ids ⟨h.distinct.ids, h.counted⟩ now).2
  obtain ⟨hids, hcounted⟩ := hctx
  have hremove := countP_remove hids (lookup_of_mem hids he) PerElfCtx.retired
  have hstats : (clearElfCtx (ctx.count fun st =>
      { st with retiredElfExpired := st.retiredElfExpired + 1 }) e).statistics.retiredElfCtxCount =
      ctx.statistics.retiredElfCtxCount - 1 := by
    simp only [clearElfCtx, guUnretireElfCtx, if_pos hretired]
    rfl
  refine ⟨?_, ?_⟩
  · rw [clearElfCtx_elfCtxList hretired]
    exact nodup_remove hids
  · rw [hstats, clearElfCtx_elfCtxList hretired]
    rw [hretired, Bool.toNat_true] at hremove
    simp only [GuContext.count]
    omega

private theorem sweep (now : Word) :
    Deadlines (record ++ [.swept now]) (guRetiredElfSweep ctx now) := by
  by_cases hnow : now = 0#64
  · have hsame : guRetiredElfSweep ctx now = ctx := if_pos hnow
    rw [hsame]
    exact h.of_map h.distinct (fun _ _ => rfl) rfl rfl rfl
  · have hmem : ∀ e ∈ (guRetiredElfSweep ctx now).elfCtxList,
        e ∈ ctx.elfCtxList ∧ e.due now = false := by
      intro e he
      rw [h.sweep_exact hnow, List.mem_filter] at he
      simpa using he
    refine ⟨h.distinct.sweep now, h.sweep_counted now, fun e he => h.idle e (hmem e he).1, ?_, ?_⟩
    · intro e he hretired
      obtain ⟨he, hdue⟩ := hmem e he
      unfold guRetiredElfSweep
      rw [if_neg hnow]
      split
      · exact h.earliest e he hretired
      · exact (sweepEntries_earliest now ctx.elfCtxList _ fun b hb => h.deadline_ne_zero hb).2 e he
          hretired hdue
    · intro e he hretired
      rw [retiredAt_snoc]
      exact h.since e (hmem e he).1 hretired

end

/-! ### Runs -/

private theorem init (debug goOnlyBuildid retireTimerStarted : Bool) :
    Deadlines [] (guInit debug goOnlyBuildid retireTimerStarted : GuContext P) :=
  ⟨.init _ _ _, rfl, nofun, nofun, nofun⟩

/-- An event keeps the deadlines. -/
theorem step (hclock : ∀ t, (w.now t).toNat < 2 ^ 63) (h : Deadlines record ctx)
    (hstep : CacheStep w ctx event ctx') : Deadlines (record ++ [event]) ctx' := by
  have hdistinct := h.distinct.step hstep
  cases hstep with
  | count f hf => exact h.of_map hdistinct (fun _ _ => rfl) hf.retired rfl rfl
  | cacheRow id cache =>
    exact h.of_map hdistinct (fun _ _ => rfl) rfl rfl (map_update fun _ => rfl)
  | take e he => exact h.take he
  | create image hnew => exact h.create hnew _ rfl
  | put e he hpos =>
    by_cases hone : e.refcnt = 1
    · have hactive : e.retired = false := by
        by_contra hretired
        have := h.idle e (mem_of_lookup he).1 (by simpa using hretired)
        omega
      rw [hone]
      exact h.put_last he hone hactive (hclock _)
    · rw [beq_eq_false_iff_ne.mpr hone]
      exact h.put_other he (by omega)
  | sweep now => exact h.sweep now
  | _ => exact h.of_map hdistinct (fun _ _ => rfl) rfl rfl rfl

end Deadlines

/-- In every reachable context the earliest deadline is a lower bound, so a sweep removes
exactly the retired entries whose deadline has come. Whatever it removes is not in use, and the
put that gave the last reference back was ten seconds ago at least. -/
theorem retired_entries_live_as_promised {H P : Type} {w : World P} {S : SavedStates H P}
    {ctx : GuContext P} (hclock : ∀ t, (w.now t).toNat < 2 ^ 63) (h : ReachableIn w S ctx) :
    (∃ record, Recorded w record ctx) ∧
    ∀ record, Recorded w record ctx →
      (ctx.nextRetiredElfDeadlineNs = 0#64 ∨ ∀ e ∈ ctx.elfCtxList, e.retired = true →
        ctx.nextRetiredElfDeadlineNs ≤ e.retireDeadlineNs) ∧
      ∀ now, now ≠ 0#64 → now ≠ uint64Max →
        (guRetiredElfSweep ctx now).elfCtxList = (ctx.elfCtxList.filter fun e =>
          !(e.retired && decide (e.retireDeadlineNs ≤ now))) ∧
        ∀ e ∈ ctx.elfCtxList, e ∉ (guRetiredElfSweep ctx now).elfCtxList →
          e.refcnt = 0 ∧ ∃ since, retiredAt record e.id = some since ∧
            since.toNat + 10000000000 ≤ now.toNat := by
  refine ⟨h.recorded, fun record hrecord => ?_⟩
  have hdeadlines : Deadlines record ctx :=
    hrecord.history Deadlines .init fun _ _ _ _ hctx hstep => hctx.step hclock hstep
  refine ⟨.inr fun e he hretired => (hdeadlines.earliest e he hretired).2, fun now hnow hmax => ?_⟩
  have hexact := hdeadlines.sweep_exact hnow
  simp only [PerElfCtx.due, hmax, false_or] at hexact
  refine ⟨hexact, fun e he hgone => ?_⟩
  have hdue : e.retired = true ∧ e.retireDeadlineNs ≤ now := by
    by_contra hstays
    refine hgone (hexact ▸ List.mem_filter.mpr ⟨he, ?_⟩)
    rw [Bool.not_eq_eq_eq_not, Bool.not_true, Bool.and_eq_false_iff, decide_eq_false_iff_not]
    exact (not_and_or.mp hstays).imp_left (Bool.not_eq_true _).mp
  obtain ⟨since, hsince, hbound, heq⟩ := hdeadlines.since e he hdue.1
  refine ⟨hdeadlines.idle e he hdue.1, since, hsince, ?_⟩
  rw [← Deadlines.deadline_toNat hbound, ← heq]
  exact hdue.2

/-- A file is used by one process, which exits when the clock shows one. -/
theorem retired_entries_live_as_promised_exit :
    let ctx := guEventOccur twiceMapped
      (guPreloadPidDebugInfo twiceMapped (guInit false false false) 11).2 (.processExit (some 11))
    ctx.elfCtxList.map PerElfCtx.retired = [true] ∧
    (guRetiredElfSweep ctx 10000000000#64).elfCtxList =
      (ctx.elfCtxList.filter fun e =>
        !(e.retired && decide (e.retireDeadlineNs ≤ 10000000000#64))) ∧
    (guRetiredElfSweep ctx 10000000000#64).elfCtxList.length = 1 ∧
    (guRetiredElfSweep ctx 10000000001#64).elfCtxList = [] := by
  have hreach : ReachableIn twiceMapped savedValues _ :=
    .step (.step (.init false false false) (.preload _ 11)) (.event _ (.processExit (some 11)))
  obtain ⟨⟨record, hrecord⟩, hpromise⟩ :=
    retired_entries_live_as_promised (fun _ => show (1#64).toNat < 2 ^ 63 by decide) hreach
  obtain ⟨-, hsweep⟩ := hpromise record hrecord
  exact ⟨by decide +kernel, (hsweep 10000000000#64 (by decide) (by decide)).1, by decide +kernel,
    by decide +kernel⟩

end Gunwinder
