import Gunwinder.Cache.Frame
import Gunwinder.Core.RefCount
import Gunwinder.Native.Unwind

/-!
# Reference counting of the ELF cache

The entry of an ELF file counts the mapping records that point to it. While a process is
being loaded its records are not in the table yet, so the invariant is stated with a list
of references that are held outside.
-/

namespace Gunwinder

open Gunwinder.Core

variable {H P : Type} {ctx ctx' : GuContext P} {held held' : List Nat}

/-- A property of CFI objects that all have when they are loaded. -/
structure CfiProperty (P : Type) where
  holds : GuCfi P → Prop
  fresh : ∀ cfi : GuCfi P, cfi.cache = .empty → holds cfi

variable {Q : CfiProperty P}

/-- The entries that mapping records point to. -/
def itemRefs (items : List (Interval (Option MapCtx))) : List Nat :=
  items.filterMap fun item => item.payload.map MapCtx.elfCtx

def PerPidCtx.refs (pidCtx : PerPidCtx) : List Nat := itemRefs pidCtx.items

/-- The references of all processes in the table. -/
def GuContext.refs (ctx : GuContext P) : List Nat := ctx.pidCtxList.flatMap PerPidCtx.refs

/-- Uses of an entry, inside the table and held outside. -/
def GuContext.uses (ctx : GuContext P) (held : List Nat) (id : Nat) : Nat :=
  ctx.refs.count id + held.count id

/-- The three numbers of entries in the statistics are exact. -/
structure GuContext.Tallied (ctx : GuContext P) : Prop where
  elfs : ctx.statistics.elfCtxCount = ctx.elfCtxList.countP fun e => !e.retired
  retired : ctx.statistics.retiredElfCtxCount = ctx.elfCtxList.countP PerElfCtx.retired
  pids : ctx.statistics.pidCtxCount = ctx.pidCtxList.length

/-- The invariant of the two tables, with references held outside and a property of the CFI
objects. -/
structure References (Q : CfiProperty P) (held : List Nat) (ctx : GuContext P) : Prop where
  counted : Counted PerElfCtx.id PerElfCtx.refcnt PerElfCtx.retired ctx.elfCtxList (ctx.uses held)
  below : ∀ e ∈ ctx.elfCtxList, e.id < ctx.nextElf
  cfis : ∀ e ∈ ctx.elfCtxList, ∀ cfi ∈ e.guCfi, Q.holds cfi
  pids : (ctx.pidCtxList.map PerPidCtx.pid).Nodup
  tallied : ctx.Tallied

section

variable (h : References Q held ctx)
include h

/-- The order in which references are held does not matter. -/
theorem References.perm (hperm : held.Perm held') : References Q held' ctx :=
  { h with counted := h.counted.congr fun k => by simp only [GuContext.uses, hperm.count_eq] }

/-- Only the tables and the three numbers matter. -/
theorem References.of_eq (hpids : ctx'.pidCtxList = ctx.pidCtxList)
    (helfs : ctx'.elfCtxList = ctx.elfCtxList) (hnext : ctx'.nextElf = ctx.nextElf)
    (hstats : ctx'.statistics.elfCtxCount = ctx.statistics.elfCtxCount ∧
      ctx'.statistics.retiredElfCtxCount = ctx.statistics.retiredElfCtxCount ∧
      ctx'.statistics.pidCtxCount = ctx.statistics.pidCtxCount) : References Q held ctx' := by
  have huses : ctx'.uses held = ctx.uses held := by
    funext id
    simp only [GuContext.uses, GuContext.refs, hpids]
  refine ⟨?_, ?_, ?_, ?_, ?_, ?_, ?_⟩
  · rw [helfs, huses]
    exact h.counted
  · rw [helfs, hnext]
    exact h.below
  · rw [helfs]
    exact h.cfis
  · rw [hpids]
    exact h.pids
  · rw [hstats.1, helfs]
    exact h.tallied.elfs
  · rw [hstats.2.1, helfs]
    exact h.tallied.retired
  · rw [hstats.2.2, hpids]
    exact h.tallied.pids

/-- A question keeps the references. -/
theorem References.ask {α : Type} (question : Nat → α) :
    References Q held (ctx.ask question).2 := h.of_eq rfl rfl rfl ⟨rfl, rfl, rfl⟩

/-- A notification keeps the references. -/
theorem References.notify (pidCtx : PerPidCtx) (type : PidCtxEventType) :
    References Q held (ctx.notify pidCtx type) :=
  h.of_eq rfl rfl rfl ⟨rfl, rfl, rfl⟩

end

/-- A held reference is a use of an entry of the table. -/
theorem References.held_lookup {id : Nat} (h : References Q (id :: held) ctx) :
    ∃ e, ctx.elf id = some e ∧ e.refcnt = ctx.uses held id + 1 := by
  have huses : ctx.uses (id :: held) id = ctx.uses held id + 1 := by
    simp only [GuContext.uses, List.count_cons_self]
    omega
  obtain ⟨e, he, hcnt⟩ := h.counted.lookup (k := id) (by omega)
  exact ⟨e, he, hcnt.trans huses⟩

/-! ## Steps on one ELF entry -/

/-- An entry changes its counter with the references held, and the statistics follow. -/
theorem References.modifyElf {id : Nat} {e : PerElfCtx P} (held' : List Nat)
    (f : PerElfCtx P → PerElfCtx P) (st : Statistics) (h : References Q held ctx)
    (he : ctx.elf id = some e)
    (hid : ∀ b, (f b).id = b.id) (hcnt : (f e).refcnt = ctx.uses held' id)
    (hretired : (f e).retired = true ↔ (f e).refcnt = 0)
    (hcfis : ∀ cfi ∈ (f e).guCfi, Q.holds cfi)
    (hother : ∀ j, j ≠ id → held'.count j = held.count j)
    (hactive : st.elfCtxCount + (!e.retired).toNat =
      ctx.statistics.elfCtxCount + (!(f e).retired).toNat)
    (hidle : st.retiredElfCtxCount + e.retired.toNat =
      ctx.statistics.retiredElfCtxCount + (f e).retired.toNat)
    (hpids : st.pidCtxCount = ctx.statistics.pidCtxCount) :
    References Q held' { ctx.modifyElf id f with statistics := st } := by
  have hchange := h.counted.change he hid hcnt hretired
    (fun j hj => by simp only [GuContext.uses, hother j hj])
  have hsum := countP_update (f := f) h.counted.nodup he
  refine ⟨hchange, ?_, ?_, h.pids, ?_, ?_, hpids.trans h.tallied.pids⟩
  · intro b hb
    rcases mem_update.mp hb with ⟨c, hc, -, rfl⟩ | ⟨hb, -⟩
    · rw [hid]
      exact h.below c hc
    · exact h.below b hb
  · intro b hb
    rcases mem_update.mp hb with ⟨c, hc, rfl, rfl⟩ | ⟨hb, -⟩
    · rw [show c = e from Option.some.inj ((lookup_of_mem h.counted.nodup hc).symm.trans he)]
      exact hcfis
    · exact h.cfis b hb
  · have := hsum fun e => !e.retired
    have := h.tallied.elfs
    simp only [GuContext.modifyElf] at *
    omega
  · have := hsum PerElfCtx.retired
    have := h.tallied.retired
    simp only [GuContext.modifyElf] at *
    omega

variable (w : World P)

/-- Giving a reference back; the last one retires the entry. -/
theorem References.put {id : Nat} (h : References Q (id :: held) ctx) :
    References Q held (guPutElfCtx w ctx id) := by
  obtain ⟨e, he, hcnt⟩ := h.held_lookup
  obtain ⟨hmem, rfl⟩ := mem_of_lookup he
  have hbusy : e.retired = false := by
    have hiff := h.counted.idle_iff e hmem
    cases hr : e.retired with
    | false => rfl
    | true => have := hiff.mp hr; omega
  have hdec : wrapSub e.refcnt 1 = ctx.uses held e.id := by
    rw [hcnt, wrapSub, if_pos (by omega), Nat.add_sub_cancel]
  have hother : ∀ j, j ≠ e.id → held.count j = (e.id :: held).count j := fun j hj => by
    rw [List.count_cons_of_ne (Ne.symm hj)]
  simp only [guPutElfCtx, he, hdec]
  split
  case isTrue hzero =>
    -- the two writes to the entry are one change of its counter and its mark
    obtain ⟨now, hnow⟩ : ∃ now, now = w.now ctx.tick := ⟨_, rfl⟩
    have hstep := h.modifyElf held
      (fun e => { e with
        refcnt := wrapSub e.refcnt 1
        retired := true
        retireDeadlineNs := now + guElfRetireTtlNs })
      { ctx.statistics with
        elfCtxCount := ctx.statistics.elfCtxCount - 1
        retiredElfCtxCount := ctx.statistics.retiredElfCtxCount + 1 }
      he (fun _ => rfl) hdec (by simp only [hdec, hzero]) (h.cfis e hmem) hother
      (by
        have hpos : 0 < ctx.elfCtxList.countP fun e => !e.retired :=
          List.countP_pos_iff.mpr ⟨e, hmem, by rw [hbusy]; rfl⟩
        have := h.tallied.elfs
        simp only [hbusy, Bool.not_false, Bool.toNat_true, Bool.not_true, Bool.toNat_false]
        omega)
      (by simp only [hbusy, Bool.toNat_false, Bool.toNat_true]) rfl
    simp only [guRetireElfCtx, hbusy, Bool.false_eq_true, if_false]
    subst hnow
    split <;> exact hstep.of_eq rfl (update_update fun _ => rfl) rfl ⟨rfl, rfl, rfl⟩
  case isFalse hpos =>
    refine (h.modifyElf held (fun e => { e with refcnt := wrapSub e.refcnt 1 }) ctx.statistics he
      (fun _ => rfl) hdec ?_ (h.cfis e hmem) hother rfl rfl rfl).of_eq rfl rfl rfl ⟨rfl, rfl, rfl⟩
    simp only [hdec, hbusy, hpos, Bool.false_eq_true]

/-- Taking a reference on a known entry. -/
theorem References.reuse {e : PerElfCtx P} (h : References Q held ctx)
    (he : e ∈ ctx.elfCtxList) : References Q (e.id :: held) (reuseElf ctx e) := by
  have hlookup := lookup_of_mem h.counted.nodup he
  have huses : e.refcnt + 1 = ctx.uses (e.id :: held) e.id := by
    rw [h.counted.exact e he]
    simp only [GuContext.uses, List.count_cons_self]
    omega
  have hother : ∀ j, j ≠ e.id → (e.id :: held).count j = held.count j := fun j hj => by
    rw [List.count_cons_of_ne (Ne.symm hj)]
  have hiff := h.counted.idle_iff e he
  unfold reuseElf
  split
  case isTrue hretired =>
    have hpos : 0 < ctx.elfCtxList.countP PerElfCtx.retired :=
      List.countP_pos_iff.mpr ⟨e, he, hretired⟩
    have hstep := h.modifyElf (e.id :: held)
      (fun e => { e with
        retired := false
        retireDeadlineNs := 0#64
        refcnt := e.refcnt + 1 })
      { ctx.statistics with
        elfCtxCount := ctx.statistics.elfCtxCount + 1
        retiredElfCtxCount := ctx.statistics.retiredElfCtxCount - 1 }
      hlookup (fun _ => rfl) huses (by simp) (h.cfis e he) hother
      (by simp only [hretired, Bool.not_true, Bool.toNat_false, Bool.not_false, Bool.toNat_true])
      (by
        have := h.tallied.retired
        simp only [hretired, Bool.toNat_true, Bool.toNat_false]
        omega) rfl
    simp only [guUnretireElfCtx, if_pos hretired]
    exact hstep.of_eq rfl (update_update fun _ => rfl) rfl ⟨rfl, rfl, rfl⟩
  case isFalse hactive =>
    refine (h.modifyElf (e.id :: held) (fun e => { e with refcnt := e.refcnt + 1 })
      ctx.statistics hlookup
      (fun _ => rfl) huses ?_ (h.cfis e he) hother rfl rfl rfl).of_eq rfl rfl rfl ⟨rfl, rfl, rfl⟩
    simp [hactive]

/-! ## Loading ELF files and mappings -/

/-- What a loader leaves: the table of processes as it was, and one more reference held for
the entry it returns. -/
structure Loads (Q : CfiProperty P) (held : List Nat) (ctx : GuContext P) (taken : List Nat)
    (ctx' : GuContext P) : Prop where
  pids : ctx'.pidCtxList = ctx.pidCtxList
  refs : References Q (taken ++ held) ctx'

/-- A loader leaves the processes as they were. -/
theorem Loads.pid {taken : List Nat} (h : Loads Q held ctx taken ctx') (pid : Int) :
    ctx'.pid pid = ctx.pid pid := by
  rw [GuContext.pid, h.pids]
  rfl

/-- The CFI object of a new entry has parsed nothing. -/
theorem newElf_cfis (id : Nat) (image : ElfImage P) :
    ∀ cfi ∈ (newElf id image).guCfi, Q.holds cfi := by
  intro cfi hcfi
  simp only [newElf] at hcfi
  split at hcfi
  · cases hcfi
  · obtain ⟨loaded, -, rfl⟩ := Option.map_eq_some_iff.mp hcfi
    exact Q.fresh _ rfl

/-- A new entry has the one reference that its loader takes. -/
theorem References.addElf (h : References Q held ctx) (image : ElfImage P) :
    Loads Q held ctx ((addElf w ctx image).1.map PerElfCtx.id).toList (addElf w ctx image).2 := by
  unfold Gunwinder.addElf
  dsimp only
  split
  · split
    · refine ⟨rfl, ?_, ?_, ?_, h.pids, ?_, ?_, h.tallied.pids⟩
      · have hnew : ∀ b ∈ ctx.elfCtxList, b.id ≠ ctx.nextElf := fun b hb => (h.below b hb).ne
        have hnone := h.counted.uses_eq_zero hnew
        refine h.counted.insert hnew ?_ (by simp [newElf]) ?_
        · simp only [GuContext.uses] at hnone
          simp only [GuContext.uses, newElf, Option.map_some, Option.toList_some,
            List.singleton_append, GuContext.refs, GuContext.ask, GuContext.count,
            List.count_cons_self]
          simp only [GuContext.refs] at hnone
          omega
        · intro j hj
          have hj' : ctx.nextElf ≠ j := Ne.symm hj
          simp only [GuContext.uses, newElf, Option.map_some, Option.toList_some,
            List.singleton_append, GuContext.refs, GuContext.ask, GuContext.count]
          rw [List.count_cons_of_ne hj']
      · intro b hb
        rcases List.mem_append.mp hb with hb | hb
        · exact Nat.lt_succ_of_lt (h.below b hb)
        · rw [List.mem_singleton.mp hb]
          exact Nat.lt_succ_self _
      · intro b hb
        rcases List.mem_append.mp hb with hb | hb
        · exact h.cfis b hb
        · rw [List.mem_singleton.mp hb]
          exact newElf_cfis _ image
      · simpa [newElf, GuContext.ask, GuContext.count, Statistics.charge] using h.tallied.elfs
      · simpa [newElf, GuContext.ask, GuContext.count, Statistics.charge] using h.tallied.retired
    · exact ⟨rfl, h.of_eq rfl rfl rfl ⟨rfl, rfl, rfl⟩⟩
  · exact ⟨rfl, h.of_eq rfl rfl rfl ⟨rfl, rfl, rfl⟩⟩

/-- `load_elf` takes a reference exactly when it returns an entry. -/
theorem References.loadElf (h : References Q held ctx) (path : String) (pid : Int)
    (openPath : Option OpenPath) :
    Loads Q held ctx ((loadElf w ctx path pid openPath).1.map PerElfCtx.id).toList
      (loadElf w ctx path pid openPath).2 := by
  have hask := h.ask fun t => w.elf t pid path openPath
  unfold Gunwinder.loadElf
  dsimp only
  split
  · exact ⟨rfl, hask⟩
  rename_i image _
  split
  · rename_i e he
    refine ⟨?_, hask.reuse (mem_of_lookup he).1⟩
    simp only [reuseElf, guUnretireElfCtx]
    split <;> rfl
  · obtain ⟨hpids, hrefs⟩ := hask.addElf w image
    exact ⟨hpids, hrefs⟩

variable {items : List (Interval (Option MapCtx))}

/-- Dropping a list of records gives all their references back. -/
theorem References.clean (h : References Q (itemRefs items ++ held) ctx) :
    References Q held (cleanElfCtxs w ctx items) := by
  induction items generalizing ctx with
  | nil => exact h
  | cons item items ih =>
    simp only [cleanElfCtxs, List.foldl_cons]
    cases hitem : item.payload with
    | none =>
      refine ih ?_
      simpa only [itemRefs, List.filterMap_cons, hitem, Option.map_none] using h
    | some mapCtx =>
      refine ih (References.put w ?_)
      simpa only [itemRefs, List.filterMap_cons, hitem, Option.map_some, List.cons_append] using h

/-- The mapping loop holds one reference for every record it has filled, also when it stops
half-way. -/
theorem References.loadMaps (pid : Int) (first : Bool) (maps : List MapsInfo)
    (h : References Q held ctx) :
    Loads Q held ctx (itemRefs (loadMaps w pid first maps ctx).items)
      (loadMaps w pid first maps ctx).ctx := by
  induction maps generalizing first ctx held with
  | nil => exact ⟨rfl, h⟩
  | cons map maps ih =>
    have hload := h.loadElf w map.path pid (livePath ctx first map)
    unfold Gunwinder.loadMaps
    split
    case h_1 ctx' heq =>
      rw [heq] at hload
      obtain ⟨hpids, hrefs⟩ := ih false hload.refs
      exact ⟨hpids.trans hload.pids, hrefs⟩
    case h_2 elf ctx' heq =>
      rw [heq] at hload
      dsimp only
      split
      · obtain ⟨hpids, hrefs⟩ := ih false (hload.refs.ask w.alloc)
        refine ⟨hpids.trans hload.pids, hrefs.perm ?_⟩
        simp only [itemRefs, List.filterMap_cons, Option.map_some, guElfMapCtx, Option.toList_some,
          List.cons_append]
        exact List.perm_middle
      · refine ⟨(congrArg ContextFrame.pidCtxList (guPutElfCtx_frame w _ _)).trans hload.pids, ?_⟩
        exact (hload.refs.ask w.alloc).put w

/-! ## Processes -/

private theorem itemRefs_fillEnds (items : List (Interval (Option MapCtx))) :
    itemRefs (fillEnds items) = itemRefs items := by
  induction items with
  | nil => rfl
  | cons item items ih =>
    cases items with
    | nil => by_cases h : item.fin = 0#64 <;> simp [fillEnds, itemRefs, h, List.filterMap_cons]
    | cons next rest =>
      simp only [itemRefs] at ih
      by_cases h : item.fin = 0#64 <;>
        simp only [fillEnds, itemRefs, h, if_true, if_false, List.filterMap_cons, ih]

/-- Sorting keeps the references. -/
theorem itemRefs_sorted (items : List (Interval (Option MapCtx))) :
    (itemRefs (fillEnds (items.insertionSort fun a b => a.start ≤ b.start))).Perm
      (itemRefs items) := by
  rw [itemRefs_fillEnds]
  exact (List.perm_insertionSort _ items).filterMap _

/-- The table of mapping records holds the references of its items. -/
theorem itemRefs_guIntervalArrayInit {list : IntervalArray (Option MapCtx)}
    (h : guIntervalArrayInit items = some list) : (itemRefs list.items).Perm (itemRefs items) := by
  refine List.Perm.trans (.of_eq ?_) (itemRefs_sorted items)
  simp only [guIntervalArrayInit] at h
  split at h
  · split at h <;> cases h
    · simp only [itemRefs, List.filterMap_map, Function.comp_def]
    · rfl
  · cases h

/-- The table of mapping records, or the items it was to hold, have all references. -/
theorem initElfCtxList_refs (ctx : GuContext P) (items : List (Interval (Option MapCtx))) :
    (itemRefs (initElfCtxList w ctx items).2.1).Perm (itemRefs items) ∧
      ∀ list ∈ (initElfCtxList w ctx items).1, (itemRefs list.items).Perm (itemRefs items) := by
  unfold initElfCtxList
  dsimp only
  split
  · refine ⟨itemRefs_sorted items, fun list hlist => ?_⟩
    split at hlist
    · exact itemRefs_guIntervalArrayInit hlist
    · cases hlist
  · exact ⟨.refl _, fun list hlist => nomatch hlist⟩

/-- The table of records takes no reference. -/
theorem References.initElfCtxList (items : List (Interval (Option MapCtx)))
    (h : References Q held ctx) : Loads Q held ctx [] (initElfCtxList w ctx items).2.2 := by
  unfold Gunwinder.initElfCtxList
  dsimp only
  split
  · exact ⟨rfl, (h.ask w.alloc).ask w.alloc⟩
  · exact ⟨rfl, h.ask w.alloc⟩

/-- Scheduling a reload writes to the entry only. -/
theorem References.schedule (pidCtx : PerPidCtx) (h : References Q held ctx) :
    Loads Q held ctx [] (guScheduleNextMapsReload w ctx pidCtx).2 := by
  simp only [guScheduleNextMapsReload, guMapsReloadRandomU64]
  split
  · exact ⟨rfl, (h.ask w.now).ask w.seed⟩
  · exact ⟨rfl, h.ask w.now⟩

/-- The references of an entry that may not have been loaded. -/
def loadedRefs (pidCtx : Option PerPidCtx) : List Nat := (pidCtx.map PerPidCtx.refs).getD []

/-- A loaded process holds the references of its records; a failed load holds none. -/
theorem References.loadPidMaps (info : StackInfo) (maps : List MapsInfo)
    (h : References Q held ctx) :
    Loads Q held ctx (loadedRefs (loadPidMaps w ctx info maps).1)
      (loadPidMaps w ctx info maps).2 := by
  have hcount : References Q held
      (ctx.count fun st => { st with pidCtxAllocCount := st.pidCtxAllocCount + 1 }) :=
    h.of_eq rfl rfl rfl ⟨rfl, rfl, rfl⟩
  have hmaps := hcount.loadMaps w info.pid true maps
  unfold Gunwinder.loadPidMaps
  dsimp only
  generalize Gunwinder.loadMaps w info.pid true maps _ = loaded at hmaps ⊢
  split
  · have hinit := hmaps.refs.initElfCtxList w loaded.items
    obtain ⟨hsorted, hlist⟩ := initElfCtxList_refs w loaded.ctx loaded.items
    split
    case h_1 items ctx' heq =>
      rw [heq] at hinit hsorted
      have hrefs := hinit.refs.perm (hsorted.symm.append_right held)
      have hclean := congrArg ContextFrame.pidCtxList (cleanElfCtxs_frame w ctx' items)
      exact ⟨hclean.trans (hinit.pids.trans hmaps.pids), hrefs.clean w⟩
    case h_2 list items ctx' heq =>
      rw [heq] at hinit hlist
      have hrefs := hinit.refs.perm ((hlist list rfl).symm.append_right held)
      have hasked := hrefs.ask fun t => w.comm t info.pid
      obtain ⟨hpids, hsched⟩ := hasked.schedule w
        (newPidCtx info loaded.golang list (w.comm ctx'.tick info.pid))
      exact ⟨hpids.trans (hinit.pids.trans hmaps.pids), hsched⟩
  · have hclean := congrArg ContextFrame.pidCtxList (cleanElfCtxs_frame w loaded.ctx loaded.items)
    exact ⟨hclean.trans hmaps.pids, hmaps.refs.clean w⟩

/-- `gu_load_pid` for a process that is not in the table. -/
theorem References.loadPid (info : StackInfo) (h : References Q held ctx)
    (hnew : ctx.pid info.pid = none) :
    Loads Q held ctx (loadedRefs (guLoadPid w ctx info).1) (guLoadPid w ctx info).2 := by
  simp only [guLoadPid, hnew]
  have hasked := h.ask fun t => w.maps t info.pid
  split
  · exact ⟨rfl, hasked⟩
  split
  · split
    · obtain ⟨hpids, hrefs⟩ := ((hasked.ask w.alloc).ask w.alloc).loadPidMaps w info
        (w.maps ctx.tick info.pid)
      exact ⟨hpids, hrefs⟩
    · exact ⟨rfl, (hasked.ask w.alloc).ask w.alloc⟩
  · exact ⟨rfl, hasked.ask w.alloc⟩

variable {pidCtx : PerPidCtx}

/-- The entry that is loaded is one of the sampled process. -/
theorem guLoadPid_pid {w : World P} {info : StackInfo} (h : (guLoadPid w ctx info).1 = some pidCtx)
    (hnew : ctx.pid info.pid = none) : pidCtx.pid = info.pid := by
  simp only [guLoadPid, hnew, loadPidMaps] at h
  repeat' split at h
  all_goals cases h
  rfl

/-- What is loaded can be added to the table. -/
theorem References.loadPid_some {w : World P} {info : StackInfo} (h : References Q held ctx)
    (heq : guLoadPid w ctx info = (some pidCtx, ctx')) (hnew : ctx.pid info.pid = none) :
    References Q (pidCtx.refs ++ held) ctx' ∧ pidCtx.pid = info.pid ∧
      ctx'.pid pidCtx.pid = none := by
  have hload := h.loadPid w info hnew
  have hpid := guLoadPid_pid (congrArg Prod.fst heq) hnew
  rw [heq] at hload
  refine ⟨hload.refs, hpid, ?_⟩
  rw [hload.pid, hpid]
  exact hnew

/-- References to an entry, process by process. -/
theorem count_refs (ctx : GuContext P) (id : Nat) :
    ctx.refs.count id = (ctx.pidCtxList.map fun p => p.refs.count id).sum :=
  List.count_flatMap

/-- A loaded process is added: its references move into the table. -/
theorem References.addPidCtx (h : References Q (pidCtx.refs ++ held) ctx)
    (hnew : ctx.pid pidCtx.pid = none) : References Q held (addPidCtx ctx pidCtx) := by
  have hne := lookup_eq_none.mp hnew
  refine ⟨h.counted.congr fun k => ?_, h.below, h.cfis, ?_, h.tallied.elfs, h.tallied.retired, ?_⟩
  · simp only [GuContext.uses, GuContext.refs, Gunwinder.addPidCtx, GuContext.count,
      GuContext.notify, List.flatMap_append, List.flatMap_singleton, List.count_append]
    omega
  · simp only [Gunwinder.addPidCtx, GuContext.count, GuContext.notify, List.map_append,
      List.map_singleton]
    refine List.nodup_append.mpr ⟨h.pids, List.nodup_singleton _, ?_⟩
    intro x hx y hy hxy
    obtain ⟨q, hq, rfl⟩ := List.mem_map.mp hx
    exact hne q hq (hxy.trans (List.mem_singleton.mp hy))
  · have := h.tallied.pids
    simp only [Gunwinder.addPidCtx, GuContext.count, GuContext.notify, List.length_append,
      List.length_singleton]
    omega

/-- A process is taken out of the table: its references are held outside from there on. -/
theorem References.removePid {entry : PerPidCtx} (hlookup : ctx.pid pidCtx.pid = some entry)
    (hentry : entry.refs = pidCtx.refs) (h : References Q held ctx) :
    References Q (pidCtx.refs ++ held)
      ({ ctx with pidCtxList := remove PerPidCtx.pid ctx.pidCtxList pidCtx.pid }.count
        fun st => { st with pidCtxCount := wrapSub st.pidCtxCount 1 }) := by
  have hlength := countP_remove h.pids hlookup fun _ => true
  simp only [List.countP_true, Bool.toNat_true] at hlength
  refine ⟨h.counted.congr fun k => ?_, h.below, h.cfis, nodup_remove h.pids,
    h.tallied.elfs, h.tallied.retired, ?_⟩
  · have hsum := sum_remove h.pids hlookup fun p => p.refs.count k
    simp only [GuContext.uses, count_refs, GuContext.count, List.count_append] at hsum ⊢
    rw [hentry] at hsum
    omega
  · have := h.tallied.pids
    simp only [GuContext.count, wrapSub]
    rw [if_pos (by omega)]
    omega

/-- A process is cleared: its references move out of the table and are given back. -/
theorem References.clearPidCtx {entry : PerPidCtx} (hlookup : ctx.pid pidCtx.pid = some entry)
    (hentry : entry.refs = pidCtx.refs) (h : References Q held ctx) :
    References Q held (guClearPidCtx w ctx pidCtx) :=
  References.clean w (h.removePid hlookup hentry)

@[simp] theorem guClearPidCtx_pidCtxList (ctx : GuContext P) (pidCtx : PerPidCtx) :
    (guClearPidCtx w ctx pidCtx).pidCtxList = remove PerPidCtx.pid ctx.pidCtxList pidCtx.pid :=
  congrArg ContextFrame.pidCtxList (cleanElfCtxs_frame w _ pidCtx.items)

/-- A process that is cleared is no longer found. -/
theorem guClearPidCtx_pid (ctx : GuContext P) (pidCtx : PerPidCtx) :
    (guClearPidCtx w ctx pidCtx).pid pidCtx.pid = none := by
  rw [GuContext.pid, guClearPidCtx_pidCtxList]
  exact lookup_remove_self

/-- Writes to an entry that keep its pid and its records. -/
theorem References.modifyPid {pid : Int} (f : PerPidCtx → PerPidCtx)
    (hpid : ∀ p, (f p).pid = p.pid) (hlist : ∀ p, (f p).elfCtxList = p.elfCtxList)
    (h : References Q held ctx) : References Q held (ctx.modifyPid pid f) := by
  have hrefs : (ctx.modifyPid pid f).refs = ctx.refs := by
    simp only [GuContext.refs, GuContext.modifyPid, update, List.flatMap_map]
    refine List.flatMap_congr fun p _ => ?_
    split
    · simp only [PerPidCtx.refs, PerPidCtx.items, hlist]
    · rfl
  refine ⟨h.counted.congr fun k => ?_, h.below, h.cfis, ?_, h.tallied.elfs, h.tallied.retired, ?_⟩
  · simp only [GuContext.uses, hrefs]
  · simp only [GuContext.modifyPid, map_update hpid]
    exact h.pids
  · simp only [GuContext.modifyPid, update, List.length_map]
    exact h.tallied.pids

/-- Writes to an ELF entry that keep its counter and its mark. -/
theorem References.touchElf {id : Nat} (f : PerElfCtx P → PerElfCtx P)
    (hf : ∀ e, (f e).id = e.id ∧ (f e).refcnt = e.refcnt ∧ (f e).retired = e.retired)
    (hcfis : ∀ e, ctx.elf id = some e → ∀ cfi ∈ (f e).guCfi, Q.holds cfi)
    (h : References Q held ctx) : References Q held (ctx.modifyElf id f) := by
  cases he : ctx.elf id with
  | none =>
    refine h.of_eq rfl (update_of_forall_ne (lookup_eq_none.mp he)) rfl ⟨rfl, rfl, rfl⟩
  | some e =>
    obtain ⟨hmem, rfl⟩ := mem_of_lookup he
    obtain ⟨-, hcnt, hretired⟩ := hf e
    refine h.modifyElf held f ctx.statistics he (fun b => (hf b).1) ?_ ?_ (hcfis e he)
      (fun _ _ => rfl) ?_ ?_ rfl
    · exact hcnt.trans (h.counted.exact e hmem)
    · rw [hcnt, hretired]
      exact h.counted.idle_iff e hmem
    · rw [hretired]
    · rw [hretired]

end Gunwinder
