import Gunwinder.Cache.Steps

/-!
# Loading in steps

Loading a process takes a reference for each mapping with an ELF file and gives them all
back when it fails. None of its steps removes an ELF entry or changes what was decoded from
its file, so at the end every mapping record still fits the source it was made from.
-/

namespace Gunwinder

open Gunwinder.Core

variable {P : Type} {Q : CfiProperty P} {ctx ctx' ctx'' : GuContext P} {held : List Nat}
  {w : World P}

/-- The two entries have the same file. -/
structure PerElfCtx.SameFile (e e' : PerElfCtx P) : Prop where
  id : e'.id = e.id
  buildId : e'.buildId = e.buildId
  execVirtAddr : e'.execVirtAddr = e.execVirtAddr
  execRanges : e'.execRanges = e.execRanges

/-- An entry is of its own file. -/
theorem PerElfCtx.SameFile.refl (e : PerElfCtx P) : e.SameFile e := ⟨rfl, rfl, rfl, rfl⟩

private theorem PerElfCtx.SameFile.trans {e e' e'' : PerElfCtx P} (h : e.SameFile e')
    (h' : e'.SameFile e'') : e.SameFile e'' :=
  ⟨h'.id.trans h.id, h'.buildId.trans h.buildId, h'.execVirtAddr.trans h.execVirtAddr,
    h'.execRanges.trans h.execRanges⟩

/-- Steps that lose no ELF entry. -/
structure Advances (w : World P) (ctx ctx' : GuContext P) : Prop extends Renews w ctx ctx' where
  debug : ctx'.debug = ctx.debug
  elfs : ∀ id e, ctx.elf id = some e → ∃ e', ctx'.elf id = some e' ∧ e.SameFile e'

namespace Advances

/-- No step at all. -/
theorem refl (ctx : GuContext P) : Advances w ctx ctx :=
  ⟨.refl ctx, rfl, fun _ e he => ⟨e, he, .refl e⟩⟩

private theorem of_eq (h : ctx = ctx') : Advances w ctx ctx' := h ▸ .refl ctx

/-- Steps after steps. -/
theorem trans (h : Advances w ctx ctx') (h' : Advances w ctx' ctx'') : Advances w ctx ctx'' := by
  refine ⟨h.toRenews.trans h'.toRenews, h'.debug.trans h.debug, ?_⟩
  intro id e he
  obtain ⟨e', he', hsame⟩ := h.elfs id e he
  obtain ⟨e'', he'', hsame'⟩ := h'.elfs id e' he'
  exact ⟨e'', he'', hsame.trans hsame'⟩

variable {event : CacheEvent P}

/-- A step that leaves the ELF table alone. -/
theorem step (hstep : CacheStep w ctx event ctx')
    (hevent : ∀ pidCtx sources, event ≠ .loaded pidCtx sources)
    (helfs : ctx'.elfCtxList = ctx.elfCtxList) : Advances w ctx ctx' := by
  refine ⟨.step hstep hevent, hstep.settings.2, fun id e he => ⟨e, ?_, .refl e⟩⟩
  rw [GuContext.elf, helfs]
  exact he

/-- A question is such a step. -/
theorem ask {α : Type} (w : World P) (ctx : GuContext P) (question : Nat → α) :
    Advances w ctx (ctx.ask question).2 := .step (.ask ctx) nofun rfl

/-- Counting is such a step. -/
theorem count (w : World P) (ctx : GuContext P) {f : Statistics → Statistics}
    (hf : ctx.statistics.SameTotals (f ctx.statistics)) : Advances w ctx (ctx.count f) :=
  .step (.count ctx f hf) nofun rfl

/-- Writing to one entry through a pointer. -/
theorem of_update {id : Nat} {f : PerElfCtx P → PerElfCtx P} (hstep : CacheStep w ctx event ctx')
    (hevent : ∀ pidCtx sources, event ≠ .loaded pidCtx sources)
    (helfs : ctx'.elfCtxList = update PerElfCtx.id ctx.elfCtxList id f)
    (hf : ∀ e : PerElfCtx P, e.SameFile (f e)) : Advances w ctx ctx' := by
  refine ⟨.step hstep hevent, hstep.settings.2, fun j e he => ?_⟩
  simp only [GuContext.elf, helfs, lookup_update fun e => (hf e).id] at he ⊢
  rw [he]
  refine ⟨_, rfl, ?_⟩
  split
  · exact hf e
  · exact .refl e

end Advances

/-- Giving a reference back. -/
theorem guPutElfCtx_advances {id : Nat} (w : World P) (h : References Q (id :: held) ctx) :
    Advances w ctx (guPutElfCtx w ctx id) := by
  obtain ⟨e, he, hcnt⟩ := h.held_lookup
  obtain ⟨-, rfl⟩ := mem_of_lookup he
  have hpos : 0 < e.refcnt := by omega
  have hstep := CacheStep.put (w := w) ctx e he hpos
  by_cases hlast : e.refcnt = 1 ∧ e.retired = false
  · rw [guPutElfCtx_of_last w he hlast.1 hlast.2] at hstep ⊢
    exact .of_update hstep nofun rfl fun _ => ⟨rfl, rfl, rfl, rfl⟩
  · rw [guPutElfCtx_of_not_last w he hpos hlast] at hstep ⊢
    exact .of_update hstep nofun rfl fun _ => ⟨rfl, rfl, rfl, rfl⟩

/-- Taking a reference on a known entry. -/
theorem reuseElf_advances (w : World P) {e : PerElfCtx P} (he : e ∈ ctx.elfCtxList) :
    Advances w ctx (reuseElf ctx e) := by
  have hstep := CacheStep.take (w := w) ctx e he
  cases hretired : e.retired with
  | true =>
    rw [reuseElf_of_retired hretired] at hstep ⊢
    exact .of_update hstep nofun rfl fun _ => ⟨rfl, rfl, rfl, rfl⟩
  | false =>
    rw [reuseElf_of_active hretired] at hstep ⊢
    exact .of_update hstep nofun rfl fun _ => ⟨rfl, rfl, rfl, rfl⟩

private theorem wrapSub_add_self (a b : Nat) : wrapSub (a + b) b = a := by
  rw [wrapSub, if_pos (Nat.le_add_left b a), Nat.add_sub_cancel]

/-- What is charged and given back leaves the totals. -/
theorem Statistics.refund_charge (st : Statistics)
    (symbols : Option (IntervalArray (Option String)))
    (size : Nat) (cfi : Option (GuCfi P)) :
    (st.charge symbols size cfi).refund symbols size cfi = st := by
  simp only [Statistics.refund, Statistics.charge, wrapSub_add_self]
  cases symbols.isSome <;> simp [wrapSub_add_self]

/-- A new entry, or a load that fails behind the cache miss. -/
theorem addElf_advances (w : World P) (ctx : GuContext P) (image : ElfImage P)
    (hnew : ctx.findBuildId image.buildId = none) (hshown : w.Shows image)
    (hbelow : ∀ e ∈ ctx.elfCtxList, e.id < ctx.nextElf) :
    Advances w ctx (addElf w ctx image).2 ∧
      ((addElf w ctx image).1 = none → (∀ t, w.alloc t = true) → image.debugScanned = false) ∧
      ∀ e ∈ (addElf w ctx image).1, e.buildId = image.buildId ∧
        (addElf w ctx image).2.elf e.id = some e := by
  have hcount : Advances w ctx
      (ctx.count fun st => { st with elfCtxAllocCount := st.elfCtxAllocCount + 1 }) :=
    .count w ctx ⟨rfl, rfl, rfl, rfl, rfl, rfl, rfl, rfl⟩
  unfold addElf
  dsimp only
  split
  · rename_i hscanned
    have hask := hcount.trans (.ask w _ w.alloc)
    split
    · rename_i hgranted
      refine ⟨hask.trans ?_, ?_, ?_⟩
      · refine ⟨.step (.create _ image hnew hscanned hshown) nofun, rfl, ?_⟩
        exact fun id e he => ⟨e, lookup_append_of_some he, .refl e⟩
      · rintro ⟨⟩
      · rintro _ ⟨⟩
        refine ⟨rfl, lookup_append_self (lookup_eq_none.mpr fun e he => ?_)⟩
        exact (hbelow e he).ne
    · rename_i hrefused
      refine ⟨?_, fun _ halloc => absurd (halloc _) hrefused, by rintro _ ⟨⟩⟩
      -- what was charged for the symbols and the CFI is given back
      have hback := Statistics.refund_charge
        { ctx.statistics with elfCtxAllocCount := ctx.statistics.elfCtxAllocCount + 1 }
        (newElf ctx.nextElf image).symbols (newElf ctx.nextElf image).symSearchSize
        (newElf ctx.nextElf image).guCfi
      refine (hcount.trans (.ask w _ w.alloc)).trans (.of_eq ?_)
      simp only [GuContext.count, GuContext.ask, hback]
  · rename_i hscanned
    exact ⟨hcount, fun _ _ => Bool.eq_false_iff.mpr hscanned, by rintro _ ⟨⟩⟩

/-! ## Sources -/

/-- The record of a mapping reads of an entry only what its file decodes to. -/
theorem PerElfCtx.SameFile.mapCtx {e e' : PerElfCtx P} (h : e.SameFile e') (map : MapsInfo) :
    guElfMapCtx e' (guResolveMapExecVirtAddr e' map) =
      guElfMapCtx e (guResolveMapExecVirtAddr e map) := by
  have haddr : guResolveMapExecVirtAddr e' map = guResolveMapExecVirtAddr e map := by
    rw [guResolveMapExecVirtAddr, guResolveMapExecVirtAddr, h.execRanges]
  rw [haddr, guElfMapCtx, guElfMapCtx, h.id, h.execVirtAddr]

/-- A record fits its source as long as its ELF entry has the same file. -/
theorem Source.Fits.of_elfs {src : Source P} {item : Interval (Option MapCtx)}
    (h : src.Fits ctx item)
    (helfs : ∀ mapCtx ∈ item.payload, ∀ e, ctx.elf mapCtx.elfCtx = some e →
      ∃ e', ctx'.elf mapCtx.elfCtx = some e' ∧ e.SameFile e') : src.Fits ctx' item := by
  obtain ⟨hstart, hfin, hpayload⟩ := h
  refine ⟨hstart, hfin, ?_⟩
  cases hitem : item.payload with
  | none =>
    rw [hitem] at hpayload
    exact hpayload
  | some mapCtx =>
    rw [hitem] at hpayload
    obtain ⟨image, himage, e, he, hid, hmap⟩ := hpayload
    obtain ⟨e', he', hsame⟩ := helfs mapCtx hitem e he
    exact ⟨image, himage, e', he', hsame.buildId.trans hid, hmap.trans (hsame.mapCtx _).symm⟩

/-- A record fits its source as long as no ELF entry is lost. -/
theorem Source.Fits.advance {src : Source P} {item : Interval (Option MapCtx)}
    (h : src.Fits ctx item) (hadv : Advances w ctx ctx') : src.Fits ctx' item :=
  h.of_elfs fun mapCtx _ => hadv.elfs mapCtx.elfCtx

/-- A weaker relation of each file to its path. -/
theorem eachFile.mono {R R' : Source P → Option OpenPath → Prop} {first : Bool}
    {sources : List (Source P)} (hdebug : ctx'.debug = ctx.debug)
    (hR : ∀ src path, R src path → R' src path) (h : eachFile ctx R first sources) :
    eachFile ctx' R' first sources := by
  induction sources generalizing first with
  | nil => trivial
  | cons src rest ih =>
    obtain ⟨hhead, hrest⟩ := h
    refine ⟨hR _ _ ?_, ih hrest⟩
    simpa only [livePath, hdebug] using hhead

/-- What `load_elf` returns is the entry of the file's build id; it returns none for a file
that decodes only when the debug file does not. -/
theorem loadElf_advances (w : World P) (h : References Q held ctx) (path : String)
    (pid : Int) (openPath : Option OpenPath) :
    Advances w ctx (loadElf w ctx path pid openPath).2 ∧
      ctx.tick < (loadElf w ctx path pid openPath).2.tick ∧
      ((loadElf w ctx path pid openPath).1 = none → (∀ t, w.alloc t = true) →
        ∀ image ∈ w.elf ctx.tick pid path openPath, image.debugScanned = false) ∧
      ∀ e ∈ (loadElf w ctx path pid openPath).1,
        ∃ image ∈ w.elf ctx.tick pid path openPath, e.buildId = image.buildId ∧
          ∃ e', (loadElf w ctx path pid openPath).2.elf e.id = some e' ∧ e.SameFile e' := by
  have hask : Advances w ctx (ctx.ask fun t => w.elf t pid path openPath).2 := .ask w ctx _
  have hrefs := h.ask fun t => w.elf t pid path openPath
  unfold loadElf
  dsimp only
  split
  · rename_i hnone
    refine ⟨hask, Nat.lt_succ_self _, fun _ _ image himage => ?_, nofun⟩
    cases hnone.symm.trans himage
  · rename_i image himage
    split
    · rename_i e he
      obtain ⟨hmem, hid⟩ := mem_of_lookup he
      have hadv := reuseElf_advances w hmem
      refine ⟨hask.trans hadv, Nat.lt_of_lt_of_le (Nat.lt_succ_self _) hadv.tick, nofun, ?_⟩
      rintro _ ⟨⟩
      exact ⟨image, himage, hid, hadv.elfs _ _ (lookup_of_mem hrefs.counted.nodup hmem)⟩
    · rename_i hnew
      obtain ⟨hadv, hfail, hok⟩ := addElf_advances w _ image hnew ⟨_, _, _, _, himage⟩ hrefs.below
      refine ⟨hask.trans hadv, Nat.lt_of_lt_of_le (Nat.lt_succ_self _) hadv.tick, ?_, ?_⟩
      · intro hnone halloc other hother
        rw [show other = image from Option.some.inj (hother.symm.trans himage)]
        exact hfail hnone halloc
      · intro e he
        obtain ⟨hid, hlookup⟩ := hok e he
        exact ⟨image, himage, hid, e, hlookup, .refl e⟩

/-- The mapping loop: every record fits the source it was made from. -/
theorem loadMaps_advances (w : World P) (pid : Int) (first : Bool)
    (maps : List MapsInfo) (h : References Q held ctx) :
    Advances w ctx (loadMaps w pid first maps ctx).ctx ∧
      ((loadMaps w pid first maps ctx).ok = true → ∃ sources : List (Source P),
        sources.map Source.map = maps ∧
        eachFile ctx (fun src path => ∃ t < (loadMaps w pid first maps ctx).ctx.tick,
          w.elf t pid src.map.path path = src.file) first sources ∧
        ((∀ t, w.alloc t = true) → List.Forall₂
          (Source.Fits (loadMaps w pid first maps ctx).ctx) sources
          (loadMaps w pid first maps ctx).items) ∧
        List.Forall₂ (MapsInfo.Recorded w pid ctx.tick (loadMaps w pid first maps ctx).ctx.tick)
          maps (loadMaps w pid first maps ctx).items) := by
  induction maps generalizing first ctx held with
  | nil => exact ⟨.refl ctx, fun _ => ⟨[], rfl, trivial, fun _ => .nil, .nil⟩⟩
  | cons map maps ih =>
    obtain ⟨hadv, htick, hfail, hok⟩ := loadElf_advances w h map.path pid (livePath ctx first map)
    have hload := h.loadElf w map.path pid (livePath ctx first map)
    let src : Source P := ⟨map, w.elf ctx.tick pid map.path (livePath ctx first map)⟩
    unfold loadMaps
    split
    case h_1 ctx' heq =>
      rw [heq] at hadv htick hfail hload
      obtain ⟨hrest, hsources⟩ := ih false hload.refs
      refine ⟨hadv.trans hrest, fun hall => ?_⟩
      obtain ⟨sources, rfl, hfiles, hfits, hrecorded⟩ := hsources hall
      refine ⟨src :: sources, rfl, ⟨⟨ctx.tick, Nat.lt_of_lt_of_le htick hrest.tick, rfl⟩,
        hfiles.mono hadv.debug.symm fun _ _ h => h⟩, fun halloc => ?_, ?_⟩
      · exact .cons ⟨rfl, rfl, hfail rfl halloc⟩ (hfits halloc)
      · exact .cons ⟨rfl, rfl, nofun⟩ (hrecorded.imp fun _ _ hitem =>
          hitem.mono hadv.tick (Nat.le_refl _))
    case h_2 elf ctx' heq =>
      rw [heq] at hadv htick hok hload
      dsimp only
      split
      · obtain ⟨hrest, hsources⟩ := ih false (hload.refs.ask w.alloc)
        have hask : Advances w ctx' (ctx'.ask w.alloc).2 := .ask w ctx' _
        refine ⟨(hadv.trans hask).trans hrest, fun hall => ?_⟩
        obtain ⟨sources, rfl, hfiles, hfits, hrecorded⟩ := hsources hall
        obtain ⟨image, himage, hid, e', he', hsame⟩ := hok elf rfl
        have hlater := Nat.lt_of_lt_of_le htick (hask.trans hrest).tick
        refine ⟨src :: sources, rfl, ⟨⟨ctx.tick, hlater, rfl⟩,
          hfiles.mono (hadv.trans hask).debug.symm fun _ _ h => h⟩, fun halloc => ?_, ?_⟩
        · refine .cons (Source.Fits.advance ⟨rfl, rfl, ?_⟩ (hask.trans hrest)) (hfits halloc)
          exact ⟨image, himage, e', he', hsame.buildId.trans hid, (hsame.mapCtx map).symm⟩
        · refine .cons ⟨rfl, rfl, ?_⟩ (hrecorded.imp fun _ _ hitem =>
            hitem.mono (hadv.trans hask).tick (Nat.le_refl _))
          rintro _ ⟨⟩
          exact ⟨ctx.tick, _, image, Nat.le_refl _, hlater, himage, elf, hid, rfl⟩
      · have hask : Advances w ctx' (ctx'.ask w.alloc).2 := .ask w ctx' _
        exact ⟨(hadv.trans hask).trans (guPutElfCtx_advances w (hload.refs.ask w.alloc)), nofun⟩

/-- Dropping a list of records. -/
theorem cleanElfCtxs_advances (w : World P) {items : List (Interval (Option MapCtx))}
    (h : References Q (itemRefs items ++ held) ctx) :
    Advances w ctx (cleanElfCtxs w ctx items) := by
  induction items generalizing ctx with
  | nil => exact .refl ctx
  | cons item items ih =>
    simp only [cleanElfCtxs, List.foldl_cons]
    cases hitem : item.payload with
    | none =>
      refine ih ?_
      simpa only [itemRefs, List.filterMap_cons, hitem, Option.map_none] using h
    | some mapCtx =>
      have hput : References Q (mapCtx.elfCtx :: (itemRefs items ++ held)) ctx := by
        simpa only [itemRefs, List.filterMap_cons, hitem, Option.map_some, List.cons_append] using h
      exact (guPutElfCtx_advances w hput).trans (ih (hput.put w))

/-! ## Processes -/

private theorem initElfCtxList_advances (w : World P) (ctx : GuContext P)
    (items : List (Interval (Option MapCtx))) :
    Advances w ctx (initElfCtxList w ctx items).2.2 ∧
      ∀ list ∈ (initElfCtxList w ctx items).1, guIntervalArrayInit items = some list := by
  have hask : Advances w ctx (ctx.ask w.alloc).2 := .ask w ctx _
  unfold initElfCtxList
  dsimp only
  split
  · refine ⟨hask.trans (.ask w _ w.alloc), fun list hlist => ?_⟩
    split at hlist
    · exact hlist
    · cases hlist
  · exact ⟨hask, nofun⟩

/-- The jittered delay is between the two bounds. -/
theorem reloadDelay_bounds (x : Word) :
    let span := guPidMapsReloadMaxIntervalNs - guPidMapsReloadMinIntervalNs
    let delay := guPidMapsReloadMinIntervalNs + x % (span + 1#64)
    guPidMapsReloadMinIntervalNs ≤ delay ∧ delay ≤ guPidMapsReloadMaxIntervalNs := by
  have hmod : (x % 60000000001#64).toNat < 60000000001 := by
    rw [BitVec.toNat_umod]
    exact Nat.mod_lt _ (by decide)
  have hspan : guPidMapsReloadMaxIntervalNs - guPidMapsReloadMinIntervalNs + 1#64 =
      60000000001#64 := by decide
  dsimp only
  rw [hspan]
  simp only [guPidMapsReloadMinIntervalNs, guPidMapsReloadMaxIntervalNs, BitVec.le_def,
    BitVec.toNat_add, BitVec.toNat_ofNat]
  omega

/-- Scheduling reads the clock and writes the three fields of the schedule. -/
theorem guScheduleNextMapsReload_spec (w : World P) (ctx : GuContext P) (pidCtx : PerPidCtx) :
    Advances w ctx (guScheduleNextMapsReload w ctx pidCtx).2 ∧
      ctx.tick < (guScheduleNextMapsReload w ctx pidCtx).2.tick ∧
      ∃ rand delay, guPidMapsReloadMinIntervalNs ≤ delay ∧
        delay ≤ guPidMapsReloadMaxIntervalNs ∧
        (guScheduleNextMapsReload w ctx pidCtx).1 = { pidCtx with
          mapsReloadRandState := rand
          lastMapsLoadNs := w.now ctx.tick
          nextMapsReloadNs := w.now ctx.tick + delay } := by
  have hask : Advances w ctx (ctx.ask w.now).2 := .ask w ctx _
  have hadv : Advances w ctx (guScheduleNextMapsReload w ctx pidCtx).2 := by
    simp only [guScheduleNextMapsReload, guMapsReloadRandomU64]
    split
    · exact hask.trans (.ask w _ w.seed)
    · exact hask
  have htick : ctx.tick < (guScheduleNextMapsReload w ctx pidCtx).2.tick := by
    simp only [guScheduleNextMapsReload, guMapsReloadRandomU64]
    split
    · exact Nat.lt_succ_of_lt (Nat.lt_succ_self _)
    · exact Nat.lt_succ_self _
  exact ⟨hadv, htick, _, _, (reloadDelay_bounds _).1, (reloadDelay_bounds _).2, rfl⟩

/-- A load goes on with nothing lost, and its process was made from what it has read since `t`. -/
structure LoadAdvances (w : World P) (t : Nat) (ctx : GuContext P) (loaded : Option PerPidCtx)
    (ctx' : GuContext P) : Prop where
  advances : Advances w ctx ctx'
  loaded : ∀ pidCtx ∈ loaded,
    (∃ sources, LoadedFrom w ctx' pidCtx sources) ∧ pidCtx.ReadFrom w t ctx'.tick

private theorem LoadAdvances.failed {t : Nat} (h : Advances w ctx ctx') :
    LoadAdvances w t ctx none ctx' := by
  refine ⟨h, ?_⟩
  rintro _ ⟨⟩

private theorem loadPidMaps_advances (w : World P) (info : StackInfo) {maps : List MapsInfo}
    (h : References Q held ctx) {t : Nat} (ht : t < ctx.tick) (hmaps : w.maps t info.pid = maps) :
    LoadAdvances w t ctx (loadPidMaps w ctx info maps).1 (loadPidMaps w ctx info maps).2 := by
  subst hmaps
  let counted := ctx.count fun st => { st with pidCtxAllocCount := st.pidCtxAllocCount + 1 }
  have hcounted : Advances w ctx counted := .count w ctx ⟨rfl, rfl, rfl, rfl, rfl, rfl, rfl, rfl⟩
  have hrefs : References Q held counted := h.of_eq rfl rfl rfl ⟨rfl, rfl, rfl⟩
  have hload := hrefs.loadMaps w info.pid true (w.maps t info.pid)
  obtain ⟨hadv, hsources⟩ := loadMaps_advances w info.pid true _ hrefs
  unfold loadPidMaps
  dsimp only
  generalize loadMaps w info.pid true _ _ = loaded at hload hadv hsources ⊢
  split
  · rename_i hok
    obtain ⟨sources, hsource, hfiles, hfits, hrecorded⟩ := hsources hok
    obtain ⟨hinit, hlist⟩ := initElfCtxList_advances w loaded.ctx loaded.items
    split
    case h_1 items ctx' heq =>
      have hclean := (hload.refs.initElfCtxList w loaded.items).refs.perm
        ((initElfCtxList_refs w loaded.ctx loaded.items).1.symm.append_right held)
      rw [heq] at hinit hclean
      exact .failed (((hcounted.trans hadv).trans hinit).trans (cleanElfCtxs_advances w hclean))
    case h_2 list items ctx' heq =>
      rw [heq] at hinit hlist
      have hasked : Advances w ctx' (ctx'.ask fun t => w.comm t info.pid).2 := .ask w ctx' _
      obtain ⟨hsched, htick, rand, delay, hmin, hmax, heq⟩ := guScheduleNextMapsReload_spec w
        (ctx'.ask fun t => w.comm t info.pid).2
        (newPidCtx info loaded.golang list (ctx'.ask fun t => w.comm t info.pid).1)
      have hafter := (hinit.trans hasked).trans hsched
      have hwhole := (hcounted.trans hadv).trans hafter
      have hlater := Nat.lt_of_lt_of_le ht hwhole.tick
      refine ⟨hwhole, ?_⟩
      rw [heq]
      rintro _ ⟨⟩
      refine ⟨⟨sources, ⟨t, hlater, hsource.symm⟩, ?_, ?_, ⟨_, htick, rfl⟩,
        ⟨delay, hmin, hmax, rfl⟩⟩, hlater, loaded.items, list, rfl, hlist list rfl, ?_⟩
      · refine hfiles.mono (hadv.trans hafter).debug ?_
        rintro src path ⟨t, ht, hfile⟩
        exact ⟨t, Nat.lt_of_lt_of_le ht hafter.tick, hfile⟩
      · refine ⟨loaded.items, list, rfl, hlist list rfl, fun halloc => ?_⟩
        exact (hfits halloc).imp fun _ _ hfit => hfit.advance hafter
      · exact hrecorded.imp fun _ _ hitem => hitem.mono ht.le hafter.tick
  · exact .failed ((hcounted.trans hadv).trans (cleanElfCtxs_advances w hload.refs))

/-- `gu_load_pid` loses no ELF entry. -/
theorem guLoadPid_advances (w : World P) (info : StackInfo) (h : References Q held ctx)
    (hnew : ctx.pid info.pid = none) :
    LoadAdvances w ctx.tick ctx (guLoadPid w ctx info).1 (guLoadPid w ctx info).2 := by
  simp only [guLoadPid, hnew]
  have hasked := h.ask fun t => w.maps t info.pid
  have hadv : Advances w ctx (ctx.ask fun t => w.maps t info.pid).2 := .ask w ctx _
  have hadv' := hadv.trans (.ask w _ w.alloc)
  have hadv'' := hadv'.trans (.ask w _ w.alloc)
  split
  · exact .failed hadv
  split
  · split
    · obtain ⟨hload, hfrom⟩ := loadPidMaps_advances w info
        ((hasked.ask w.alloc).ask w.alloc)
        (Nat.lt_succ_of_lt (Nat.lt_succ_of_lt (Nat.lt_succ_self ctx.tick))) rfl
      exact ⟨hadv''.trans hload, hfrom⟩
    · exact .failed hadv''
  · exact .failed hadv'

end Gunwinder
