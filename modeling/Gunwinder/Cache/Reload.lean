import Gunwinder.Cache.Traces

/-!
# Reloading a process whose files are unchanged

A reload drops every reference of the process and loads it anew. When the mappings and the files
are what they were, each mapping finds the ELF entry it had before, and the tables end as they
began. A mapping whose debug file cannot be read has no record, and gets one in a reload when the
same build has been loaded from elsewhere in the meantime.
-/

namespace Gunwinder

open Gunwinder.Core

variable {H P : Type} {ctx ctx' ctx'' : GuContext P} {w : World P}
  {record : List (CacheEvent P)}

/-! ## What the records were made from -/

/-- The mappings and files of the last load or reload of a process. -/
def loadedWith (record : List (CacheEvent P)) (pid : Int) : Option (List (Source P)) :=
  record.foldl (CacheEvent.reads pid) none

private theorem loadedWith_snoc (record : List (CacheEvent P)) (event : CacheEvent P) (pid : Int) :
    loadedWith (record ++ [event]) pid = event.reads pid (loadedWith record pid) := by
  rw [loadedWith, List.foldl_append]
  rfl

/-- The records of a process and the mappings and files they were made from, which the world
has shown before. -/
structure MadeFrom (w : World P) (ctx : GuContext P) (pidCtx : PerPidCtx)
    (sources : List (Source P)) (items : List (Interval (Option MapCtx))) : Prop where
  maps : ∃ t < ctx.tick, w.maps t pidCtx.pid = sources.map Source.map
  files : eachFile ctx
    (fun src path => ∃ t < ctx.tick, w.elf t pidCtx.pid src.map.path path = src.file) true sources
  list : ∃ list, pidCtx.elfCtxList = some list ∧ guIntervalArrayInit items = some list
  fits : (∀ t, w.alloc t = true) → List.Forall₂ (Source.Fits ctx) sources items

variable {sources : List (Source P)}

private theorem LoadedFrom.madeFrom {pidCtx : PerPidCtx} (h : LoadedFrom w ctx pidCtx sources) :
    ∃ items, MadeFrom w ctx pidCtx sources items := by
  obtain ⟨items, list, hlist, hinit, hfits⟩ := h.items
  exact ⟨items, h.maps, h.files, ⟨list, hlist, hinit⟩, hfits⟩

/-- What a record reads of an ELF entry. -/
def PerElfCtx.file (e : PerElfCtx P) : Nat × List Byte × Word × List ExecRange :=
  (e.id, e.buildId, e.execVirtAddr, e.execRanges)

variable {e : PerElfCtx P}

private theorem PerElfCtx.SameFile.of_file {e' : PerElfCtx P} (h : e'.file = e.file) :
    e.SameFile e' := by
  simp only [PerElfCtx.file, Prod.mk.injEq] at h
  exact ⟨h.1, h.2.1, h.2.2.1, h.2.2.2⟩

/-- An entry is found again in a table of the same files. -/
theorem GuContext.elf_of_file {id : Nat} (he : ctx.elf id = some e)
    (hmap : ctx'.elfCtxList.map PerElfCtx.file = ctx.elfCtxList.map PerElfCtx.file) :
    ∃ e', ctx'.elf id = some e' ∧ e.SameFile e' := by
  have hfound : (ctx'.elf id).map PerElfCtx.file = (ctx.elf id).map PerElfCtx.file :=
    lookup_congr Prod.fst (fun _ => rfl) hmap
  rw [he, Option.map_some] at hfound
  obtain ⟨e', he', hfile⟩ := Option.map_eq_some_iff.mp hfound
  exact ⟨e', he', .of_file hfile⟩

/-- A sweep keeps an entry that is not retired. -/
theorem guRetiredElfSweep_elf {id : Nat} (hids : (ctx.elfCtxList.map PerElfCtx.id).Nodup)
    (he : ctx.elf id = some e) (hactive : e.retired = false) (now : Word) :
    (guRetiredElfSweep ctx now).elf id = some e := by
  obtain ⟨hmem, rfl⟩ := mem_of_lookup he
  have hkept := guRetiredElfSweep_keeps
    (I := fun ctx => (ctx.elfCtxList.map PerElfCtx.id).Nodup ∧ e ∈ ctx.elfCtxList)
    (fun ctx b hctx hb hretired => ?_) (fun _ _ hctx => hctx) hids ⟨hids, hmem⟩ now
  · exact lookup_of_mem hkept.1 hkept.2
  · rw [clearElfCtx_elfCtxList hretired]
    refine ⟨nodup_remove hctx.1, mem_remove.mpr ⟨hctx.2, fun hsame => ?_⟩⟩
    have hfound := (hsame ▸ lookup_of_mem hctx.1 hctx.2).symm.trans (lookup_of_mem hctx.1 hb)
    rw [Option.some.inj hfound, hretired] at hactive
    cases hactive

variable {event : CacheEvent P}

/-- A step keeps the files of the entries that are in use. -/
theorem CacheStep.elfs (hstep : CacheStep w ctx event ctx') (hdistinct : ctx.DistinctElfs) :
    ∀ id ∈ ctx.refs, ∀ e, ctx.elf id = some e → ∃ e', ctx'.elf id = some e' ∧ e.SameFile e' := by
  intro id hid e he
  have hfixed : PerElfCtx.Fixed (PerElfCtx.file (P := P)) := fun _ _ _ _ => rfl
  cases hstep with
  | cacheRow id cache => exact ctx.elf_of_file he (map_update fun _ => rfl)
  | take e' _ => exact ctx.elf_of_file he (reuseElf_map hfixed ctx e')
  | put e' _ _ => exact ctx.elf_of_file he (guPutElfCtx_map hfixed w ctx e'.id)
  | create image hnew => exact ⟨e, lookup_append_of_some he, .refl e⟩
  | sweep now hused =>
    exact ⟨e, guRetiredElfSweep_elf hdistinct.ids he (hused id hid e he) now, .refl e⟩
  | _ => exact ⟨e, he, .refl e⟩

variable {items : List (Interval (Option MapCtx))}

/-- The records stay made from their sources while their ELF entries keep their files. -/
theorem MadeFrom.keep {p p' : PerPidCtx} (h : MadeFrom w ctx p sources items)
    (hpid : p'.pid = p.pid) (hlist : p'.elfCtxList = p.elfCtxList) (htick : ctx.tick ≤ ctx'.tick)
    (hdebug : ctx'.debug = ctx.debug) (helfs : ∀ id ∈ p.refs, ∀ e, ctx.elf id = some e →
      ∃ e', ctx'.elf id = some e' ∧ e.SameFile e') : MadeFrom w ctx' p' sources items := by
  obtain ⟨⟨t, ht, hmaps⟩, hfiles, ⟨list, hsome, hinit⟩, hfits⟩ := h
  refine ⟨⟨t, Nat.lt_of_lt_of_le ht htick, hpid ▸ hmaps⟩, ?_, ⟨list, hlist.trans hsome, hinit⟩, ?_⟩
  · refine hfiles.mono hdebug ?_
    rintro src path ⟨t, ht, hfile⟩
    exact ⟨t, Nat.lt_of_lt_of_le ht htick, hpid ▸ hfile⟩
  · intro halloc
    have hrefs : ∀ item ∈ items, ∀ mapCtx ∈ item.payload, mapCtx.elfCtx ∈ p.refs := by
      intro item hitem mapCtx hmapCtx
      have hmem : mapCtx.elfCtx ∈ itemRefs items := List.mem_filterMap.mpr
        ⟨item, hitem, by rw [Option.mem_def.mp hmapCtx, Option.map_some]⟩
      have hperm := (itemRefs_guIntervalArrayInit hinit).mem_iff.mpr hmem
      rwa [PerPidCtx.refs, PerPidCtx.items, hsome]
    have hall := hfits halloc
    clear hfits hinit hfiles hmaps
    induction hall with
    | nil => exact .nil
    | cons hfit _ ih =>
      refine .cons (hfit.of_elfs fun mapCtx hmapCtx => ?_) (ih fun item hitem => ?_)
      · exact helfs _ (hrefs _ List.mem_cons_self mapCtx hmapCtx)
      · exact hrefs item (List.mem_cons_of_mem _ hitem)

/-- Every process in the table has records that were made from the sources of its last load. -/
structure Sourced (w : World P) (record : List (CacheEvent P)) (ctx : GuContext P) : Prop where
  distinct : ctx.DistinctElfs
  made : ∀ p ∈ ctx.pidCtxList, ∃ sources items, loadedWith record p.pid = some sources ∧
    MadeFrom w ctx p sources items

/-- An event keeps the sources of the entries. -/
theorem Sourced.step (h : Sourced w record ctx) (hstep : CacheStep w ctx event ctx') :
    Sourced w (record ++ [event]) ctx' := by
  refine ⟨h.distinct.step hstep, fun p' hp' => ?_⟩
  obtain ⟨htick, hdebug⟩ := hstep.settings
  rw [loadedWith_snoc]
  rcases hstep.entries p' hp' with ⟨p, hp, hpid, hlist, hreads⟩ | ⟨sources, rfl, hfrom⟩
  · obtain ⟨sources, items, hloaded, hmade⟩ := h.made p hp
    rw [hreads, hpid]
    refine ⟨sources, items, hloaded, hmade.keep hpid hlist htick hdebug fun id hid => ?_⟩
    exact hstep.elfs h.distinct id (List.mem_flatMap.mpr ⟨p, hp, hid⟩)
  · obtain ⟨items, hmade⟩ := hfrom.madeFrom
    refine ⟨sources, items, if_pos rfl, hmade.keep rfl rfl htick hdebug fun id _ e he => ?_⟩
    cases hstep
    exact ⟨e, he, .refl e⟩

/-- Every entry of a run has its sources in the record. -/
theorem Recorded.sourced (h : Recorded w record ctx) : Sourced w record ctx :=
  h.history (Sourced w) (fun _ _ _ => ⟨.init _ _ _, nofun⟩) fun _ _ _ _ hctx => hctx.step

/-! ## Loading the same sources again -/

/-- An entry without its counter, its mark and its deadline. -/
def PerElfCtx.still (e : PerElfCtx P) : PerElfCtx P :=
  { e with refcnt := 0, retired := false, retireDeadlineNs := 0#64 }

/-- The same ELF entries up to counters, marks and deadlines, at a later time. -/
structure SameElfs (ctx ctx' : GuContext P) : Prop where
  elfs : ctx'.elfCtxList.map PerElfCtx.still = ctx.elfCtxList.map PerElfCtx.still
  debug : ctx'.debug = ctx.debug
  tick : ctx.tick ≤ ctx'.tick

namespace SameElfs

private theorem refl (ctx : GuContext P) : SameElfs ctx ctx := ⟨rfl, rfl, Nat.le_refl _⟩

private theorem trans (h : SameElfs ctx ctx') (h' : SameElfs ctx' ctx'') : SameElfs ctx ctx'' :=
  ⟨h'.elfs.trans h.elfs, h'.debug.trans h.debug, h.tick.trans h'.tick⟩

private theorem ask {α : Type} (ctx : GuContext P) (question : Nat → α) :
    SameElfs ctx (ctx.ask question).2 := ⟨rfl, rfl, Nat.le_succ _⟩

private theorem count (ctx : GuContext P) (f : Statistics → Statistics) :
    SameElfs ctx (ctx.count f) :=
  ⟨rfl, rfl, Nat.le_refl _⟩

private theorem still_fixed : PerElfCtx.Fixed (PerElfCtx.still (P := P)) := fun _ _ _ _ => rfl

private theorem put (w : World P) (ctx : GuContext P) (id : Nat) :
    SameElfs ctx (guPutElfCtx w ctx id) := by
  refine ⟨guPutElfCtx_map still_fixed w ctx id,
    congrArg ContextFrame.debug (guPutElfCtx_frame w ctx id), ?_⟩
  simp only [guPutElfCtx, guRetireElfCtx]
  repeat' split
  all_goals first | exact Nat.le_refl _ | exact Nat.le_succ _

private theorem take (ctx : GuContext P) (e : PerElfCtx P) : SameElfs ctx (reuseElf ctx e) := by
  refine ⟨reuseElf_map still_fixed ctx e, congrArg ContextFrame.debug (reuseElf_frame ctx e), ?_⟩
  unfold reuseElf guUnretireElfCtx
  cases e.retired <;> exact Nat.le_refl _

private theorem clean (w : World P) (ctx : GuContext P) (items : List (Interval (Option MapCtx))) :
    SameElfs ctx (cleanElfCtxs w ctx items) := by
  induction items generalizing ctx with
  | nil => exact .refl ctx
  | cons item items ih =>
    simp only [cleanElfCtxs, List.foldl_cons]
    cases item.payload with
    | none => exact ih ctx
    | some mapCtx => exact (put w ctx mapCtx.elfCtx).trans (ih _)

private theorem clear (w : World P) (ctx : GuContext P) (pidCtx : PerPidCtx) :
    SameElfs ctx (guClearPidCtx w ctx pidCtx) := by
  have hclean := clean w ({ ctx with
    pidCtxList := remove PerPidCtx.pid ctx.pidCtxList pidCtx.pid }.count
      fun st => { st with pidCtxCount := wrapSub st.pidCtxCount 1 }) pidCtx.items
  exact ⟨hclean.elfs, hclean.debug, hclean.tick⟩

/-- A build id is found in both tables or in none. -/
theorem findBuildId (h : SameElfs ctx ctx') (buildId : List Byte) :
    (ctx'.findBuildId buildId).map PerElfCtx.still =
      (ctx.findBuildId buildId).map PerElfCtx.still :=
  lookup_congr PerElfCtx.buildId (fun _ => rfl) h.elfs

end SameElfs

private theorem PerElfCtx.SameFile.of_still {e' : PerElfCtx P} (h : e'.still = e.still) :
    e.SameFile e' :=
  .of_file (show e'.still.file = e.still.file by rw [h])

/-- The file of a mapping without a record is not in the table by another name. -/
def Source.Unshared (ctx : GuContext P) (src : Source P) (item : Interval (Option MapCtx)) : Prop :=
  item.payload = none → ∀ image ∈ src.file, ctx.findBuildId image.buildId = none

/-- When every debug file can be read, each mapping with a file has a record. -/
theorem unshared_of_scanned (hfits : List.Forall₂ (Source.Fits ctx) sources items)
    (hscanned : ∀ src ∈ sources, ∀ image ∈ src.file, image.debugScanned = true) :
    List.Forall₂ (Source.Unshared ctx) sources items := by
  induction hfits with
  | nil => exact .nil
  | @cons src item _ _ hfit _ ih =>
    refine .cons (fun hnone image himage => ?_) (ih fun src hsrc => hscanned src (.tail _ hsrc))
    obtain ⟨-, -, hpayload⟩ := hfit
    rw [hnone] at hpayload
    have hread := hscanned src (.head _) image himage
    rw [hpayload image himage] at hread
    cases hread

section Again

variable {base : GuContext P} {src : Source P} {item : Interval (Option MapCtx)}

/-- A mapping without a record gets none again. -/
theorem loadElf_again_none (hsame : SameElfs base ctx) (hfits : src.Fits base item)
    (hunshared : src.Unshared base item) (hnone : item.payload = none) {path : String} {pid : Int}
    {openPath : Option OpenPath} (hfile : w.elf ctx.tick pid path openPath = src.file) :
    (loadElf w ctx path pid openPath).1 = none ∧
      SameElfs base (loadElf w ctx path pid openPath).2 := by
  obtain ⟨-, -, hpayload⟩ := hfits
  rw [hnone] at hpayload
  have hasked := hsame.trans (.ask ctx fun t => w.elf t pid path openPath)
  unfold loadElf
  simp only [GuContext.ask, hfile]
  cases himage : src.file with
  | none => exact ⟨rfl, hasked⟩
  | some image =>
    have hfound := hasked.findBuildId image.buildId
    rw [hunshared hnone image himage, Option.map_none, Option.map_eq_none_iff] at hfound
    have hscanned := hpayload image himage
    simp only [GuContext.ask] at hfound hasked ⊢
    simp only [hfound, addElf, hscanned, Bool.false_eq_true, if_false]
    exact ⟨trivial, hasked.trans (.count _ _)⟩

/-- A mapping with a record finds the entry of its record again. -/
theorem loadElf_again_some (hdistinct : base.DistinctElfs) (hsame : SameElfs base ctx)
    (hfits : src.Fits base item) {mapCtx : MapCtx} (hsome : item.payload = some mapCtx)
    {path : String} {pid : Int} {openPath : Option OpenPath}
    (hfile : w.elf ctx.tick pid path openPath = src.file) :
    ∃ e, (loadElf w ctx path pid openPath).1 = some e ∧
      mapCtx = guElfMapCtx e (guResolveMapExecVirtAddr e src.map) ∧
      SameElfs base (loadElf w ctx path pid openPath).2 := by
  obtain ⟨-, -, hpayload⟩ := hfits
  rw [hsome] at hpayload
  obtain ⟨image, himage, old, hold, hid, hmap⟩ := hpayload
  have hasked := hsame.trans (.ask ctx fun t => w.elf t pid path openPath)
  have hfound := hasked.findBuildId image.buildId
  have holdBuild : base.findBuildId image.buildId = some old := by
    rw [← hid]
    exact lookup_of_mem hdistinct.builds (mem_of_lookup hold).1
  rw [holdBuild, Option.map_some] at hfound
  obtain ⟨e, he, hstill⟩ := Option.map_eq_some_iff.mp hfound
  have hload : loadElf w ctx path pid openPath =
      (some e, reuseElf (ctx.ask fun t => w.elf t pid path openPath).2 e) := by
    unfold loadElf
    simp only [GuContext.ask, hfile, Option.mem_def.mp himage]
    simp only [GuContext.ask] at he
    simp only [he]
  rw [hload]
  exact ⟨e, rfl, hmap.trans ((PerElfCtx.SameFile.of_still hstill).mapCtx src.map).symm,
    hasked.trans (.take _ e)⟩

/-- The mapping loop fills the same records from the same sources. -/
theorem loadMaps_again (halloc : ∀ t, w.alloc t = true) (hdistinct : base.DistinctElfs) {pid : Int}
    {first : Bool} (hfits : List.Forall₂ (Source.Fits base) sources items)
    (hunshared : List.Forall₂ (Source.Unshared base) sources items)
    (hfiles : eachFile base (fun src path => ∀ t, base.tick ≤ t →
      w.elf t pid src.map.path path = src.file) first sources) (hsame : SameElfs base ctx) :
    (loadMaps w pid first (sources.map Source.map) ctx).ok = true ∧
      (loadMaps w pid first (sources.map Source.map) ctx).items = items ∧
      SameElfs base (loadMaps w pid first (sources.map Source.map) ctx).ctx := by
  induction hfits generalizing first ctx with
  | nil => exact ⟨rfl, rfl, hsame⟩
  | @cons src item sources items hfit _ ih =>
    obtain ⟨hhead, hfiles⟩ := hfiles
    cases hunshared with | cons hunshared hrest =>
    have hpath : livePath ctx first src.map = livePath base first src.map := by
      rw [livePath, livePath, hsame.debug]
    have hfile := hhead ctx.tick hsame.tick
    rw [← hpath] at hfile
    have hitem : item = ⟨src.map.start, src.map.fin, item.payload⟩ := by rw [← hfit.1, ← hfit.2.1]
    rw [List.map_cons, loadMaps]
    cases hpayload : item.payload with
    | none =>
      obtain ⟨hnone, hafter⟩ := loadElf_again_none hsame hfit hunshared hpayload hfile
      rw [show loadElf w ctx src.map.path pid (livePath ctx first src.map) = (none, _) from
        Prod.ext hnone rfl]
      obtain ⟨hok, hitems, hlast⟩ := ih hrest hfiles hafter
      dsimp only
      rw [hitems, hitem, hpayload]
      exact ⟨hok, rfl, hlast⟩
    | some mapCtx =>
      obtain ⟨e, hsome, hmap, hafter⟩ := loadElf_again_some hdistinct hsame hfit hpayload hfile
      rw [show loadElf w ctx src.map.path pid (livePath ctx first src.map) = (some e, _) from
        Prod.ext hsome rfl]
      obtain ⟨hok, hitems, hlast⟩ := ih hrest hfiles (hafter.trans (.ask _ w.alloc))
      have hgranted : ((loadElf w ctx src.map.path pid (livePath ctx first src.map)).2.ask
        w.alloc).1 = true := halloc _
      dsimp only
      rw [if_pos hgranted]
      dsimp only
      rw [hitems, hitem, hpayload, ← hmap]
      exact ⟨hok, rfl, hlast⟩

/-- Scheduling touches no ELF entry. -/
theorem SameElfs.schedule (w : World P) (ctx : GuContext P) (pidCtx : PerPidCtx) :
    SameElfs ctx (guScheduleNextMapsReload w ctx pidCtx).2 := by
  simp only [guScheduleNextMapsReload, guMapsReloadRandomU64]
  split
  · exact (SameElfs.ask ctx w.now).trans (.ask _ w.seed)
  · exact .ask ctx w.now

variable {info : StackInfo} {sources : List (Source P)}
  {items : List (Interval (Option MapCtx))} {list : IntervalArray (Option MapCtx)}
  (halloc : ∀ t, w.alloc t = true) (hdistinct : base.DistinctElfs)
  (hfits : List.Forall₂ (Source.Fits base) sources items)
  (hunshared : List.Forall₂ (Source.Unshared base) sources items)
  (hfiles : eachFile base (fun src path => ∀ t, base.tick ≤ t →
    w.elf t info.pid src.map.path path = src.file) true sources)
  (hlist : guIntervalArrayInit items = some list)

include halloc hdistinct hfits hunshared hfiles hlist

private theorem loadPidMaps_again (hsame : SameElfs base ctx) :
    ∃ newCtx, (loadPidMaps w ctx info (sources.map Source.map)).1 = some newCtx ∧
      newCtx.elfCtxList = some list ∧
      SameElfs base (loadPidMaps w ctx info (sources.map Source.map)).2 := by
  obtain ⟨hok, hitems, hloaded⟩ := loadMaps_again halloc hdistinct hfits hunshared hfiles
    (hsame.trans (.count ctx fun st => { st with pidCtxAllocCount := st.pidCtxAllocCount + 1 }))
  unfold loadPidMaps
  dsimp only
  generalize loadMaps w info.pid true (sources.map Source.map) _ = loaded at hok hitems hloaded ⊢
  let filled := { loaded.ctx with tick := loaded.ctx.tick + 1 + 1 }
  let named := filled.ask fun t => w.comm t info.pid
  have hinit : initElfCtxList w loaded.ctx loaded.items =
      (some list, fillEnds (items.insertionSort fun a b => a.start ≤ b.start), filled) := by
    simp only [initElfCtxList, GuContext.ask, halloc, if_true, hitems, hlist, filled]
  have hnamed : SameElfs loaded.ctx named.2 := by
    refine ⟨rfl, rfl, ?_⟩
    dsimp only [named, filled, GuContext.ask]
    omega
  rw [if_pos hok, hinit]
  exact ⟨_, rfl, rfl, (hloaded.trans hnamed).trans
    (SameElfs.schedule w named.2 (newPidCtx info loaded.golang list named.1))⟩

/-- `gu_load_pid` loads the same records again. -/
theorem guLoadPid_again (hsame : SameElfs base ctx) (hnew : ctx.pid info.pid = none)
    (hmaps : ∀ t, base.tick ≤ t → w.maps t info.pid = sources.map Source.map) :
    ∃ newCtx, (guLoadPid w ctx info).1 = some newCtx ∧ newCtx.elfCtxList = some list ∧
      SameElfs base (guLoadPid w ctx info).2 := by
  have hsome : (sources.map Source.map).isEmpty = false := by
    cases hfits with
    | nil => cases hlist
    | cons => rfl
  have hasked : SameElfs ctx { ctx with tick := ctx.tick + 1 + 1 + 1 } :=
    ⟨rfl, rfl, by dsimp only; omega⟩
  simp only [guLoadPid, hnew, GuContext.ask, hmaps ctx.tick hsame.tick, hsome, halloc,
    Bool.false_eq_true, if_false, if_true]
  exact loadPidMaps_again halloc hdistinct hfits hunshared hfiles hlist (hsame.trans hasked)

end Again

/-- A reload with the same sources gives the same records, and the ELF entries up to their
counters. -/
theorem guReloadPidCtx_again (hdistinct : ctx.DistinctElfs) (halloc : ∀ t, w.alloc t = true)
    {pidCtx : PerPidCtx} {info : StackInfo} (hfound : ctx.pid info.pid = some pidCtx)
    (hmade : MadeFrom w ctx pidCtx sources items)
    (hunshared : List.Forall₂ (Source.Unshared ctx) sources items)
    (hmaps : ∀ t, ctx.tick ≤ t → w.maps t info.pid = sources.map Source.map)
    (hfiles : eachFile ctx (fun src path => ∀ t, ctx.tick ≤ t →
      w.elf t info.pid src.map.path path = src.file) true sources) :
    ∃ newCtx, (guReloadPidCtx w ctx pidCtx info).1 = some newCtx ∧
      newCtx.elfCtxList = pidCtx.elfCtxList ∧ newCtx.preload = pidCtx.preload ∧
      newCtx.privateInfo = pidCtx.privateInfo ∧
      (guReloadPidCtx w ctx pidCtx info).2.2.pidCtxList =
        remove PerPidCtx.pid ctx.pidCtxList info.pid ++ [newCtx] ∧
      SameElfs ctx (guReloadPidCtx w ctx pidCtx info).2.2 := by
  obtain ⟨list, hsome, hlist⟩ := hmade.list
  have hpid : pidCtx.pid = info.pid := (mem_of_lookup hfound).2
  have hprivate : (copyPrivate w ctx pidCtx).1 = pidCtx.privateInfo := by
    unfold copyPrivate
    split
    · rename_i hnone
      exact hnone.symm
    · rename_i bytes hbytes
      exact (if_pos (halloc _)).trans hbytes.symm
  have hcopied : SameElfs ctx (copyPrivate w ctx pidCtx).2 ∧
      (copyPrivate w ctx pidCtx).2.pidCtxList = ctx.pidCtxList := by
    unfold copyPrivate
    split
    · exact ⟨.refl ctx, rfl⟩
    · exact ⟨.ask ctx w.alloc, rfl⟩
  obtain ⟨hcopied, hpids⟩ := hcopied
  let notified := (copyPrivate w ctx pidCtx).2.notify pidCtx .destroy
  have hnotified : SameElfs ctx notified := ⟨hcopied.elfs, hcopied.debug, hcopied.tick⟩
  have hcleared := hnotified.trans (.clear w notified pidCtx)
  have hgone : (guClearPidCtx w notified pidCtx).pid info.pid = none :=
    hpid ▸ guClearPidCtx_pid w notified pidCtx
  obtain ⟨newCtx, hnew, hsame, hloaded⟩ := guLoadPid_again halloc hdistinct (hmade.fits halloc)
    hunshared hfiles hlist hcleared hgone hmaps
  have hentries : (guLoadPid w (guClearPidCtx w notified pidCtx) info).2.pidCtxList =
      remove PerPidCtx.pid ctx.pidCtxList info.pid := by
    refine (congrArg ContextFrame.pidCtxList (guLoadPid_frame w _ info)).trans ?_
    refine (guClearPidCtx_pidCtxList w notified pidCtx).trans ?_
    rw [hpid, ← hpids]
    rfl
  have hreload : guReloadPidCtx w ctx pidCtx info =
      (some { newCtx with preload := pidCtx.preload, privateInfo := pidCtx.privateInfo },
        hintGolang newCtx info, addPidCtx (guLoadPid w (guClearPidCtx w notified pidCtx) info).2
          { newCtx with preload := pidCtx.preload, privateInfo := pidCtx.privateInfo }) := by
    simp only [guReloadPidCtx, destroyPidCtx]
    rw [show guLoadPid w (guClearPidCtx w notified pidCtx) info = (some newCtx, _) from
      Prod.ext hnew rfl, hprivate]
    rfl
  rw [hreload]
  refine ⟨_, rfl, hsame.trans hsome.symm, rfl, rfl, ?_, hloaded.trans ⟨rfl, rfl, Nat.le_refl _⟩⟩
  rw [← hentries]
  rfl

/-- The counters and marks of the ELF entries follow from the references. -/
theorem References.entries_eq {Q : CfiProperty P} (h : References Q [] ctx)
    (h' : References Q [] ctx') (hsame : SameElfs ctx ctx')
    (hrefs : ∀ id, ctx'.refs.count id = ctx.refs.count id) :
    (ctx'.elfCtxList.map fun e => { e with retireDeadlineNs := 0#64 }) =
      ctx.elfCtxList.map fun e => { e with retireDeadlineNs := 0#64 } := by
  -- an entry is its still part with the number of its uses
  have hview : ∀ {ctx : GuContext P}, References Q [] ctx →
      (ctx.elfCtxList.map fun e => { e with retireDeadlineNs := 0#64 }) =
        (ctx.elfCtxList.map PerElfCtx.still).map fun e => { e with
          refcnt := ctx.refs.count e.id, retired := ctx.refs.count e.id == 0 } := by
    intro ctx h
    rw [List.map_map]
    refine List.map_congr_left fun e he => ?_
    have hexact := h.counted.exact e he
    have hidle := h.counted.idle_iff e he
    simp only [GuContext.uses, List.count_nil, Nat.add_zero] at hexact
    have hretired : e.retired = (e.refcnt == 0) := by rw [Bool.eq_iff_iff, hidle, beq_iff_eq]
    simp only [Function.comp_apply, PerElfCtx.still, ← hexact, ← hretired]
  rw [hview h, hview h', hsame.elfs]
  simp only [hrefs]

/-- A reload of a process whose mappings and files are those of its last load succeeds and is
invisible, provided no mapping without a record has a file that was loaded by another name. -/
theorem reload_unchanged_invisible {S : SavedStates H P} (halloc : ∀ t, w.alloc t = true)
    (h : ReachableIn w S ctx) :
    (∃ record, Recorded w record ctx) ∧
    ∀ record, Recorded w record ctx → ∀ pidCtx info, ctx.pid info.pid = some pidCtx →
      ∃ sources items, loadedWith record info.pid = some sources ∧
        MadeFrom w ctx pidCtx sources items ∧
        ((∀ t, ctx.tick ≤ t → w.maps t info.pid = sources.map Source.map) →
          eachFile ctx (fun src path => ∀ t, ctx.tick ≤ t →
            w.elf t info.pid src.map.path path = src.file) true sources →
          List.Forall₂ (Source.Unshared ctx) sources items →
          ∃ newCtx info' ctx', guReloadPidCtx w ctx pidCtx info = (some newCtx, info', ctx') ∧
            ctx'.pid info.pid = some newCtx ∧
            (∀ pc, newCtx.search pc = pidCtx.search pc) ∧
            (ctx'.elfCtxList.map fun e => { e with retireDeadlineNs := 0#64 }) =
              (ctx.elfCtxList.map fun e => { e with retireDeadlineNs := 0#64 }) ∧
            newCtx.privateInfo = pidCtx.privateInfo ∧ newCtx.preload = pidCtx.preload ∧
            ∀ pid, pid ≠ info.pid → ctx'.pid pid = ctx.pid pid) := by
  refine ⟨h.recorded, fun record hrecord pidCtx info hfound => ?_⟩
  have hrefs := h.reachable.references CfiProperty.any_kept
  have hsourced := hrecord.sourced
  obtain ⟨hmem, hpid⟩ := mem_of_lookup hfound
  obtain ⟨sources, items, hloaded, hmade⟩ := hsourced.made pidCtx hmem
  refine ⟨sources, items, hpid ▸ hloaded, hmade, fun hmaps hfiles hunshared => ?_⟩
  obtain ⟨newCtx, hnew, hlist, hpreload, hprivate, hentries, hsame⟩ :=
    guReloadPidCtx_again hsourced.distinct halloc hfound hmade hunshared hmaps hfiles
  obtain ⟨hrefs', -, hin⟩ := hrefs.reload w (hpid ▸ hfound) rfl hpid
  obtain ⟨hpid', hfound'⟩ := hin newCtx hnew
  refine ⟨newCtx, _, _, Prod.ext hnew rfl, hpid' ▸ hfound', fun pc => ?_, ?_, hprivate, hpreload,
    fun pid hne => ?_⟩
  · rw [PerPidCtx.search, PerPidCtx.search, hlist]
  · refine hrefs.entries_eq hrefs' hsame fun id => ?_
    have hsum := sum_remove hrefs.pids hfound fun p => p.refs.count id
    rw [count_refs, count_refs, hentries, List.map_append, List.sum_append, List.map_singleton,
      List.sum_singleton]
    rw [show newCtx.refs = pidCtx.refs by rw [PerPidCtx.refs, PerPidCtx.refs, PerPidCtx.items,
      PerPidCtx.items, hlist]]
    exact hsum
  · rw [GuContext.pid, hentries, lookup_append_of_ne (hpid' ▸ hne.symm), lookup_remove_of_ne hne]
    rfl

private theorem eachFile.forall {R : Source P → Option OpenPath → Prop} {Q : Source P → Prop}
    {first : Bool} (h : eachFile ctx R first sources) (hR : ∀ src path, R src path → Q src) :
    ∀ src ∈ sources, Q src := by
  induction sources generalizing first with
  | nil => exact nofun
  | cons src rest ih =>
    obtain ⟨hhead, hrest⟩ := h
    exact List.forall_mem_cons.mpr ⟨hR _ _ hhead, ih hrest⟩

/-- A process that maps one file twice. -/
def mappedContext : GuContext (List CalcRules) :=
  (guPreloadPidDebugInfo twiceMapped (guInit false false false) 11).2

/-- A reload of two mappings of one file. -/
theorem reload_unchanged_invisible_twice : ∃ pidCtx newCtx info ctx',
    mappedContext.pid 11 = some pidCtx ∧
    guReloadPidCtx twiceMapped mappedContext pidCtx (preloadInfo 11 9#64) =
      (some newCtx, info, ctx') ∧
    (∀ pc, newCtx.search pc = pidCtx.search pc) ∧
    (ctx'.elfCtxList.map fun e => { e with retireDeadlineNs := 0#64 }) =
      mappedContext.elfCtxList.map fun e => { e with retireDeadlineNs := 0#64 } := by
  have hreach : ReachableIn twiceMapped savedValues mappedContext :=
    .step (.init false false false) (.preload _ 11)
  obtain ⟨⟨record, hrecord⟩, hreload⟩ := reload_unchanged_invisible (fun _ => rfl) hreach
  have hsome : (mappedContext.pid 11).isSome = true := by decide +kernel
  obtain ⟨pidCtx, hpid⟩ := Option.isSome_iff_exists.mp hsome
  obtain ⟨sources, items, -, hmade, hsame⟩ :=
    hreload record hrecord pidCtx (preloadInfo 11 9#64) hpid
  have hname : pidCtx.pid = 11 := (mem_of_lookup hpid).2
  -- the world gives the same answers at any time
  have hmaps : ∀ t, mappedContext.tick ≤ t → twiceMapped.maps t 11 = sources.map Source.map := by
    obtain ⟨t, -, hmaps⟩ := hmade.maps
    rw [hname] at hmaps
    exact fun _ _ => hmaps
  have hfiles : eachFile mappedContext (fun src path => ∀ t, mappedContext.tick ≤ t →
      twiceMapped.elf t 11 src.map.path path = src.file) true sources := by
    refine hmade.files.mono rfl ?_
    rintro src path ⟨t, -, hfile⟩
    rw [hname] at hfile
    exact fun _ _ => hfile
  have hscanned : ∀ src ∈ sources, ∀ image ∈ src.file, image.debugScanned = true := by
    refine hmade.files.forall ?_
    rintro src path ⟨t, -, hfile⟩ image himage
    cases hfile.trans himage
    rfl
  obtain ⟨newCtx, info, ctx', hresult, -, hsearch, helfs, -⟩ :=
    hsame hmaps hfiles (unshared_of_scanned (hmade.fits fun _ => rfl) hscanned)
  exact ⟨pidCtx, newCtx, info, ctx', hpid, hresult, hsearch, helfs⟩

/-- Two files of one build; the debug file of the first cannot be read. -/
def brokenDebug : World (List CalcRules) :=
  { twiceMapped with
    maps := fun _ _ => [⟨"/bin/tool", 0x1000#64, 0x2000#64, 0#64, false⟩,
      ⟨"/bin/copy", 0x3000#64, 0x4000#64, 0#64, false⟩]
    elf := fun _ _ path _ => some ⟨[7#8], path == "/bin/copy", false, [], 0#64, none, 0, none⟩ }

/-- Nothing changes between the load and the reload, but the first mapping gets a record of the
file that the second has loaded, and its counter goes up. -/
theorem reload_finds_shared_build :
    let ctx := (guPreloadPidDebugInfo brokenDebug (guInit false false false) 11).2
    (ctx.pid 11).map (fun pidCtx => (pidCtx.search 0x1000#64).map Interval.payload) =
      some (some none) ∧
    (ctx.pid 11).map (fun pidCtx =>
      let reloaded := guReloadPidCtx brokenDebug ctx pidCtx (preloadInfo 11 9#64)
      (reloaded.1.map fun newCtx => (newCtx.search 0x1000#64).map Interval.payload,
        ctx.elfCtxList.map PerElfCtx.refcnt, reloaded.2.2.elfCtxList.map PerElfCtx.refcnt)) =
      some (some (some (some ⟨0, 0#64⟩)), [1], [2]) := by
  decide +kernel

end Gunwinder
