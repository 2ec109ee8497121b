import Gunwinder.Cache.Genuine
import Gunwinder.Intervals.Payloads

/-!
# The table of a process that does not change

When a process, its mappings and its files stay what they are, its mapping records read as
the mappings with their files, whichever load or reload has made them and whatever else the
context has been used for. The ELF entries behind the records are shared with other
processes by build id, so a build id has to name one image.
-/

namespace Gunwinder

open Gunwinder.Core

variable {H P : Type} {ctx : GuContext P} {w : World P} {pid : Int} {process : Process P}

/-- A process that shows the same mappings and files at any time, in a system whose
allocations succeed and whose build ids name one image each. -/
structure Steady (w : World P) (pid : Int) (process : Process P) : Prop where
  alive : ∀ t, w.alive t pid = true
  maps : ∀ t, w.maps t pid = process.maps
  file : ∀ t path openPath, w.elf t pid path openPath = process.file path openPath
  alloc : ∀ t, w.alloc t = true
  identified : ∀ image image', w.Shows image → w.Shows image' → image.buildId = image'.buildId →
    image.view = image'.view ∧ image.debugScanned = image'.debugScanned

/-- The reading of a mapping record. -/
def GuContext.fileAt (ctx : GuContext P) (payload : Option MapCtx) : FileAt P :=
  payload.bind fun mapCtx =>
    (ctx.elf mapCtx.elfCtx).map fun e => (e.view, mapCtx.mapExecVirtAddr)

/-- An entry that shows the build of an image shows the image. -/
theorem Genuine.view_eq (hctx : Genuine w ctx) (hsteady : Steady w pid process)
    {e : PerElfCtx P} (he : e ∈ ctx.elfCtxList) {image : ElfImage P} (hshown : w.Shows image)
    (hbuild : e.buildId = image.buildId) : e.view = image.view ∧ image.debugScanned = true := by
  obtain ⟨image', hshown', hscanned, hview⟩ := hctx e he
  have hsame : image.buildId = image'.buildId := by
    rw [← hbuild]
    exact congrArg FileView.buildId hview
  obtain ⟨hviews, hscans⟩ := hsteady.identified image image' hshown hshown' hsame
  exact ⟨hview.trans hviews.symm, hscans.trans hscanned⟩

/-- A record reads as its mapping with its file. -/
theorem Source.Fits.reads (hctx : Genuine w ctx) (hsteady : Steady w pid process)
    {src : Source P} {item : Interval (Option MapCtx)} (hfits : src.Fits ctx item)
    (hshown : ∀ image ∈ src.file, w.Shows image) :
    item.mapPayload ctx.fileAt =
      ⟨src.map.start, src.map.fin, Gunwinder.fileAt src.map src.file⟩ := by
  obtain ⟨hstart, hfin, hpayload⟩ := hfits
  have hread : ctx.fileAt item.payload = Gunwinder.fileAt src.map src.file := by
    cases hitem : item.payload with
    | none =>
      rw [hitem] at hpayload
      cases hfile : src.file with
      | none => rfl
      | some image =>
        have hscanned := hpayload image hfile
        simp only [GuContext.fileAt, Gunwinder.fileAt, hscanned, Bool.false_eq_true, if_false,
          Option.bind_none]
    | some mapCtx =>
      rw [hitem] at hpayload
      obtain ⟨image, himage, e, he, hbuild, hmap⟩ := hpayload
      obtain ⟨hview, hscanned⟩ := hctx.view_eq hsteady (mem_of_lookup he).1
        (hshown image himage) hbuild
      have haddr : mapCtx.mapExecVirtAddr = e.view.mappedAt src.map := by
        rw [hmap]
        rfl
      rw [Option.mem_def.mp himage]
      simp only [GuContext.fileAt, Gunwinder.fileAt, Option.bind_some, he, Option.map_some, haddr,
        hview, hscanned, if_true]
  rw [Interval.mapPayload, hread, hstart, hfin]

section Table

variable (hsteady : Steady w pid process)

include hsteady

variable {sources : List (Source P)}

/-- The files a load has read are those of the process. -/
theorem Steady.shows {first : Bool} (hfiles : eachFile ctx
      (fun src path => ∃ t < ctx.tick, w.elf t pid src.map.path path = src.file) first sources) :
    eachFile ctx (fun src path => process.file src.map.path path = src.file ∧
      ∀ image ∈ src.file, w.Shows image) first sources := by
  refine hfiles.mono rfl ?_
  rintro src path ⟨t, -, hfile⟩
  refine ⟨(hsteady.file t _ _).symm.trans hfile, fun image himage => ?_⟩
  exact ⟨t, pid, src.map.path, path, hfile.trans himage⟩

variable {items : List (Interval (Option MapCtx))}

variable (hctx : Genuine w ctx)
include hctx

private theorem Steady.records_eq {first : Bool}
    (hfits : List.Forall₂ (Source.Fits ctx) sources items)
    (hfiles : eachFile ctx (fun src path => process.file src.map.path path = src.file ∧
      ∀ image ∈ src.file, w.Shows image) first sources) :
    items.map (Interval.mapPayload ctx.fileAt) =
      process.records ctx.debug first (sources.map Source.map) := by
  induction hfits generalizing first with
  | nil => rfl
  | @cons src item sources items hfit _ ih =>
    obtain ⟨⟨hfile, hshown⟩, hrest⟩ := hfiles
    rw [List.map_cons, List.map_cons, Process.records, ih hrest, hfit.reads hctx hsteady hshown]
    have hpath : openedPath ctx.debug first src.map = livePath ctx first src.map := rfl
    rw [hpath, hfile]

/-- The records of the process read as its table. -/
theorem Steady.table_eq {pidCtx : PerPidCtx} (hpid : pidCtx.pid = pid)
    (hmade : MadeFrom w ctx pidCtx sources items) :
    ∃ list, pidCtx.elfCtxList = some list ∧
      process.table ctx.debug = some (list.mapPayload ctx.fileAt) := by
  obtain ⟨⟨t, -, hmaps⟩, hfiles, ⟨list, hlist, hinit⟩, hfits⟩ := hmade
  rw [hpid] at hmaps hfiles
  refine ⟨list, hlist, ?_⟩
  rw [Process.table, ← hsteady.maps t, hmaps,
    ← hsteady.records_eq hctx (hfits hsteady.alloc) (hsteady.shows hfiles),
    guIntervalArrayInit_mapPayload, hinit, Option.map_some]

/-- A file without a record is not there under another name. -/
theorem Steady.unshared {first : Bool} (hfits : List.Forall₂ (Source.Fits ctx) sources items)
    (hfiles : eachFile ctx (fun src path => process.file src.map.path path = src.file ∧
      ∀ image ∈ src.file, w.Shows image) first sources) :
    List.Forall₂ (Source.Unshared ctx) sources items := by
  induction hfits generalizing first with
  | nil => exact .nil
  | @cons src item sources items hfit _ ih =>
    obtain ⟨⟨-, hshown⟩, hrest⟩ := hfiles
    refine .cons (fun hnone image himage => ?_) (ih hrest)
    obtain ⟨-, -, hpayload⟩ := hfit
    rw [hnone] at hpayload
    cases hfound : ctx.findBuildId image.buildId with
    | none => rfl
    | some e =>
      obtain ⟨hmem, hbuild⟩ := mem_of_lookup hfound
      have hscanned := (hctx.view_eq hsteady hmem (hshown image himage) hbuild).2
      rw [hpayload image himage] at hscanned
      cases hscanned

/-- A reload gives the records that were there. -/
theorem Steady.reload (hdistinct : ctx.DistinctElfs) {pidCtx : PerPidCtx} {info : StackInfo}
    (hfound : ctx.pid info.pid = some pidCtx) (hpid : info.pid = pid)
    (hmade : MadeFrom w ctx pidCtx sources items) :
    ∃ newCtx, (guReloadPidCtx w ctx pidCtx info).1 = some newCtx ∧
      newCtx.elfCtxList = pidCtx.elfCtxList := by
  have hsampled : pidCtx.pid = pid := (mem_of_lookup hfound).2.trans hpid
  obtain ⟨t, -, hmaps⟩ := hmade.maps
  have hfiles := hmade.files
  rw [hsampled] at hmaps hfiles
  have hshows := hsteady.shows hfiles
  obtain ⟨newCtx, hnew, hlist, -⟩ := guReloadPidCtx_again hdistinct hsteady.alloc hfound hmade
    (hsteady.unshared hctx (hmade.fits hsteady.alloc) hshows)
    (fun t' _ => by rw [hpid, hsteady.maps t', ← hsteady.maps t, hmaps])
    (hshows.mono rfl fun src path hfile t' _ => by rw [hpid, hsteady.file t', hfile.1])
  exact ⟨newCtx, hnew, hlist⟩

end Table

/-! ## A first load -/

/-- With every allocation granted, the mapping loop fills a record for each mapping. -/
theorem loadMaps_granted (halloc : ∀ t, w.alloc t = true) (pid : Int) (first : Bool)
    (maps : List MapsInfo) (ctx : GuContext P) :
    (loadMaps w pid first maps ctx).ok = true ∧
      (loadMaps w pid first maps ctx).items.length = maps.length := by
  induction maps generalizing first ctx with
  | nil => exact ⟨rfl, rfl⟩
  | cons map maps ih =>
    unfold loadMaps
    split
    case h_1 ctx' heq =>
      obtain ⟨hok, hlength⟩ := ih false ctx'
      exact ⟨hok, congrArg (· + 1) hlength⟩
    case h_2 elf ctx' heq =>
      have hgranted : (ctx'.ask w.alloc).1 = true := halloc _
      obtain ⟨hok, hlength⟩ := ih false (ctx'.ask w.alloc).2
      dsimp only
      rw [if_pos hgranted]
      exact ⟨hok, congrArg (· + 1) hlength⟩

/-- With every allocation granted, a process is loaded if it has a mapping. -/
theorem guLoadPid_granted (halloc : ∀ t, w.alloc t = true) {info : StackInfo}
    (hnew : ctx.pid info.pid = none) :
    (guLoadPid w ctx info).1 = none ↔ w.maps ctx.tick info.pid = [] := by
  simp only [guLoadPid, hnew, GuContext.ask, halloc, if_true]
  cases hmaps : w.maps ctx.tick info.pid with
  | nil => exact ⟨fun _ => rfl, fun _ => rfl⟩
  | cons map maps =>
    refine iff_of_false ?_ (List.cons_ne_nil map maps)
    simp only [List.isEmpty_cons, Bool.false_eq_true, if_false, loadPidMaps]
    generalize hloaded : loadMaps w info.pid true (map :: maps) _ = loaded
    obtain ⟨hok, hlength⟩ := loadMaps_granted halloc info.pid true (map :: maps) _
    rw [hloaded] at hok hlength
    rw [if_pos hok]
    cases hlist : guIntervalArrayInit loaded.items with
    | none =>
      rw [guIntervalArrayInit_eq_none.mp hlist] at hlength
      cases hlength
    | some list =>
      simp only [initElfCtxList, GuContext.ask, halloc, if_true, hlist]
      rintro ⟨⟩

end Gunwinder
