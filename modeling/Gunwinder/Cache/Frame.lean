import Gunwinder.Native.Lifecycle

/-!
# What the ELF table does not touch

Loading files, giving references back and sweeping work on the table of ELF files and its
statistics. Processes, delivered events, the settings and the answers to PC misses are the
frame of all these operations.
-/

namespace Gunwinder

open Gunwinder.Core

variable {P : Type}

/-- The part of a context that the operations on ELF files leave alone. -/
structure ContextFrame where
  pidCtxList : List PerPidCtx
  events : List PidCtxEvent
  retireTimerStarted : Bool
  debug : Bool
  goOnlyBuildid : Bool
  pidMapsReloadCount : Nat
  pidMapsReloadThrottleCount : Nat

def GuContext.frame (ctx : GuContext P) : ContextFrame where
  pidCtxList := ctx.pidCtxList
  events := ctx.events
  retireTimerStarted := ctx.retireTimerStarted
  debug := ctx.debug
  goOnlyBuildid := ctx.goOnlyBuildid
  pidMapsReloadCount := ctx.statistics.pidMapsReloadCount
  pidMapsReloadThrottleCount := ctx.statistics.pidMapsReloadThrottleCount

variable (w : World P) (ctx : GuContext P)

@[simp] theorem guUnretireElfCtx_frame (e : PerElfCtx P) (activate : Bool) :
    (guUnretireElfCtx ctx e activate).frame = ctx.frame := by
  unfold guUnretireElfCtx
  split <;> rfl

@[simp] theorem clearElfCtx_frame (e : PerElfCtx P) : (clearElfCtx ctx e).frame = ctx.frame := by
  refine Eq.trans ?_ (guUnretireElfCtx_frame ctx e false)
  unfold clearElfCtx
  dsimp only
  split <;> rfl

@[simp] theorem guPutElfCtx_frame (id : Nat) : (guPutElfCtx w ctx id).frame = ctx.frame := by
  simp only [guPutElfCtx, guRetireElfCtx]
  split
  · rfl
  · repeat' split
    all_goals rfl

@[simp] theorem reuseElf_frame (e : PerElfCtx P) : (reuseElf ctx e).frame = ctx.frame := by
  unfold reuseElf guUnretireElfCtx
  cases e.retired <;> rfl

@[simp] theorem addElf_frame (image : ElfImage P) : (addElf w ctx image).2.frame = ctx.frame := by
  unfold addElf
  dsimp only
  split
  · split <;> rfl
  · rfl

@[simp] theorem loadElf_frame (path : String) (pid : Int) (openPath : Option OpenPath) :
    (loadElf w ctx path pid openPath).2.frame = ctx.frame := by
  unfold loadElf
  dsimp only
  split
  · rfl
  · split
    · exact reuseElf_frame _ _
    · exact addElf_frame w _ _

variable (items : List (Interval (Option MapCtx)))

@[simp] theorem cleanElfCtxs_frame : (cleanElfCtxs w ctx items).frame = ctx.frame := by
  induction items generalizing ctx with
  | nil => rfl
  | cons item items ih =>
    simp only [cleanElfCtxs, List.foldl_cons]
    cases item.payload with
    | none => exact ih ctx
    | some mapCtx => exact (ih _).trans (guPutElfCtx_frame w ctx _)

@[simp] theorem loadMaps_frame (pid : Int) (first : Bool) (maps : List MapsInfo)
    (ctx : GuContext P) : (loadMaps w pid first maps ctx).ctx.frame = ctx.frame := by
  induction maps generalizing first ctx with
  | nil => rfl
  | cons map maps ih =>
    have hload := loadElf_frame w ctx map.path pid (livePath ctx first map)
    unfold loadMaps
    split
    case h_1 ctx' heq =>
      rw [heq] at hload
      exact (ih false ctx').trans hload
    case h_2 elf ctx' heq =>
      rw [heq] at hload
      dsimp only
      split
      · exact (ih false _).trans hload
      · exact (guPutElfCtx_frame w _ _).trans hload

@[simp] theorem initElfCtxList_frame : (initElfCtxList w ctx items).2.2.frame = ctx.frame := by
  unfold initElfCtxList
  dsimp only
  split <;> rfl

@[simp] theorem guScheduleNextMapsReload_frame (pidCtx : PerPidCtx) :
    (guScheduleNextMapsReload w ctx pidCtx).2.frame = ctx.frame := by
  simp only [guScheduleNextMapsReload, guMapsReloadRandomU64]
  split <;> rfl

@[simp] theorem loadPidMaps_frame (info : StackInfo) (maps : List MapsInfo) :
    (loadPidMaps w ctx info maps).2.frame = ctx.frame := by
  have hmaps := loadMaps_frame w info.pid true maps
    (ctx.count fun st => { st with pidCtxAllocCount := st.pidCtxAllocCount + 1 })
  unfold loadPidMaps
  dsimp only
  generalize loadMaps w info.pid true maps _ = loaded at hmaps ⊢
  split
  · have hinit := (initElfCtxList_frame w loaded.ctx loaded.items).trans hmaps
    split
    case h_1 items ctx' heq =>
      rw [heq] at hinit
      exact (cleanElfCtxs_frame w ctx' items).trans hinit
    case h_2 list items ctx' heq =>
      rw [heq] at hinit
      let asked := ctx'.ask fun t => w.comm t info.pid
      exact (guScheduleNextMapsReload_frame w asked.2
        (newPidCtx info loaded.golang list asked.1)).trans hinit
  · exact (cleanElfCtxs_frame w _ _).trans hmaps

@[simp] theorem guLoadPid_frame (info : StackInfo) :
    (guLoadPid w ctx info).2.frame = ctx.frame := by
  unfold guLoadPid
  split
  · rfl
  dsimp only
  split
  · rfl
  split
  · split
    · exact loadPidMaps_frame w _ info _
    · rfl
  · rfl

/-- A sweep frees entries and computes the earliest deadline anew; it leaves alone what these
do. -/
theorem guRetiredElfSweep_preserves {β : Type} (g : GuContext P → β)
    (hdeadline : ∀ ctx d, g { ctx with nextRetiredElfDeadlineNs := d } = g ctx)
    (hclear : ∀ ctx (e : PerElfCtx P), g (clearElfCtx (ctx.count fun st =>
      { st with retiredElfExpired := st.retiredElfExpired + 1 }) e) = g ctx)
    (ctx : GuContext P) (now : Word) : g (guRetiredElfSweep ctx now) = g ctx := by
  have hfold : ∀ (todo : List (PerElfCtx P)) (acc : GuContext P × Word),
      g (todo.foldl (sweepEntry now) acc).1 = g acc.1 := by
    intro todo
    induction todo with
    | nil => exact fun _ => rfl
    | cons e todo ih =>
      intro acc
      refine (ih _).trans ?_
      unfold sweepEntry
      split
      · rfl
      · split
        · exact hclear acc.1 e
        · split <;> rfl
  unfold guRetiredElfSweep
  split
  · rfl
  · split
    · rfl
    · exact (hdeadline _ _).trans ((hfold _ _).trans (hdeadline ctx 0#64))

@[simp] theorem guRetiredElfSweep_frame (now : Word) :
    (guRetiredElfSweep ctx now).frame = ctx.frame :=
  guRetiredElfSweep_preserves GuContext.frame (fun _ _ => rfl) (fun _ e => clearElfCtx_frame _ e)
    ctx now

end Gunwinder
