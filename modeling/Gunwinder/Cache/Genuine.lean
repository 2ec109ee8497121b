import Gunwinder.Cache.Reload
import Gunwinder.Semantics.Stateless

/-!
# Where the ELF entries come from

An ELF entry is made from an image the system has shown, and what a walk reads of it is never
written again: counters, marks and deadlines come and go, and the parse cache fills up.
-/

namespace Gunwinder

open Gunwinder.Core

variable {P : Type} {ctx ctx' : GuContext P} {w : World P}

/-- What a walk reads of an entry. -/
def PerElfCtx.view (e : PerElfCtx P) : FileView P where
  buildId := e.buildId
  golang := e.golang
  symbols := e.symbols
  execRanges := e.execRanges
  execVirtAddr := e.execVirtAddr
  cfi := e.guCfi.map GuCfi.data

private theorem newElf_view (id : Nat) (image : ElfImage P) :
    (newElf id image).view = image.view := by
  unfold newElf ElfImage.view PerElfCtx.view
  cases image.golang with
  | true => rfl
  | false =>
    simp only [Bool.false_eq_true, if_false, Option.map_map, Function.comp_def]

/-- Every entry shows what an image that can be read whole has shown. -/
def Genuine (w : World P) (ctx : GuContext P) : Prop :=
  ∀ e ∈ ctx.elfCtxList, ∃ image, w.Shows image ∧ image.debugScanned = true ∧ e.view = image.view

namespace Genuine

/-- No entry shows something new. -/
theorem of_map (h : Genuine w ctx)
    (hviews : ctx'.elfCtxList.map PerElfCtx.view = ctx.elfCtxList.map PerElfCtx.view) :
    Genuine w ctx' := by
  intro e' he'
  obtain ⟨e, he, hview⟩ := List.mem_map.mp (hviews ▸ List.mem_map_of_mem he')
  exact hview ▸ h e he

/-- An entry is made from an image that is shown, and only its bookkeeping is written to. -/
theorem step {event : CacheEvent P} (h : Genuine w ctx) (hstep : CacheStep w ctx event ctx') :
    Genuine w ctx' := by
  cases hstep with
  | cacheRow id cache =>
    refine h.of_map (map_update fun e => ?_)
    simp only [PerElfCtx.view, Option.map_map, Function.comp_def]
  | take e he => exact h.of_map (reuseElf_map (fun _ _ _ _ => rfl) ctx e)
  | put e he hpos => exact h.of_map (guPutElfCtx_map (fun _ _ _ _ => rfl) w ctx e.id)
  | create image hnew hscanned hshown =>
    intro e he
    rcases List.mem_append.mp he with he | he
    · exact h e he
    · rw [List.mem_singleton.mp he]
      exact ⟨image, hshown, hscanned, newElf_view _ image⟩
  | sweep now hused => exact fun e he => h e ((guRetiredElfSweep_sublist ctx now).subset he)
  | _ => exact h

end Genuine

/-- In a recorded context every entry shows what the system has shown. -/
theorem Recorded.genuine {record : List (CacheEvent P)} (h : Recorded w record ctx) :
    Genuine w ctx :=
  h.history (fun _ => Genuine w) (fun _ _ _ => List.forall_mem_nil _)
    fun _ _ _ _ hctx hstep => hctx.step hstep

end Gunwinder
