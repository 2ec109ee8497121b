import Gunwinder.Walks.Offsets

/-!
# Which walk a sample gets

`gu_unwind` decides between its two walks by the hint in the flags of the sample. The process of a
Go binary raises the hint in four places, all too late for the sample at hand: the flags have been
read before the process is looked up.
-/

namespace Gunwinder

variable {H P : Type} {w : World P} {ctx ctx' : GuContext P} {info info' : StackInfo}
  {pidCtx : PerPidCtx}

/-- The two walks of `gu_unwind`. -/
inductive UnwindPath where
  | byFp
  | byDwarf
  deriving DecidableEq, Repr

/-- `gu_unwind` with its failure and its two walks left open. -/
def guUnwindBy {α : Type} (failed : UnwindReason → StackInfo → GuContext P → α)
    (byFp byDwarf : Walk P → α) (w : World P) (ctx : GuContext P) (info : StackInfo) : α :=
  let fp := guFlagsIsSet info guFlagHintSetFp
  match openProcess w ctx info with
  | (.error reason, info, ctx) => failed reason info ctx
  | (.ok pidCtx, info, ctx) =>
    let walk := Walk.init ctx info pidCtx
    if fp then byFp walk else byDwarf walk

/-- The walk that is taken; `none` when `gu_unwind` fails before. -/
def unwindPath : World P → GuContext P → StackInfo → Option UnwindPath :=
  guUnwindBy (fun _ _ _ => none) (fun _ => some .byFp) (fun _ => some .byDwarf)

/-- The path that the hint of a sample selects. -/
def hintedPath (info : StackInfo) : UnwindPath :=
  if guFlagsIsSet info guFlagHintSetFp then .byFp else .byDwarf

private theorem hintedPath_eq_byFp :
    hintedPath info = .byFp ↔ guFlagsIsSet info guFlagHintSetFp = true := by
  unfold hintedPath
  split <;> simp_all

private theorem unwindPath_of_open (hopen : openProcess w ctx info = (.ok pidCtx, info', ctx')) :
    unwindPath w ctx info = some (hintedPath info) := by
  unfold unwindPath guUnwindBy hintedPath
  rw [hopen]
  dsimp only
  split <;> rfl

/-- Nothing but the hint has a part in the path. -/
theorem unwindPath_eq {path : UnwindPath} (h : unwindPath w ctx info = some path) :
    path = hintedPath info := by
  cases hopen : openProcess w ctx info with
  | mk opened rest =>
    cases opened with
    | error reason =>
      unfold unwindPath guUnwindBy at h
      rw [hopen] at h
      cases h
    | ok pidCtx =>
      rw [unwindPath_of_open hopen] at h
      exact (Option.some.inj h).symm

/-- The sample is of a process that can be walked, and its entry is marked as a Go binary's. -/
def OpensGolang (w : World P) (ctx : GuContext P) (info : StackInfo) : Prop :=
  ∃ pidCtx, (openProcess w ctx info).1 = .ok pidCtx ∧ pidCtx.golang = true

private theorem opensGolang_iff : OpensGolang w ctx info ↔
    (openProcess w ctx info).1.toOption.map PerPidCtx.golang = some true := by
  unfold OpensGolang
  cases (openProcess w ctx info).1 with
  | error reason | ok pidCtx => simp [Except.toOption]

instance : Decidable (OpensGolang w ctx info) := decidable_of_iff _ opensGolang_iff.symm

/-- In every context a sample of a Go process is walked along the sampler's chain, and one like it
that follows takes the same path, exactly when the caller has set the hint. -/
theorem golang_path_iff (e : UnwindEnv H P) (ctx : GuContext P) (globals : Globals H)
    (info : StackInfo) (hgo : OpensGolang e.world ctx info) :
    (unwindPath e.world ctx info = some .byFp ∧
      ∀ r path, guUnwind e ctx globals info = .ok r →
        unwindPath e.world r.ctx info = some path → unwindPath e.world ctx info = some path) ↔
    guFlagsIsSet info guFlagHintSetFp = true := by
  obtain ⟨pidCtx, hok, -⟩ := hgo
  have hopen : openProcess e.world ctx info = (.ok pidCtx, (openProcess e.world ctx info).2) := by
    rw [← hok]
  rw [unwindPath_of_open hopen, Option.some.injEq, hintedPath_eq_byFp]
  refine ⟨And.left, fun hhint => ⟨hhint, fun r path _ hnext => ?_⟩⟩
  rw [unwindPath_eq hnext]

namespace FrameSite

/-- Two frames of the program, as the sampler has found them. -/
def goSample : StackInfo :=
  { leafSample with
    ustackFp := fun i => [0x400110#64, 0x400120#64].getD i 0#64
    ustackFpLevel := 2#64 }

/-- The sample with the caller's hint. -/
def hintedSample : StackInfo := guFlagsSet goSample guFlagHintSetFp

/-- The entry is there already, and the caller has set the hint. -/
theorem golang_path_iff_hinted :
    unwindPath goProgram (guPreloadPidDebugInfo goProgram (guInit false false false) 11).2
      hintedSample = some .byFp :=
  ((golang_path_iff goEnv _ ⟨.empty, (), .clear⟩ hintedSample (by decide +kernel)).mpr
    (by decide +kernel)).1

variable (r : Except Stuck (UnwindResult Unit (List CalcRules)))

/-- The context a walk leaves. -/
def contextAfter : GuContext (List CalcRules) :=
  r.toOption.elim (guInit false false false) UnwindResult.ctx

/-- The addresses of the frames a walk emits. -/
def framePcs : Option (List Word) :=
  r.toOption.map fun r => r.frames.map FrameRecord.absPc

def goWalk (e : UnwindEnv Unit (List CalcRules)) (ctx : GuContext (List CalcRules))
    (info : StackInfo) : Except Stuck (UnwindResult Unit (List CalcRules)) :=
  guUnwind e ctx ⟨.empty, (), .clear⟩ info

/-- A process that runs the program instead of another one once it has been loaded. -/
def execEnv : UnwindEnv Unit (List CalcRules) :=
  { goEnv with world := { goProgram with
      now := fun t => if t < 13 then 1#64 else 0x1000000000000#64
      elf := fun t pid path openPath =>
        if t < 13 then threeFunctions.elf t pid path openPath
        else goProgram.elf t pid path openPath } }

/-- The mappings have been reloaded for a sample outside of them. -/
def reloadedContext : GuContext (List CalcRules) :=
  contextAfter (goWalk execEnv
    (guPreloadPidDebugInfo execEnv.world (guInit false false false) 11).2
    { goSample with regs := some fun _ => 8#64 })

/-- Without the hint the sample is walked by the DWARF loop, whether the entry is created by this
call, by one before, by a preload or by a reload. A Go file has no CFI, so the walk ends at its
first frame. -/
theorem golang_walked_by_dwarf :
    (OpensGolang goProgram (guInit false false false) goSample ∧
      unwindPath goProgram (guInit false false false) goSample = some .byDwarf) ∧
    (OpensGolang goProgram (contextAfter (goWalk goEnv (guInit false false false) goSample))
        goSample ∧
      unwindPath goProgram (contextAfter (goWalk goEnv (guInit false false false) goSample))
        goSample = some .byDwarf) ∧
    (OpensGolang goProgram (guPreloadPidDebugInfo goProgram (guInit false false false) 11).2
        goSample ∧
      unwindPath goProgram (guPreloadPidDebugInfo goProgram (guInit false false false) 11).2
        goSample = some .byDwarf) ∧
    (OpensGolang execEnv.world reloadedContext goSample ∧
      unwindPath execEnv.world reloadedContext goSample = some .byDwarf) ∧
    framePcs (goWalk goEnv (guInit false false false) goSample) = some [0x400110#64] ∧
    framePcs (goWalk goEnv (guInit false false false) hintedSample) =
      some [0x400110#64, 0x400120#64] := by
  decide +kernel

end FrameSite

end Gunwinder
