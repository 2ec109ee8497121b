import Gunwinder.Walks.Counts

/-!
# The stop reason a call stores

One variable holds the result of the last `gen_reg` inside the DWARF loop and the stop reason
behind it, and it is stored over whatever a search has written to the flags. So the reason of a
loop that has spent its budget is what the last frame pointer gave, and the exit of a process
that a search has noticed is lost.
-/

namespace Gunwinder

open Gunwinder.Core

variable {H P : Type} {e : UnwindEnv H P}

/-- The reason a call leaves in the flags of the sample. -/
def UnwindResult.reason (r : UnwindResult H P) : Word := guFlagsReason r.info.flags

/-! ## Reasons of a walk -/

/-- The reasons a walk is left with. -/
def walkReasons : List UnwindReason := .ok :: .noExecPc :: .truncated :: stopReasons

private theorem FpStop.reason_mem {w : World P} {maxFpLevel : Nat} {allowUnknown : Bool}
    {s : FpState P} {done : WalkEnd P} (h : FpStop w maxFpLevel allowUnknown s done) :
    done.reason ∈ walkReasons := by
  cases h with
  | zero | last => exact (by decide : UnwindReason.endOfStack ∈ walkReasons)
  | unmapped => exact (by decide : UnwindReason.noExecPc ∈ walkReasons)

/-- A loop that spends its budget is left with what `gen_reg` gave for the last frame pointer. -/
theorem spent_reason {start s : DwarfState H P} {rawSp : Word} {n : Nat}
    (h : headState (dwarfTurn e rawSp) (n + 1) start = some s) :
    s.spent.reason ∈ UnwindReason.ok :: evalReasons := by
  obtain ⟨t, -, hturn⟩ := headState_pred h
  obtain ⟨c, rfl⟩ := exists_caller hturn
  have hmem := c.reason_mem
  have hknown : c.next.reason ≠ .unknown := fun heq => absurd (heq ▸ hmem) (by decide)
  change (if c.next.reason = .unknown then UnwindReason.truncated else c.next.reason) ∈ _
  rw [if_neg hknown]
  exact hmem

private theorem dwarfLoop_reason {start : DwarfState H P} {done : DwarfEnd H P}
    (h : dwarfLoop e start = .ok done) : done.reason ∈ walkReasons := by
  rcases dwarfLoop_ends h with ⟨n, s, -, -, hstop⟩ | ⟨s, hhead, rfl⟩
  · cases dwarfTurn_stop hstop with
    | unmapped _ _ hends =>
      subst hends
      exact (by decide : UnwindReason.noExecPc ∈ walkReasons)
    | emitted _ _ _ hleaves =>
      have hreason := hleaves.reason
      simp only [walkReasons, List.mem_cons]
      exact .inr (.inr (.inr hreason))
  · have hsubset : ∀ r ∈ UnwindReason.ok :: evalReasons, r ∈ walkReasons := by decide
    exact hsubset _ (spent_reason hhead)

variable {result : UnwindResult H P} {globals : Globals H}

/-- No walk stores the exit of the process. -/
theorem guUnwind_reason {ctx : GuContext P} {info : StackInfo} {walk : Walk P}
    (hstart : startWalk e.world ctx info = some walk)
    (h : guUnwind e ctx globals info = .ok result) :
    ∃ reason ∈ walkReasons, result.reason = reason.code := by
  rw [guUnwind_of_startWalk hstart] at h
  split at h
  · obtain ⟨done, hdone, rfl⟩ := unwindFp_ends h
    refine ⟨done.reason, ?_, guFlagsReason_setReason _ _⟩
    rcases guUnwindByFp_ends hdone with ⟨-, rfl⟩ | ⟨n, s, -, -, hstop⟩
    · exact (by decide : UnwindReason.endOfStack ∈ walkReasons)
    · exact (fpTurn_stop hstop).reason_mem
  · obtain ⟨done, last, tail, hloop, -, rfl⟩ := unwindDwarf_ends h
    refine ⟨_, ?_, guFlagsReason_setReason _ _⟩
    split
    · exact dwarfLoop_reason hloop
    · decide

/-! ## The depth cap -/

/-- The DWARF loop takes all its turns, and the tail appends no frame. -/
def Capped (e : UnwindEnv H P) (start : DwarfState H P) : Prop :=
  (headState (dwarfTurn e start.sp) maxBacktraceLevel start).isSome = true ∧
    ∃ done last, dwarfLoop e start = .ok done ∧ followTail e start.sp done = .ok (last, [])

/-- At the cap the reason of the last frame pointer is stored. -/
theorem Capped.reason {walk : Walk P} (hcap : Capped e (.init e.target.arch walk globals))
    (h : unwindDwarf e walk globals = .ok result) :
    ∃ reason ∈ UnwindReason.ok :: evalReasons, result.reason = reason.code := by
  obtain ⟨hhead, done, last, hloop, htail⟩ := hcap
  obtain ⟨s, hhead⟩ := Option.isSome_iff_exists.mp hhead
  obtain ⟨done', last', tail, hloop', htail', rfl⟩ := unwindDwarf_ends h
  cases hloop.symm.trans hloop'
  cases htail.symm.trans htail'
  refine ⟨done.reason, ?_, guFlagsReason_setReason _ _⟩
  rcases dwarfLoop_ends hloop with ⟨n, t, hn, ht, hstop⟩ | ⟨t, ht, rfl⟩
  · rw [headState_of_stop hn ht hstop] at hhead
    cases hhead
  · exact spent_reason ht

/-- Truncation is stored for no loop that takes all its turns. -/
theorem guUnwind_truncated_iff {H P : Type} {e : UnwindEnv H P} {ctx : GuContext P}
    {globals : Globals H} {info : StackInfo} {start : DwarfState H P} {result : UnwindResult H P}
    (hstart : dwarfStart e ctx globals info = some start)
    (h : guUnwind e ctx globals info = .ok result) :
    (Capped e start → ∃ reason ∈ UnwindReason.ok :: evalReasons, result.reason = reason.code) ∧
      ((Capped e start → result.reason = UnwindReason.truncated.code) ↔ ¬Capped e start) := by
  obtain ⟨walk, hwalk, hfp, rfl⟩ := startWalk_of_dwarfStart hstart
  rw [guUnwind_of_startWalk hwalk, if_neg (Bool.eq_false_iff.mp hfp)] at h
  refine ⟨fun hcap => hcap.reason h, fun htruncated hcap => ?_, fun hnot hcap => absurd hcap hnot⟩
  obtain ⟨reason, hmem, hreason⟩ := hcap.reason h
  have hother : ∀ r ∈ UnwindReason.ok :: evalReasons, r.code ≠ UnwindReason.truncated.code := by
    decide
  exact hother reason hmem (hreason.symm.trans (htruncated hcap))

/-- What a call reports: the number it returns, the number of its frames and the reason. -/
def reported (r : Except Stuck (UnwindResult H P)) : Except Stuck (Int × Nat × Word) :=
  r.map fun result => (result.ret, result.frames.length, result.reason)

/-- A sample with 512 return addresses on its stack, two of them in turn. -/
def deepStack : StackInfo :=
  { leafSample with
    stackSize := 8192#64
    stackData := some fun i =>
      if i % 8 = 2 then 0x40#8
      else if i % 16 = 1 then 0x02#8
      else if i % 16 = 8 then 0x10#8
      else if i % 16 = 9 then 0x01#8
      else 0#8 }

/-- A call whose loop takes all its turns; a tail with frames would store the end of the stack. -/
theorem capped_of_ret {walk : Walk P} (h : unwindDwarf e walk globals = .ok result)
    (hret : result.ret = 513) (hreason : result.reason ≠ UnwindReason.endOfStack.code) :
    Capped e (.init e.target.arch walk globals) := by
  obtain ⟨done, last, tail, hloop, htail, rfl⟩ := unwindDwarf_ends h
  have hlevel : done.level = 513 := Int.ofNat_inj.mp hret
  rcases dwarfLoop_ends hloop with ⟨n, s, hn, hhead, hstop⟩ | ⟨s, hhead, rfl⟩
  · have hcount : s.level = n := (headState_counts hhead).1.trans (Nat.zero_add n)
    have hbudget : n < 512 := hn
    cases dwarfTurn_stop hstop with
    | unmapped _ _ hends =>
      subst hends
      dsimp only at hlevel
      omega
    | emitted _ _ _ hleaves =>
      have hlast := hleaves.level
      dsimp only at hlast
      omega
  · obtain rfl : tail = [] := by
      rw [UnwindResult.reason, guFlagsReason_setReason] at hreason
      cases tail with
      | nil => rfl
      | cons => exact absurd rfl hreason
    refine ⟨?_, s.spent, last, hloop, htail⟩
    rw [hhead]
    rfl

/-- The walk of that sample. -/
theorem deepStack_run : ∃ start result,
    dwarfStart leafEnv (guInit false false false) ⟨.empty, (), .clear⟩ deepStack = some start ∧
      guUnwind leafEnv (guInit false false false) ⟨.empty, (), .clear⟩ deepStack = .ok result ∧
      Capped leafEnv start ∧ result.reason = UnwindReason.cfiFrameCfaCalcFailed.code := by
  -- the frames are not counted here: their list is a chain of 512 appends
  have hrun : (guUnwind leafEnv (guInit false false false) ⟨.empty, (), .clear⟩ deepStack).map
      (fun result => (result.ret, result.reason)) =
        .ok (513, UnwindReason.cfiFrameCfaCalcFailed.code) := by decide +kernel
  have hstart : (dwarfStart leafEnv (guInit false false false) ⟨.empty, (), .clear⟩
      deepStack).isSome = true := by decide +kernel
  obtain ⟨start, hstart⟩ := Option.isSome_iff_exists.mp hstart
  obtain ⟨walk, hwalk, hfp, rfl⟩ := startWalk_of_dwarfStart hstart
  obtain ⟨result, hresult, hrun⟩ := exists_of_map_ok hrun
  obtain ⟨hret, hreason⟩ := Prod.mk.inj hrun
  have hend : result.reason ≠ UnwindReason.endOfStack.code := hreason ▸ by decide
  have hdwarf := hresult
  rw [guUnwind_of_startWalk hwalk, if_neg (Bool.eq_false_iff.mp hfp)] at hdwarf
  exact ⟨_, result, hstart, hresult, capped_of_ret hdwarf hret hend, hreason⟩

/-- A stack deeper than the limit. -/
theorem guUnwind_truncated_iff_deep : ∃ start result,
    dwarfStart leafEnv (guInit false false false) ⟨.empty, (), .clear⟩ deepStack = some start ∧
      guUnwind leafEnv (guInit false false false) ⟨.empty, (), .clear⟩ deepStack = .ok result ∧
      ∃ reason ∈ UnwindReason.ok :: evalReasons, result.reason = reason.code := by
  obtain ⟨start, result, hstart, hresult, hcap, -⟩ := deepStack_run
  exact ⟨start, result, hstart, hresult, (guUnwind_truncated_iff hstart hresult).1 hcap⟩

/-- The loop takes all its 512 turns, and the reason that is stored is that the rule of the last
frame pointer was not evaluated. -/
theorem guUnwind_capped_reports_failure : ∃ start result,
    dwarfStart leafEnv (guInit false false false) ⟨.empty, (), .clear⟩ deepStack = some start ∧
      guUnwind leafEnv (guInit false false false) ⟨.empty, (), .clear⟩ deepStack = .ok result ∧
      Capped leafEnv start ∧ result.reason = UnwindReason.cfiFrameCfaCalcFailed.code ∧
      result.reason ≠ UnwindReason.truncated.code := by
  obtain ⟨start, result, hstart, hresult, hcap, hreason⟩ := deepStack_run
  exact ⟨start, result, hstart, hresult, hcap, hreason, hreason ▸ by decide⟩

/-! ## A process that exits during a walk -/

/-- A search misses, a reload is due, and the process is found to be gone. -/
def Walk.seesExit (w : World P) (v : Walk P) (pc : Word) : Bool :=
  match v.entry with
  | .error _ => false
  | .ok pidCtx =>
    (pidCtx.search pc).isNone && !v.mapsReloaded &&
      let (allowed, ctx) := guMapsReloadAllowed w v.ctx pidCtx
      allowed && !(stillAlive w ctx v.info.pid).1

/-- The searches of a call, with the number of frames that are emitted before them. -/
inductive Search (e : UnwindEnv H P) (walk : Walk P) (globals : Globals H) :
    Bool → Walk P → Word → Nat → Prop where
  | fp {n : Nat} {s : FpState P} (hn : n < fpLevels walk)
      (hhead : headState (fpStep e.world walk) n (fpStart walk) = some s) (hpc : s.pc ≠ 0#64)
      (hcovers : s.walk.covers s.pc = false) :
      Search e walk globals true s.walk s.pc s.frames.length
  | dwarf {n : Nat} {s : DwarfState H P} (hn : n < maxBacktraceLevel)
      (hhead : headState (dwarfTurn e (DwarfState.init e.target.arch walk globals).sp) n
        (.init e.target.arch walk globals) = some s) (hcovers : s.walk.covers s.pc = false) :
      Search e walk globals false s.walk s.pc s.frames.length
  | current {done : DwarfEnd H P} {bp : Word}
      (hloop : dwarfLoop e (.init e.target.arch walk globals) = .ok done)
      (hreason : done.reason ≠ .endOfStack ∧ done.reason ≠ .processExit)
      (hbp : getRegs e.target.arch done.walk.info e.target.arch.regNameRbp = some bp)
      (hpid : done.walk.pidCtx ≠ none) (happend : done.appendCurrentPc = true)
      (hpc : done.pc ≠ 0#64) :
      Search e walk globals false done.tailWalk done.pc done.frames.length
  | tail {done : DwarfEnd H P} {bp : Word} {tailWalk : Walk P} {first : Option FrameRecord}
      {n : Nat} {s : TailState P} {nextPc : Word}
      (hloop : dwarfLoop e (.init e.target.arch walk globals) = .ok done)
      (hreason : done.reason ≠ .endOfStack ∧ done.reason ≠ .processExit)
      (hbp : getRegs e.target.arch done.walk.info e.target.arch.regNameRbp = some bp)
      (hpid : done.walk.pidCtx ≠ none)
      (hfirst : appendCurrent e.world done.tailWalk done.pc done.appendCurrentPc =
        .ok (tailWalk, first))
      (hbottom : (first.any fun frame => isStackBottomSymbol frame.symbol) = false)
      (hn : n < maxFpStackLevel)
      (hhead : headState (tailTurn e.world e.target
        (DwarfState.init e.target.arch walk globals).sp) n ⟨tailWalk, bp, first.toList⟩ = some s)
      (hnext : tailNext e.target (DwarfState.init e.target.arch walk globals).sp s = some nextPc)
      (hcovers : s.walk.covers nextPc = false) :
      Search e walk globals false s.walk nextPc (done.frames.length + s.frames.length)

/-- A search of the call notices that the process is gone, and no frame is emitted behind it. -/
def ExitEndsWalk (e : UnwindEnv H P) (ctx : GuContext P) (globals : Globals H) (info : StackInfo)
    (result : UnwindResult H P) : Prop :=
  ∃ walk v pc emitted, startWalk e.world ctx info = some walk ∧
    Search e walk globals (guFlagsIsSet info guFlagHintSetFp) v pc emitted ∧
    v.seesExit e.world pc = true ∧ result.frames.length = emitted

/-- The exit of a process is stored for no call that it ends. -/
theorem guUnwind_exit_iff {H P : Type} {e : UnwindEnv H P} {ctx : GuContext P}
    {globals : Globals H} {info : StackInfo} {result : UnwindResult H P}
    (h : guUnwind e ctx globals info = .ok result) :
    (ExitEndsWalk e ctx globals info result → result.reason = UnwindReason.processExit.code) ↔
      ¬ExitEndsWalk e ctx globals info result := by
  refine ⟨fun hstored hexit => ?_, fun hnot hexit => absurd hexit hnot⟩
  obtain ⟨walk, v, pc, emitted, hstart, -⟩ := id hexit
  obtain ⟨reason, hmem, hreason⟩ := guUnwind_reason hstart h
  have hother : ∀ r ∈ walkReasons, r.code ≠ UnwindReason.processExit.code := by decide
  exact hother reason hmem (hreason.symm.trans (hstored hexit))

/-- The program of three functions, whose process exits between the load and the first miss. -/
def exiting : World (List CalcRules) :=
  { threeFunctions with
    now := fun t => if t < 12 then 1#64 else 100000000000#64
    alive := fun t _ => decide (t < 12) }

/-- A call in that world. -/
def exitWalk (info : StackInfo) : Except Stuck (UnwindResult Unit (List CalcRules)) :=
  guUnwind { leafEnv with world := exiting } (guInit false false false) ⟨.empty, (), .clear⟩ info

/-- The state of that call before its first turn, at a pc in no mapping. -/
def exitStart : Walk (List CalcRules) :=
  (startWalk exiting (guInit false false false) strayPc).get (by decide +kernel)

/-- The first search of that call notices the exit, and nothing is emitted. -/
theorem exitWalk_run : ∃ result, exitWalk strayPc = .ok result ∧
    ExitEndsWalk { leafEnv with world := exiting } (guInit false false false)
      ⟨.empty, (), .clear⟩ strayPc result ∧
    result.reason = UnwindReason.noExecPc.code := by
  have hrun : reported (exitWalk strayPc) = .ok (1, 0, UnwindReason.noExecPc.code) := by
    decide +kernel
  have hsees : exitStart.seesExit exiting
      (DwarfState.init .x86 exitStart (⟨.empty, (), .clear⟩ : Globals Unit)).pc = true := by
    decide +kernel
  obtain ⟨result, hresult, hrun⟩ := exists_of_map_ok hrun
  obtain ⟨-, hrest⟩ := Prod.mk.inj hrun
  obtain ⟨hframes, hreason⟩ := Prod.mk.inj hrest
  have hsearch : Search { leafEnv with world := exiting } exitStart ⟨.empty, (), .clear⟩ false
      exitStart (DwarfState.init .x86 exitStart (⟨.empty, (), .clear⟩ : Globals Unit)).pc 0 :=
    .dwarf (n := 0) (by decide) rfl (by decide +kernel)
  exact ⟨result, hresult, ⟨exitStart, exitStart, _, 0, (Option.some_get _).symm, hsearch, hsees,
    hframes⟩, hreason⟩

/-- An exit met at a stray pc is not reported. -/
theorem guUnwind_exit_iff_stray : ∃ result, exitWalk strayPc = .ok result ∧
    result.reason ≠ UnwindReason.processExit.code := by
  obtain ⟨result, hresult, hexit, -⟩ := exitWalk_run
  exact ⟨result, hresult, fun hstored =>
    (guUnwind_exit_iff hresult).mp (fun _ => hstored) hexit⟩

/-- The process is found to be gone at the sampled pc, and the call reports that the pc is in no
mapping. -/
theorem guUnwind_loses_exit : ∃ result, exitWalk strayPc = .ok result ∧
    ExitEndsWalk { leafEnv with world := exiting } (guInit false false false)
      ⟨.empty, (), .clear⟩ strayPc result ∧
    result.reason = UnwindReason.noExecPc.code ∧
    result.reason ≠ UnwindReason.processExit.code := by
  obtain ⟨result, hresult, hexit, hreason⟩ := exitWalk_run
  exact ⟨result, hresult, hexit, hreason, hreason ▸ by decide⟩

end Gunwinder
