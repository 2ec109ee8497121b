import Gunwinder.Evaluation.Outcome
import Gunwinder.Native.Unwind

/-!
# One turn of the DWARF loop

A turn goes on exactly when the frame has a caller, and one that stops emits the frame of its pc
or nothing. Everything that is proved about whole walks goes through these two facts.
-/

namespace Gunwinder

open Gunwinder.Core

variable {H P : Type} {e : UnwindEnv H P} {rawSp : Word} {s s' : DwarfState H P}

/-- The pc a turn looks symbol and row up at, in a mapping with the given bias. -/
def DwarfState.lookupPc (s : DwarfState H P) (bias : Word) : Word :=
  guFrameLookupPcForReturnAddress (s.pc - bias) (s.loopCount == 0) s.currentSignalFrame

/-- The caller of the frame a turn starts in. -/
structure Caller (e : UnwindEnv H P) (rawSp : Word) (s : DwarfState H P) where
  /-- The walk once the mapping of the pc is in hand. -/
  walk : Walk P
  elfCtx : PerElfCtx P
  bias : Word
  cfi : GuCfi P
  recovered : Recovered
  globals : Globals H
  located : s.walk.locate e.world s.pc = .ok walk
  mapped : guGetElfCtxFromItem walk = .ok (some (elfCtx, bias))
  not_bottom : isStackBottomSymbol (guLookupElfSymbol elfCtx (s.lookupPc bias)).1 = false
  has_cfi : elfCtx.guCfi = some cfi
  parsed : (parseElf e.saved walk.ctx s.globals elfCtx.id cfi (s.lookupPc bias)).1.ok = true
  recovers : recoverCaller e.depth ⟨e.target, bias, rawSp, walk.info⟩ (s.loopCount == 0)
    (parseElf e.saved walk.ctx s.globals elfCtx.id cfi (s.lookupPc bias)).2.2 =
      .ok (.ok recovered, globals)
  returns : recovered.ra ≠ 0#64
  progress : s.prevSp < recovered.sp ∧ recovered.ra ≠ s.prevPc

variable (c : Caller e rawSp s)

namespace Caller

/-- The record of the frame. -/
def frame : FrameRecord :=
  elfFrame c.walk.ctx c.elfCtx s.pc (s.pc - c.bias)
    (guLookupElfSymbol c.elfCtx (s.lookupPc c.bias)).2
    (guLookupElfSymbol c.elfCtx (s.lookupPc c.bias)).1

/-- What the parse of the row reports. -/
def outcome : ParseOutcome :=
  (parseElf e.saved c.walk.ctx s.globals c.elfCtx.id c.cfi (s.lookupPc c.bias)).1

/-- The register block after the turn: frame pointer, stack pointer and return address. -/
def info (c : Caller e rawSp s) : StackInfo :=
  let arch := e.target.arch
  writeRegs arch (writeRegs arch (writeFramePointer arch c.walk.info c.recovered.bp)
    arch.regNameRsp c.recovered.sp) arch.pcRegno c.recovered.ra

/-- The state at the head of the next turn. -/
def next : DwarfState H P where
  walk := { c.walk with
    ctx := (parseElf e.saved c.walk.ctx s.globals c.elfCtx.id c.cfi (s.lookupPc c.bias)).2.1
    info := c.info }
  globals := c.globals
  pc := c.recovered.ra
  sp := c.recovered.sp
  loopCount := if e.verbose then s.loopCount + 1 else s.loopCount
  level := s.level + 1
  currentSignalFrame := c.outcome.signalFrame
  prevSp := c.recovered.sp
  prevPc := c.recovered.ra
  reason := returnedReason c.recovered.bp
  frames := s.frames ++ [c.frame]

/-- A turn with a caller goes on in it. -/
theorem turn : dwarfTurn e rawSp s = .next c.next := by
  have hbottom := c.not_bottom
  have hparsed := c.parsed
  have hrecovers := c.recovers
  simp only [DwarfState.lookupPc] at hbottom hparsed hrecovers
  have hprogress : ¬(c.recovered.sp ≤ s.prevSp ∨ c.recovered.ra = s.prevPc) := by
    rintro (hle | heq)
    · exact absurd c.progress.1 (BitVec.not_lt.mpr hle)
    · exact c.progress.2 heq
  simp only [dwarfTurn, c.located, c.mapped, emitFrame, hbottom, Bool.false_eq_true, if_false,
    unwindFrame, c.has_cfi, guCfiLookupPcForFrame, hparsed, if_true, hrecovers, enterCaller,
    if_neg c.returns, if_neg hprogress]
  rfl

end Caller

/-- A caller is entered only when there is progress. -/
theorem enterCaller_next {arch : Arch} {signalFrame : Bool} {r : Recovered}
    (h : enterCaller arch s signalFrame r = .next s') :
    r.ra ≠ 0#64 ∧ s.prevSp < r.sp ∧ r.ra ≠ s.prevPc := by
  unfold enterCaller at h
  dsimp only at h
  split at h
  · cases h
  rename_i hra
  split at h
  · cases h
  · rename_i hprogress
    obtain ⟨hsp, hpc⟩ := not_or.mp hprogress
    exact ⟨hra, BitVec.not_le.mp hsp, hpc⟩

variable {elfCtx : PerElfCtx P} {bias : Word} {initialFrame : Bool}

/-- The part of a turn behind the emitted frame goes on only with a decoded row. -/
theorem unwindFrame_next (h : unwindFrame e rawSp initialFrame s elfCtx bias = .next s') :
    ∃ cfi recovered globals, elfCtx.guCfi = some cfi ∧
      (parseElf e.saved s.walk.ctx s.globals elfCtx.id cfi
        (guCfiLookupPcForFrame (s.pc - bias) initialFrame s.currentSignalFrame)).1.ok = true ∧
      recoverCaller e.depth ⟨e.target, bias, rawSp, s.walk.info⟩ initialFrame
        (parseElf e.saved s.walk.ctx s.globals elfCtx.id cfi
          (guCfiLookupPcForFrame (s.pc - bias) initialFrame s.currentSignalFrame)).2.2 =
        .ok (.ok recovered, globals) ∧
      recovered.ra ≠ 0#64 ∧ s.prevSp < recovered.sp ∧ recovered.ra ≠ s.prevPc := by
  unfold unwindFrame at h
  split at h
  · cases h
  rename_i cfi hcfi
  dsimp only at h
  split at h
  · rename_i hparsed
    split at h
    · cases h
    · cases h
    · rename_i recovered globals hrecovers
      have hprogress := enterCaller_next h
      exact ⟨cfi, recovered, globals, hcfi, hparsed, hrecovers, hprogress⟩
  · cases h

/-- A turn goes on only with a caller. -/
theorem exists_caller (h : dwarfTurn e rawSp s = .next s') :
    ∃ c : Caller e rawSp s, s' = c.next := by
  obtain ⟨c⟩ : Nonempty (Caller e rawSp s) := by
    unfold dwarfTurn at h
    dsimp only at h
    split at h
    · cases h
    rename_i walk hlocated
    split at h
    · cases h
    · cases h
    · rename_i elfCtx bias hmapped
      unfold emitFrame at h
      dsimp only at h
      split at h
      · cases h
      rename_i hbottom
      obtain ⟨cfi, recovered, globals, hcfi, hparsed, hrecovers, hra, hprogress⟩ :=
        unwindFrame_next h
      exact ⟨⟨walk, elfCtx, bias, cfi, recovered, globals, hlocated, hmapped,
        Bool.eq_false_iff.mpr hbottom, hcfi, hparsed, hrecovers, hra, hprogress⟩⟩
  rw [c.turn] at h
  exact ⟨c, (Turn.next.inj h).symm⟩

/-! ## Recovered callers -/

section Recover

variable {depth : Nat} {env : EvalEnv} {globals globals' : Globals H}

variable {reason : UnwindReason}

private theorem recoverReg_error {regno : Nat}
    (h : recoverReg depth env globals regno = .ok (.error reason, globals')) :
    reason ∈ evalReasons := by
  unfold recoverReg at h
  split at h
  · cases h
  · rename_i hgen
    cases h
    exact genReg_error_mem hgen

private theorem orSampled_error {arch : Arch} {info : StackInfo} {ra : Except UnwindReason Word}
    (h : orSampled arch info initialFrame ra = .error reason) : ra = .error reason := by
  unfold orSampled at h
  split at h
  · cases h
  split at h
  · cases h
  · cases h
    rfl

/-- How the three calls end: one of the first two gives up, or all of them have been made. -/
inductive RecoverEnd (depth : Nat) (env : EvalEnv) (initialFrame : Bool)
    (globals globals' : Globals H) : Except UnwindReason Recovered → Prop where
  | returnAddress {reason : UnwindReason}
      (hra : recoverReg depth env globals env.target.arch.pcRegno =
        .ok (.error reason, globals')) :
      RecoverEnd depth env initialFrame globals globals' (.error reason)
  | stackPointer {globals₁ : Globals H} {reason : UnwindReason}
      (hsp : recoverReg depth env globals₁ env.target.arch.regNameRsp =
        .ok (.error reason, globals')) :
      RecoverEnd depth env initialFrame globals globals' (.error reason)
  | all {ra : Except UnwindReason Word} {globals₁ globals₂ : Globals H} {r : Recovered}
      (hra : recoverReg depth env globals env.target.arch.pcRegno = .ok (ra, globals₁))
      (hval : orSampled env.target.arch env.info initialFrame ra = .ok r.ra)
      (hsp : recoverReg depth env globals₁ env.target.arch.regNameRsp = .ok (.ok r.sp, globals₂))
      (hbp : recoverReg depth env globals₂ env.target.arch.regNameRbp = .ok (r.bp, globals')) :
      RecoverEnd depth env initialFrame globals globals' (.ok r)

private theorem recoverCaller_cases {result : Except UnwindReason Recovered}
    (h : recoverCaller depth env initialFrame globals = .ok (result, globals')) :
    RecoverEnd depth env initialFrame globals globals' result := by
  unfold recoverCaller at h
  obtain ⟨⟨ra, globals₁⟩, hra, h⟩ := exists_of_bind_ok h
  dsimp only at h
  split at h
  · rename_i hsampled
    cases h
    exact .returnAddress (orSampled_error hsampled ▸ hra)
  · rename_i val hval
    obtain ⟨⟨sp, globals₂⟩, hsp, h⟩ := exists_of_bind_ok h
    cases sp with
    | error reason =>
      cases h
      exact .stackPointer hsp
    | ok sp =>
      obtain ⟨third, hbp, h⟩ := exists_of_bind_ok h
      cases h
      exact .all hra hval hsp hbp

/-- The three registers one after the other. -/
theorem recoverCaller_ok {r : Recovered}
    (h : recoverCaller depth env initialFrame globals = .ok (.ok r, globals')) :
    ∃ ra globals₁ globals₂,
      recoverReg depth env globals env.target.arch.pcRegno = .ok (ra, globals₁) ∧
      orSampled env.target.arch env.info initialFrame ra = .ok r.ra ∧
      recoverReg depth env globals₁ env.target.arch.regNameRsp = .ok (.ok r.sp, globals₂) ∧
      recoverReg depth env globals₂ env.target.arch.regNameRbp = .ok (r.bp, globals') := by
  cases recoverCaller_cases h with
  | all hra hval hsp hbp => exact ⟨_, _, _, hra, hval, hsp, hbp⟩

/-- A caller that is given up is one whose return address or stack pointer is not recovered. -/
theorem recoverCaller_error
    (h : recoverCaller depth env initialFrame globals = .ok (.error reason, globals')) :
    reason ∈ evalReasons := by
  cases recoverCaller_cases h with
  | returnAddress hra => exact recoverReg_error hra
  | stackPointer hsp => exact recoverReg_error hsp

end Recover

/-- At the head behind a turn, the reason is what `gen_reg` has returned for the frame pointer. -/
theorem Caller.reason_mem : c.next.reason ∈ .ok :: evalReasons := by
  obtain ⟨_, _, _, -, -, -, hbp⟩ := recoverCaller_ok c.recovers
  change returnedReason c.recovered.bp ∈ _
  cases hresult : c.recovered.bp with
  | ok bp => exact List.mem_cons_self
  | error reason => exact List.mem_cons_of_mem _ (recoverReg_error (hresult ▸ hbp))

/-! ## Turns that stop -/

/-- The reasons to stop in a turn that has emitted its frame. -/
def stopReasons : List UnwindReason :=
  [.endOfStack, .noCfi, .cfiFrameDecodeFailed, .noProgress] ++ evalReasons

/-- How the loop is left behind an emitted frame. -/
structure Leaves (s : DwarfState H P) (done : DwarfEnd H P) : Prop where
  frames : done.frames = s.frames
  level : done.level = s.level
  pidCtx : done.walk.pidCtx = s.walk.pidCtx
  current : done.appendCurrentPc = false
  reason : done.reason ∈ stopReasons

variable {done : DwarfEnd H P}

private theorem enterCaller_stop {arch : Arch} {signalFrame : Bool} {r : Recovered}
    (h : enterCaller arch s signalFrame r = .stop (.ok done)) : Leaves s done := by
  unfold enterCaller at h
  dsimp only at h
  split at h
  · cases h
    exact ⟨rfl, rfl, rfl, rfl, (by decide : UnwindReason.endOfStack ∈ stopReasons)⟩
  · split at h
    · cases h
      exact ⟨rfl, rfl, rfl, rfl, (by decide : UnwindReason.noProgress ∈ stopReasons)⟩
    · cases h

/-- What a walk has emitted when it stops behind a frame, and why it stops. -/
theorem unwindFrame_stop (h : unwindFrame e rawSp initialFrame s elfCtx bias = .stop (.ok done)) :
    Leaves s done := by
  unfold unwindFrame at h
  split at h
  · cases h
    exact ⟨rfl, rfl, rfl, rfl, (by decide : UnwindReason.noCfi ∈ stopReasons)⟩
  · dsimp only at h
    split at h
    · split at h
      · cases h
      · rename_i hrecover
        cases h
        exact ⟨rfl, rfl, rfl, rfl, List.mem_append_right _ (recoverCaller_error hrecover)⟩
      · obtain ⟨hframes, hlevel, hpid, hcurrent, hreason⟩ := enterCaller_stop h
        exact ⟨hframes, hlevel, hpid, hcurrent, hreason⟩
    · cases h
      exact ⟨rfl, rfl, rfl, rfl, (by decide : UnwindReason.cfiFrameDecodeFailed ∈ stopReasons)⟩

/-- A run that can be stuck in an evaluation nested too deep only. -/
def OnlyDeep {α : Type} (x : Except Stuck α) : Prop := ∀ stuck, x = .error stuck → stuck = .tooDeep

private theorem OnlyDeep.bind {α β : Type} {x : Except Stuck α} {f : α → Except Stuck β}
    (hx : OnlyDeep x) (hf : ∀ a, OnlyDeep (f a)) : OnlyDeep (x >>= f) := by
  cases x with
  | ok a => exact hf a
  | error stuck => exact fun stuck' h => hx stuck' (congrArg Except.error (Except.error.inj h))

private theorem recoverReg_onlyDeep (depth : Nat) (env : EvalEnv) (globals : Globals H)
    (regno : Nat) : OnlyDeep (recoverReg depth env globals regno) := by
  unfold recoverReg
  split
  · exact fun stuck h => (Except.error.inj h).symm
  · exact nofun

private theorem recoverCaller_onlyDeep (depth : Nat) (env : EvalEnv) (initialFrame : Bool)
    (globals : Globals H) : OnlyDeep (recoverCaller depth env initialFrame globals) := by
  unfold recoverCaller
  refine (recoverReg_onlyDeep depth env globals _).bind fun ra => ?_
  dsimp only
  split
  · exact nofun
  refine (recoverReg_onlyDeep depth env ra.2 _).bind fun sp => ?_
  split
  · exact nofun
  · exact (recoverReg_onlyDeep depth env sp.2 _).bind fun bp => nofun

private theorem unwindFrame_error {stuck : Stuck}
    (h : unwindFrame e rawSp initialFrame s elfCtx bias = .stop (.error stuck)) :
    stuck = .tooDeep := by
  unfold unwindFrame at h
  split at h
  · cases h
  dsimp only at h
  split at h
  · split at h
    · rename_i hrecover
      cases h
      exact recoverCaller_onlyDeep _ _ _ _ _ hrecover
    · cases h
    · unfold enterCaller at h
      dsimp only at h
      split at h
      · cases h
      · split at h <;> cases h
  · cases h

/-- The frame is at its pc. -/
theorem elfFrame_absPc (ctx : GuContext P) (elfCtx : PerElfCtx P)
    (pc relativePc funcOffset : Word) (sym : Option String) :
    (elfFrame ctx elfCtx pc relativePc funcOffset sym).absPc = pc := by
  unfold elfFrame
  split <;> rfl

/-- A turn that stops behind the mapping of its pc has emitted the frame. -/
theorem emitFrame_stop (h : emitFrame e rawSp initialFrame s elfCtx bias = .stop (.ok done)) :
    let found := guLookupElfSymbol elfCtx
      (guFrameLookupPcForReturnAddress (s.pc - bias) initialFrame s.currentSignalFrame)
    Leaves { s with frames := s.frames ++
      [elfFrame s.walk.ctx elfCtx s.pc (s.pc - bias) found.2 found.1] } done := by
  unfold emitFrame at h
  dsimp only at h
  split at h
  · cases h
    exact ⟨rfl, rfl, rfl, rfl, (by decide : UnwindReason.endOfStack ∈ stopReasons)⟩
  · exact unwindFrame_stop h

/-- How a turn that stops leaves the loop: outside every ELF file without a frame, or behind the
frame of its pc. -/
inductive TurnStop (e : UnwindEnv H P) (s : DwarfState H P) (done : DwarfEnd H P) : Prop where
  | unmapped {walk : Walk P} (located : s.walk.locate e.world s.pc = .ok walk)
      (mapped : guGetElfCtxFromItem walk = .ok none)
      (ends : done =
        ⟨walk, s.globals, s.pc, .noExecPc, s.level + 1, walk.elfItem.isSome, s.frames⟩)
  | emitted {walk : Walk P} {elfCtx : PerElfCtx P} {bias : Word} {frame : FrameRecord}
      (located : s.walk.locate e.world s.pc = .ok walk)
      (mapped : guGetElfCtxFromItem walk = .ok (some (elfCtx, bias)))
      (absPc : frame.absPc = s.pc)
      (leaves : Leaves { s with
        walk := walk, level := s.level + 1, frames := s.frames ++ [frame] } done)

/-- A turn that stops does so in one of the two ways. -/
theorem dwarfTurn_stop (h : dwarfTurn e rawSp s = .stop (.ok done)) : TurnStop e s done := by
  unfold dwarfTurn at h
  dsimp only at h
  split at h
  · cases h
  rename_i walk hlocated
  split at h
  · cases h
  · rename_i hmapped
    cases h
    exact .unmapped hlocated hmapped rfl
  · rename_i hmapped
    obtain ⟨hframes, hlevel, hpid, hcurrent, hreason⟩ := emitFrame_stop h
    exact .emitted hlocated hmapped (elfFrame_absPc ..) ⟨hframes, hlevel, hpid, hcurrent, hreason⟩

/-- A turn is stuck at the mapping of its pc, or in an evaluation that is nested too deep. -/
theorem dwarfTurn_error {stuck : Stuck} (h : dwarfTurn e rawSp s = .stop (.error stuck)) :
    s.walk.locate e.world s.pc = .error stuck ∨
      (∃ walk, s.walk.locate e.world s.pc = .ok walk ∧ guGetElfCtxFromItem walk = .error stuck) ∨
      stuck = .tooDeep := by
  unfold dwarfTurn at h
  dsimp only at h
  split at h
  · rename_i hlocated
    cases h
    exact .inl hlocated
  · rename_i walk hlocated
    split at h
    · rename_i hmapped
      cases h
      exact .inr (.inl ⟨walk, hlocated, hmapped⟩)
    · cases h
    · refine .inr (.inr ?_)
      unfold emitFrame at h
      dsimp only at h
      split at h
      · cases h
      · exact unwindFrame_error h

/-! ## The end of the loop -/

/-- What the loop leaves when its budget is spent. -/
def DwarfState.spent (s : DwarfState H P) : DwarfEnd H P :=
  { s.leave (if s.reason = .unknown then .truncated else s.reason) false with
    level := s.level + 1 }

/-- The loop is left by a turn that stops, or with its budget spent. -/
theorem dwarfLoop_ends {start : DwarfState H P} (h : dwarfLoop e start = .ok done) :
    (∃ n s, n < maxBacktraceLevel ∧ headState (dwarfTurn e start.sp) n start = some s ∧
      dwarfTurn e start.sp s = .stop (.ok done)) ∨
    ∃ s, headState (dwarfTurn e start.sp) maxBacktraceLevel start = some s ∧ done = s.spent := by
  rcases loop_ends (dwarfTurn e start.sp) (fun s => .ok s.spent) maxBacktraceLevel start with
    ⟨n, hn, s, hhead, hstop⟩ | ⟨s, hhead, hout⟩
  · exact .inl ⟨n, s, hn, hhead, hstop.trans (congrArg Turn.stop h)⟩
  · exact .inr ⟨s, hhead, Except.ok.inj (h.symm.trans hout)⟩

end Gunwinder
