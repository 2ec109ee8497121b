import Gunwinder.Walks.Counts
import Gunwinder.Walks.Refinement

/-!
# Where the pcs of a DWARF walk come from

When the return address of the initial frame is not recovered, the DWARF loop takes the register
it would have written it to. On x86 that is the sampled pc itself, and the test for progress
compares with a previous pc that is still zero, so the sampled frame is emitted a second time.
Behind the first turn the test ends the walk.
-/

namespace Gunwinder

open Gunwinder.Core

variable {H P : Type} {e : UnwindEnv H P} {rawSp : Word} {start s s' : DwarfState H P}
  {done : DwarfEnd H P} {n : Nat}

/-- Where the rules of the row for the pc are evaluated, and what is installed for it; `none` where
the turn does not come to a row. -/
def DwarfState.row (e : UnwindEnv H P) (rawSp : Word) (s : DwarfState H P) :
    Option (EvalEnv × Globals H) :=
  match s.walk.locate e.world s.pc with
  | .error _ => none
  | .ok walk =>
    match guGetElfCtxFromItem walk with
    | .ok (some (elfCtx, bias)) =>
      match elfCtx.guCfi with
      | none => none
      | some cfi =>
        let (outcome, _, globals) :=
          parseElf e.saved walk.ctx s.globals elfCtx.id cfi (s.lookupPc bias)
        if outcome.ok then some (⟨e.target, bias, rawSp, walk.info⟩, globals) else none
    | _ => none

/-- What evaluating the return-address rule of the row gives. -/
def DwarfState.returnRule (e : UnwindEnv H P) (rawSp : Word) (s : DwarfState H P) :
    Option (Except UnwindReason Word) := do
  let (env, globals) ← s.row e rawSp
  let (result, _) ← (recoverReg e.depth env globals e.target.arch.pcRegno).toOption
  return result

/-- What evaluating the stack-pointer rule of the row gives, behind the return address. -/
def DwarfState.stackRule (e : UnwindEnv H P) (rawSp : Word) (s : DwarfState H P) :
    Option (Except UnwindReason Word) := do
  let (env, globals) ← s.row e rawSp
  let (_, globals) ← (recoverReg e.depth env globals e.target.arch.pcRegno).toOption
  let (result, _) ← (recoverReg e.depth env globals e.target.arch.regNameRsp).toOption
  return result

/-- What leads to a row. -/
theorem DwarfState.row_eq_some {env : EvalEnv} {globals : Globals H}
    (h : s.row e rawSp = some (env, globals)) : ∃ walk elfCtx bias cfi,
      s.walk.locate e.world s.pc = .ok walk ∧
      guGetElfCtxFromItem walk = .ok (some (elfCtx, bias)) ∧ elfCtx.guCfi = some cfi ∧
      (parseElf e.saved walk.ctx s.globals elfCtx.id cfi (s.lookupPc bias)).1.ok = true ∧
      env = ⟨e.target, bias, rawSp, walk.info⟩ ∧
      globals = (parseElf e.saved walk.ctx s.globals elfCtx.id cfi (s.lookupPc bias)).2.2 := by
  unfold DwarfState.row at h
  split at h
  · cases h
  rename_i walk hlocated
  split at h
  · rename_i elfCtx bias hmapped
    split at h
    · cases h
    rename_i cfi hcfi
    dsimp only at h
    split at h
    · rename_i hparsed
      cases h
      exact ⟨walk, elfCtx, bias, cfi, hlocated, hmapped, hcfi, hparsed, rfl, rfl⟩
    · cases h
  · cases h

variable (c : Caller e rawSp s)

/-- The frame of a caller has a row. -/
theorem Caller.row :
    s.row e rawSp = some (⟨e.target, c.bias, rawSp, c.walk.info⟩,
      (parseElf e.saved c.walk.ctx s.globals c.elfCtx.id c.cfi (s.lookupPc c.bias)).2.2) := by
  simp only [DwarfState.row, c.located, c.mapped, c.has_cfi, c.parsed, if_true]

/-- The rule of a frame with a caller is evaluated, and the caller's pc is its value or the
sampled register. -/
theorem Caller.returnRule :
    ∃ result, s.returnRule e rawSp = some result ∧
      orSampled e.target.arch c.walk.info (s.loopCount == 0) result = .ok c.recovered.ra := by
  obtain ⟨result, globals₁, -, hrule, hsampled, -⟩ := recoverCaller_ok c.recovers
  refine ⟨result, ?_, hsampled⟩
  have hrule : recoverReg e.depth _ _ e.target.arch.pcRegno = _ := hrule
  simp [DwarfState.returnRule, c.row, hrule, Except.toOption]

/-- The stack-pointer rule of a frame with a caller gives the caller's stack pointer. -/
theorem Caller.stackRule : s.stackRule e rawSp = some (.ok c.recovered.sp) := by
  obtain ⟨result, globals₁, globals₂, hrule, -, hsp, -⟩ := recoverCaller_ok c.recovers
  have hrule : recoverReg e.depth _ _ e.target.arch.pcRegno = _ := hrule
  have hsp : recoverReg e.depth _ _ e.target.arch.regNameRsp = _ := hsp
  simp [DwarfState.stackRule, c.row, hrule, hsp, Except.toOption]

/-! ## The register of the return address -/

private theorem eq_of_getRegs_writeRegs {arch : Arch} {info : StackInfo} {r : Nat}
    {val found : Word}
    (hr : r < arch.regCount) (h : getRegs arch (writeRegs arch info r val) r = some found) :
    found = val := by
  cases hregs : info.regs with
  | none => simp [writeRegs, getRegs, hregs] at h
  | some block =>
    rw [getRegs_writeRegs (by rw [hregs]; rfl) hr, if_pos rfl] at h
    exact (Option.some.inj h).symm

private theorem Arch.pcRegno_lt (arch : Arch) : arch.pcRegno < arch.regCount := by
  cases arch <;> decide

/-- The register of the return address holds the pc of the frame in hand. -/
def DwarfState.PcInRegister (arch : Arch) (s : DwarfState H P) : Prop :=
  ∀ val, getRegs arch s.walk.info arch.pcRegno = some val → val = s.pc

/-- A turn leaves the return address in its register and as the previous pc. -/
theorem Caller.pcInRegister : c.next.PcInRegister e.target.arch :=
  fun _ hval => eq_of_getRegs_writeRegs e.target.arch.pcRegno_lt hval

/-- A caller whose rule fails has the pc of the frame in hand. -/
theorem Caller.ra_of_failed (hregister : s.PcInRegister e.target.arch) {reason : UnwindReason}
    (hfailed : s.returnRule e rawSp = some (.error reason)) : c.recovered.ra = s.pc := by
  obtain ⟨result, hrule, hsampled⟩ := c.returnRule
  cases hfailed.symm.trans hrule
  unfold orSampled at hsampled
  dsimp only at hsampled
  split at hsampled
  · rename_i val _ hval
    cases hsampled
    refine hregister _ ?_
    -- locating the pc has kept the registers
    have hregs := (Walk.locate_spec c.located).2.regs
    simpa only [getRegs, hregs] using hval
  · cases hsampled

/-- A caller other than the frame in hand comes from the rule. -/
theorem Caller.ra_of_rule (hregister : s.PcInRegister e.target.arch) (hra : c.recovered.ra ≠ s.pc) :
    s.returnRule e rawSp = some (.ok c.recovered.ra) := by
  obtain ⟨result, hrule, hsampled⟩ := c.returnRule
  cases result with
  | error reason => exact absurd (c.ra_of_failed hregister hrule) hra
  | ok val =>
    obtain rfl : val = c.recovered.ra := Except.ok.inj hsampled
    exact hrule

/-- Behind the first turn the pc is in its register and is the previous one. -/
theorem headState_pcInRegister (h : headState (dwarfTurn e rawSp) (n + 1) start = some s) :
    s.PcInRegister e.target.arch ∧ s.prevPc = s.pc := by
  obtain ⟨t, -, hturn⟩ := headState_pred h
  obtain ⟨c, rfl⟩ := exists_caller hturn
  exact ⟨c.pcInRegister, rfl⟩

/-! ## Frames and heads -/

/-- The frame behind turn `i` is that of the pc at its head. -/
def FramesAt (e : UnwindEnv H P) (start : DwarfState H P) (frames : List FrameRecord) : Prop :=
  ∀ i frame, frames[i]? = some frame →
    ∃ t, headState (dwarfTurn e start.sp) i start = some t ∧ frame.absPc = t.pc

private theorem FramesAt.append {frames : List FrameRecord} {frame : FrameRecord}
    (h : FramesAt e start frames) (hlength : frames.length = n)
    (hhead : headState (dwarfTurn e start.sp) n start = some s) (hpc : frame.absPc = s.pc) :
    FramesAt e start (frames ++ [frame]) := by
  intro i found hfound
  rcases Nat.lt_trichotomy i frames.length with hlt | heq | hgt
  · rw [List.getElem?_append_left hlt] at hfound
    exact h i found hfound
  · rw [heq, List.getElem?_concat_length] at hfound
    cases hfound
    exact ⟨s, by rw [heq, hlength]; exact hhead, hpc⟩
  · rw [List.getElem?_eq_none (by simp only [List.length_append, List.length_singleton]; omega)]
      at hfound
    cases hfound

private theorem headState_framesAt (hframes : start.frames = [])
    (h : headState (dwarfTurn e start.sp) n start = some s) : FramesAt e start s.frames := by
  refine headState_invariant (fun _ s => FramesAt e start s.frames) ?_ ?_ h
  · rw [hframes]
    intro i frame hframe
    cases hframe
  · intro n s s' hhead hat hturn
    obtain ⟨c, rfl⟩ := exists_caller hturn
    have hlength := (headState_counts hhead).2
    rw [hframes, List.length_nil, Nat.zero_add] at hlength
    exact hat.append hlength hhead (elfFrame_absPc ..)

private theorem dwarfLoop_framesAt (hframes : start.frames = [])
    (h : dwarfLoop e start = .ok done) : FramesAt e start done.frames := by
  rcases dwarfLoop_ends h with ⟨n, s, -, hhead, hstop⟩ | ⟨s, hhead, rfl⟩
  · have hat := headState_framesAt hframes hhead
    cases dwarfTurn_stop hstop with
    | unmapped _ _ hends =>
      subst hends
      exact hat
    | emitted _ _ hpc hleaves =>
      have hlength := (headState_counts hhead).2
      rw [hframes, List.length_nil, Nat.zero_add] at hlength
      rw [hleaves.frames]
      exact hat.append hlength hhead hpc
  · exact headState_framesAt hframes hhead

private theorem GuContext.modifyElf_isSome {f : PerElfCtx P → PerElfCtx P}
    (hf : ∀ elfCtx, (f elfCtx).id = elfCtx.id) (ctx : GuContext P) (id j : Nat) :
    ((ctx.modifyElf id f).elf j).isSome = (ctx.elf j).isSome := by
  simp only [GuContext.modifyElf, GuContext.elf, lookup_update hf, Option.isSome_map]

/-- The frame in hand is emitted once more when the caller has its pc. -/
theorem Caller.emits_again (hra : c.recovered.ra = s.pc) : c.next.Emits e.world := by
  have hmapped := c.mapped
  unfold guGetElfCtxFromItem at hmapped
  split at hmapped
  · cases hmapped
  rename_i item hitem
  split at hmapped
  · cases hmapped
  rename_i mapCtx hpayload
  have hcontains := (Walk.locate_spec c.located).1 item hitem
  have hnext : c.next.walk.elfItem = some item := hitem
  have hpc : c.next.pc = s.pc := hra
  have hcovers : c.next.walk.covers c.next.pc = true := by
    simp only [Walk.covers, hnext, hpayload, Option.isSome_some, Bool.true_and,
      decide_eq_true_eq, hpc]
    exact hcontains
  split at hmapped
  · cases hmapped
  rename_i elfCtx hfound
  -- the parse has changed the cache of an entry only
  have hkept : (c.next.walk.ctx.elf mapCtx.elfCtx).isSome = true := by
    change ((c.walk.ctx.modifyElf c.elfCtx.id _).elf mapCtx.elfCtx).isSome = true
    rw [GuContext.modifyElf_isSome]
    · exact Option.isSome_iff_exists.mpr ⟨elfCtx, hfound⟩
    · exact fun _ => rfl
  obtain ⟨elfCtx', hkept⟩ := Option.isSome_iff_exists.mp hkept
  refine ⟨c.next.walk, (elfCtx', item.start - mapCtx.mapExecVirtAddr), ?_, ?_⟩
  · simp only [Walk.locate, hcovers, if_true]
  · simp only [guGetElfCtxFromItem, hnext, hpayload, hkept]

/-- With a caller that is in an ELF file the loop emits a second frame. -/
theorem two_le_frames (c : Caller e start.sp start) (hemits : c.next.Emits e.world)
    (h : dwarfLoop e start = .ok done) : 2 ≤ done.frames.length := by
  have hone : headState (dwarfTurn e start.sp) 1 start = some c.next := headState_next c.turn 0
  rcases dwarfLoop_ends h with ⟨n, s, -, hhead, hstop⟩ | ⟨s, hhead, rfl⟩
  · have hlength := (headState_counts hhead).2
    cases dwarfTurn_stop hstop with
    | unmapped hlocate hmapped hends =>
      subst hends
      dsimp only
      match n with
      | 0 =>
        cases hhead
        rw [c.turn] at hstop
        cases hstop
      | 1 =>
        cases hone.symm.trans hhead
        obtain ⟨walk', found, hlocate', hmapped'⟩ := hemits
        cases hlocate.symm.trans hlocate'
        cases hmapped.symm.trans hmapped'
      | n + 2 => omega
    | emitted _ _ _ hleaves =>
      rw [hleaves.frames, List.length_append, List.length_singleton]
      cases n with
      | zero =>
        cases hhead
        rw [c.turn] at hstop
        cases hstop
      | succ n => omega
  · have hlength := (headState_counts hhead).2
    change 2 ≤ s.frames.length
    rw [hlength]
    exact Nat.le_add_left_of_le (by decide : 2 ≤ maxBacktraceLevel)

/-! ## Callers that are made up -/

/-- No frame of the loop is made up: a sampled pc whose return-address rule gives nothing has no
frame behind it, and every frame behind the first has a pc that a return-address rule gives. -/
structure NoFabricatedCaller (e : UnwindEnv H P) (start : DwarfState H P) (done : DwarfEnd H P) :
    Prop where
  unrecoverable : ∀ reason, start.returnRule e start.sp = some (.error reason) →
    done.frames.length ≤ 1
  evaluated : ∀ i frame, done.frames[i + 1]? = some frame →
    ∃ t, headState (dwarfTurn e start.sp) i start = some t ∧
      t.returnRule e start.sp = some (.ok frame.absPc)

/-- What ends the loop in the sampled frame, whatever its return-address rule gives: a pc of zero, a
stack-bottom symbol, a stack-pointer rule that fails, or a stack that does not advance. -/
inductive SampledFrameEnds (e : UnwindEnv H P) (start : DwarfState H P) : Prop where
  | zeroPc (h : start.pc = 0#64)
  | bottom {walk : Walk P} {elfCtx : PerElfCtx P} {bias : Word}
      (located : start.walk.locate e.world start.pc = .ok walk)
      (mapped : guGetElfCtxFromItem walk = .ok (some (elfCtx, bias)))
      (h : isStackBottomSymbol (guLookupElfSymbol elfCtx (start.lookupPc bias)).1 = true)
  | stackRule {reason : UnwindReason} (h : start.stackRule e start.sp = some (.error reason))
  | noProgress {sp : Word} (h : start.stackRule e start.sp = some (.ok sp)) (hle : sp ≤ start.sp)

/-- What the loop holds before its first turn on x86: the sampled pc is in its register. -/
structure Sampled (start : DwarfState H P) : Prop where
  pc : getRegs .x86 start.walk.info Arch.x86.pcRegno = some start.pc
  loopCount : start.loopCount = 0
  prevSp : start.prevSp = start.sp
  prevPc : start.prevPc = 0#64
  frames : start.frames = []

/-- The loop starts like that. -/
theorem sampled_of_dwarfStart {ctx : GuContext P} {globals : Globals H} {info : StackInfo}
    (harch : e.target.arch = .x86) (hstart : dwarfStart e ctx globals info = some start) :
    Sampled start := by
  unfold dwarfStart at hstart
  split at hstart
  · cases hstart
  rename_i pidCtx info' ctx' hopen
  split at hstart
  · cases hstart
  cases hstart
  obtain ⟨block, hblock⟩ := Option.isSome_iff_exists.mp (openProcess_block hopen)
  refine ⟨?_, rfl, rfl, rfl, rfl⟩
  rw [harch]
  simp [DwarfState.init, Walk.init, getRegs, hblock, Arch.pcRegno, Arch.regNameRip, Arch.regCount]

/-- A caller that the sampled frame's rule does not give has the sampled pc, so nothing ends
the loop there. -/
theorem SampledFrameEnds.no_caller (h : SampledFrameEnds e start) (hsampled : Sampled start)
    (c : Caller e start.sp start) (hra : c.recovered.ra = start.pc) : False := by
  cases h with
  | zeroPc hpc => exact c.returns (hra.trans hpc)
  | bottom located mapped hbottom =>
    cases located.symm.trans c.located
    cases mapped.symm.trans c.mapped
    rw [c.not_bottom] at hbottom
    cases hbottom
  | stackRule hrule => cases hrule.symm.trans c.stackRule
  | noProgress hrule hle =>
    cases hrule.symm.trans c.stackRule
    have hlt := c.progress.1
    rw [hsampled.prevSp] at hlt
    exact absurd hlt (BitVec.not_lt.mpr hle)

/-- A loop that returns has not been stuck at the rules of its first row. -/
theorem recoverCaller_of_done {walk : Walk P} {elfCtx : PerElfCtx P} {bias : Word} {cfi : GuCfi P}
    (hdone : dwarfLoop e start = .ok done)
    (hlocated : start.walk.locate e.world start.pc = .ok walk)
    (hmapped : guGetElfCtxFromItem walk = .ok (some (elfCtx, bias)))
    (hbottom : isStackBottomSymbol (guLookupElfSymbol elfCtx (start.lookupPc bias)).1 = false)
    (hcfi : elfCtx.guCfi = some cfi)
    (hparsed : (parseElf e.saved walk.ctx start.globals elfCtx.id cfi
      (start.lookupPc bias)).1.ok = true) (stuck : Stuck) :
    recoverCaller e.depth ⟨e.target, bias, start.sp, walk.info⟩ (start.loopCount == 0)
      (parseElf e.saved walk.ctx start.globals elfCtx.id cfi (start.lookupPc bias)).2.2 ≠
        .error stuck := by
  intro hstuck
  have hturn : dwarfTurn e start.sp start = .stop (.error stuck) := by
    simp only [DwarfState.lookupPc] at hbottom hparsed hstuck
    simp only [dwarfTurn, hlocated, hmapped, emitFrame, hbottom, Bool.false_eq_true, if_false,
      unwindFrame, hcfi, guCfiLookupPcForFrame, hparsed, if_true, hstuck]
  cases (loop_stop hturn _ _).symm.trans hdone

/-- Otherwise the turn goes on in such a caller. -/
theorem exists_caller_of_failed (harch : e.target.arch = .x86) (hsampled : Sampled start)
    (hdone : dwarfLoop e start = .ok done) {reason : UnwindReason}
    (hfailed : start.returnRule e start.sp = some (.error reason))
    (hends : ¬SampledFrameEnds e start) : Nonempty (Caller e start.sp start) := by
  obtain ⟨⟨env, globals⟩, hrow, hrule⟩ := Option.bind_eq_some_iff.mp hfailed
  obtain ⟨walk, elfCtx, bias, cfi, hlocated, hmapped, hcfi, hparsed, rfl, rfl⟩ :=
    DwarfState.row_eq_some hrow
  have hbottom : isStackBottomSymbol (guLookupElfSymbol elfCtx (start.lookupPc bias)).1 = false :=
    Bool.eq_false_iff.mpr fun h => hends (.bottom hlocated hmapped h)
  have hregs : getRegs e.target.arch walk.info e.target.arch.pcRegno = some start.pc := by
    have hsame := (Walk.locate_spec hlocated).2.regs
    rw [harch, ← hsampled.pc]
    simp only [getRegs, hsame]
  have hreturns := recoverCaller_of_done hdone hlocated hmapped hbottom hcfi hparsed
  cases hra : recoverReg e.depth ⟨e.target, bias, start.sp, walk.info⟩
      (parseElf e.saved walk.ctx start.globals elfCtx.id cfi (start.lookupPc bias)).2.2
      e.target.arch.pcRegno with
  | error stuck => simp [hra, Except.toOption] at hrule
  | ok first =>
    obtain ⟨result, globals₁⟩ := first
    obtain rfl : result = .error reason := by simpa [hra, Except.toOption] using hrule
    have hval : orSampled e.target.arch walk.info true (.error reason) = .ok start.pc := by
      simp only [orSampled, hregs]
    simp only [recoverCaller, hra, bind, Except.bind, hsampled.loopCount, beq_self_eq_true, hval]
      at hreturns
    cases hsp : recoverReg e.depth ⟨e.target, bias, start.sp, walk.info⟩ globals₁
        e.target.arch.regNameRsp with
    | error stuck =>
      rw [hsp] at hreturns
      exact absurd rfl (hreturns stuck)
    | ok second =>
      obtain ⟨sp, globals₂⟩ := second
      have hrule' : start.stackRule e start.sp = some sp := by
        simp [DwarfState.stackRule, hrow, hra, hsp, Except.toOption]
      cases sp with
      | error reason => exact absurd (.stackRule hrule') hends
      | ok sp =>
        cases hbp : recoverReg e.depth ⟨e.target, bias, start.sp, walk.info⟩ globals₂
            e.target.arch.regNameRbp with
        | error stuck =>
          rw [hsp] at hreturns
          simp only [hbp] at hreturns
          exact absurd rfl (hreturns stuck)
        | ok third =>
          refine ⟨⟨walk, elfCtx, bias, cfi, ⟨start.pc, sp, third.1⟩, third.2, hlocated, hmapped,
            hbottom, hcfi, hparsed, ?_, fun hpc => hends (.zeroPc hpc), ?_, ?_⟩⟩
          · simp only [recoverCaller, hra, bind, Except.bind, hsampled.loopCount,
              beq_self_eq_true, hval, hsp, hbp]
            rfl
          · rw [hsampled.prevSp]
            exact BitVec.not_le.mp fun hle => hends (.noProgress hrule' hle)
          · rw [hsampled.prevPc]
            exact fun hpc => hends (.zeroPc hpc)

/-- Unless the first turn goes on from a rule that fails, rules give all pcs behind the first. -/
theorem evaluated_of_no_fallback (hregister : start.PcInRegister e.target.arch)
    (hsampled : Sampled start) (hdone : dwarfLoop e start = .ok done)
    (hends : ∀ reason, start.returnRule e start.sp = some (.error reason) →
      SampledFrameEnds e start)
    (i : Nat) (frame : FrameRecord) (hframe : done.frames[i + 1]? = some frame) :
    ∃ t, headState (dwarfTurn e start.sp) i start = some t ∧
      t.returnRule e start.sp = some (.ok frame.absPc) := by
  obtain ⟨s, hhead, hpc⟩ := dwarfLoop_framesAt hsampled.frames hdone (i + 1) frame hframe
  obtain ⟨t, ht, hturn⟩ := headState_pred hhead
  obtain ⟨c, rfl⟩ := exists_caller hturn
  refine ⟨t, ht, ?_⟩
  rw [hpc]
  cases i with
  | zero =>
    cases ht
    obtain ⟨result, hrule, hval⟩ := c.returnRule
    cases result with
    | error reason =>
      exact ((hends reason hrule).no_caller hsampled c (c.ra_of_failed hregister hrule)).elim
    | ok val =>
      obtain rfl : val = c.recovered.ra := Except.ok.inj hval
      exact hrule
  | succ i =>
    -- taking the register again would be no progress
    obtain ⟨hregister, hprev⟩ := headState_pcInRegister ht
    exact c.ra_of_rule hregister (hprev ▸ c.progress.2)

/-- On x86 no caller is made up exactly when something else ends the loop in a sampled frame whose
return-address rule fails. -/
theorem dwarfLoop_no_fabricated_caller_iff {ctx : GuContext P} {globals : Globals H}
    {info : StackInfo} (harch : e.target.arch = .x86)
    (hstart : dwarfStart e ctx globals info = some start) (hdone : dwarfLoop e start = .ok done) :
    NoFabricatedCaller e start done ↔
      ∀ reason, start.returnRule e start.sp = some (.error reason) →
        SampledFrameEnds e start := by
  have hsampled := sampled_of_dwarfStart harch hstart
  have hregister : start.PcInRegister e.target.arch := by
    intro val hval
    rw [harch] at hval
    exact Option.some.inj (hval.symm.trans hsampled.pc)
  constructor
  · intro hnone reason hfailed
    by_contra hends
    obtain ⟨c⟩ := exists_caller_of_failed harch hsampled hdone hfailed hends
    have hra := c.ra_of_failed hregister hfailed
    have htwo := two_le_frames c (c.emits_again hra) hdone
    exact absurd (hnone.unrecoverable reason hfailed) (Nat.not_le.mpr htwo)
  · intro hends
    have hevaluated := evaluated_of_no_fallback hregister hsampled hdone hends
    refine ⟨fun reason hfailed => ?_, hevaluated⟩
    by_contra hmore
    obtain ⟨t, ht, hrule⟩ := hevaluated 0 _ (List.getElem?_eq_getElem (Nat.not_le.mp hmore))
    cases ht
    cases hfailed.symm.trans hrule

/-- The head of the sampled frame. -/
def sampledHead : DwarfState Unit (List CalcRules) :=
  (dwarfStart leafEnv (guInit false false false) ⟨.empty, (), .clear⟩ leafSample).get
    (by decide +kernel)

/-- A loop with two frames. -/
theorem dwarfLoop_no_fabricated_caller_leaf : ∃ done,
    dwarfLoop leafEnv sampledHead = .ok done ∧ done.frames.length = 2 ∧
      NoFabricatedCaller leafEnv sampledHead done := by
  have hlength : (dwarfLoop leafEnv sampledHead).map (fun done => done.frames.length) = .ok 2 := by
    decide +kernel
  have hrule : (sampledHead.returnRule leafEnv sampledHead.sp).map Except.toOption =
      some (some 0x400200#64) := by decide +kernel
  have hstart : dwarfStart leafEnv (guInit false false false) ⟨.empty, (), .clear⟩ leafSample =
      some sampledHead := (Option.some_get _).symm
  obtain ⟨done, hdone, hlength⟩ := exists_of_map_ok hlength
  refine ⟨done, hdone, hlength, ?_⟩
  refine (dwarfLoop_no_fabricated_caller_iff rfl hstart hdone).mpr ?_
  intro reason hfailed
  rw [hfailed] at hrule
  cases hrule

/-- A CIE whose row has no rule for the return address. -/
def noReturnCie : Cie (List CalcRules) :=
  { callerCie ([] : List CalcRules) with
    cieCalcCtx := ⟨⟨.offset, CfaData.zero.setBregx 7#64 8#64,
      ⟨.of .undefined 0#64, .of .sameValue 0#64, .of .valOffset 0#64⟩⟩, []⟩ }

/-- The three functions without return addresses. -/
def noReturnEnv : UnwindEnv Unit (List CalcRules) :=
  { leafEnv with
    world := { threeFunctions with
      elf := fun _ _ _ _ => some {
        buildId := [7#8]
        debugScanned := true
        golang := false
        execRanges := []
        execVirtAddr := 0#64
        symbols := guIntervalArrayInit [⟨0x100#64, 0x180#64, some "leaf"⟩]
        symSearchSize := 0
        cfi := some { callerCfi with
          data := { callerCfi.data with
            hdrIntervalArray := guIntervalArrayInit [⟨0#64, 0x1000#64,
              some ⟨some noReturnCie, 0#64, 0x1000#64, 0x1000, 0x1000⟩⟩] } } } } }

def noReturnStart : DwarfState Unit (List CalcRules) :=
  (dwarfStart noReturnEnv (guInit false false false) ⟨.empty, (), .clear⟩ leafSample).get
    (by decide +kernel)

/-- The sampled frame is emitted twice. -/
theorem dwarfLoop_emits_sampled_twice :
    dwarfStart noReturnEnv (guInit false false false) ⟨.empty, (), .clear⟩ leafSample =
        some noReturnStart ∧
      (noReturnStart.returnRule noReturnEnv noReturnStart.sp).map Except.toOption = some none ∧
      (dwarfLoop noReturnEnv noReturnStart).map (fun done => done.frames.map FrameRecord.absPc) =
        .ok [0x400110#64, 0x400110#64] := by
  refine ⟨(Option.some_get _).symm, ?_, ?_⟩
  · decide +kernel
  · decide +kernel

end Gunwinder
