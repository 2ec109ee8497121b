import Gunwinder.Walks.Logging
import Gunwinder.Walks.Simulation

/-!
# The DWARF loop refines virtual unwinding

With the turn counter advanced once per turn, the pcs the DWARF loop emits are an initial
part of the pc sequence of the reference unwinder, as long as the rules of every row name
the tracked registers only. The reference unwinder is given the table in force at each turn.
-/

namespace Gunwinder

open Gunwinder.Core

/-- The mappings in force at a turn of a walk: those left by the search of its pc. -/
def tablesInForce (e : UnwindEnv Unit (List CalcRules)) (start : ValueState) (k : Nat) :
    List Mapping :=
  match headState (dwarfTurn e start.sp) k start with
  | none => []
  | some s =>
    match s.walk.locate e.world s.pc with
    | .error _ => []
    | .ok walk => walk.mappings

/-- The registers a walk starts with. -/
def DwarfState.refStart {H P : Type} (arch : Arch) (start : DwarfState H P) : RefState :=
  ⟨start.pc, start.sp, (getRegs arch start.walk.info arch.regNameRbp).getD 0#64, true⟩

namespace RefWorld

variable (w : RefWorld)

/-- The rules of the row a step selects name tracked registers only. Of the sampled frame the
return address can be evaluated: there the loop falls back to a sampled register. -/
def RowSupported (k : Nat) (s : RefState) (m : Mapping) : Prop :=
  ∀ cfi ∈ m.cfi, ∀ row ∈ freshRow cfi (w.lookupPc s m.bias),
    ∀ cfaOps ∈ guCfiGetCfaOps cfi.sec.mem row.1,
      OpsTracked w.target.arch cfaOps ∧
      (∀ type ∈ [RegType.rip, .rbp, .rsp], ∀ ops ∈ guCfiGetRegsOps cfi.sec type row.1,
        OpsTracked w.target.arch ops) ∧
      (k = 0 → (ruleValue (w.env s m.bias) cfi.sec cfaOps row.1 .rip).isSome)

instance (k : Nat) (s : RefState) (m : Mapping) : Decidable (w.RowSupported k s m) :=
  inferInstanceAs (Decidable (∀ cfi ∈ m.cfi, ∀ row ∈ freshRow cfi (w.lookupPc s m.bias),
    ∀ cfaOps ∈ guCfiGetCfaOps cfi.sec.mem row.1, _ ∧ _ ∧ (_ → _)))

/-- All rows that the first `n` steps from a state select are supported. -/
def Supported : Nat → Nat → RefState → Prop
  | 0, _, _ => True
  | n + 1, k, s => (∀ m ∈ w.tables k, m.Contains s.pc → w.RowSupported k s m) ∧
      ∀ s' ∈ w.steps k s, Supported n (k + 1) s'

instance decidableSupported : ∀ n k s, Decidable (w.Supported n k s)
  | 0, _, _ => isTrue trivial
  | n + 1, k, s =>
    have := fun s' => decidableSupported n (k + 1) s'
    inferInstanceAs (Decidable ((∀ m ∈ w.tables k, m.Contains s.pc → w.RowSupported k s m) ∧
      ∀ s' ∈ w.steps k s, _))

private theorem PcSequence.cons {w : RefWorld} {k : Nat} {s s' : RefState} {rest : List Word}
    (hs : s' ∈ w.steps k s) (h : w.PcSequence (k + 1) s' rest) :
    w.PcSequence k s (s.pc :: rest) := ⟨rfl, .inr ⟨s', hs, h⟩⟩

private theorem PcSequence.single {w : RefWorld} {k : Nat} {s : RefState} :
    w.PcSequence k s [s.pc] :=
  ⟨rfl, .inl rfl⟩

end RefWorld

/-- In terms of the operation lists. -/
theorem RefWorld.RowSupported.lists {w : RefWorld} {k : Nat} {s : RefState} {m : Mapping}
    (h : w.RowSupported k s m) {cfi : ValueCfi} (hcfi : cfi ∈ m.cfi)
    (hok : (freshParse cfi (w.lookupPc s m.bias)).ok = true) :
    (freshParse cfi (w.lookupPc s m.bias)).ops.Tracked w.target.arch ∧
      (k = 0 → (opsValue (w.env s m.bias) (freshParse cfi (w.lookupPc s m.bias)).ops.cfa
        (freshParse cfi (w.lookupPc s m.bias)).ops.regs.rip).isSome) := by
  obtain ⟨rules, hrow, hops⟩ := freshParse_ok hok
  obtain ⟨hcfa, hrip, hrbp, hrsp⟩ := rowOps_columns hops
  obtain ⟨htracked, hregs, hvalue⟩ := h cfi hcfi _ hrow _ hcfa
  have hcolumn (type : RegType) (default : List DwarfOp)
      (hdefault : OpsTracked w.target.arch default) :
      OpsTracked w.target.arch ((guCfiGetRegsOps cfi.sec type rules).getD default) := by
    cases hlist : guCfiGetRegsOps cfi.sec type rules with
    | none => exact hdefault
    | some list => exact hregs type (by cases type <;> decide) list hlist
  refine ⟨⟨htracked, fun type => ?_⟩, fun hk => ?_⟩
  · cases type with
    | rip => rw [Columns.get, hrip]; exact hcolumn .rip [] (List.forall_mem_nil _)
    | rbp => rw [Columns.get, hrbp]; exact hcolumn .rbp [] (List.forall_mem_nil _)
    | rsp => rw [Columns.get, hrsp]; exact hcolumn .rsp _ htracked
  · have := hvalue hk
    rwa [ruleValue_eq_column, ← hrip] at this

section Run

variable {e : UnwindEnv Unit (List CalcRules)} {start s : ValueState} {k : Nat} {r : RefState}

/-- The reference unwinder along a walk. -/
abbrev walkWorld (e : UnwindEnv Unit (List CalcRules)) (start : ValueState) (lenient : Bool) :
    RefWorld := e.refWorld start (tablesInForce e start) lenient

section

variable (hsaved : e.saved = savedValues) (hverbose : e.verbose = true)
  (hhead : headState (dwarfTurn e start.sp) k start = some s)
  (hsim : Simulates e.target.arch start.walk.info k s r)
include hsaved hverbose hhead hsim

/-- One turn of a supported walk: the reference unwinder steps to the state of the next head. -/
theorem step_supported {n : Nat} (hrules : (walkWorld e start true).Supported (n + 1) k r)
    (c : Caller e start.sp s) :
    ∃ r' ∈ (walkWorld e start true).steps k r,
      headState (dwarfTurn e start.sp) (k + 1) start = some c.next ∧
      Simulates e.target.arch start.walk.info (k + 1) c.next r' ∧
      (walkWorld e start true).Supported n (k + 1) r' := by
  have htable : (walkWorld e start true).tables k = c.walk.mappings := by
    simp only [UnwindEnv.refWorld, tablesInForce, hhead, c.located]
  obtain ⟨m, hm, hcontains, hcaller⟩ := hsim.step (tablesInForce e start) hsaved c
    fun m hm hcontains cfi hcfi hok =>
      (hrules.1 m (htable ▸ hm) hcontains).lists hcfi hok
  have hstep := RefWorld.mem_steps (htable ▸ hm) hcontains hcaller
  exact ⟨_, hstep, headState_succ hhead c.turn,
    hsim.caller (hsaved ▸ cachedRows_kept) hverbose c, hrules.2 _ hstep⟩

/-- The heads of a supported walk. -/
theorem heads_refine {n j : Nat} (hrules : (walkWorld e start true).Supported n k r) (hj : j ≤ n)
    {s' : ValueState} (h : headState (dwarfTurn e start.sp) j s = some s') :
    ∃ tail, s'.frames = s.frames ++ tail ∧
      (walkWorld e start true).PcSequence k r (tail.map FrameRecord.absPc ++ [s'.pc]) := by
  induction j generalizing n k s r with
  | zero =>
    cases h
    refine ⟨[], (List.append_nil _).symm, ?_⟩
    rw [hsim.pc]
    exact .single
  | succ j ih =>
    cases n with
    | zero => omega
    | succ n =>
      cases hturn : dwarfTurn e start.sp s with
      | stop done => rw [headState_stop hturn] at h; cases h
      | next next =>
        obtain ⟨c, rfl⟩ := exists_caller hturn
        rw [headState_next hturn] at h
        obtain ⟨r', hstep, hhead', hsim', hrules'⟩ :=
          step_supported hsaved hverbose hhead hsim hrules c
        obtain ⟨tail, hframes, hpcs⟩ := ih hhead' hsim' hrules' (by omega) h
        refine ⟨c.frame :: tail, ?_, ?_⟩
        · rw [hframes]
          exact List.append_assoc _ _ _
        · have hpc : c.frame.absPc = r.pc := (elfFrame_absPc ..).trans hsim.pc
          rw [List.map_cons, List.cons_append, hpc]
          exact .cons hstep hpcs

end

/-- The result of a supported walk. -/
theorem loop_refines (hsaved : e.saved = savedValues) (hverbose : e.verbose = true) {n : Nat}
    {out : ValueState → Except Stuck (DwarfEnd Unit (List CalcRules))}
    (hout : ∀ s done, out s = .ok done → done.frames = s.frames)
    (hhead : headState (dwarfTurn e start.sp) k start = some s)
    (hsim : Simulates e.target.arch start.walk.info k s r)
    (hrules : (walkWorld e start true).Supported n k r) {done : DwarfEnd Unit (List CalcRules)}
    (h : loop (dwarfTurn e start.sp) out n s = .ok done) :
    ∃ tail, done.frames = s.frames ++ tail ∧
      (walkWorld e start true).PcSequence k r (tail.map FrameRecord.absPc) := by
  induction n generalizing k s r with
  | zero => exact ⟨[], (hout s done h).trans (List.append_nil _).symm, trivial⟩
  | succ n ih =>
    cases hturn : dwarfTurn e start.sp s with
    | stop result =>
      rw [loop_stop hturn] at h
      subst h
      cases dwarfTurn_stop hturn with
      | unmapped _ _ hends =>
        subst hends
        exact ⟨[], (List.append_nil _).symm, trivial⟩
      | @emitted _ _ _ frame _ _ hpc hleaves =>
        refine ⟨[frame], hleaves.frames, ?_⟩
        rw [List.map_singleton, hpc, hsim.pc]
        exact .single
    | next next =>
      obtain ⟨c, rfl⟩ := exists_caller hturn
      rw [loop_next hturn] at h
      obtain ⟨r', hstep, hhead', hsim', hrules'⟩ :=
        step_supported hsaved hverbose hhead hsim hrules c
      obtain ⟨tail, hframes, hpcs⟩ := ih hhead' hsim' hrules' h
      refine ⟨c.frame :: tail, ?_, ?_⟩
      · rw [hframes]
        exact List.append_assoc _ _ _
      · have hpc : c.frame.absPc = r.pc := (elfFrame_absPc ..).trans hsim.pc
        rw [List.map_cons, hpc]
        exact .cons hstep hpcs

variable {ctx : GuContext (List CalcRules)} {globals : Globals Unit} {info : StackInfo}

/-- A process is opened for a sample with registers. -/
theorem openProcess_block {P : Type} {w : World P} {ctx ctx' : GuContext P} {info info' : StackInfo}
    {pidCtx : PerPidCtx} (h : openProcess w ctx info = (.ok pidCtx, info', ctx')) :
    info'.regs.isSome := by
  unfold openProcess at h
  split at h
  · cases h
  rename_i hregs
  have hblock : info.regs.isSome := Option.isSome_iff_ne_none.mpr (by simpa using hregs)
  dsimp only at h
  split at h
  · obtain ⟨-, rest⟩ := Prod.mk.inj h
    cases rest
    exact hblock
  · split at h
    · cases h
    · split at h
      · cases h
      · obtain ⟨-, rest⟩ := Prod.mk.inj h
        cases rest
        rw [(hintGolang_sample _ info).regs]
        exact hblock

/-- The first turn stands for the sampled registers. -/
theorem dwarfStart_simulates (hctx : References cachedRows [] ctx)
    (hstart : dwarfStart e ctx globals info = some start) :
    Simulates e.target.arch start.walk.info 0 start (start.refStart e.target.arch) := by
  obtain ⟨hrefs, hopened⟩ := hctx.openProcess e.world info
  unfold dwarfStart at hstart
  split at hstart
  · cases hstart
  rename_i pidCtx info' ctx' heq
  split at hstart
  · cases hstart
  cases hstart
  rw [heq] at hrefs hopened
  obtain ⟨hfound, hsampled⟩ := hopened pidCtx rfl
  have hblock := openProcess_block heq
  refine ⟨.init hrefs hfound hsampled, rfl, rfl, rfl, rfl, rfl, hblock, fun n hn => ?_⟩
  obtain ⟨block, hregs⟩ := Option.isSome_iff_exists.mp hblock
  have hread (m : Nat) (hm : m < e.target.arch.regCount) :
      getRegs e.target.arch info' m = some (block m) := by
    have hlt : ¬((e.target.arch.regCount : Int) ≤ m) := by omega
    simp only [getRegs, hregs, Int.natCast_nonneg, Int.not_lt.mpr, if_false, Int.toNat_natCast]
    exact if_neg hlt
  have hlt := hn.lt
  obtain rfl | rfl | ⟨rfl, -⟩ := hn
  all_goals
    simp only [DwarfState.refStart, DwarfState.init, Walk.init, RefState.block, hread _ hlt]
    cases e.target.arch <;> simp [Arch.regNameRsp, Arch.regNameRbp, Arch.regNameRip]

/-- A walk starts in the initial state of the loop. -/
theorem dwarfStart_init (hstart : dwarfStart e ctx globals info = some start) :
    start = .init e.target.arch start.walk start.globals := by
  unfold dwarfStart at hstart
  split at hstart
  · cases hstart
  · split at hstart
    · cases hstart
    · exact Option.some.inj hstart ▸ rfl

/-- The loop starts without frames. -/
theorem dwarfStart_frames (hstart : dwarfStart e ctx globals info = some start) :
    start.frames = [] := by
  rw [dwarfStart_init hstart]
  rfl

/-- On every reachable context, and with the turn counter advanced once per turn, the pcs a
DWARF walk emits are an initial part of the pc sequence of the lenient reference unwinder,
when the rules of the rows name tracked registers only. This covers a walk that gets stuck:
a turn emits the pc at its head, if anything. -/
theorem dwarfLoop_refines_virtual_unwinding (hctx : Reachable savedValues ctx)
    (hsaved : e.saved = savedValues) (hverbose : e.verbose = true)
    (hstart : dwarfStart e ctx globals info = some start)
    (hrules : (walkWorld e start true).Supported maxBacktraceLevel 0
      (start.refStart e.target.arch)) :
    (∀ k s, k ≤ maxBacktraceLevel → headState (dwarfTurn e start.sp) k start = some s →
      (walkWorld e start true).PcSequence 0 (start.refStart e.target.arch)
        (s.frames.map FrameRecord.absPc ++ [s.pc])) ∧
    ∀ done, dwarfLoop e start = .ok done →
      (walkWorld e start true).PcSequence 0 (start.refStart e.target.arch)
        (done.frames.map FrameRecord.absPc) := by
  have hsim := dwarfStart_simulates (hctx.references cachedRows_kept) hstart
  have hframes : start.frames = [] := dwarfStart_frames hstart
  refine ⟨fun k s hk hhead => ?_, fun done hdone => ?_⟩
  · obtain ⟨tail, htail, hpcs⟩ := heads_refine hsaved hverbose rfl hsim hrules hk hhead
    rw [htail, hframes]
    exact hpcs
  · obtain ⟨tail, htail, hpcs⟩ := loop_refines hsaved hverbose
      (fun s done hout => by cases hout; rfl) rfl hsim hrules hdone
    rw [htail, hframes]
    exact hpcs

end Run

/-! ## Walks of small programs -/

/-- The pcs of the frames a DWARF loop emits. -/
def emittedPcs (e : UnwindEnv Unit (List CalcRules)) (start : ValueState) :
    Except Stuck (List Word) :=
  (dwarfLoop e start).map fun done => done.frames.map FrameRecord.absPc

/-- The head of the first turn on a sample, in a new context. -/
def firstHead (e : UnwindEnv Unit (List CalcRules)) (info : StackInfo) : Option ValueState :=
  dwarfStart e (guInit false false false) ⟨.empty, (), .clear⟩ info

/-- The walk of a sample in `leaf`, with the turn counter advanced. -/
def leafStart : ValueState := (firstHead (leafEnv.log true) leafSample).get (by decide +kernel)

/-- A chain of two frames. -/
theorem dwarfLoop_refines_virtual_unwinding_leaf :
    (walkWorld (leafEnv.log true) leafStart true).Supported maxBacktraceLevel 0
      (leafStart.refStart .x86) ∧
    emittedPcs (leafEnv.log true) leafStart = .ok [0x400110#64, 0x400200#64] ∧
    (walkWorld (leafEnv.log true) leafStart true).PcSequence 0 (leafStart.refStart .x86)
      [0x400110#64, 0x400200#64] := by
  have hrules : (walkWorld (leafEnv.log true) leafStart true).Supported maxBacktraceLevel 0
      (leafStart.refStart .x86) := by decide +kernel
  have hemitted : emittedPcs (leafEnv.log true) leafStart = .ok [0x400110#64, 0x400200#64] := by
    decide +kernel
  refine ⟨hrules, hemitted, ?_⟩
  have hstart : firstHead (leafEnv.log true) leafSample = some leafStart := (Option.some_get _).symm
  have hrefines := (dwarfLoop_refines_virtual_unwinding (.init false false false) rfl rfl hstart
    hrules).2
  obtain ⟨done, hdone, hpcs⟩ := exists_of_map_ok hemitted
  rw [← hpcs]
  exact hrefines done hdone

/-- A sample in `leaf` whose return address is the first byte of the mapping. -/
def entrySample : StackInfo :=
  { leafSample with
    stackData := some fun i => [0x00#8, 0x00#8, 0x40#8, 0#8, 0#8, 0#8, 0#8, 0#8, 0x00#8, 0x02#8,
      0x40#8].getD i 0#8 }

def entryStart : ValueState := (firstHead (leafEnv.log true) entrySample).get (by decide +kernel)

/-- The three functions with a stack pointer rule that names a block outside the section. -/
def brokenRuleEnv : UnwindEnv Unit (List CalcRules) :=
  let cie := { (callerCie [] : Cie (List CalcRules)) with
    cieCalcCtx := ⟨⟨.offset, CfaData.zero.setBregx 7#64 8#64,
      ⟨.of .offset (-8#64), .of .sameValue 0#64, .of .expression 0#64⟩⟩, []⟩ }
  let fdes := guIntervalArrayInit
    [⟨0#64, 0x1000#64, some ⟨some cie, 0#64, 0x1000#64, 0x1000, 0x1000⟩⟩]
  let cfi : GuCfi (List CalcRules) :=
    { callerCfi with data := { callerCfi.data with hdrIntervalArray := fdes } }
  { leafEnv.log true with
    world := { threeFunctions with
      elf := fun t pid path file => (threeFunctions.elf t pid path file).map fun image =>
        { image with cfi := some cfi } } }

def brokenRuleStart : ValueState := (firstHead brokenRuleEnv leafSample).get (by decide +kernel)

/-- A caller at relative pc 0 is looked up there, and a stack pointer rule that does not decode
is replaced by the CFA: the loop goes on where a strict reference unwinder ends. -/
theorem strict_virtual_unwinding_ends_earlier :
    ((walkWorld (leafEnv.log true) entryStart false).Supported maxBacktraceLevel 0
        (entryStart.refStart .x86) ∧
      emittedPcs (leafEnv.log true) entryStart = .ok [0x400110#64, 0x400000#64, 0x400200#64] ∧
      ¬(walkWorld (leafEnv.log true) entryStart false).PcSequence 0 (entryStart.refStart .x86)
        [0x400110#64, 0x400000#64, 0x400200#64]) ∧
    (walkWorld brokenRuleEnv brokenRuleStart false).Supported maxBacktraceLevel 0
        (brokenRuleStart.refStart .x86) ∧
      emittedPcs brokenRuleEnv brokenRuleStart = .ok [0x400110#64, 0x400200#64] ∧
      ¬(walkWorld brokenRuleEnv brokenRuleStart false).PcSequence 0 (brokenRuleStart.refStart .x86)
        [0x400110#64, 0x400200#64] := by
  refine ⟨⟨?_, ?_, ?_⟩, ?_, ?_, ?_⟩ <;> decide +kernel

end Gunwinder
