import Gunwinder.Walks.Reasons
import Gunwinder.Walks.Shadow

/-!
# The caches make no difference

In a system where a process does not change, `gu_unwind` reports on a sample what unwinding
without state reports, in every context a client can reach: each turn of the chain, of the
DWARF loop and of the tail is one of the walk without state, and the rows a walk takes from
its parse cache are those of a fresh parse.
-/

namespace Gunwinder

open Gunwinder.Core

/-! ## The chain of the sampler -/

section Turns

variable {w : World (List CalcRules)} {pid : Int} {process : Process (List CalcRules)}
  {setup : Stateless.Setup}

variable (w pid process setup) in
/-- The head of a turn along the chain and its shadow. -/
def FpShadow (info : StackInfo) (s : FpState (List CalcRules)) (t : Stateless.FpState) : Prop :=
  t = ⟨t.item, s.pc, s.fpLevel, s.level, t.frames⟩ ∧
    Shadow w pid process setup s.walk t.item info ∧ Shown s.walk.ctx s.frames t.frames

/-- The ends of the two walks along the chain. -/
def FpEnds (r : Except Stuck (WalkEnd (List CalcRules))) (q : Stateless.WalkEnd) : Prop :=
  ∃ done, r = .ok done ∧ done.reason = q.reason ∧ done.level = q.level ∧
    Shown done.walk.ctx done.frames q.frames

variable {info : StackInfo}

private theorem fpTurn_stateless (hsteady : Steady w pid process) (ustackFp : Nat → Word)
    (maxFpLevel : Nat) (allowUnknown : Bool) {s : FpState (List CalcRules)} {t : Stateless.FpState}
    (h : FpShadow w pid process setup info s t) :
    Turn.Rel (FpShadow w pid process setup info) FpEnds
      (fpTurn w ustackFp maxFpLevel allowUnknown s)
      (Stateless.fpTurn setup ustackFp maxFpLevel allowUnknown t) := by
  obtain ⟨ht, hshadow, hframes⟩ := h
  rw [ht]
  unfold fpTurn Stateless.fpTurn
  dsimp only
  by_cases hzero : s.pc = 0#64
  · rw [if_pos hzero, if_pos hzero]
    exact .stop ⟨_, rfl, rfl, rfl, hframes⟩
  · rw [if_neg hzero, if_neg hzero]
    obtain ⟨v, hlocate, hwalk, hpersists⟩ := hshadow.locate hsteady s.pc
    obtain ⟨found, hget, hfile, helf⟩ := hwalk.file
    have hframes := hframes.persist hpersists
    rw [hlocate]
    dsimp only
    rw [hget, ← hfile]
    cases found with
    | none =>
      dsimp only [Option.map_none]
      cases allowUnknown with
      | false => exact .stop ⟨_, rfl, rfl, rfl, hframes⟩
      | true =>
        have hframes := hframes.snoc (anonFrame_shows v.ctx s.pc)
        simp only [if_true]
        split
        · exact .stop ⟨_, rfl, rfl, rfl, hframes⟩
        · exact .next ⟨rfl, hwalk, hframes⟩
    | some elf =>
      obtain ⟨e, bias⟩ := elf
      have hemitted := hframes.snoc (elfFrame_shows (helf _ rfl) s.pc (s.pc - bias)
        (fpSymbol e (s.pc - bias)).2 (fpSymbol e (s.pc - bias)).1)
      rw [hwalk.goOnlyBuildid] at hemitted
      dsimp only [Option.map_some]
      rw [fpSymbol_eq] at hemitted ⊢
      split
      · exact .stop ⟨_, rfl, rfl, rfl, hemitted⟩
      · exact .next ⟨rfl, hwalk, hemitted⟩

variable {v : ValueWalk}

/-- `gu_unwind_by_fp` reports what its chain gives without state. -/
theorem guUnwindByFp_stateless (hsteady : Steady w pid process)
    (h : Shadow w pid process setup v none info)
    (hallow : guFlagsIsSet v.info guFlagFpAllowUnknown = guFlagsIsSet info guFlagFpAllowUnknown) :
    FpEnds (guUnwindByFp w v) (Stateless.unwindByFp setup info) := by
  have hlevel : v.info.ustackFpLevel = info.ustackFpLevel := by rw [h.info]
  have hchain : v.info.ustackFp = info.ustackFp := by rw [h.info]
  unfold guUnwindByFp Stateless.unwindByFp
  dsimp only
  rw [hlevel, hchain, hallow]
  split
  · exact ⟨_, rfl, rfl, rfl, .nil⟩
  refine loop_simulation (FpShadow w pid process setup info) FpEnds
    (fun s t => fpTurn_stateless hsteady _ _ _) ?_ _ ⟨rfl, h, .nil⟩
  rintro s t ⟨ht, hshadow, hframes⟩
  rw [ht]
  exact ⟨_, rfl, rfl, rfl, hframes⟩

/-! ## The tail -/

private theorem Persists.trans {P : Type} {ctx ctx' ctx'' : GuContext P} (h : Persists ctx ctx')
    (h' : Persists ctx' ctx'') : Persists ctx ctx'' := by
  intro id e he
  obtain ⟨e', he', hsame⟩ := h id e he
  obtain ⟨e'', he'', hsame'⟩ := h' id e' he'
  exact ⟨e'', he'', hsame'.trans hsame⟩

variable {item : Stateless.Item}

private theorem guAppendPcFrame_stateless (hsteady : Steady w pid process)
    (h : Shadow w pid process setup v item info) (pc : Word) (initialFrame signalFrame : Bool) :
    ∃ v' frame, guAppendPcFrame w v pc initialFrame signalFrame = .ok (v', frame) ∧
      Persists v.ctx v'.ctx ∧
      Shadow w pid process setup v'
        (Stateless.appendPc setup item pc initialFrame signalFrame).1 info ∧
      Option.Rel (FrameRecord.Shows v'.ctx) frame
        (Stateless.appendPc setup item pc initialFrame signalFrame).2 := by
  unfold guAppendPcFrame Stateless.appendPc
  by_cases hzero : pc = 0#64
  · rw [if_pos hzero, if_pos hzero]
    exact ⟨v, none, rfl, .refl _, h, .none⟩
  · rw [if_neg hzero, if_neg hzero]
    obtain ⟨v', hlocate, hwalk, hpersists⟩ := h.locate hsteady pc
    obtain ⟨found, hget, hfile, helf⟩ := hwalk.file
    have hnone : v'.elfItem.isNone = (Stateless.locate setup.table item pc).isNone := by
      rw [← hwalk.item, Option.isNone_map]
    rw [hlocate]
    dsimp only
    rw [hnone, hget, ← hfile]
    split
    · exact ⟨v', none, rfl, hpersists, hwalk, .none⟩
    cases found with
    | none => exact ⟨v', _, rfl, hpersists, hwalk, .some (anonFrame_shows v'.ctx pc)⟩
    | some elf =>
      obtain ⟨e, bias⟩ := elf
      dsimp only [Option.map_some]
      rw [guLookupElfSymbol_eq]
      exact ⟨v', _, rfl, hpersists, hwalk, .some ⟨rfl, rfl, rfl, rfl, ⟨e, helf _ rfl, rfl⟩, rfl⟩⟩

variable (w pid process setup info) (start : GuContext (List CalcRules))

/-- The head of a turn of the tail and its shadow; the entries at the start of the tail are
still there. -/
def TailShadow (s : TailState (List CalcRules)) (t : Stateless.TailState) : Prop :=
  t = ⟨t.item, s.bp, t.frames⟩ ∧ Persists start s.walk.ctx ∧
    Shadow w pid process setup s.walk t.item info ∧ Shown s.walk.ctx s.frames t.frames

/-- The ends of the two tails. -/
def TailEnds (r : Except Stuck (TailState (List CalcRules))) (t : Stateless.TailState) : Prop :=
  ∃ s, r = .ok s ∧ TailShadow w pid process setup info start s t

variable {w pid process setup info start}

private theorem tailTurn_stateless (hsteady : Steady w pid process) (rawSp : Word)
    {s : TailState (List CalcRules)} {t : Stateless.TailState}
    (h : TailShadow w pid process setup info start s t) :
    Turn.Rel (TailShadow w pid process setup info start) (TailEnds w pid process setup info start)
      (tailTurn w setup.target rawSp s) (Stateless.tailTurn setup info rawSp t) := by
  have hsame := h
  obtain ⟨ht, hstart, hshadow, hframes⟩ := h
  rw [ht] at hsame ⊢
  unfold tailTurn Stateless.tailTurn
  simp only [hshadow.info.readU64]
  cases guStackSnapshotReadU64 setup.target info rawSp s.bp with
  | none => exact .stop ⟨_, rfl, hsame⟩
  | some nextBp =>
    cases guStackSnapshotReadU64 setup.target info rawSp (s.bp + 8#64) with
    | none => exact .stop ⟨_, rfl, hsame⟩
    | some nextPc =>
      dsimp only
      by_cases hsane : guFramePointerSane s.bp nextBp ∧ nextPc ≠ 0#64
      · rw [if_pos hsane, if_pos hsane]
        obtain ⟨v, frame, happend, hpersists, hwalk, hframe⟩ :=
          guAppendPcFrame_stateless hsteady hshadow nextPc false false
        have hframes := hframes.persist hpersists
        have hstart := hstart.trans hpersists
        rw [happend]
        generalize Stateless.appendPc setup t.item nextPc false false = appended at hwalk hframe ⊢
        obtain ⟨item, view⟩ := appended
        cases hframe with
        | none => exact .stop ⟨_, rfl, rfl, hstart, hwalk, hframes⟩
        | @some frame view hshows =>
          have hframes := hframes.snoc hshows
          dsimp only
          rw [hshows.symbol]
          split
          · exact .stop ⟨_, rfl, rfl, hstart, hwalk, hframes⟩
          · exact .next ⟨rfl, hstart, hwalk, hframes⟩
      · rw [if_neg hsane, if_neg hsane]
        exact .stop ⟨_, rfl, hsame⟩

/-- The tail reports what it gives without state. -/
theorem guUnwindDwarfTailByFp_stateless (hsteady : Steady w pid process)
    (h : Shadow w pid process setup v item info) (rawSp bp pc : Word) (appendCurrentPc : Bool) :
    ∃ v' frames, guUnwindDwarfTailByFp w setup.target v rawSp bp pc appendCurrentPc =
        .ok (v', frames) ∧ Persists v.ctx v'.ctx ∧
      Shown v'.ctx frames (Stateless.unwindTail setup info rawSp bp pc appendCurrentPc) := by
  have hfresh : Shadow w pid process setup { v with elfItem := none, mapsReloaded := false } none
      info :=
    { h with
      sound := ⟨h.sound.refs, h.sound.entry, h.sound.sampled, fun _ hitem => by cases hitem⟩
      item := rfl }
  have hopened : v.pidCtx.isNone = false := by rw [h.opened]; rfl
  have hfirst : ∃ v' first, appendCurrent w { v with elfItem := none, mapsReloaded := false } pc
        appendCurrentPc = .ok (v', first) ∧ Persists v.ctx v'.ctx ∧
      Shadow w pid process setup v' (if appendCurrentPc then
        Stateless.appendPc setup none pc true false else (none, none)).1 info ∧
      Option.Rel (FrameRecord.Shows v'.ctx) first (if appendCurrentPc then
        Stateless.appendPc setup none pc true false else (none, none)).2 := by
    unfold appendCurrent
    cases appendCurrentPc with
    | true => exact guAppendPcFrame_stateless hsteady hfresh pc true false
    | false => exact ⟨_, none, rfl, .refl _, hfresh, .none⟩
  obtain ⟨v', first, happend, hpersists, hwalk, hshows⟩ := hfirst
  unfold guUnwindDwarfTailByFp Stateless.unwindTail
  rw [hopened, happend]
  simp only [Bool.false_eq_true, if_false, bind, Except.bind]
  generalize (if appendCurrentPc then Stateless.appendPc setup none pc true false
    else (none, none)) = appended at hwalk hshows ⊢
  obtain ⟨item', view⟩ := appended
  have hlists : Shown v'.ctx first.toList view.toList := by
    cases hshows with
    | none => exact .nil
    | some hshows => exact .cons hshows .nil
  have hbottom : (first.any fun frame => isStackBottomSymbol frame.symbol) =
      view.any fun frame => isStackBottomSymbol frame.symbol := by
    cases hshows with
    | none => rfl
    | some hshows => simp only [Option.any_some, hshows.symbol]
  dsimp only
  rw [hbottom]
  split
  · exact ⟨v', _, rfl, hpersists, hlists⟩
  have hloop : TailEnds w pid process setup info v.ctx
      (tailLoop w setup.target rawSp ⟨v', bp, first.toList⟩)
      (loop (Stateless.tailTurn setup info rawSp) id maxFpStackLevel
        ⟨item', bp, view.toList⟩) :=
    loop_simulation (TailShadow w pid process setup info v.ctx) _
      (fun s t => tailTurn_stateless hsteady rawSp) (fun s t hst => ⟨s, rfl, hst⟩) _
      ⟨rfl, hpersists, hwalk, hlists⟩
  obtain ⟨s, hs, -, hstart, hshadow, hframes⟩ := hloop
  rw [hs]
  exact ⟨s.walk, s.frames, rfl, hstart, hframes⟩

/-! ## The DWARF loop -/

/-- The sample of both walks is rewritten. -/
theorem Shadow.withInfo {info₁ info₂ : StackInfo} (h : Shadow w pid process setup v item info)
    (hinfo : info₁.SameButFlags info₂) (hpid : info₂.pid = v.info.pid) :
    Shadow w pid process setup { v with info := info₂ } item info₁ :=
  { h with sound := h.sound.withInfo hpid, info := hinfo }

variable {e : PerElfCtx (List CalcRules)}

/-- A parse fills the cache of an entry and shows nothing new. -/
theorem Shadow.parse (h : Shadow w pid process setup v item info) (he : v.ctx.elf e.id = some e)
    {cfi : GuCfi (List CalcRules)} (hcfi : e.guCfi = some cfi) (globals : Globals Unit)
    (pc : Word) :
    let ctx := (parseElf savedValues v.ctx globals e.id cfi pc).2.1
    Shadow w pid process setup { v with ctx := ctx } item info ∧ Persists v.ctx ctx := by
  have hadv := parseElf_advances w savedValues v.ctx globals e.id cfi pc
  have hviews : ∀ id, ((parseElf savedValues v.ctx globals e.id cfi pc).2.1.elf id).map
      PerElfCtx.view = (v.ctx.elf id).map PerElfCtx.view := by
    intro id
    simp only [parseElf, GuContext.elf, GuContext.modifyElf, lookup_update, implies_true,
      Option.map_map]
    refine Option.map_congr fun a _ => ?_
    simp only [Function.comp_apply]
    split
    · simp only [PerElfCtx.view, Option.map_map, Function.comp_def]
    · rfl
  have hfiles : (parseElf savedValues v.ctx globals e.id cfi pc).2.1.fileAt = v.ctx.fileAt := by
    funext payload
    cases payload with
    | none => rfl
    | some mapCtx =>
      have hview := congrArg (Option.map fun view => (view, mapCtx.mapExecVirtAddr))
        (hviews mapCtx.elfCtx)
      simp only [Option.map_map, Function.comp_def] at hview
      exact hview
  refine ⟨h.moved (h.sound.parse cachedRows_kept (mem_of_lookup he).1 hcfi globals pc) hadv.moves
    h.opened ?_ (.refl _), hadv.persists⟩
  dsimp only
  rw [hfiles]
  exact h.item

variable (w pid process setup)

/-- The head of a turn of the DWARF loop and its shadow. -/
def DwarfShadow (s : ValueState) (t : Stateless.DwarfState) : Prop :=
  t = ⟨t.item, t.info, s.pc, s.sp, s.loopCount, s.level, s.currentSignalFrame, s.prevSp, s.prevPc,
      s.reason, t.frames⟩ ∧
    Shadow w pid process setup s.walk t.item t.info ∧ Shown s.walk.ctx s.frames t.frames

/-- The ends of the two DWARF loops. -/
def DwarfEnds (done : DwarfEnd Unit (List CalcRules)) (q : Stateless.DwarfEnd) : Prop :=
  q = ⟨q.info, done.pc, done.reason, done.level, done.appendCurrentPc, q.frames⟩ ∧
    (∃ item, Shadow w pid process setup done.walk item q.info) ∧
    Shown done.walk.ctx done.frames q.frames

/-- Related turns of the two DWARF loops. -/
abbrev DwarfTurns :
    Turn ValueState (Except Stuck (DwarfEnd Unit (List CalcRules))) →
      Turn Stateless.DwarfState (Except Stuck Stateless.DwarfEnd) → Prop :=
  Turn.Rel (DwarfShadow w pid process setup) (SameEnd (DwarfEnds w pid process setup))

variable {w pid process setup} {t : Stateless.DwarfState} {s : ValueState}

private theorem DwarfShadow.leave (h : DwarfShadow w pid process setup s t) (reason : UnwindReason)
    (appendCurrentPc : Bool) :
    DwarfTurns w pid process setup (.stop (.ok (s.leave reason appendCurrentPc)))
      (.stop (.ok (t.leave reason appendCurrentPc))) := by
  obtain ⟨ht, hshadow, hframes⟩ := h
  rw [ht]
  exact .stop (.ok ⟨rfl, ⟨_, hshadow⟩, hframes⟩)

private theorem enterCaller_stateless (arch : Arch) (h : DwarfShadow w pid process setup s t)
    (signalFrame : Bool) (r : Recovered) :
    DwarfTurns w pid process setup (enterCaller arch s signalFrame r)
      (Stateless.enterCaller arch t signalFrame r) := by
  obtain ⟨ht, hshadow, hframes⟩ := h
  have hpid : (writeFramePointer arch s.walk.info r.bp).pid = s.walk.info.pid := by
    cases r.bp with
    | ok bp => exact writeRegs_pid arch s.walk.info _ bp
    | error reason => rfl
  have hwritten := hshadow.info.writeFramePointer arch r.bp
  have hcaller := hshadow.withInfo hwritten hpid
  rw [ht]
  unfold enterCaller Stateless.enterCaller
  dsimp only
  split
  · exact .stop (.ok ⟨rfl, ⟨_, hcaller⟩, hframes⟩)
  split
  · exact .stop (.ok ⟨rfl, ⟨_, hcaller⟩, hframes⟩)
  · refine .next ⟨rfl, ?_, hframes⟩
    refine hshadow.withInfo ((hwritten.writeRegs arch _ r.sp).writeRegs arch _ r.ra) ?_
    rw [writeRegs_pid, writeRegs_pid, hpid]

/-- What the walks of a set-up run in. -/
def Stateless.Setup.env (setup : Stateless.Setup) (w : World (List CalcRules)) :
    UnwindEnv Unit (List CalcRules) :=
  ⟨setup.target, savedValues, w, setup.depth, setup.verbose⟩

private theorem unwindFrame_stateless (rawSp : Word) (initialFrame : Bool)
    (h : DwarfShadow w pid process setup s t) (he : s.walk.ctx.elf e.id = some e) (bias : Word) :
    DwarfTurns w pid process setup (unwindFrame (setup.env w) rawSp initialFrame s e bias)
      (Stateless.unwindFrame setup rawSp initialFrame t e.view bias) := by
  have hleave := h.leave
  obtain ⟨ht, hshadow, hframes⟩ := h
  rw [ht] at hleave ⊢
  unfold unwindFrame Stateless.unwindFrame
  dsimp only [PerElfCtx.view, Stateless.Setup.env]
  cases hcfi : e.guCfi with
  | none => exact hleave _ _
  | some cfi =>
    have hsound : CacheSound cfi.data cfi.cache :=
      hshadow.sound.refs.cfis e (mem_of_lookup he).1 cfi hcfi
    let pc := guCfiLookupPcForFrame (s.pc - bias) initialFrame s.currentSignalFrame
    obtain ⟨hrow, hops⟩ := parseElf_fresh hsound s.walk.ctx s.globals e.id pc
    obtain ⟨hparsed, hpersists⟩ := hshadow.parse he hcfi s.globals pc
    have hframes := hframes.persist hpersists
    dsimp only [Option.map_some]
    generalize parseElf savedValues s.walk.ctx s.globals e.id cfi pc = parsed
      at hrow hops hparsed hframes ⊢
    obtain ⟨outcome, ctx, globals⟩ := parsed
    obtain rfl : outcome = freshParse cfi.data pc := hrow
    have hops : globals.ops = (freshParse cfi.data pc).ops := hops
    dsimp only
    by_cases hok : (freshParse cfi.data pc).ok = true
    · rw [if_pos hok, if_pos hok, ← hops]
      have hcaller := recoverCaller_stateless (hshadow.info.env setup.target bias rawSp)
        setup.depth globals initialFrame
      generalize recoverCaller setup.depth _ initialFrame globals = left at hcaller ⊢
      generalize Stateless.callerOf setup.depth _ initialFrame globals.ops = right at hcaller ⊢
      cases hcaller with
      | stuck stuck => exact .stop (.stuck stuck)
      | @ok left right hsame =>
        obtain ⟨result, globals'⟩ := left
        obtain rfl : result = right := hsame
        cases result with
        | error reason => exact .stop (.ok ⟨rfl, ⟨_, hparsed⟩, hframes⟩)
        | ok recovered => exact enterCaller_stateless _ ⟨rfl, hparsed, hframes⟩ _ _
    · rw [if_neg hok, if_neg hok]
      exact .stop (.ok ⟨rfl, ⟨_, hparsed⟩, hframes⟩)

private theorem emitFrame_stateless (rawSp : Word) (initialFrame : Bool)
    (h : DwarfShadow w pid process setup s t) (he : s.walk.ctx.elf e.id = some e) (bias : Word) :
    DwarfTurns w pid process setup (emitFrame (setup.env w) rawSp initialFrame s e bias)
      (Stateless.emitFrame setup rawSp initialFrame t e.view bias) := by
  obtain ⟨ht, hshadow, hframes⟩ := h
  rw [ht]
  unfold emitFrame Stateless.emitFrame
  dsimp only
  rw [guLookupElfSymbol_eq, ← hshadow.goOnlyBuildid]
  generalize Stateless.nameAt e.view _ = name
  have hemitted := hframes.snoc (elfFrame_shows he s.pc (s.pc - bias) name.2 name.1)
  split
  · exact .stop (.ok ⟨rfl, ⟨_, hshadow⟩, hemitted⟩)
  · refine unwindFrame_stateless rawSp initialFrame ?_ ?_ bias
    · exact ⟨rfl, hshadow, hemitted⟩
    · exact he

private theorem dwarfTurn_stateless (hsteady : Steady w pid process) (rawSp : Word)
    (h : DwarfShadow w pid process setup s t) :
    DwarfTurns w pid process setup (dwarfTurn (setup.env w) rawSp s)
      (Stateless.dwarfTurn setup rawSp t) := by
  obtain ⟨ht, hshadow, hframes⟩ := h
  obtain ⟨v, hlocate, hwalk, hpersists⟩ := hshadow.locate hsteady s.pc
  obtain ⟨found, hget, hfile, helf⟩ := hwalk.file
  have hframes := hframes.persist hpersists
  rw [ht]
  unfold dwarfTurn Stateless.dwarfTurn
  dsimp only [Stateless.Setup.env]
  rw [hlocate]
  dsimp only
  rw [hget, ← hfile]
  cases found with
  | none =>
    have hsome : v.elfItem.isSome = (Stateless.locate setup.table t.item s.pc).isSome := by
      rw [← hwalk.item, Option.isSome_map]
    dsimp only [Option.map_none]
    rw [hsome]
    exact .stop (.ok ⟨rfl, ⟨_, hwalk⟩, hframes⟩)
  | some elf =>
    obtain ⟨e, bias⟩ := elf
    exact emitFrame_stateless rawSp _ ⟨rfl, hwalk, hframes⟩ (helf _ rfl) bias

/-- The two DWARF loops end alike. -/
theorem dwarfLoop_stateless (hsteady : Steady w pid process)
    (h : DwarfShadow w pid process setup s t) :
    SameEnd (DwarfEnds w pid process setup) (dwarfLoop (setup.env w) s)
      (Stateless.dwarfLoop setup t) := by
  have hsp : t.sp = s.sp := by rw [h.1]
  unfold dwarfLoop Stateless.dwarfLoop
  rw [hsp]
  refine loop_simulation (DwarfShadow w pid process setup) _
    (fun s t => dwarfTurn_stateless hsteady _) ?_ _ h
  rintro s t ⟨ht, hshadow, hframes⟩
  rw [ht]
  exact .ok ⟨rfl, ⟨_, hshadow⟩, hframes⟩

/-- What a caller gets, and what the unwinder without state reports. -/
def Reports (r : UnwindResult Unit (List CalcRules)) (report : Stateless.Report) : Prop :=
  r.ret = report.ret ∧ r.reason = report.reason.code ∧ Shown r.ctx r.frames report.frames

private theorem followTail_stateless (hsteady : Steady w pid process) (rawSp : Word)
    {done : DwarfEnd Unit (List CalcRules)} {q : Stateless.DwarfEnd}
    (h : DwarfEnds w pid process setup done q) :
    ∃ v frames, followTail (setup.env w) rawSp done = .ok (v, frames) ∧
      Persists done.walk.ctx v.ctx ∧ Shown v.ctx frames (Stateless.followTail setup rawSp q) := by
  obtain ⟨hq, ⟨item, hshadow⟩, -⟩ := h
  rw [hq]
  unfold followTail Stateless.followTail
  dsimp only [Stateless.Setup.env]
  split
  · exact ⟨_, _, rfl, .refl _, .nil⟩
  rw [hshadow.info.getRegs]
  cases getRegs setup.target.arch q.info setup.target.arch.regNameRbp with
  | none => exact ⟨_, _, rfl, .refl _, .nil⟩
  | some bp => exact guUnwindDwarfTailByFp_stateless hsteady hshadow rawSp bp _ _

variable (hsteady : Steady w pid process) (h : Shadow w pid process setup v none info)
include hsteady h

private theorem unwindDwarf_stateless (globals : Globals Unit) :
    SameEnd Reports (unwindDwarf (setup.env w) v globals) (Stateless.unwindDwarf setup info) := by
  have hstart : DwarfShadow w pid process setup (DwarfState.init setup.target.arch v globals)
      (Stateless.DwarfState.init setup.target.arch info) := by
    refine ⟨?_, h, .nil⟩
    simp only [Stateless.DwarfState.init, DwarfState.init, h.info.getRegs]
  unfold unwindDwarf Stateless.unwindDwarf
  refine (dwarfLoop_stateless hsteady hstart).bind fun done q hdone => ?_
  have hsp : (Stateless.DwarfState.init setup.target.arch info).sp =
      (DwarfState.init setup.target.arch v globals).sp := by rw [hstart.1]
  rw [hsp]
  obtain ⟨v', tail, htail, hpersists, hshown⟩ := followTail_stateless hsteady
    (DwarfState.init setup.target.arch v globals).sp hdone
  obtain ⟨hq, -, hframes⟩ := hdone
  have hempty := hshown.isEmpty
  unfold finishDwarf
  rw [show followTail (setup.env w) (DwarfState.init (setup.env w).target.arch v globals).sp done =
    .ok (v', tail) from htail]
  refine .ok ⟨?_, ?_, List.rel_append (hframes.persist hpersists) hshown⟩
  · rw [hq]
  · rw [UnwindResult.reason, guFlagsReason_setReason, hempty, hq]

/-- Both walks report alike. -/
theorem walk_stateless
    (hallow : guFlagsIsSet v.info guFlagFpAllowUnknown = guFlagsIsSet info guFlagFpAllowUnknown)
    (globals : Globals Unit) :
    SameEnd Reports
      (if guFlagsIsSet info guFlagHintSetFp then unwindFp w v globals
        else unwindDwarf (setup.env w) v globals) (Stateless.walk setup info) := by
  unfold Stateless.walk
  split
  · obtain ⟨done, hdone, hreason, hlevel, hframes⟩ := guUnwindByFp_stateless hsteady h hallow
    rw [unwindFp, hdone]
    refine .ok ⟨congrArg Int.ofNat hlevel, ?_, hframes⟩
    rw [UnwindResult.reason, guFlagsReason_setReason, hreason]
  · exact unwindDwarf_stateless hsteady h globals

end Turns

/-! ## Whole calls -/

section Open

variable {P : Type} {ctx : GuContext P} {w : World P} {pid : Int} {process : Process P}
  {info : StackInfo}

private theorem requireElfs_some {pidCtx : PerPidCtx} {list : IntervalArray (Option MapCtx)}
    (h : pidCtx.elfCtxList = some list) : requireElfs pidCtx = .ok pidCtx := by
  rw [requireElfs, h]
  rfl

/-- A process that stays is opened, unless it has no mapping. -/
theorem openProcess_steady (hsteady : Steady w pid process) {Q : CfiProperty P}
    (h : References Q [] ctx) (hrecorded : ∃ record, Recorded w record ctx)
    (hpid : info.pid = pid) (hregs : info.regs.isNone = false) :
    (∃ pidCtx, (openProcess w ctx info).1 = .ok pidCtx) ∨
      (openProcess w ctx info).1 = .error .processExit ∧ process.maps = [] := by
  have hmoves := (guMaybeSweepRetiredElf_renews w h).moves.trans
    (reuseEntry_advances w info (h.maybeSweep w)).moves
  obtain ⟨hrefs, hentry⟩ := (h.maybeSweep w).reuseEntry w info
  unfold openProcess
  rw [hregs]
  simp only [Bool.false_eq_true, if_false]
  split
  case h_1 pidCtx ctx' heq =>
    rw [heq] at hmoves hentry
    obtain ⟨record, hrecord⟩ := Recorded.moves hrecorded hmoves
    obtain ⟨sources, items, -, hmade⟩ := hrecord.sourced.made pidCtx (mem_of_lookup hentry.1).1
    obtain ⟨list, hlist, -⟩ := hmade.list
    exact .inl ⟨pidCtx, requireElfs_some hlist⟩
  case h_2 ctx' heq =>
    rw [heq] at hrefs hentry
    have halive : ¬((ctx'.ask fun t => w.alive t info.pid).1 = false ∧
        (ctx'.ask fun t => w.alive t info.pid).2.debug = false) := by
      rintro ⟨hdead, -⟩
      have hdead : w.alive ctx'.tick info.pid = false := hdead
      rw [hpid, hsteady.alive] at hdead
      cases hdead
    rw [if_neg halive]
    have hnew : (ctx'.ask fun t => w.alive t info.pid).2.pid info.pid = none := hentry
    have hgranted := guLoadPid_granted hsteady.alloc hnew
    rw [hpid, hsteady.maps, ← hpid] at hgranted
    have hload := guLoadPid_advances w info (hrefs.ask fun t => w.alive t info.pid) hentry
    split
    case h_1 ctx'' hnone =>
      rw [hnone] at hgranted
      exact .inr ⟨rfl, hgranted.mp rfl⟩
    case h_2 pidCtx ctx'' hsome =>
      rw [hsome] at hload
      obtain ⟨⟨sources, hfrom⟩, -⟩ := hload.loaded pidCtx rfl
      obtain ⟨items, list, hlist, -⟩ := hfrom.items
      exact .inl ⟨pidCtx, requireElfs_some hlist⟩

private theorem hintGolang_allowUnknown (pidCtx : PerPidCtx) (info : StackInfo) :
    guFlagsIsSet (hintGolang pidCtx info) guFlagFpAllowUnknown =
      guFlagsIsSet info guFlagFpAllowUnknown := by
  unfold hintGolang
  split
  · have hbits : (info.flags ||| guFlagHintSetFp) &&& guFlagFpAllowUnknown =
        info.flags &&& guFlagFpAllowUnknown := by
      have hdisjoint : guFlagHintSetFp &&& guFlagFpAllowUnknown = 0#64 := by decide
      rw [BitVec.and_or_distrib_right, hdisjoint, BitVec.or_zero]
    simp only [guFlagsIsSet, guFlagsSet, hbits]
  · rfl

/-- Opening a process writes a hint to the sample at most. -/
theorem openProcess_flags (w : World P) (ctx : GuContext P) (info : StackInfo) :
    info.SameButFlags (openProcess w ctx info).2.1 ∧
      guFlagsIsSet (openProcess w ctx info).2.1 guFlagFpAllowUnknown =
        guFlagsIsSet info guFlagFpAllowUnknown := by
  unfold openProcess
  split
  · exact ⟨.refl info, rfl⟩
  dsimp only
  split
  · exact ⟨.refl info, rfl⟩
  split
  · exact ⟨.refl info, rfl⟩
  · split
    · exact ⟨.refl info, rfl⟩
    · exact ⟨.hint _ info, hintGolang_allowUnknown _ info⟩

end Open

/-- A call of `gu_unwind` on a sample of a process that does not change reports what unwinding
without state reports, in every context that public operations lead to. -/
theorem guUnwind_stateless {e : UnwindEnv Unit (List CalcRules)} (hsaved : e.saved = savedValues)
    {ctx : GuContext (List CalcRules)} (hctx : ReachableIn e.world savedValues ctx)
    {process : Process (List CalcRules)} (info : StackInfo)
    (hsteady : Steady e.world info.pid process) (globals : Globals Unit) :
    SameEnd Reports (guUnwind e ctx globals info)
      (Stateless.unwind e.target e.depth e.verbose ctx.debug ctx.goOnlyBuildid process info) := by
  have hrefs := hctx.reachable.references cachedRows_kept
  have hrecorded := hctx.recorded
  unfold Stateless.unwind
  cases hregs : info.regs.isNone with
  | true =>
    have hopen : openProcess e.world ctx info = (.error .noRegs, info, ctx) := by
      rw [openProcess, if_pos hregs]
    simp only [guUnwind, hopen, if_true]
    exact .ok ⟨rfl, guFlagsReason_setReason info .noRegs, .nil⟩
  | false =>
    obtain ⟨hrefs', hopened⟩ := hrefs.openProcess e.world info
    obtain ⟨hflags, hallow⟩ := openProcess_flags e.world ctx info
    have hmoves := (openProcess_renews e.world info hrefs).moves
    have hcases := openProcess_steady hsteady hrefs hrecorded rfl hregs
    rw [guUnwind]
    generalize openProcess e.world ctx info = opened at *
    obtain ⟨result, info', ctx'⟩ := opened
    simp only [Bool.false_eq_true, if_false]
    rcases hcases with ⟨pidCtx, hok⟩ | ⟨hexit, hmaps⟩
    · obtain rfl : result = .ok pidCtx := hok
      obtain ⟨hfound, hpid⟩ := hopened pidCtx rfl
      have hpid : pidCtx.pid = info.pid := hpid.trans hflags.pid
      obtain ⟨record, hrecord⟩ := Recorded.moves hrecorded hmoves
      obtain ⟨sources, items, -, hmade⟩ := hrecord.sourced.made pidCtx (mem_of_lookup hfound).1
      obtain ⟨list, -, htable⟩ := hsteady.table_eq hrecord.genuine hpid hmade
      let setup : Stateless.Setup :=
        ⟨e.target, e.depth, e.verbose, ctx.goOnlyBuildid, list.mapPayload ctx'.fileAt⟩
      have henv : setup.env e.world = e := by rw [Stateless.Setup.env, ← hsaved]
      have hshadow :
          Shadow e.world info.pid process setup (Walk.init ctx' info' pidCtx) none info :=
        { sound := Walk.Sound.init hrefs' hfound (hpid.trans hflags.pid.symm)
          recorded := ⟨record, hrecord⟩
          opened := congrArg some hpid
          table := htable
          goOnlyBuildid := CacheMoves.goOnlyBuildid hmoves
          item := rfl
          info := hflags }
      have hwalk := walk_stateless hsteady hshadow hallow globals
      rw [henv] at hwalk
      rw [← CacheMoves.debug hmoves, htable]
      exact hwalk
    · obtain rfl : result = .error .processExit := hexit
      have hnone : process.table ctx.debug = none := by
        rw [Process.table, hmaps]
        rfl
      rw [hnone]
      exact .ok ⟨rfl, guFlagsReason_setReason info' .processExit, .nil⟩

/-- The program of three functions, as a process. -/
def toolProcess : Process (List CalcRules) where
  maps := threeFunctions.maps 0 0
  file := threeFunctions.elf 0 0

/-- A context that has loaded the program for two processes, one of which has exited. -/
def servedContext : GuContext (List CalcRules) :=
  guEventOccur threeFunctions (guPreloadPidDebugInfo threeFunctions
    (guPreloadPidDebugInfo threeFunctions (guInit false false false) 11).2 12).2
    (.processExit (some 12))

/-- A walk in a used cache. -/
theorem guUnwind_stateless_served : ∃ r report,
    guUnwind leafEnv servedContext ⟨.empty, (), .clear⟩ leafSample = .ok r ∧
    Stateless.unwind leafEnv.target leafEnv.depth leafEnv.verbose servedContext.debug
      servedContext.goOnlyBuildid toolProcess leafSample = .ok report ∧
    Reports r report ∧
    report.frames.map FrameView.symbol = [some "leaf", some "rest"] := by
  have hctx : ReachableIn leafEnv.world savedValues servedContext :=
    .step (.step (.step (.init false false false) (.preload _ 11)) (.preload _ 12))
      (.event _ (.processExit (some 12)))
  have hshown : ∀ image, threeFunctions.Shows image →
      threeFunctions.elf 0 0 "" none = some image := by
    rintro image ⟨t, pid, path, openPath, himage⟩
    exact himage
  have hsteady : Steady leafEnv.world leafSample.pid toolProcess := by
    refine ⟨fun _ => rfl, fun _ => rfl, fun _ _ _ => rfl, fun _ => rfl, ?_⟩
    intro image image' h h' _
    cases (hshown image h).symm.trans (hshown image' h')
    exact ⟨rfl, rfl⟩
  have hframes : ((Stateless.unwind leafEnv.target leafEnv.depth leafEnv.verbose
      servedContext.debug servedContext.goOnlyBuildid toolProcess leafSample).map fun report =>
        report.frames.map FrameView.symbol) = .ok [some "leaf", some "rest"] := by decide +kernel
  have hsame := guUnwind_stateless rfl hctx leafSample hsteady ⟨.empty, (), .clear⟩
  generalize guUnwind leafEnv servedContext ⟨.empty, (), .clear⟩ leafSample = result at hsame ⊢
  generalize Stateless.unwind leafEnv.target leafEnv.depth leafEnv.verbose servedContext.debug
    servedContext.goOnlyBuildid toolProcess leafSample = spec at hsame hframes ⊢
  cases hsame with
  | stuck stuck => cases hframes
  | ok h => exact ⟨_, _, rfl, rfl, h, Except.ok.inj hframes⟩

end Gunwinder
