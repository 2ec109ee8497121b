import Gunwinder.Cache.Steady
import Gunwinder.Walks.Tables

/-!
# Walks without their state

A walk of a process that does not change is compared with one that has a fixed table of
mappings and files. The record in hand reads as the record of the other walk, and the samples
differ in their flags only.
-/

namespace Gunwinder

open Gunwinder.Core

/-! ## Samples up to their flags -/

/-- The samples differ in their flags only. -/
def StackInfo.SameButFlags (info info' : StackInfo) : Prop :=
  info' = { info with flags := info'.flags }

namespace StackInfo.SameButFlags

variable {info info' info'' : StackInfo}

/-- A sample differs in nothing from itself. -/
theorem refl (info : StackInfo) : info.SameButFlags info := rfl

private theorem trans (h : info.SameButFlags info') (h' : info'.SameButFlags info'') :
    info.SameButFlags info'' := by
  rw [SameButFlags, h', h]

/-- The Go hint is a flag. -/
theorem hint (pidCtx : PerPidCtx) (info : StackInfo) :
    info.SameButFlags (hintGolang pidCtx info) := by
  unfold hintGolang
  split <;> rfl

variable (h : info.SameButFlags info')
include h

/-- The pid is no flag. -/
theorem pid : info'.pid = info.pid := by rw [h]

/-- Registers are no flags. -/
theorem getRegs (arch : Arch) (regno : Int) :
    getRegs arch info' regno = getRegs arch info regno := by
  rw [h]
  rfl

/-- Both samples get a register. -/
theorem writeRegs (arch : Arch) (regno : Int) (val : Word) :
    (writeRegs arch info regno val).SameButFlags (writeRegs arch info' regno val) := by
  have hregs : info'.regs = info.regs := by rw [h]
  simp only [Gunwinder.writeRegs, hregs]
  cases info.regs with
  | none => exact h
  | some block =>
    dsimp only
    split
    · exact h
    split
    · exact h
    · rw [h]
      rfl

/-- Both samples get a frame pointer. -/
theorem writeFramePointer (arch : Arch) (bp : Except UnwindReason Word) :
    (writeFramePointer arch info bp).SameButFlags (writeFramePointer arch info' bp) := by
  cases bp with
  | ok bp => exact h.writeRegs arch _ bp
  | error reason => exact h

/-- The stack is no flag. -/
theorem readU64 (target : Target) (rawSp addr : Word) :
    guStackSnapshotReadU64 target info' rawSp addr =
      guStackSnapshotReadU64 target info rawSp addr := by
  rw [h]
  rfl

end StackInfo.SameButFlags

/-! ## Ends that correspond -/

/-- Two runs end with results that correspond, or are stuck for one reason. -/
inductive SameEnd {α β : Type} (Q : α → β → Prop) : Except Stuck α → Except Stuck β → Prop where
  | ok {a : α} {b : β} (h : Q a b) : SameEnd Q (.ok a) (.ok b)
  | stuck (stuck : Stuck) : SameEnd Q (.error stuck) (.error stuck)

/-- Two runs, one behind the other. -/
theorem SameEnd.bind {α β γ δ : Type} {Q : α → β → Prop} {R : γ → δ → Prop} {x : Except Stuck α}
    {y : Except Stuck β} {f : α → Except Stuck γ} {g : β → Except Stuck δ} (h : SameEnd Q x y)
    (hf : ∀ a b, Q a b → SameEnd R (f a) (g b)) : SameEnd R (x >>= f) (y >>= g) := by
  cases h with
  | ok h => exact hf _ _ h
  | stuck stuck => exact .stuck stuck

/-! ## Rows without state -/

section Caller

private theorem guDwarfOpsEval_withFlags (env : EvalEnv) (flags : Word) (cfaOps : List DwarfOp)
    (depth : Nat) :
    guDwarfOpsEval { env with info := { env.info with flags := flags } } cfaOps depth =
      guDwarfOpsEval env cfaOps depth := by
  induction depth with
  | zero => rfl
  | succ depth ih =>
    funext ops oor
    simp only [guDwarfOpsEval, ih]
    rfl

/-- Recovering a register reads no flags. -/
theorem genReg_withFlags (env : EvalEnv) (flags : Word) (scratch : Scratch) (depth : Nat)
    (regno : Int) (oor : OutOfRange) :
    genReg { env with info := { env.info with flags := flags } } scratch depth regno oor =
      genReg env scratch depth regno oor := by
  have hfast : fastEvalCfa { env with info := { env.info with flags := flags } } =
      fastEvalCfa env := by
    funext cfaOps depth oor
    simp only [fastEvalCfa, guDwarfOpsEval_withFlags]
    rfl
  have hops : fastDwarfOpsEval { env with info := { env.info with flags := flags } } =
      fastDwarfOpsEval env := by
    funext cfaOps depth ops oor
    simp only [fastDwarfOpsEval, hfast]
    rfl
  simp only [genReg, hops, guDwarfOpsEval_withFlags]

/-- The record of an earlier failed read makes no difference to the value. -/
theorem genReg_record (env : EvalEnv) (scratch : Scratch) (depth : Nat) (regno : Int)
    (oor oor' : OutOfRange) :
    (genReg env scratch depth regno oor').map Prod.fst =
      (genReg env scratch depth regno oor).map Prod.fst := by
  unfold genReg
  split
  · rfl
  · rfl

/-- The environments differ in the flags of the sample only. -/
def EvalEnv.SameButFlags (env env' : EvalEnv) : Prop :=
  env' = { env with info := { env.info with flags := env'.info.flags } }

/-- Rules read no flag. -/
theorem StackInfo.SameButFlags.env {info info' : StackInfo} (h : info.SameButFlags info')
    (target : Target) (bias rawSp : Word) :
    EvalEnv.SameButFlags ⟨target, bias, rawSp, info⟩ ⟨target, bias, rawSp, info'⟩ :=
  congrArg (EvalEnv.mk target bias rawSp) h

variable {env env' : EvalEnv} (henv : env.SameButFlags env') (depth : Nat)

include henv

/-- A recovered register depends on the lists of the row. -/
theorem recoverReg_stateless {globals globals' : Globals Unit} (hops : globals'.ops = globals.ops)
    (regno : Nat) :
    SameEnd (fun r r' => r.1 = r'.1 ∧ r.2.ops = r'.2.ops) (recoverReg depth env' globals' regno)
      (recoverReg depth env globals regno) := by
  have hgen := genReg_record env globals.ops depth regno globals.oor globals'.oor
  rw [← genReg_withFlags env env'.info.flags, ← henv] at hgen
  unfold recoverReg
  rw [hops]
  cases hleft : genReg env' globals.ops depth regno globals'.oor with
  | none =>
    rw [hleft, Option.map_none] at hgen
    rw [Option.map_eq_none_iff.mp hgen.symm]
    exact .stuck _
  | some left =>
    rw [hleft, Option.map_some] at hgen
    obtain ⟨right, hright, hfst⟩ := Option.map_eq_some_iff.mp hgen.symm
    rw [hright]
    exact .ok ⟨hfst.symm, rfl⟩

/-- So do the registers of the caller. -/
theorem recoverCaller_stateless (globals : Globals Unit) (initialFrame : Bool) :
    SameEnd (fun r r' => r.1 = r') (recoverCaller depth env' initialFrame globals)
      (Stateless.callerOf depth env initialFrame globals.ops) := by
  have htarget : env'.target = env.target := by rw [henv]
  have hsampled : orSampled env.target.arch env'.info = orSampled env.target.arch env.info := by
    rw [henv]
    rfl
  have hsame : SameEnd (fun r r' => r.1 = r'.1) (recoverCaller depth env' initialFrame globals)
      (recoverCaller depth env initialFrame (⟨globals.ops, (), .clear⟩ : Globals Unit)) := by
    unfold recoverCaller
    rw [htarget]
    dsimp only
    have hclear : globals.ops = (⟨globals.ops, (), .clear⟩ : Globals Unit).ops := rfl
    refine (recoverReg_stateless henv depth hclear _).bind ?_
    rintro ⟨ra, globals₁⟩ ⟨ra', globals₁'⟩ ⟨rfl, hops₁⟩
    dsimp only
    rw [hsampled]
    split
    · exact .ok rfl
    refine (recoverReg_stateless henv depth hops₁ _).bind ?_
    rintro ⟨sp, globals₂⟩ ⟨sp', globals₂'⟩ ⟨rfl, hops₂⟩
    dsimp only
    split
    · exact .ok rfl
    · refine (recoverReg_stateless henv depth hops₂ _).bind ?_
      rintro ⟨bp, globals₃⟩ ⟨bp', globals₃'⟩ ⟨rfl, -⟩
      exact .ok rfl
  unfold Stateless.callerOf
  generalize recoverCaller depth env' initialFrame globals = left at hsame ⊢
  generalize recoverCaller depth env initialFrame _ = right at hsame ⊢
  cases hsame with
  | ok h => exact .ok h
  | stuck stuck => exact .stuck stuck

end Caller

/-! ## Walks and their shadows -/

/-- The entries of one context are there in the other, under the same build ids. -/
def Persists {P : Type} (ctx ctx' : GuContext P) : Prop :=
  ∀ id e, ctx.elf id = some e → ∃ e', ctx'.elf id = some e' ∧ e'.buildId = e.buildId

variable {P : Type}

/-- Nothing has changed. -/
theorem Persists.refl (ctx : GuContext P) : Persists ctx ctx :=
  fun _ e he => ⟨e, he, rfl⟩

variable {ctx' ctx : GuContext P} {w : World P}

/-- Steps lose no ELF entry. -/
theorem Advances.persists (h : Advances w ctx ctx') : Persists ctx ctx' := by
  intro id e he
  obtain ⟨e', he', hsame⟩ := h.elfs id e he
  exact ⟨e', he', hsame.buildId⟩

/-- The setting for Go files stays. -/
theorem CacheMoves.goOnlyBuildid (h : CacheMoves w ctx ctx') :
    ctx'.goOnlyBuildid = ctx.goOnlyBuildid := by
  obtain ⟨record, htrace⟩ := h
  refine htrace.invariant (fun s => s.goOnlyBuildid = ctx.goOnlyBuildid) ?_ rfl
  intro s event t heq hstep
  refine Eq.trans ?_ heq
  cases hstep with
  | take e he => exact congrArg ContextFrame.goOnlyBuildid (reuseElf_frame s e)
  | put e he hpos => exact congrArg ContextFrame.goOnlyBuildid (guPutElfCtx_frame w s e.id)
  | sweep now hused => exact congrArg ContextFrame.goOnlyBuildid (guRetiredElfSweep_frame s now)
  | _ => rfl

/-- Steps keep the debug setting. -/
theorem CacheMoves.debug (h : CacheMoves w ctx ctx') : ctx'.debug = ctx.debug := by
  obtain ⟨record, htrace⟩ := h
  exact htrace.invariant (fun s => s.debug = ctx.debug)
    (fun s event t heq hstep => hstep.settings.2.trans heq) rfl

/-- Steps extend the record. -/
theorem Recorded.moves (h : ∃ record, Recorded w record ctx) (hmoves : CacheMoves w ctx ctx') :
    ∃ record, Recorded w record ctx' := by
  obtain ⟨record, debug, goOnlyBuildid, retireTimerStarted, htrace⟩ := h
  obtain ⟨more, hmore⟩ := hmoves
  exact ⟨record ++ more, debug, goOnlyBuildid, retireTimerStarted, htrace.append hmore⟩

/-- A search finds the record of the table the records read as. -/
theorem PerPidCtx.search_reads (ctx : GuContext P) {pidCtx : PerPidCtx}
    {list : IntervalArray (Option MapCtx)} (hlist : pidCtx.elfCtxList = some list) (pc : Word) :
    (pidCtx.search pc).map (Interval.mapPayload ctx.fileAt) =
      (guIntervalArraySearch (list.mapPayload ctx.fileAt) pc).map Prod.snd := by
  rw [guIntervalArraySearch_mapPayload]
  simp only [PerPidCtx.search, hlist]

private theorem guReloadPidCtx_flags (w : World P) (ctx : GuContext P) (pidCtx : PerPidCtx)
    (info : StackInfo) : info.SameButFlags (guReloadPidCtx w ctx pidCtx info).2.1 := by
  simp only [guReloadPidCtx]
  split
  · exact .refl info
  · exact .hint _ info

/-- A walk of the process, and what a walk without state has in its place: the record in hand
and the sample. -/
structure Shadow (w : World (List CalcRules)) (pid : Int) (process : Process (List CalcRules))
    (setup : Stateless.Setup) (v : ValueWalk) (item : Stateless.Item) (info : StackInfo) :
    Prop where
  sound : v.Sound cachedRows
  recorded : ∃ record, Recorded w record v.ctx
  opened : v.pidCtx = some pid
  table : process.table v.ctx.debug = some setup.table
  goOnlyBuildid : v.ctx.goOnlyBuildid = setup.goOnlyBuildid
  item : v.elfItem.map (Interval.mapPayload v.ctx.fileAt) = item
  info : info.SameButFlags v.info

section Shadow

variable {w : World (List CalcRules)} {pid : Int} {process : Process (List CalcRules)}
  {setup : Stateless.Setup} {v : ValueWalk} {item : Stateless.Item} {info : StackInfo}
  (hsteady : Steady w pid process) (h : Shadow w pid process setup v item info)

include h

private theorem Shadow.sampled : v.info.pid = pid := (h.sound.sampled pid h.opened).symm

include hsteady in
/-- The table of the walk reads as the fixed one. -/
theorem Shadow.entry : ∃ pidCtx list, v.ctx.pid pid = some pidCtx ∧
    pidCtx.elfCtxList = some list ∧ setup.table = list.mapPayload v.ctx.fileAt := by
  obtain ⟨pidCtx, hfound⟩ := h.sound.entry pid h.opened
  obtain ⟨record, hrecord⟩ := h.recorded
  obtain ⟨hmem, hpid⟩ := mem_of_lookup hfound
  obtain ⟨sources, items, -, hmade⟩ := hrecord.sourced.made pidCtx hmem
  obtain ⟨list, hlist, htable⟩ := hsteady.table_eq hrecord.genuine hpid hmade
  exact ⟨pidCtx, list, hfound, hlist, Option.some.inj (h.table.symm.trans htable)⟩

/-- The file behind the record in hand. -/
theorem Shadow.file : ∃ found, guGetElfCtxFromItem v = .ok found ∧
    (found.map fun p => (p.1.view, p.2)) = Stateless.fileOf item ∧
    ∀ p ∈ found, v.ctx.elf p.1.id = some p.1 := by
  rw [← h.item]
  cases hhand : v.elfItem with
  | none =>
    refine ⟨none, by simp only [guGetElfCtxFromItem, hhand], rfl, ?_⟩
    rintro _ ⟨⟩
  | some hand =>
    cases hpayload : hand.payload with
    | none =>
      refine ⟨none, by simp only [guGetElfCtxFromItem, hhand, hpayload], ?_, ?_⟩
      · simp only [Option.map_some, Interval.mapPayload, hpayload, GuContext.fileAt,
          Option.bind_none, Stateless.fileOf, Option.bind_some, Option.map_none]
      · rintro _ ⟨⟩
    | some mapCtx =>
      obtain ⟨p, -, pidCtx, hpid, hheld⟩ := h.sound.held hand hhand
      obtain ⟨e, he⟩ := h.sound.refs.record_live (mem_of_lookup hpid).1 hheld hpayload
      refine ⟨some (e, hand.start - mapCtx.mapExecVirtAddr), ?_, ?_, ?_⟩
      · simp only [guGetElfCtxFromItem, hhand, hpayload, he]
      · simp only [Option.map_some, Interval.mapPayload, hpayload, GuContext.fileAt,
          Option.bind_some, he, Stateless.fileOf]
      · rintro _ ⟨⟩
        rw [(mem_of_lookup he).2]
        exact he

/-- The record in hand holds a pc in both walks or in none. -/
theorem Shadow.covers (pc : Word) : v.covers pc = Stateless.covers item pc := by
  obtain ⟨found, hfound, hfile, -⟩ := h.file
  rw [← h.item] at hfile ⊢
  cases hhand : v.elfItem with
  | none => simp only [Walk.covers, hhand, Option.map_none, Stateless.covers]
  | some hand =>
    have hbacked : hand.payload.isSome = (v.ctx.fileAt hand.payload).isSome := by
      cases hpayload : hand.payload with
      | none => rfl
      | some mapCtx =>
        simp only [guGetElfCtxFromItem, hhand, hpayload] at hfound
        cases he : v.ctx.elf mapCtx.elfCtx with
        | none =>
          rw [he] at hfound
          cases hfound
        | some e => simp only [GuContext.fileAt, Option.bind_some, he, Option.map_some,
            Option.isSome_some]
    simp only [Walk.covers, hhand, Option.map_some, Stateless.covers, Interval.mapPayload, hbacked]

/-- The walk goes on with another record in hand. -/
theorem Shadow.moved {v' : ValueWalk} {item' : Stateless.Item} (hsound : v'.Sound cachedRows)
    (hmoves : CacheMoves w v.ctx v'.ctx) (hopened : v'.pidCtx = some pid)
    (hitem : v'.elfItem.map (Interval.mapPayload v'.ctx.fileAt) = item')
    (hinfo : v.info.SameButFlags v'.info) : Shadow w pid process setup v' item' info where
  sound := hsound
  recorded := Recorded.moves h.recorded hmoves
  opened := hopened
  table := hmoves.debug ▸ h.table
  goOnlyBuildid := hmoves.goOnlyBuildid.trans h.goOnlyBuildid
  item := hitem
  info := h.info.trans hinfo

include hsteady

/-- A process that stays is found alive. -/
theorem Shadow.alive (ctx : GuContext (List CalcRules)) :
    (stillAlive w ctx v.info.pid).1 = true := by
  unfold stillAlive
  split
  · rfl
  · rw [h.sampled]
    exact hsteady.alive _

/-- The reload behind a miss misses again. -/
theorem Shadow.reloaded {pidCtx entry : PerPidCtx} {ctx : GuContext (List CalcRules)} {pc : Word}
    (hmiss : pidCtx.search pc = none) (hmoves : CacheMoves w v.ctx ctx)
    (hentry : ctx.pid pidCtx.pid = some entry) (hsame : pidCtx.Rescheduled entry)
    (hpid : pidCtx.pid = pid) :
    let v' := reloadAndSearch w { v with elfItem := none, ctx := ctx } pidCtx pc
    v'.pidCtx ≠ none ∧ v'.elfItem = none ∧ v.info.SameButFlags v'.info := by
  obtain ⟨record, hrecord⟩ := Recorded.moves h.recorded hmoves
  let counted := ctx.count fun st => { st with pidMapsReloadCount := st.pidMapsReloadCount + 1 }
  obtain ⟨sources, items, -, hmade⟩ := hrecord.sourced.made entry (mem_of_lookup hentry).1
  have hmade' : MadeFrom w counted entry sources items :=
    hmade.keep rfl rfl (Nat.le_refl _) rfl fun _ _ e he => ⟨e, he, .refl e⟩
  have hfound : counted.pid v.info.pid = some entry := by
    rw [h.sampled, ← hpid]
    exact hentry
  have hdistinct : counted.DistinctElfs := hrecord.sourced.distinct.of_map rfl rfl
  have hgenuine : Genuine w counted := hrecord.genuine
  obtain ⟨newCtx, hnew, hlist⟩ := hsteady.reload hgenuine hdistinct hfound h.sampled hmade'
  have hold : guReloadPidCtx w counted pidCtx v.info = guReloadPidCtx w counted entry v.info := by
    rw [hsame]
    rfl
  have hsearch : newCtx.search pc = none := by
    rw [PerPidCtx.search_congr hlist, ← hmiss]
    exact PerPidCtx.search_congr (by rw [hsame]) pc
  rw [← hold] at hnew
  unfold reloadAndSearch
  dsimp only
  split
  case h_1 info' ctx' heq =>
    rw [show (guReloadPidCtx w counted pidCtx v.info).1 = none from congrArg Prod.fst heq] at hnew
    cases hnew
  case h_2 newCtx' info' ctx' heq =>
    have hfst : (guReloadPidCtx w counted pidCtx v.info).1 = some newCtx' := congrArg Prod.fst heq
    cases hnew.symm.trans hfst
    refine ⟨Option.some_ne_none _, hsearch, ?_⟩
    have hinfo := guReloadPidCtx_flags w counted pidCtx v.info
    rwa [show (guReloadPidCtx w counted pidCtx v.info).2.1 = info' from
      congrArg (fun r => r.2.1) heq] at hinfo

/-- Both walks locate a pc. -/
theorem Shadow.locate (pc : Word) : ∃ v', v.locate w pc = .ok v' ∧
    Shadow w pid process setup v' (Stateless.locate setup.table item pc) info ∧
    Persists v.ctx v'.ctx := by
  unfold Walk.locate Stateless.locate
  rw [← h.covers]
  cases hcovers : v.covers pc with
  | true => exact ⟨v, rfl, h, .refl _⟩
  | false =>
    obtain ⟨pidCtx, list, hfound, hlist, htable⟩ := h.entry hsteady
    obtain ⟨-, hpid⟩ := mem_of_lookup hfound
    obtain ⟨v', hsearch, hend⟩ := guSearchPidElfCtx_ends w (Walk.entry_ok h.opened hfound) pc
    have hsound := h.sound.search w pc
    have hin := h.sound.searchedIn w pc
    rw [hsearch] at hsound hin
    have hadv := hin.advances h.sound
    have hreads := PerPidCtx.search_reads v.ctx hlist pc
    rw [← htable] at hreads
    have hresult : v'.pidCtx ≠ none ∧ v'.elfItem.map (Interval.mapPayload v'.ctx.fileAt) =
        (guIntervalArraySearch setup.table pc).map Prod.snd ∧ v.info.SameButFlags v'.info := by
      have hopened : v.pidCtx ≠ none := by
        rw [h.opened]
        exact Option.some_ne_none pid
      cases hend with
      | found hitem =>
        rw [hitem] at hreads
        exact ⟨hopened, hreads, .refl _⟩
      | missed hmiss hreloaded | postponed hmiss hfresh hallowed =>
        rw [hmiss] at hreads
        exact ⟨hopened, hreads, .refl _⟩
      | exited hmiss hfresh hallowed halive =>
        rw [h.alive hsteady] at halive
        cases halive
      | reloaded hmiss hfresh hallowed halive =>
        rw [hmiss] at hreads
        rw [← hpid] at hfound
        obtain ⟨hadv, entry, hentry, hsame, -⟩ := guMapsReloadAllowed_advances w h.sound.refs hfound
        have hasked := (h.sound.refs.reloadAllowed w hfound).1.stillAlive w v.info.pid
        have hmoves : CacheMoves w v.ctx (askReload w v pidCtx) :=
          (hadv.trans (stillAlive_advances w _ _)).moves
        obtain ⟨hopened, hitem, hinfo⟩ := h.reloaded hsteady hmiss hmoves
          ((hasked.pid _).trans hentry) hsame hpid
        rw [hitem, ← hreads]
        exact ⟨hopened, rfl, hinfo⟩
    obtain ⟨hopened, hitem, hinfo⟩ := hresult
    refine ⟨v', hsearch, ?_, hadv.persists⟩
    refine h.moved hsound.1 hadv.moves ?_ hitem hinfo
    obtain ⟨p, hp⟩ := Option.ne_none_iff_exists'.mp hopened
    rw [hp, hsound.1.sampled p hp, hsound.2.1, h.sampled]

end Shadow

/-! ## Frames -/

/-- The record shows the frame; it names the file by an entry of the table. -/
structure FrameRecord.Shows {P : Type} (ctx : GuContext P) (frame : FrameRecord)
    (view : FrameView) : Prop where
  pc : frame.pc = view.pc
  absPc : frame.absPc = view.absPc
  offset : frame.offset = view.offset
  symbol : frame.symbol = view.symbol
  file : match frame.elfInfo with
    | none => view.buildId = none
    | some id => ∃ e, ctx.elf id = some e ∧ view.buildId = some e.buildId
  flags : frame.flags = view.flags

/-- The records show the frames. -/
abbrev Shown {P : Type} (ctx : GuContext P) : List FrameRecord → List FrameView → Prop :=
  List.Forall₂ (FrameRecord.Shows ctx)

section Frames

variable {P : Type} {ctx ctx' : GuContext P} {e : PerElfCtx P}

variable {frames : List FrameRecord} {views : List FrameView}

/-- Records stay good while their entries stay. -/
theorem Shown.persist (h : Shown ctx frames views) (hpersists : Persists ctx ctx') :
    Shown ctx' frames views := by
  refine h.imp fun frame view hshows => { hshows with file := ?_ }
  have hfile := hshows.file
  cases helf : frame.elfInfo with
  | none =>
    rw [helf] at hfile
    exact hfile
  | some id =>
    rw [helf] at hfile
    obtain ⟨e, he, hbuild⟩ := hfile
    obtain ⟨e', he', hsame⟩ := hpersists id e he
    exact ⟨e', he', hsame ▸ hbuild⟩

/-- There is a view for each frame. -/
theorem Shown.isEmpty (h : Shown ctx frames views) : frames.isEmpty = views.isEmpty := by
  cases h <;> rfl

/-- One more frame and its view. -/
theorem Shown.snoc (h : Shown ctx frames views) {frame : FrameRecord} {view : FrameView}
    (hshows : frame.Shows ctx view) : Shown ctx (frames ++ [frame]) (views ++ [view]) :=
  List.rel_append h (.cons hshows .nil)

/-- A frame outside every file. -/
theorem anonFrame_shows (ctx : GuContext P) (pc : Word) :
    (anonFrame pc).Shows ctx (Stateless.anonFrame pc) := ⟨rfl, rfl, rfl, rfl, rfl, rfl⟩

/-- A frame in a file. -/
theorem elfFrame_shows (he : ctx.elf e.id = some e) (pc relativePc offset : Word)
    (symbol : Option String) :
    (elfFrame ctx e pc relativePc offset symbol).Shows ctx
      (Stateless.fileFrame ctx.goOnlyBuildid e.view pc relativePc offset symbol) := by
  unfold elfFrame Stateless.fileFrame PerElfCtx.view
  dsimp only
  split
  · exact ⟨rfl, rfl, rfl, rfl, ⟨e, he, rfl⟩, rfl⟩
  · exact ⟨rfl, rfl, rfl, rfl, ⟨e, he, rfl⟩, rfl⟩

/-- The symbol is looked up in the view. -/
theorem fpSymbol_eq (e : PerElfCtx P) (pc : Word) :
    fpSymbol e pc = (Stateless.symbolAt e.view pc).getD (none, 0#64) := by
  unfold fpSymbol Stateless.symbolAt PerElfCtx.view
  cases e.symbols with
  | none => rfl
  | some symbols =>
    simp only [Option.bind_some]
    cases guIntervalArraySearch symbols pc <;> rfl

/-- The name is looked up in the view. -/
theorem guLookupElfSymbol_eq (e : PerElfCtx P) (pc : Word) :
    guLookupElfSymbol e pc = Stateless.nameAt e.view pc := by
  unfold guLookupElfSymbol Stateless.nameAt Stateless.symbolAt PerElfCtx.view
  cases e.symbols with
  | none => rfl
  | some symbols =>
    simp only [Option.bind_some]
    cases guIntervalArraySearch symbols pc with
    | none => rfl
    | some found =>
      obtain ⟨i, item⟩ := found
      simp only [Option.map_some]
      cases item.payload <;> rfl

end Frames

end Gunwinder
