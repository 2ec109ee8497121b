import Gunwinder.Cache.Runs
import Gunwinder.Core.Trace

/-!
# Steps of the cache

Every operation on a context is a sequence of steps from a short list. What holds of every
state and its record is proved once per step; the modules behind this one never look at the
operations again.
-/

namespace Gunwinder

open Gunwinder.Core

variable {P : Type}

/-- A mapping of a process, with what its file decodes to. -/
structure Source (P : Type) where
  map : MapsInfo
  file : Option (ElfImage P)

/-- The mapping record a source leaves, by the table of ELF files. A file that decodes leaves
none only when its debug file does not. -/
def Source.Fits (ctx : GuContext P) (src : Source P) (item : Interval (Option MapCtx)) : Prop :=
  item.start = src.map.start ∧ item.fin = src.map.fin ∧
  match item.payload with
  | none => ∀ image ∈ src.file, image.debugScanned = false
  | some mapCtx => ∃ image ∈ src.file, ∃ e, ctx.elf mapCtx.elfCtx = some e ∧
      e.buildId = image.buildId ∧ mapCtx = guElfMapCtx e (guResolveMapExecVirtAddr e src.map)

/-- A property of every file of a process and the path it is opened by. -/
def eachFile (ctx : GuContext P) (R : Source P → Option OpenPath → Prop) :
    Bool → List (Source P) → Prop
  | _, [] => True
  | first, src :: rest => R src (livePath ctx first src.map) ∧ eachFile ctx R false rest

/-- What a process that has just been loaded was made from: the mappings, the files and the
clock read during the load. -/
structure LoadedFrom (w : World P) (ctx : GuContext P) (pidCtx : PerPidCtx)
    (sources : List (Source P)) : Prop where
  maps : ∃ t < ctx.tick, w.maps t pidCtx.pid = sources.map Source.map
  files : eachFile ctx
    (fun src path => ∃ t < ctx.tick, w.elf t pidCtx.pid src.map.path path = src.file) true sources
  items : ∃ items list, pidCtx.elfCtxList = some list ∧ guIntervalArrayInit items = some list ∧
    ((∀ t, w.alloc t = true) → List.Forall₂ (Source.Fits ctx) sources items)
  clock : ∃ t < ctx.tick, pidCtx.lastMapsLoadNs = w.now t
  delay : ∃ delay, guPidMapsReloadMinIntervalNs ≤ delay ∧ delay ≤ guPidMapsReloadMaxIntervalNs ∧
    pidCtx.nextMapsReloadNs = pidCtx.lastMapsLoadNs + delay

/-- The record of a run: what happens to references, entries and processes, with the clock
where it is read. -/
inductive CacheEvent (P : Type) where
  /-- A question to the system, a counter, a row in a parse cache, a client's blob. -/
  | quiet
  | taken (id : Nat)
  | created (id : Nat)
  /-- A reference is given back; the last one retires the entry. -/
  | put (id : Nat) (last : Bool) (now : Word)
  | swept (now : Word)
  | loaded (pidCtx : PerPidCtx) (sources : List (Source P))
  | destroyed (pidCtx : PerPidCtx)
  /-- A pc is in no mapping: the process is reloaded, or that is put off. -/
  | missed (pid : Int) (now : Word) (reload : Bool)

/-- The statistics differ neither in a total nor in the answers to PC misses. -/
structure Statistics.SameTotals (st st' : Statistics) : Prop where
  elfs : st'.elfCtxCount = st.elfCtxCount
  retired : st'.retiredElfCtxCount = st.retiredElfCtxCount
  pids : st'.pidCtxCount = st.pidCtxCount
  symbols : st'.symbolsMemSize = st.symbolsMemSize
  cfi : st'.cfiMemSize = st.cfiMemSize
  cfiData : st'.cfiDataMemSize = st.cfiDataMemSize
  reloads : st'.pidMapsReloadCount = st.pidMapsReloadCount
  throttles : st'.pidMapsReloadThrottleCount = st.pidMapsReloadThrottleCount

/-- The entry and the context after the put that gives the last reference back. -/
def retireEntry (now : Word) (e : PerElfCtx P) : PerElfCtx P :=
  { e with
    refcnt := wrapSub e.refcnt 1
    retired := true
    retireDeadlineNs := now + guElfRetireTtlNs }

/-- The system shows the image at some time, under some path of some process. -/
def World.Shows (w : World P) (image : ElfImage P) : Prop :=
  ∃ t pid path openPath, w.elf t pid path openPath = some image

/-- One step, with its entry in the record. -/
inductive CacheStep (w : World P) : GuContext P → CacheEvent P → GuContext P → Prop where
  | ask (ctx : GuContext P) : CacheStep w ctx .quiet { ctx with tick := ctx.tick + 1 }
  | count (ctx : GuContext P) (f : Statistics → Statistics)
    (hf : ctx.statistics.SameTotals (f ctx.statistics)) : CacheStep w ctx .quiet (ctx.count f)
  | cacheRow (ctx : GuContext P) (id : Nat) (cache : ParseCache) :
    CacheStep w ctx .quiet (ctx.modifyElf id fun e =>
      { e with guCfi := e.guCfi.map fun c => { c with cache := cache } })
  /-- Writes to the entry of a process that keep what it was loaded with. -/
  | amend (ctx : GuContext P) (pid : Int) (f : PerPidCtx → PerPidCtx)
    (hf : ∀ p, f p = { p with preload := (f p).preload, privateInfo := (f p).privateInfo }) :
    CacheStep w ctx .quiet (ctx.modifyPid pid f)
  /-- A reload deadline that is zero is taken for none. -/
  | reschedule (ctx : GuContext P) (pidCtx : PerPidCtx) (last next rand : Word)
    (hp : ctx.pid pidCtx.pid = some pidCtx) (hzero : pidCtx.nextMapsReloadNs = 0#64) :
    CacheStep w ctx .quiet (ctx.modifyPid pidCtx.pid fun p =>
      { p with mapsReloadRandState := rand, lastMapsLoadNs := last, nextMapsReloadNs := next })
  | take (ctx : GuContext P) (e : PerElfCtx P) (he : e ∈ ctx.elfCtxList) :
    CacheStep w ctx (.taken e.id) (reuseElf ctx e)
  | create (ctx : GuContext P) (image : ElfImage P)
    (hnew : ctx.findBuildId image.buildId = none) (hscanned : image.debugScanned = true)
    (hshown : w.Shows image) :
    CacheStep w ctx (.created ctx.nextElf) { ctx with
      elfCtxList := ctx.elfCtxList ++ [newElf ctx.nextElf image]
      nextElf := ctx.nextElf + 1
      statistics :=
        let e := newElf ctx.nextElf image
        let st := ctx.statistics.charge e.symbols e.symSearchSize e.guCfi
        { st with elfCtxCount := st.elfCtxCount + 1 } }
  | put (ctx : GuContext P) (e : PerElfCtx P) (he : ctx.elf e.id = some e) (hpos : 0 < e.refcnt) :
    CacheStep w ctx (.put e.id (e.refcnt == 1) (w.now ctx.tick)) (guPutElfCtx w ctx e.id)
  /-- No record in the table points to a retired entry when the sweep starts. -/
  | sweep (ctx : GuContext P) (now : Word)
    (hused : ∀ id ∈ ctx.refs, ∀ e, ctx.elf id = some e → e.retired = false) :
    CacheStep w ctx (.swept now) (guRetiredElfSweep ctx now)
  | load (ctx : GuContext P) (pidCtx : PerPidCtx) (sources : List (Source P))
    (hnew : ctx.pid pidCtx.pid = none) (hfrom : LoadedFrom w ctx pidCtx sources) :
    CacheStep w ctx (.loaded pidCtx sources) (addPidCtx ctx pidCtx)
  | destroy (ctx : GuContext P) (pidCtx : PerPidCtx) (hp : ctx.pid pidCtx.pid = some pidCtx) :
    CacheStep w ctx (.destroyed pidCtx) ({ ctx.notify pidCtx .destroy with
      pidCtxList := remove PerPidCtx.pid ctx.pidCtxList pidCtx.pid }.count
        fun st => { st with pidCtxCount := wrapSub st.pidCtxCount 1 })
  | throttle (ctx : GuContext P) (pidCtx : PerPidCtx) (now : Word)
    (hp : ctx.pid pidCtx.pid = some pidCtx) (hnow : ∃ t < ctx.tick, now = w.now t)
    (hlt : now < pidCtx.nextMapsReloadNs) :
    CacheStep w ctx (.missed pidCtx.pid now false) (ctx.count fun st =>
      { st with pidMapsReloadThrottleCount := st.pidMapsReloadThrottleCount + 1 })
  | reload (ctx : GuContext P) (pidCtx : PerPidCtx) (now : Word)
    (hp : ctx.pid pidCtx.pid = some pidCtx) (hnow : ∃ t < ctx.tick, now = w.now t)
    (hle : pidCtx.nextMapsReloadNs ≤ now) :
    CacheStep w ctx (.missed pidCtx.pid now true) (ctx.count fun st =>
      { st with pidMapsReloadCount := st.pidMapsReloadCount + 1 })

/-- Some steps lead from one context to the other. -/
abbrev CacheMoves (w : World P) : GuContext P → GuContext P → Prop := Moves (CacheStep w)

/-! ## Puts and takes on the table -/

section Entry

variable {ctx : GuContext P} {e : PerElfCtx P} (w : World P)

/-- The put that gives the last reference back writes once to the entry, and the earliest
deadline follows. -/
theorem guPutElfCtx_of_last (he : ctx.elf e.id = some e) (hone : e.refcnt = 1)
    (hactive : e.retired = false) :
    guPutElfCtx w ctx e.id = { ctx with
      elfCtxList := update PerElfCtx.id ctx.elfCtxList e.id (retireEntry (w.now ctx.tick))
      statistics := { ctx.statistics with
        elfCtxCount := ctx.statistics.elfCtxCount - 1
        retiredElfCtxCount := ctx.statistics.retiredElfCtxCount + 1 }
      nextRetiredElfDeadlineNs :=
        if ctx.nextRetiredElfDeadlineNs = 0#64 ∨
            w.now ctx.tick + guElfRetireTtlNs < ctx.nextRetiredElfDeadlineNs
        then w.now ctx.tick + guElfRetireTtlNs else ctx.nextRetiredElfDeadlineNs
      tick := ctx.tick + 1 } := by
  have hzero : wrapSub e.refcnt 1 = 0 := by rw [hone]; rfl
  have hwrites : update PerElfCtx.id (update PerElfCtx.id ctx.elfCtxList e.id fun e =>
      { e with refcnt := wrapSub e.refcnt 1 }) e.id (fun e =>
        { e with retired := true, retireDeadlineNs := w.now ctx.tick + guElfRetireTtlNs }) =
      update PerElfCtx.id ctx.elfCtxList e.id (retireEntry (w.now ctx.tick)) :=
    update_update fun _ => rfl
  rw [← hwrites]
  simp only [guPutElfCtx, he, hzero, if_true, guRetireElfCtx, hactive, Bool.false_eq_true, if_false]
  by_cases hsooner : ctx.nextRetiredElfDeadlineNs = 0#64 ∨
      w.now ctx.tick + guElfRetireTtlNs < ctx.nextRetiredElfDeadlineNs
  · rw [if_pos hsooner]
    exact if_pos hsooner
  · rw [if_neg hsooner]
    exact if_neg hsooner

/-- Any other put only counts. -/
theorem guPutElfCtx_of_not_last (he : ctx.elf e.id = some e) (hpos : 0 < e.refcnt)
    (hnot : ¬(e.refcnt = 1 ∧ e.retired = false)) :
    guPutElfCtx w ctx e.id =
      ctx.modifyElf e.id fun e => { e with refcnt := wrapSub e.refcnt 1 } := by
  simp only [guPutElfCtx, he, guRetireElfCtx]
  split
  · rename_i hzero
    have hone : e.refcnt = 1 := by
      rw [wrapSub, if_pos (by omega)] at hzero
      omega
    have hretired : e.retired = true := by simpa [hone] using hnot
    rw [if_pos hretired]
  · rfl

/-- A reference on an active entry only counts. -/
theorem reuseElf_of_active (hactive : e.retired = false) :
    reuseElf ctx e = ctx.modifyElf e.id fun e => { e with refcnt := e.refcnt + 1 } := by
  simp only [reuseElf, hactive, Bool.false_eq_true, if_false]

/-- A reference on a retired entry takes its mark and its deadline back. -/
theorem reuseElf_of_retired (hretired : e.retired = true) :
    reuseElf ctx e = { ctx with
      elfCtxList := update PerElfCtx.id ctx.elfCtxList e.id fun e =>
        { e with retired := false, retireDeadlineNs := 0#64, refcnt := e.refcnt + 1 }
      statistics := { ctx.statistics with
        retiredElfCtxCount := ctx.statistics.retiredElfCtxCount - 1
        elfCtxCount := ctx.statistics.elfCtxCount + 1
        retiredElfCacheHit := ctx.statistics.retiredElfCacheHit + 1 } } := by
  simp only [reuseElf, hretired, if_true, guUnretireElfCtx, GuContext.modifyElf, GuContext.count,
    update_update, implies_true]

end Entry

/-! ## What a step does to processes -/

/-- What an event says about the sources of a process. -/
def CacheEvent.reads (pid : Int) (last : Option (List (Source P))) :
    CacheEvent P → Option (List (Source P))
  | .loaded pidCtx sources => if pidCtx.pid = pid then some sources else last
  | _ => last

section Processes

variable {w : World P} {ctx ctx' ctx'' : GuContext P} {event : CacheEvent P}

/-- Time goes on, and the debug setting stays. -/
theorem CacheStep.settings (hstep : CacheStep w ctx event ctx') :
    ctx.tick ≤ ctx'.tick ∧ ctx'.debug = ctx.debug := by
  cases hstep with
  | ask => exact ⟨Nat.le_succ _, rfl⟩
  | take e' _ =>
    refine ⟨?_, congrArg ContextFrame.debug (reuseElf_frame ctx e')⟩
    unfold reuseElf guUnretireElfCtx
    cases e'.retired <;> exact Nat.le_refl _
  | put e' he hpos =>
    refine ⟨?_, congrArg ContextFrame.debug (guPutElfCtx_frame w ctx e'.id)⟩
    by_cases hlast : e'.refcnt = 1 ∧ e'.retired = false
    · rw [guPutElfCtx_of_last w he hlast.1 hlast.2]
      exact Nat.le_succ _
    · rw [guPutElfCtx_of_not_last w he hpos hlast]
      exact Nat.le_refl _
  | sweep now hused =>
    refine ⟨Nat.le_of_eq (Eq.symm ?_),
      congrArg ContextFrame.debug (guRetiredElfSweep_frame ctx now)⟩
    refine guRetiredElfSweep_preserves GuContext.tick (fun _ _ => rfl) (fun ctx e => ?_) ctx now
    unfold clearElfCtx guUnretireElfCtx
    cases e.retired <;> rfl
  | _ => exact ⟨Nat.le_refl _, rfl⟩

/-- A process in the table after a step was there before with the same records, or the step
has loaded it. -/
theorem CacheStep.entries (hstep : CacheStep w ctx event ctx') :
    ∀ p' ∈ ctx'.pidCtxList,
      (∃ p ∈ ctx.pidCtxList, p'.pid = p.pid ∧ p'.elfCtxList = p.elfCtxList ∧
        ∀ last, event.reads p'.pid last = last) ∨
      ∃ sources, event = .loaded p' sources ∧ LoadedFrom w ctx p' sources := by
  intro p' hp'
  have hsame : ctx'.frame = ctx.frame → p' ∈ ctx.pidCtxList := fun hframe => by
    have hlist : ctx'.pidCtxList = ctx.pidCtxList := congrArg ContextFrame.pidCtxList hframe
    rwa [← hlist]
  cases hstep with
  | amend pid f hf =>
    rcases mem_update.mp hp' with ⟨p, hp, -, rfl⟩ | ⟨hp, -⟩
    · rw [hf p]
      exact .inl ⟨p, hp, rfl, rfl, fun _ => rfl⟩
    · exact .inl ⟨p', hp, rfl, rfl, fun _ => rfl⟩
  | reschedule pidCtx last next rand hfound hzero =>
    rcases mem_update.mp hp' with ⟨p, hp, -, rfl⟩ | ⟨hp, -⟩
    · exact .inl ⟨p, hp, rfl, rfl, fun _ => rfl⟩
    · exact .inl ⟨p', hp, rfl, rfl, fun _ => rfl⟩
  | take e he => exact .inl ⟨p', hsame (reuseElf_frame ctx e), rfl, rfl, fun _ => rfl⟩
  | put e he hpos => exact .inl ⟨p', hsame (guPutElfCtx_frame w ctx e.id), rfl, rfl, fun _ => rfl⟩
  | sweep now hused =>
    exact .inl ⟨p', hsame (guRetiredElfSweep_frame ctx now), rfl, rfl, fun _ => rfl⟩
  | load pidCtx sources hnew hfrom =>
    rcases List.mem_append.mp hp' with hp | hp
    · exact .inl ⟨p', hp, rfl, rfl, fun _ => if_neg (lookup_eq_none.mp hnew p' hp).symm⟩
    · rw [List.mem_singleton.mp hp]
      exact .inr ⟨sources, rfl, hfrom⟩
  | destroy pidCtx hfound => exact .inl ⟨p', (mem_remove.mp hp').1, rfl, rfl, fun _ => rfl⟩
  | _ => exact .inl ⟨p', hp', rfl, rfl, fun _ => rfl⟩

/-- What is left of a mapping by questions from `t` on and before `t'`: a gap, or a record whose
file was found under the path of the mapping and whose address in the file is that of its
offset. -/
def MapsInfo.Recorded (w : World P) (pid : Int) (t t' : Nat) (map : MapsInfo)
    (item : Interval (Option MapCtx)) : Prop :=
  item.start = map.start ∧ item.fin = map.fin ∧ ∀ mapCtx ∈ item.payload,
    ∃ n openPath image, t ≤ n ∧ n < t' ∧ w.elf n pid map.path openPath = some image ∧
      ∃ elf : PerElfCtx P, elf.buildId = image.buildId ∧
        mapCtx = guElfMapCtx elf (guResolveMapExecVirtAddr elf map)

/-- The entry has what is left of the mappings at `t`, and all was asked before `t'`. -/
def PerPidCtx.ReadFrom (w : World P) (pidCtx : PerPidCtx) (t t' : Nat) : Prop :=
  t < t' ∧ ∃ items list, pidCtx.elfCtxList = some list ∧ guIntervalArrayInit items = some list ∧
    List.Forall₂ (MapsInfo.Recorded w pidCtx.pid t t') (w.maps t pidCtx.pid) items

/-- The questions may be asked within a wider time. -/
theorem MapsInfo.Recorded.mono {pid : Int} {t t' u u' : Nat} {map : MapsInfo}
    {item : Interval (Option MapCtx)} (h : map.Recorded w pid t t' item) (ht : u ≤ t)
    (ht' : t' ≤ u') : map.Recorded w pid u u' item := by
  refine ⟨h.1, h.2.1, fun mapCtx hmapCtx => ?_⟩
  obtain ⟨n, openPath, image, hle, hlt, hfile⟩ := h.2.2 mapCtx hmapCtx
  exact ⟨n, openPath, image, ht.trans hle, Nat.lt_of_lt_of_le hlt ht', hfile⟩

/-- The entry is one from before, up to its schedule and its client's data. -/
structure PerPidCtx.SameMaps (pidCtx pidCtx' : PerPidCtx) : Prop where
  pid : pidCtx'.pid = pidCtx.pid
  list : pidCtx'.elfCtxList = pidCtx.elfCtxList

/-- What was read stays so. -/
theorem PerPidCtx.ReadFrom.same {pidCtx pidCtx' : PerPidCtx} {t t' u' : Nat}
    (h : pidCtx.ReadFrom w t t') (hsame : pidCtx.SameMaps pidCtx') (hlater : t' ≤ u') :
    pidCtx'.ReadFrom w t u' := by
  obtain ⟨hlt, items, list, hlist, hinit, hrecorded⟩ := h
  rw [ReadFrom, hsame.list, hsame.pid]
  exact ⟨Nat.lt_of_lt_of_le hlt hlater, items, list, hlist, hinit,
    hrecorded.imp fun _ _ hitem => hitem.mono (Nat.le_refl _) hlater⟩

/-- Steps, in which time goes on and every entry was there before or is loaded. -/
structure Renews (w : World P) (ctx ctx' : GuContext P) : Prop where
  moves : CacheMoves w ctx ctx'
  tick : ctx.tick ≤ ctx'.tick
  entries : ∀ p' ∈ ctx'.pidCtxList, (∃ p ∈ ctx.pidCtxList, p.SameMaps p') ∨
    ∃ t, ctx.tick ≤ t ∧ p'.ReadFrom w t ctx'.tick

namespace Renews

/-- No step at all. -/
theorem refl (ctx : GuContext P) : Renews w ctx ctx :=
  ⟨.refl ctx, Nat.le_refl _, fun p' hp' => .inl ⟨p', hp', rfl, rfl⟩⟩

/-- Steps after steps. -/
theorem trans (h : Renews w ctx ctx') (h' : Renews w ctx' ctx'') : Renews w ctx ctx'' := by
  refine ⟨h.moves.trans h'.moves, h.tick.trans h'.tick, fun p'' hp'' => ?_⟩
  rcases h'.entries p'' hp'' with ⟨p', hp', hsame'⟩ | ⟨t, ht, hread⟩
  · rcases h.entries p' hp' with ⟨p, hp, hsame⟩ | ⟨t, ht, hread⟩
    · exact .inl ⟨p, hp, hsame'.pid.trans hsame.pid, hsame'.list.trans hsame.list⟩
    · exact .inr ⟨t, ht, hread.same hsame' h'.tick⟩
  · exact .inr ⟨t, h.tick.trans ht, hread⟩

/-- Only a load adds an entry. -/
theorem step (hstep : CacheStep w ctx event ctx')
    (hevent : ∀ pidCtx sources, event ≠ .loaded pidCtx sources) : Renews w ctx ctx' := by
  refine ⟨.single hstep, hstep.settings.1, fun p' hp' => ?_⟩
  rcases hstep.entries p' hp' with ⟨p, hp, hpid, hlist, -⟩ | ⟨sources, hloaded, -⟩
  · exact .inl ⟨p, hp, hpid, hlist⟩
  · exact absurd hloaded (hevent p' sources)

/-- A question is such a step. -/
theorem ask {α : Type} (w : World P) (ctx : GuContext P) (question : Nat → α) :
    Renews w ctx (ctx.ask question).2 := .step (.ask ctx) nofun

end Renews

end Processes

/-! ## What puts and takes leave alone -/

section Frame

variable {β : Type} {g : PerElfCtx P → β}

/-- A reading of an entry that is none of its counter, its mark and its deadline. -/
def PerElfCtx.Fixed (g : PerElfCtx P → β) : Prop :=
  ∀ b n r d, g { b with refcnt := n, retired := r, retireDeadlineNs := d } = g b

/-- A released reference leaves what is fixed. -/
theorem guPutElfCtx_map (hg : PerElfCtx.Fixed g) (w : World P) (ctx : GuContext P) (id : Nat) :
    (guPutElfCtx w ctx id).elfCtxList.map g = ctx.elfCtxList.map g := by
  have hcounted : (update PerElfCtx.id ctx.elfCtxList id fun e =>
      { e with refcnt := wrapSub e.refcnt 1 }).map g = ctx.elfCtxList.map g :=
    map_update fun b => hg b _ b.retired b.retireDeadlineNs
  have hretired : ∀ (l : List (PerElfCtx P)) d, (update PerElfCtx.id l id fun e =>
      { e with retired := true, retireDeadlineNs := d }).map g = l.map g :=
    fun l d => map_update fun b => hg b b.refcnt _ _
  unfold guPutElfCtx
  split
  · rfl
  rename_i e he
  obtain ⟨-, rfl⟩ := mem_of_lookup he
  dsimp only
  split
  · unfold guRetireElfCtx
    split
    · exact hcounted
    · dsimp only
      split <;> exact (hretired _ _).trans hcounted
  · exact hcounted

/-- A reused entry keeps what is fixed. -/
theorem reuseElf_map (hg : PerElfCtx.Fixed g) (ctx : GuContext P) (e : PerElfCtx P) :
    (reuseElf ctx e).elfCtxList.map g = ctx.elfCtxList.map g := by
  cases hretired : e.retired with
  | true =>
    rw [reuseElf_of_retired hretired]
    exact map_update fun b => hg b _ _ _
  | false =>
    rw [reuseElf_of_active hretired]
    exact map_update fun b => hg b _ b.retired b.retireDeadlineNs

end Frame

/-- A sweep only frees entries. -/
theorem guRetiredElfSweep_sublist (ctx : GuContext P) (now : Word) :
    (guRetiredElfSweep ctx now).elfCtxList.Sublist ctx.elfCtxList := by
  unfold guRetiredElfSweep
  split
  · exact List.Sublist.refl _
  split
  · exact List.Sublist.refl _
  · dsimp only
    rw [sweepEntries_elfCtxList]
    exact List.filter_sublist

/-! ## Distinct entries -/

/-- The entries of the ELF table have different ids and different build ids, and the ids still
to come are new. -/
structure GuContext.DistinctElfs (ctx : GuContext P) : Prop where
  ids : (ctx.elfCtxList.map PerElfCtx.id).Nodup
  below : ∀ e ∈ ctx.elfCtxList, e.id < ctx.nextElf
  builds : (ctx.elfCtxList.map PerElfCtx.buildId).Nodup

namespace GuContext.DistinctElfs

variable {ctx ctx' : GuContext P}

section

variable (h : ctx.DistinctElfs)
include h

/-- Ids and build ids decide. -/
theorem of_map (hnext : ctx'.nextElf = ctx.nextElf)
    (hmap : ctx'.elfCtxList.map (fun e => (e.id, e.buildId)) =
      ctx.elfCtxList.map fun e => (e.id, e.buildId)) : ctx'.DistinctElfs := by
  have hids := congrArg (List.map Prod.fst) hmap
  have hbuilds := congrArg (List.map Prod.snd) hmap
  simp only [List.map_map, Function.comp_def] at hids hbuilds
  refine ⟨?_, ?_, ?_⟩
  · rw [show ctx'.elfCtxList.map PerElfCtx.id = _ from hids]
    exact h.ids
  · intro e he
    obtain ⟨b, hb, heq⟩ := List.mem_map.mp (hids ▸ List.mem_map_of_mem he)
    rw [hnext, ← heq]
    exact h.below b hb
  · rw [show ctx'.elfCtxList.map PerElfCtx.buildId = _ from hbuilds]
    exact h.builds

/-- Freeing entries keeps the others apart. -/
theorem of_sublist (hnext : ctx'.nextElf = ctx.nextElf)
    (hsub : ctx'.elfCtxList.Sublist ctx.elfCtxList) : ctx'.DistinctElfs :=
  ⟨h.ids.sublist (hsub.map _), fun e he => hnext ▸ h.below e (hsub.subset he),
    h.builds.sublist (hsub.map _)⟩

/-- A new entry has the next id and a build id that was not found. -/
theorem create {image : ElfImage P} (hnew : ctx.findBuildId image.buildId = none)
    (st : Statistics) :
    GuContext.DistinctElfs { ctx with
      elfCtxList := ctx.elfCtxList ++ [newElf ctx.nextElf image]
      nextElf := ctx.nextElf + 1
      statistics := st } := by
  refine ⟨?_, ?_, ?_⟩
  · rw [List.map_append, List.map_singleton]
    refine List.nodup_append.mpr ⟨h.ids, List.nodup_singleton _, ?_⟩
    intro x hx y hy hxy
    obtain ⟨b, hb, rfl⟩ := List.mem_map.mp hx
    exact (h.below b hb).ne (hxy.trans (List.mem_singleton.mp hy))
  · intro b hb
    rcases List.mem_append.mp hb with hb | hb
    · exact Nat.lt_succ_of_lt (h.below b hb)
    · rw [List.mem_singleton.mp hb]
      exact Nat.lt_succ_self _
  · rw [List.map_append, List.map_singleton]
    refine List.nodup_append.mpr ⟨h.builds, List.nodup_singleton _, ?_⟩
    intro x hx y hy hxy
    obtain ⟨b, hb, rfl⟩ := List.mem_map.mp hx
    exact lookup_eq_none.mp hnew b hb (hxy.trans (List.mem_singleton.mp hy))

/-- A released reference keeps entries distinct. -/
theorem put (w : World P) (id : Nat) : (guPutElfCtx w ctx id).DistinctElfs := by
  refine h.of_map ?_ (guPutElfCtx_map (fun _ _ _ _ => rfl) w ctx id)
  simp only [guPutElfCtx, guRetireElfCtx]
  split
  · rfl
  · repeat' split
    all_goals rfl

/-- A reused entry keeps entries distinct. -/
theorem take (e : PerElfCtx P) : (reuseElf ctx e).DistinctElfs := by
  refine h.of_map ?_ (reuseElf_map (fun _ _ _ _ => rfl) ctx e)
  unfold reuseElf guUnretireElfCtx
  cases e.retired <;> rfl

/-- A sweep keeps entries distinct. -/
theorem sweep (now : Word) : (guRetiredElfSweep ctx now).DistinctElfs := by
  refine h.of_sublist ?_ (guRetiredElfSweep_sublist ctx now)
  refine guRetiredElfSweep_preserves GuContext.nextElf (fun _ _ => rfl) (fun ctx e => ?_) ctx now
  unfold clearElfCtx guUnretireElfCtx
  cases e.retired <;> rfl

/-- An event keeps entries distinct. -/
theorem step {w : World P} {event : CacheEvent P} (hstep : CacheStep w ctx event ctx') :
    ctx'.DistinctElfs := by
  cases hstep with
  | cacheRow id cache => exact h.of_map rfl (map_update fun _ => rfl)
  | take e he => exact h.take e
  | create image hnew => exact h.create hnew _
  | put e he hpos => exact h.put w e.id
  | sweep now hused => exact h.sweep now
  | _ => exact h.of_map rfl rfl

end

/-- There are no entries at first. -/
theorem init (debug goOnlyBuildid retireTimerStarted : Bool) :
    (guInit debug goOnlyBuildid retireTimerStarted : GuContext P).DistinctElfs :=
  ⟨List.nodup_nil, nofun, List.nodup_nil⟩

end GuContext.DistinctElfs

end Gunwinder
