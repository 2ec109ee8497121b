import Gunwinder.Cache.Sweep

/-!
# Reference counting over whole runs

Every public operation keeps the invariant of the two tables, whatever the system answers
and wherever a load fails. A walk holds the mapping record of the last pc between its
turns; the record stays valid because entries are freed only by sweeps, and a walk that
reloads its process replaces the record.
-/

namespace Gunwinder

open Gunwinder.Core

variable {H P : Type} {Q : CfiProperty P} {ctx : GuContext P} {α β : Type}

/-- A run ends with a result that has the property, or is stuck for another reason than a
stale pointer. -/
def Ends (R : α → Prop) : Except Stuck α → Prop
  | .ok a => R a
  | .error stuck => stuck ≠ .stalePointer

private theorem Ends.bind {R : α → Prop} {T : β → Prop} {x : Except Stuck α}
    {f : α → Except Stuck β} (hx : Ends R x) (hf : ∀ a, R a → Ends T (f a)) : Ends T (x >>= f) := by
  cases x with
  | ok a => exact hf a hx
  | error stuck => exact hx

/-- A weaker property of the result. -/
theorem Ends.imp {R T : α → Prop} {x : Except Stuck α} (h : Ends R x) (hRT : ∀ a, R a → T a) :
    Ends T x := by
  cases x with
  | ok a => exact hRT a h
  | error stuck => exact h

/-! ## Walks -/

/-- Between two turns: the tables are consistent, the process is in its table and is the
sampled one, and the record in hand is one of its records. -/
structure Walk.Sound (Q : CfiProperty P) (v : Walk P) : Prop where
  refs : References Q [] v.ctx
  entry : ∀ pid ∈ v.pidCtx, ∃ pidCtx, v.ctx.pid pid = some pidCtx
  sampled : ∀ pid ∈ v.pidCtx, pid = v.info.pid
  held : ∀ item ∈ v.elfItem, ∃ pid ∈ v.pidCtx, ∃ pidCtx,
    v.ctx.pid pid = some pidCtx ∧ item ∈ pidCtx.items

variable {pidCtx : PerPidCtx}

/-- The records of a process in the table point into the table of ELF files. -/
theorem References.record_live {held : List Nat} {item : Interval (Option MapCtx)} {mapCtx : MapCtx}
    (h : References Q held ctx) (hpid : pidCtx ∈ ctx.pidCtxList) (hitem : item ∈ pidCtx.items)
    (hmap : mapCtx ∈ item.payload) : ∃ e, ctx.elf mapCtx.elfCtx = some e := by
  have hpayload : item.payload = some mapCtx := hmap
  have href : mapCtx.elfCtx ∈ ctx.refs := List.mem_flatMap.mpr ⟨pidCtx, hpid,
    List.mem_filterMap.mpr ⟨item, hitem, by rw [hpayload, Option.map_some]⟩⟩
  have hpos : 0 < ctx.uses held mapCtx.elfCtx :=
    Nat.lt_of_lt_of_le (List.count_pos_iff.mpr href) (Nat.le_add_right _ _)
  obtain ⟨e, he, -⟩ := h.counted.lookup hpos
  exact ⟨e, he⟩

/-- What a search finds is in the table. -/
theorem PerPidCtx.mem_of_search {pc : Word} {item : Interval (Option MapCtx)}
    (h : pidCtx.search pc = some item) : item ∈ pidCtx.items := by
  unfold PerPidCtx.search at h
  split at h
  · cases h
  rename_i array harray
  obtain ⟨⟨i, found⟩, hsearch, rfl⟩ := Option.map_eq_some_iff.mp h
  have hmem := List.mem_of_getElem? (guIntervalArraySearch_sound hsearch).1
  simpa only [PerPidCtx.items, harray, Option.map_some, Option.getD_some] using hmem

variable {v : Walk P}

/-- The sample may change as long as it stays one of the same process. -/
theorem Walk.Sound.withInfo (h : v.Sound Q) {info : StackInfo} (hpid : info.pid = v.info.pid) :
    Walk.Sound Q { v with info := info } :=
  { h with sampled := fun pid hp => (h.sampled pid hp).trans hpid.symm }

@[simp] theorem hintGolang_pid (pidCtx : PerPidCtx) (info : StackInfo) :
    (hintGolang pidCtx info).pid = info.pid := by
  unfold hintGolang
  split <;> rfl

@[simp] theorem writeRegs_pid (arch : Arch) (info : StackInfo) (regno : Int) (val : Word) :
    (writeRegs arch info regno val).pid = info.pid := by
  unfold writeRegs
  split
  · rfl
  · split
    · rfl
    · split <;> rfl

variable (w : World P)

section

variable (h : References Q [] ctx) (hpid : ctx.pid pidCtx.pid = some pidCtx)
include h hpid

/-- Scheduling writes to the entry of the process and keeps its records. -/
theorem References.ensureScheduled :
    References Q [] (ensureScheduled w ctx pidCtx).2 ∧
      ∃ entry, (ensureScheduled w ctx pidCtx).2.pid pidCtx.pid = some entry ∧
        entry.elfCtxList = pidCtx.elfCtxList := by
  unfold Gunwinder.ensureScheduled
  split
  · obtain ⟨hpids, hrefs⟩ := h.schedule w pidCtx
    refine ⟨hrefs.modifyPid _ (fun _ => rfl) (fun _ => rfl), ?_⟩
    simp only [GuContext.pid, GuContext.modifyPid, hpids] at hpid ⊢
    simp only [lookup_update, implies_true, hpid, Option.map_some, if_true, Option.some.injEq,
      exists_eq_left']
  · exact ⟨h, pidCtx, hpid, rfl⟩

/-- Asking whether a reload is due. -/
theorem References.reloadAllowed :
    References Q [] (guMapsReloadAllowed w ctx pidCtx).2 ∧
      ∃ entry, (guMapsReloadAllowed w ctx pidCtx).2.pid pidCtx.pid = some entry ∧
        entry.elfCtxList = pidCtx.elfCtxList := by
  obtain ⟨hrefs, hentry⟩ := h.ensureScheduled w hpid
  simp only [guMapsReloadAllowed]
  split
  · exact ⟨hrefs.ask w.now, hentry⟩
  · exact ⟨(hrefs.ask w.now).of_eq rfl rfl rfl ⟨rfl, rfl, rfl⟩, hentry⟩

end

/-- A process is destroyed, whether or not its private blob was copied. -/
theorem References.copyPrivate (pidCtx : PerPidCtx) (h : References Q [] ctx) :
    Loads Q [] ctx [] (copyPrivate w ctx pidCtx).2 := by
  unfold Gunwinder.copyPrivate
  split
  · exact ⟨rfl, h⟩
  · exact ⟨rfl, h.ask w.alloc⟩

/-- A reload keeps the invariant, and a process it returns is the one in the table. -/
theorem References.reload {entry : PerPidCtx} {info : StackInfo} (h : References Q [] ctx)
    (hlookup : ctx.pid pidCtx.pid = some entry) (hentry : entry.refs = pidCtx.refs)
    (hsampled : pidCtx.pid = info.pid) :
    References Q [] (guReloadPidCtx w ctx pidCtx info).2.2 ∧
      (guReloadPidCtx w ctx pidCtx info).2.1.pid = info.pid ∧
      ∀ newCtx ∈ (guReloadPidCtx w ctx pidCtx info).1, newCtx.pid = info.pid ∧
        (guReloadPidCtx w ctx pidCtx info).2.2.pid newCtx.pid = some newCtx := by
  have hcopied := h.copyPrivate w pidCtx
  have hlookup' : ((Gunwinder.copyPrivate w ctx pidCtx).2.notify pidCtx .destroy).pid pidCtx.pid =
      some entry := (hcopied.pid _).trans hlookup
  have hcleared := (hcopied.refs.notify pidCtx .destroy).clearPidCtx w hlookup' hentry
  have hgone := guClearPidCtx_pid w
    ((Gunwinder.copyPrivate w ctx pidCtx).2.notify pidCtx .destroy) pidCtx
  rw [hsampled] at hgone
  simp only [guReloadPidCtx, destroyPidCtx]
  split
  case h_1 ctx' heq =>
    have hload := hcleared.loadPid w info hgone
    rw [heq] at hload
    refine ⟨hload.refs, rfl, ?_⟩
    rintro _ ⟨⟩
  case h_2 newCtx ctx' heq =>
    obtain ⟨hload, hpid, hfree⟩ := hcleared.loadPid_some heq hgone
    refine ⟨References.addPidCtx hload hfree, hintGolang_pid _ _, ?_⟩
    rintro _ ⟨⟩
    exact ⟨hpid, lookup_append_self hfree⟩

/-- A process in its table is found. -/
theorem Walk.entry_ok {pid : Int} (hpid : v.pidCtx = some pid)
    (hfound : v.ctx.pid pid = some pidCtx) : v.entry = .ok pidCtx := by
  unfold Walk.entry
  simp only [hpid, hfound]

/-- A search for the mapping of a pc: the table is searched, replaced and searched, or lost
with the process. -/
inductive Walk.Searched (pc : Word) (v v' : Walk P) : Prop where
  | kept {pidCtx pidCtx' : PerPidCtx} (before : v.entry = .ok pidCtx)
      (after : v'.entry = .ok pidCtx') (table : pidCtx'.elfCtxList = pidCtx.elfCtxList)
      (reloaded : v'.mapsReloaded = v.mapsReloaded) (item : v'.elfItem = pidCtx'.search pc)
  | replaced {newCtx : PerPidCtx} (fresh : v.mapsReloaded = false)
      (after : v'.entry = .ok newCtx) (reloaded : v'.mapsReloaded = true)
      (item : v'.elfItem = newCtx.search pc)
  | lost (fresh : v.mapsReloaded = false) (after : v'.pidCtx = none)
      (reloaded : v'.mapsReloaded = true) (item : v'.elfItem = none)

/-- The context behind a reload. -/
theorem reloadAndSearch_ctx (v : Walk P) (pidCtx : PerPidCtx) (pc : Word) :
    (reloadAndSearch w v pidCtx pc).ctx = (guReloadPidCtx w (v.ctx.count fun st =>
      { st with pidMapsReloadCount := st.pidMapsReloadCount + 1 }) pidCtx v.info).2.2 := by
  unfold reloadAndSearch
  dsimp only
  split
  case h_1 info ctx' heq => rw [heq]
  case h_2 newCtx info ctx' heq => rw [heq]

/-- The reload behind a miss. -/
theorem Walk.Sound.reload {entry : PerPidCtx} (pc : Word) (h : References Q [] v.ctx)
    (hlookup : v.ctx.pid pidCtx.pid = some entry) (hentry : entry.refs = pidCtx.refs)
    (hsampled : pidCtx.pid = v.info.pid) :
    (reloadAndSearch w v pidCtx pc).Sound Q ∧
      (reloadAndSearch w v pidCtx pc).info.pid = v.info.pid ∧
      ∀ before : Walk P, before.mapsReloaded = false →
        before.Searched pc (reloadAndSearch w v pidCtx pc) := by
  have hcount : References Q [] (v.ctx.count fun st =>
      { st with pidMapsReloadCount := st.pidMapsReloadCount + 1 }) :=
    h.of_eq rfl rfl rfl ⟨rfl, rfl, rfl⟩
  obtain ⟨hrefs, hinfo, hnew⟩ := hcount.reload w hlookup hentry hsampled
  unfold reloadAndSearch
  dsimp only
  split
  case h_1 info ctx' heq =>
    rw [heq] at hrefs hinfo
    exact ⟨⟨hrefs, nofun, nofun, nofun⟩, hinfo, fun _ hfresh => .lost hfresh rfl rfl rfl⟩
  case h_2 newCtx info ctx' heq =>
    rw [heq] at hrefs hinfo hnew
    obtain ⟨hpid, hfound⟩ := hnew newCtx rfl
    have hafter : (⟨ctx', info, some newCtx.pid, newCtx.search pc, true⟩ : Walk P).entry =
        .ok newCtx := Walk.entry_ok rfl hfound
    refine ⟨⟨hrefs, ?_, ?_, ?_⟩, hinfo, fun _ hfresh => .replaced hfresh hafter rfl rfl⟩
    · rintro _ ⟨⟩
      exact ⟨newCtx, hfound⟩
    · rintro _ ⟨⟩
      exact hpid.trans hinfo.symm
    · intro item hitem
      exact ⟨newCtx.pid, rfl, newCtx, hfound, PerPidCtx.mem_of_search hitem⟩

variable (pid : Int)

/-- Asking for a process keeps the references. -/
theorem References.stillAlive (h : References Q [] ctx) :
    Loads Q [] ctx [] (stillAlive w ctx pid).2 := by
  unfold Gunwinder.stillAlive
  split
  · exact ⟨rfl, h⟩
  · exact ⟨rfl, h.ask fun t => w.alive t pid⟩

/-- A search depends on the table of the process only. -/
theorem PerPidCtx.search_congr {pidCtx' : PerPidCtx} (h : pidCtx'.elfCtxList = pidCtx.elfCtxList)
    (pc : Word) : pidCtx'.search pc = pidCtx.search pc := by
  unfold PerPidCtx.search
  rw [h]

/-- The context behind the two questions before a reload. -/
def askReload (w : World P) (v : Walk P) (pidCtx : PerPidCtx) : GuContext P :=
  (stillAlive w (guMapsReloadAllowed w v.ctx pidCtx).2 v.info.pid).2

/-- The ends of a search in the table of a process. -/
inductive SearchEnd (w : World P) (v : Walk P) (pidCtx : PerPidCtx) (pc : Word) :
    Walk P → Prop where
  | found {item : Interval (Option MapCtx)} (hitem : pidCtx.search pc = some item) :
    SearchEnd w v pidCtx pc { v with elfItem := some item }
  | missed (hmiss : pidCtx.search pc = none) (hreloaded : v.mapsReloaded = true) :
    SearchEnd w v pidCtx pc { v with elfItem := none }
  | postponed (hmiss : pidCtx.search pc = none) (hfresh : v.mapsReloaded = false)
    (hallowed : (guMapsReloadAllowed w v.ctx pidCtx).1 = false) :
    SearchEnd w v pidCtx pc
      { v with elfItem := none, ctx := (guMapsReloadAllowed w v.ctx pidCtx).2 }
  | exited (hmiss : pidCtx.search pc = none) (hfresh : v.mapsReloaded = false)
    (hallowed : (guMapsReloadAllowed w v.ctx pidCtx).1 = true)
    (halive : (stillAlive w (guMapsReloadAllowed w v.ctx pidCtx).2 v.info.pid).1 = false) :
    SearchEnd w v pidCtx pc
      { v with
        elfItem := none
        ctx := askReload w v pidCtx
        info := guFlagsSetReason v.info .processExit }
  | reloaded (hmiss : pidCtx.search pc = none) (hfresh : v.mapsReloaded = false)
    (hallowed : (guMapsReloadAllowed w v.ctx pidCtx).1 = true)
    (halive : (stillAlive w (guMapsReloadAllowed w v.ctx pidCtx).2 v.info.pid).1 = true) :
    SearchEnd w v pidCtx pc
      (reloadAndSearch w { v with elfItem := none, ctx := askReload w v pidCtx } pidCtx pc)

/-- A search has no other ends. -/
theorem guSearchPidElfCtx_ends (hentry : v.entry = .ok pidCtx) (pc : Word) :
    ∃ v', guSearchPidElfCtx w v pc = .ok v' ∧ SearchEnd w v pidCtx pc v' := by
  simp only [guSearchPidElfCtx, hentry, bind, Except.bind]
  split
  case h_1 item hitem => exact ⟨_, rfl, .found hitem⟩
  case h_2 hmiss =>
    split
    · rename_i hreloaded
      exact ⟨_, rfl, .missed hmiss hreloaded⟩
    · rename_i hfresh
      have hfresh := Bool.eq_false_iff.mpr hfresh
      split
      case h_1 ctx' heq =>
        obtain rfl : (guMapsReloadAllowed w v.ctx pidCtx).2 = ctx' := congrArg Prod.snd heq
        exact ⟨_, rfl, .postponed hmiss hfresh (congrArg Prod.fst heq)⟩
      case h_2 ctx' heq =>
        have hallowed : (guMapsReloadAllowed w v.ctx pidCtx).1 = true := congrArg Prod.fst heq
        obtain rfl : (guMapsReloadAllowed w v.ctx pidCtx).2 = ctx' := congrArg Prod.snd heq
        split
        · rename_i halive
          exact ⟨_, rfl, .reloaded hmiss hfresh hallowed halive⟩
        · rename_i hgone
          exact ⟨_, rfl, .exited hmiss hfresh hallowed (Bool.eq_false_iff.mpr hgone)⟩

/-- Without an entry a search is stuck, on a pointer that is not stale in a sound walk. -/
theorem Walk.Sound.search_ends (h : v.Sound Q) (pc : Word) {R : Walk P → Prop}
    (hends : ∀ pidCtx v', v.pidCtx = some pidCtx.pid → v.ctx.pid pidCtx.pid = some pidCtx →
      SearchEnd w v pidCtx pc v' → R v') : Ends R (guSearchPidElfCtx w v pc) := by
  cases hpid : v.pidCtx with
  | none =>
    simp only [guSearchPidElfCtx, Walk.entry, hpid, bind, Except.bind]
    exact Stuck.noConfusion
  | some pid =>
    obtain ⟨pidCtx, hfound⟩ := h.entry pid hpid
    obtain ⟨v', hsearch, hend⟩ := guSearchPidElfCtx_ends w (Walk.entry_ok hpid hfound) pc
    obtain ⟨-, rfl⟩ := mem_of_lookup hfound
    rw [hsearch]
    exact hends pidCtx v' hpid hfound hend

/-- Finding the mapping of a pc, with or without a reload. -/
theorem Walk.Sound.search (h : v.Sound Q) (pc : Word) :
    Ends (fun v' => v'.Sound Q ∧ v'.info.pid = v.info.pid ∧ v.Searched pc v')
      (guSearchPidElfCtx w v pc) := by
  refine h.search_ends w pc fun pidCtx v' hpid hfound hend => ?_
  have hbefore : v.entry = .ok pidCtx := Walk.entry_ok hpid hfound
  obtain ⟨hrefs, entry, hentry, htable⟩ := h.refs.reloadAllowed w hfound
  have hasked := hrefs.stillAlive w v.info.pid
  have hentry' : (askReload w v pidCtx).pid pidCtx.pid = some entry := (hasked.pid _).trans hentry
  have hknown {ctx' : GuContext P} (hlookup : ctx'.pid pidCtx.pid = some entry) :
      ∀ pid ∈ v.pidCtx, ∃ pidCtx, ctx'.pid pid = some pidCtx := by
    rw [hpid]
    rintro _ ⟨⟩
    exact ⟨entry, hlookup⟩
  have hnone {R : Interval (Option MapCtx) → Prop} : ∀ item ∈ none, R item := by rintro _ ⟨⟩
  -- the schedule of the entry may have changed, its table has not
  have hsearch : entry.search pc = pidCtx.search pc := PerPidCtx.search_congr htable pc
  cases hend with
  | found hitem =>
    refine ⟨⟨h.refs, h.entry, h.sampled, ?_⟩, rfl,
      .kept hbefore (Walk.entry_ok hpid hfound) rfl rfl hitem.symm⟩
    rintro _ ⟨⟩
    exact ⟨pidCtx.pid, hpid, pidCtx, hfound, PerPidCtx.mem_of_search hitem⟩
  | missed hmiss =>
    exact ⟨⟨h.refs, h.entry, h.sampled, hnone⟩, rfl,
      .kept hbefore (Walk.entry_ok hpid hfound) rfl rfl hmiss.symm⟩
  | postponed hmiss =>
    exact ⟨⟨hrefs, hknown hentry, h.sampled, hnone⟩, rfl,
      .kept hbefore (Walk.entry_ok hpid hentry) htable rfl (hsearch.trans hmiss).symm⟩
  | exited hmiss =>
    exact ⟨⟨hasked.refs, hknown hentry', h.sampled, hnone⟩, rfl,
      .kept hbefore (Walk.entry_ok hpid hentry') htable rfl (hsearch.trans hmiss).symm⟩
  | reloaded hmiss hfresh =>
    have hsame : entry.refs = pidCtx.refs := by
      unfold PerPidCtx.refs PerPidCtx.items
      rw [htable]
    obtain ⟨hsound, hinfo, hsearched⟩ := Walk.Sound.reload w
      (v := { v with elfItem := none, ctx := askReload w v pidCtx })
      pc hasked.refs hentry' hsame (h.sampled pidCtx.pid hpid)
    exact ⟨hsound, hinfo, hsearched v hfresh⟩

/-- Finding a mapping keeps a walk sound. -/
theorem Walk.Sound.locate (h : v.Sound Q) (pc : Word) :
    Ends (fun v' => v'.Sound Q ∧ v'.info.pid = v.info.pid) (v.locate w pc) := by
  unfold Walk.locate
  split
  · exact ⟨h, rfl⟩
  · exact (h.search w pc).imp fun _ hv => ⟨hv.1, hv.2.1⟩

/-- The record in hand leads to an entry of the table. -/
theorem Walk.Sound.elfCtx (h : v.Sound Q) :
    Ends (fun found => ∀ p ∈ found, p.1 ∈ v.ctx.elfCtxList) (guGetElfCtxFromItem v) := by
  unfold guGetElfCtxFromItem
  split
  · exact nofun
  rename_i item hitem
  split
  · exact nofun
  rename_i mapCtx hmap
  obtain ⟨pid, -, pidCtx, hpid, hheld⟩ := h.held item hitem
  obtain ⟨e, he⟩ := h.refs.record_live (mem_of_lookup hpid).1 hheld hmap
  rw [he]
  rintro _ ⟨⟩
  exact (mem_of_lookup he).1

/-! ## Invariants of walks -/

/-- A property kept by finding the mapping of a pc, rewriting the sample, starting over for
the tail and parsing a row. -/
structure WalkInvariant (w : World P) (S : SavedStates H P) (I : Walk P → Prop) : Prop where
  locate : ∀ v pc, I v → Ends I (v.locate w pc)
  elfCtx : ∀ v, I v →
    Ends (fun found => ∀ p ∈ found, p.1 ∈ v.ctx.elfCtxList) (guGetElfCtxFromItem v)
  withInfo : ∀ v info, I v → info.pid = v.info.pid → I { v with info := info }
  restart : ∀ v, I v → I { v with elfItem := none, mapsReloaded := false }
  parse : ∀ v elfCtx cfi globals pc, I v → elfCtx ∈ v.ctx.elfCtxList →
    elfCtx.guCfi = some cfi → I { v with ctx := (parseElf S v.ctx globals elfCtx.id cfi pc).2.1 }

section Keeps

variable {w : World P} {S : SavedStates H P} {I : Walk P → Prop}

private theorem fpTurn_keeps (hI : WalkInvariant w S I) (ustackFp : Nat → Word) (maxFpLevel : Nat)
    (allowUnknown : Bool) (s : FpState P) (h : I s.walk) :
    (fpTurn w ustackFp maxFpLevel allowUnknown s).All (fun s => I s.walk)
      (Ends fun done => I done.walk) := by
  have hlocate := hI.locate s.walk s.pc h
  unfold fpTurn
  dsimp only
  split
  · exact h
  split
  case h_1 stuck heq =>
    rw [heq] at hlocate
    exact hlocate
  case h_2 walk heq =>
    rw [heq] at hlocate
    have hwalk : I walk := hlocate
    have helf := hI.elfCtx walk hwalk
    split
    case h_1 stuck hfound =>
      rw [hfound] at helf
      exact helf
    case h_2 hfound =>
      split
      · split <;> exact hwalk
      · exact hwalk
    case h_3 elfCtx bias hfound => split <;> exact hwalk

variable {walk : Walk P}

section

variable (hI : WalkInvariant w S I)
include hI

private theorem guUnwindByFp_keeps (h : I walk) :
    Ends (fun done => I done.walk) (guUnwindByFp w walk) := by
  unfold guUnwindByFp
  dsimp only
  split
  · exact h
  · refine loop_all (fun s : FpState P => I s.walk) _ (fpTurn_keeps hI _ _ _) (fun s hs => ?_) _ h
    exact hs

private theorem guAppendPcFrame_keeps (h : I walk) (pc : Word) (initialFrame signalFrame : Bool) :
    Ends (fun r => I r.1) (guAppendPcFrame w walk pc initialFrame signalFrame) := by
  have hlocate := hI.locate walk pc h
  unfold guAppendPcFrame
  split
  · exact h
  split
  case h_1 stuck heq =>
    rw [heq] at hlocate
    exact hlocate
  case h_2 walk' heq =>
    rw [heq] at hlocate
    have hwalk : I walk' := hlocate
    have helf := hI.elfCtx walk' hwalk
    split
    · exact hwalk
    split
    case h_1 stuck hfound =>
      rw [hfound] at helf
      exact helf
    case h_2 => exact hwalk
    case h_3 => exact hwalk

private theorem tailTurn_keeps (target : Target) (rawSp : Word) (s : TailState P) (h : I s.walk) :
    (tailTurn w target rawSp s).All (fun s => I s.walk) (Ends fun s => I s.walk) := by
  unfold tailTurn
  split
  · rename_i nextBp nextPc _ _
    split
    · have happend := guAppendPcFrame_keeps hI h nextPc false false
      split
      case h_1 stuck heq =>
        rw [heq] at happend
        exact happend
      case h_2 walk heq =>
        rw [heq] at happend
        exact happend
      case h_3 walk frame heq =>
        rw [heq] at happend
        split <;> exact happend
    · exact h
  · exact h

private theorem guUnwindDwarfTailByFp_keeps (target : Target) (h : I walk) (rawSp bp pc : Word)
    (appendCurrentPc : Bool) :
    Ends (fun r => I r.1) (guUnwindDwarfTailByFp w target walk rawSp bp pc appendCurrentPc) := by
  have hfresh := hI.restart walk h
  unfold guUnwindDwarfTailByFp
  split
  · exact h
  refine Ends.bind (R := fun r : Walk P × Option FrameRecord => I r.1) ?_ fun r hr => ?_
  · unfold appendCurrent
    split
    · exact guAppendPcFrame_keeps hI hfresh pc true false
    · exact hfresh
  · dsimp only
    split
    · exact hr
    refine Ends.bind (R := fun s : TailState P => I s.walk) ?_ fun s hs => hs
    refine loop_all (fun s : TailState P => I s.walk) _ (tailTurn_keeps hI target rawSp)
      (fun s hs => ?_) _ hr
    exact hs

end

private theorem recoverReg_ends (depth : Nat) (env : EvalEnv) (globals : Globals H) (regno : Nat) :
    Ends (fun _ => True) (recoverReg depth env globals regno) := by
  unfold recoverReg
  split
  · exact Stuck.noConfusion
  · trivial

private theorem recoverCaller_ends (depth : Nat) (env : EvalEnv) (initialFrame : Bool)
    (globals : Globals H) :
    Ends (fun _ => True) (recoverCaller depth env initialFrame globals) := by
  unfold recoverCaller
  refine (recoverReg_ends depth env globals _).bind fun ra _ => ?_
  dsimp only
  split
  · trivial
  refine (recoverReg_ends depth env ra.2 _).bind fun sp _ => ?_
  split
  · trivial
  · exact (recoverReg_ends depth env sp.2 _).bind fun bp _ => trivial

private theorem enterCaller_keeps (hI : WalkInvariant w S I) (arch : Arch) (s : DwarfState H P)
    (signalFrame : Bool) (r : Recovered) (h : I s.walk) :
    (enterCaller arch s signalFrame r).All (fun s => I s.walk) (Ends fun done => I done.walk) := by
  have hpid : (writeFramePointer arch s.walk.info r.bp).pid = s.walk.info.pid := by
    cases r.bp with
    | ok bp => exact writeRegs_pid _ _ _ _
    | error reason => rfl
  have hbp := hI.withInfo s.walk _ h hpid
  unfold enterCaller
  dsimp only
  split
  · exact hbp
  · split
    · exact hbp
    · exact hI.withInfo s.walk _ h (by simp only [writeRegs_pid, hpid])

variable {e : UnwindEnv H P}

section

variable (hI : WalkInvariant e.world e.saved I)
include hI

private theorem unwindFrame_keeps (rawSp : Word) (initialFrame : Bool) (s : DwarfState H P)
    (elfCtx : PerElfCtx P) (bias : Word) (h : I s.walk) (hmem : elfCtx ∈ s.walk.ctx.elfCtxList) :
    (unwindFrame e rawSp initialFrame s elfCtx bias).All (fun s => I s.walk)
      (Ends fun done => I done.walk) := by
  unfold unwindFrame
  split
  · exact h
  rename_i cfi hcfi
  dsimp only
  have hparsed := hI.parse s.walk elfCtx cfi s.globals
    (guCfiLookupPcForFrame (s.pc - bias) initialFrame s.currentSignalFrame) h hmem hcfi
  split
  · split
    case h_1 stuck heq =>
      have hends := recoverCaller_ends e.depth ⟨e.target, bias, rawSp, s.walk.info⟩ initialFrame
        (parseElf e.saved s.walk.ctx s.globals elfCtx.id cfi
          (guCfiLookupPcForFrame (s.pc - bias) initialFrame s.currentSignalFrame)).2.2
      rw [heq] at hends
      exact hends
    case h_2 => exact hparsed
    case h_3 => exact enterCaller_keeps hI _ _ _ _ hparsed
  · exact hparsed

/-- A turn of the DWARF loop keeps the invariant. -/
theorem dwarfTurn_keeps (rawSp : Word) (s : DwarfState H P) (h : I s.walk) :
    (dwarfTurn e rawSp s).All (fun s => I s.walk) (Ends fun done => I done.walk) := by
  have hlocate := hI.locate s.walk s.pc h
  unfold dwarfTurn
  dsimp only
  split
  case h_1 stuck heq =>
    rw [heq] at hlocate
    exact hlocate
  case h_2 walk heq =>
    rw [heq] at hlocate
    have hwalk : I walk := hlocate
    have helf := hI.elfCtx walk hwalk
    split
    case h_1 stuck hfound =>
      rw [hfound] at helf
      exact helf
    case h_2 => exact hwalk
    case h_3 elfCtx bias hfound =>
      unfold emitFrame
      dsimp only
      split
      · exact hwalk
      · rw [hfound] at helf
        exact unwindFrame_keeps hI _ _ _ _ _ hwalk (helf _ rfl)

/-- The DWARF loop keeps the invariant. -/
theorem dwarfLoop_keeps (s : DwarfState H P) (h : I s.walk) :
    Ends (fun done => I done.walk) (dwarfLoop e s) := by
  refine loop_all (fun s : DwarfState H P => I s.walk) _ (dwarfTurn_keeps hI s.sp)
    (fun s hs => ?_) _ h
  exact hs

end

/-- The context a walk leaves is that of a state with the property. -/
theorem unwindFp_keeps (hI : WalkInvariant w S I) (globals : Globals H) (h : I walk) :
    Ends (fun r => ∃ v, I v ∧ r.ctx = v.ctx) (unwindFp w walk globals) :=
  (guUnwindByFp_keeps hI h).bind fun done hdone => ⟨done.walk, hdone, rfl⟩

/-- A DWARF walk ends in a context of the invariant. -/
theorem unwindDwarf_keeps (hI : WalkInvariant e.world e.saved I) (globals : Globals H)
    (h : I walk) : Ends (fun r => ∃ v, I v ∧ r.ctx = v.ctx) (unwindDwarf e walk globals) := by
  refine (dwarfLoop_keeps hI _ h).bind fun done hdone => ?_
  refine Ends.bind (R := fun r : Walk P × List FrameRecord => I r.1) ?_ fun r hr => ⟨r.1, hr, rfl⟩
  unfold followTail
  split
  · exact hdone
  · split
    · exact hdone
    · exact guUnwindDwarfTailByFp_keeps hI _ hdone _ _ _ _

end Keeps

/-- Parsing a row, which may fill the cache, keeps a property of CFI objects. -/
def CfiProperty.Kept (Q : CfiProperty P) (S : SavedStates H P) : Prop :=
  ∀ cfi ops heap pc, Q.holds cfi → Q.holds { cfi with
    cache := (guCfiParseCfiEx S cfi.data ⟨cfi.cache, ops, heap⟩ pc).2.cache }

/-- Parsing a row writes to the cache of its entry only. -/
theorem Walk.Sound.parse {S : SavedStates H P} (hkept : Q.Kept S) (h : v.Sound Q)
    {elfCtx : PerElfCtx P} {cfi : GuCfi P} (hmem : elfCtx ∈ v.ctx.elfCtxList)
    (hcfi : elfCtx.guCfi = some cfi) (globals : Globals H) (pc : Word) :
    Walk.Sound Q { v with ctx := (parseElf S v.ctx globals elfCtx.id cfi pc).2.1 } := by
  have hfound : v.ctx.elf elfCtx.id = some elfCtx := lookup_of_mem h.refs.counted.nodup hmem
  refine ⟨h.refs.touchElf _ (fun e => ⟨rfl, rfl, rfl⟩) ?_, h.entry, h.sampled, h.held⟩
  intro e he
  cases hfound.symm.trans he
  simp only [hcfi, Option.map_some]
  rintro _ ⟨⟩
  exact hkept cfi globals.ops globals.heap pc (h.refs.cfis elfCtx hmem cfi hcfi)

/-- The consistency of the tables is kept by every walk. -/
theorem Walk.Sound.invariant {S : SavedStates H P} (hkept : Q.Kept S) :
    WalkInvariant w S (Walk.Sound Q) where
  locate _ pc h := (h.locate w pc).imp fun _ hv => hv.1
  elfCtx _ h := h.elfCtx
  withInfo _ _ h hpid := h.withInfo hpid
  restart _ h := ⟨h.refs, h.entry, h.sampled, nofun⟩
  parse _ _ _ globals pc h hmem hcfi := h.parse hkept hmem hcfi globals pc

/-! ## Public operations -/

/-- A walk from an entry of the table. -/
theorem Walk.Sound.init {info : StackInfo} (h : References Q [] ctx)
    (hfound : ctx.pid pidCtx.pid = some pidCtx) (hsampled : pidCtx.pid = info.pid) :
    (Walk.init ctx info pidCtx).Sound Q := by
  refine ⟨h, ?_, ?_, nofun⟩
  · rintro _ ⟨⟩
    exact ⟨pidCtx, hfound⟩
  · rintro _ ⟨⟩
    exact hsampled

variable (info : StackInfo)

/-- The entry a sample finds, after one of another process with its pid is gone. -/
theorem References.reuseEntry (h : References Q [] ctx) :
    References Q [] (reuseEntry w ctx info).2 ∧
      match (reuseEntry w ctx info).1 with
      | none => (reuseEntry w ctx info).2.pid info.pid = none
      | some pidCtx => (reuseEntry w ctx info).2.pid pidCtx.pid = some pidCtx ∧
          pidCtx.pid = info.pid := by
  unfold Gunwinder.reuseEntry
  split
  · rename_i hnone
    exact ⟨h, hnone⟩
  · rename_i pidCtx hsome
    obtain ⟨hmem, hpid⟩ := mem_of_lookup hsome
    rw [← hpid] at hsome ⊢
    split
    · have hcount : References Q [] ((ctx.count fun st =>
          { st with uniqueIdCausedReloadCount := st.uniqueIdCausedReloadCount + 1 }).notify
            pidCtx .destroy) := h.of_eq rfl rfl rfl ⟨rfl, rfl, rfl⟩
      exact ⟨hcount.clearPidCtx w hsome rfl, guClearPidCtx_pid w _ pidCtx⟩
    · exact ⟨h, hsome, rfl⟩

private theorem requireElfs_ok {found : PerPidCtx} (h : requireElfs pidCtx = .ok found) :
    found = pidCtx := by
  unfold requireElfs at h
  split at h
  · cases h
  · exact (Except.ok.inj h).symm

/-- A process that is opened is the sampled one, and it is in the table. -/
theorem References.openProcess (h : References Q [] ctx) :
    References Q [] (openProcess w ctx info).2.2 ∧
      ∀ pidCtx, (openProcess w ctx info).1 = .ok pidCtx →
        (openProcess w ctx info).2.2.pid pidCtx.pid = some pidCtx ∧
          pidCtx.pid = (openProcess w ctx info).2.1.pid := by
  unfold Gunwinder.openProcess
  split
  · exact ⟨h, nofun⟩
  obtain ⟨hrefs, hentry⟩ := (h.maybeSweep w).reuseEntry w info
  dsimp only
  split
  case h_1 pidCtx ctx' heq =>
    rw [heq] at hrefs hentry
    refine ⟨hrefs, fun found hok => ?_⟩
    rw [requireElfs_ok hok]
    exact hentry
  case h_2 ctx' heq =>
    rw [heq] at hrefs hentry
    have hasked := hrefs.ask fun t => w.alive t info.pid
    split
    · exact ⟨hasked, nofun⟩
    split
    case h_1 ctx'' hnone =>
      have hload := hasked.loadPid w info hentry
      rw [hnone] at hload
      exact ⟨hload.refs, nofun⟩
    case h_2 pidCtx ctx'' hsome =>
      obtain ⟨hload, hpid, hfree⟩ := hasked.loadPid_some hsome hentry
      refine ⟨References.addPidCtx hload hfree, fun found hok => ?_⟩
      rw [requireElfs_ok hok]
      exact ⟨lookup_append_self hfree, hpid.trans (hintGolang_pid _ _).symm⟩

/-- `gu_unwind` keeps the invariant and follows no stale pointer. -/
theorem guUnwind_references (e : UnwindEnv H P) (hkept : Q.Kept e.saved) (globals : Globals H)
    (info : StackInfo) (h : References Q [] ctx) :
    Ends (fun r => References Q [] r.ctx) (guUnwind e ctx globals info) := by
  obtain ⟨hrefs, hopened⟩ := h.openProcess e.world info
  unfold guUnwind
  dsimp only
  split
  case h_1 reason info' ctx' heq =>
    rw [heq] at hrefs
    exact hrefs
  case h_2 pidCtx info' ctx' heq =>
    rw [heq] at hrefs hopened
    obtain ⟨hfound, hsampled⟩ := hopened pidCtx rfl
    have hwalk := Walk.Sound.init hrefs hfound hsampled
    have hI := Walk.Sound.invariant e.world hkept
    split
    · exact (unwindFp_keeps hI globals hwalk).imp fun r ⟨v, hv, hr⟩ => hr ▸ hv.refs
    · exact (unwindDwarf_keeps hI globals hwalk).imp fun r ⟨v, hv, hr⟩ => hr ▸ hv.refs

/-- The unique id is asked for, or known. -/
theorem References.uniqueId (h : References Q [] ctx) :
    References Q [] (guGetPidUniqueId w ctx pid).2 := by
  unfold guGetPidUniqueId
  split
  · exact h
  split
  · exact h.ask fun t => w.startTime t pid
  · split
    · exact h.ask fun t => w.startTime t pid
    · exact h

private theorem References.preload (h : References Q [] ctx) :
    References Q [] (guPreloadPidDebugInfo w ctx pid).2 := by
  have hswept := (h.uniqueId w pid).maybeSweep w
  unfold guPreloadPidDebugInfo
  dsimp only
  split
  · exact hswept
  rename_i hnone
  have hasked := hswept.ask fun t => w.alive t pid
  split
  · split
    case h_1 ctx' heq =>
      have hload := hasked.loadPid w (preloadInfo pid (guGetPidUniqueId w ctx pid).1) hnone
      rw [heq] at hload
      exact hload.refs
    case h_2 pidCtx ctx' heq =>
      obtain ⟨hload, -, hfree⟩ := hasked.loadPid_some heq hnone
      exact References.addPidCtx hload hfree
  · exact hasked

private theorem References.exit (uniqueId : Word) (h : References Q [] ctx) :
    References Q [] (guSetPidExitUnique w ctx pid uniqueId) := by
  unfold guSetPidExitUnique
  split
  · exact h
  rename_i pidCtx hsome
  obtain ⟨-, rfl⟩ := mem_of_lookup hsome
  split
  · exact h
  · exact (h.notify pidCtx .destroy).clearPidCtx w hsome rfl

private theorem References.event (event : GuEvent) (h : References Q [] ctx) :
    References Q [] (guEventOccur w ctx event) := by
  have hswept := h.maybeSweep w
  unfold guEventOccur
  dsimp only
  split
  · exact hswept.exit w _ _
  · exact hswept
  · exact hswept

private theorem References.setPrivate (blob : Option (List Byte)) (h : References Q [] ctx) :
    References Q [] (guSetPidPrivateInfo w ctx pid blob) := by
  unfold guSetPidPrivateInfo
  split
  · exact h
  · exact h.modifyPid _ (fun _ => rfl) (fun _ => rfl)
  · exact (h.ask w.alloc).modifyPid _ (fun _ => rfl) (fun _ => rfl)

private theorem References.init (debug goOnlyBuildid retireTimerStarted : Bool) :
    References Q [] (guInit debug goOnlyBuildid retireTimerStarted : GuContext P) :=
  ⟨⟨List.nodup_nil, fun _ h => absurd h (Nat.lt_irrefl 0), nofun, nofun⟩, nofun, nofun,
    List.nodup_nil, rfl, rfl, rfl⟩

/-! ## Reachable contexts -/

/-- The contexts that public operations lead to. Each may run in another world, so maps,
files, clocks and failed allocations are arbitrary. -/
inductive Reachable (S : SavedStates H P) : GuContext P → Prop where
  | init (debug goOnlyBuildid retireTimerStarted : Bool) :
    Reachable S (guInit debug goOnlyBuildid retireTimerStarted)
  | unwind {ctx : GuContext P} {r : UnwindResult H P} (e : UnwindEnv H P) (globals : Globals H)
    (info : StackInfo) (h : Reachable S ctx) (hS : e.saved = S)
    (hr : guUnwind e ctx globals info = .ok r) : Reachable S r.ctx
  | preload {ctx : GuContext P} (w : World P) (pid : Int) (h : Reachable S ctx) :
    Reachable S (guPreloadPidDebugInfo w ctx pid).2
  | event {ctx : GuContext P} (w : World P) (event : GuEvent) (h : Reachable S ctx) :
    Reachable S (guEventOccur w ctx event)
  | setPrivate {ctx : GuContext P} (w : World P) (pid : Int) (blob : Option (List Byte))
    (h : Reachable S ctx) : Reachable S (guSetPidPrivateInfo w ctx pid blob)
  | sweep {ctx : GuContext P} (now : Word) (h : Reachable S ctx) :
    Reachable S (guRetiredElfSweep ctx now)

variable {S : SavedStates H P}

/-- Every reachable context has consistent tables. -/
theorem Reachable.references (hkept : Q.Kept S) (h : Reachable S ctx) : References Q [] ctx := by
  induction h with
  | init debug goOnlyBuildid retireTimerStarted => exact .init _ _ _
  | unwind e globals info _ hS hr ih =>
    subst hS
    have hends := guUnwind_references e hkept globals info ih
    rw [hr] at hends
    exact hends
  | preload w pid _ ih => exact ih.preload w pid
  | event w event _ ih => exact ih.event w event
  | setPrivate w pid blob _ ih => exact ih.setPrivate w pid blob
  | sweep now _ ih => exact ih.sweep now

/-- The property that says nothing. -/
def CfiProperty.any : CfiProperty P := ⟨fun _ => True, fun _ _ => trivial⟩

/-- What says nothing is kept. -/
theorem CfiProperty.any_kept : (CfiProperty.any : CfiProperty P).Kept S :=
  fun _ _ _ _ _ => trivial

/-- The mapping records of the processes in the table. -/
def GuContext.records (ctx : GuContext P) : List MapCtx :=
  ctx.pidCtxList.flatMap fun p => p.items.filterMap Interval.payload

private theorem GuContext.refs_eq_records (ctx : GuContext P) :
    ctx.refs = ctx.records.map MapCtx.elfCtx := by
  rw [GuContext.records, List.map_flatMap]
  refine List.flatMap_congr fun p _ => ?_
  exact List.map_filterMap.symm

/-- Reference counts, retirement and the numbers of entries are exact in every reachable
context, and the cleanup leaves no ELF entry behind. -/
theorem reachable_reference_counts_exact {H P : Type} {S : SavedStates H P} {ctx : GuContext P}
    (h : Reachable S ctx) :
    (∀ e ∈ ctx.elfCtxList,
      e.refcnt = (ctx.records.countP fun mapCtx => mapCtx.elfCtx = e.id) ∧
      (e.retired = true ↔ e.refcnt = 0)) ∧
    ctx.statistics.elfCtxCount = (ctx.elfCtxList.countP fun e => !e.retired) ∧
    ctx.statistics.retiredElfCtxCount = ctx.elfCtxList.countP PerElfCtx.retired ∧
    ctx.statistics.pidCtxCount = ctx.pidCtxList.length ∧
    ∀ w, (guCleanup w ctx).elfCtxList = [] := by
  have hrefs := h.references CfiProperty.any_kept
  refine ⟨fun e he => ⟨?_, hrefs.counted.idle_iff e he⟩, hrefs.tallied.elfs,
    hrefs.tallied.retired, hrefs.tallied.pids, fun w => hrefs.cleanup w⟩
  rw [hrefs.counted.exact e he, GuContext.uses, GuContext.refs_eq_records, List.count_nil,
    Nat.add_zero, List.count, List.countP_map]
  rfl

/-- A system where every process maps one file twice. -/
def twiceMapped : World (List CalcRules) where
  now := fun _ => 1#64
  sweepPending := fun _ => false
  alive := fun _ _ => true
  maps := fun _ _ => [⟨"/bin/tool", 0x1000#64, 0x2000#64, 0#64, false⟩,
    ⟨"/bin/tool", 0x3000#64, 0x4000#64, 0#64, false⟩]
  elf := fun _ _ _ _ => some ⟨[7#8], true, false, [], 0#64, none, 0, none⟩
  alloc := fun _ => true
  seed := fun _ => 5#64
  comm := fun _ _ => "tool"
  startTime := fun _ _ => 9#64

/-- Two processes share the file until the first one exits. -/
def sharedContext : GuContext (List CalcRules) :=
  guEventOccur twiceMapped (guPreloadPidDebugInfo twiceMapped
    (guPreloadPidDebugInfo twiceMapped (guInit false false false) 11).2 12).2
    (.processExit (some 11))

/-- Two mappings share an entry. -/
theorem reachable_reference_counts_exact_shared :
    sharedContext.elfCtxList.map PerElfCtx.refcnt = [2] ∧
    (∀ e ∈ sharedContext.elfCtxList,
      e.refcnt = (sharedContext.records.countP fun mapCtx => mapCtx.elfCtx = e.id) ∧
      (e.retired = true ↔ e.refcnt = 0)) ∧
    ∀ w, (guCleanup w sharedContext).elfCtxList = [] := by
  obtain ⟨hexact, -, -, -, hclean⟩ := reachable_reference_counts_exact
    (.event twiceMapped (.processExit (some 11)) (.preload twiceMapped 12
      (.preload twiceMapped 11 (.init false false false))) : Reachable savedValues sharedContext)
  exact ⟨by decide +kernel, hexact, hclean⟩

end Gunwinder
