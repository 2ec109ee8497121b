import Gunwinder.Cache.Loading

/-!
# Public operations in steps

Every public operation is a sequence of cache steps, so what each step keeps holds in
every context a client can reach. Only a sweep loses ELF entries; whatever else a walk or
a reload does goes on from the same files.
-/

namespace Gunwinder

open Gunwinder.Core

variable {H P : Type} {Q : CfiProperty P} {ctx ctx' : GuContext P} {w : World P}

/-! ## Reloads -/

/-- The entries differ in the schedule of the next reload only. -/
def PerPidCtx.Rescheduled (pidCtx entry : PerPidCtx) : Prop :=
  entry = { pidCtx with
    mapsReloadRandState := entry.mapsReloadRandState
    lastMapsLoadNs := entry.lastMapsLoadNs
    nextMapsReloadNs := entry.nextMapsReloadNs }

variable {pidCtx entry : PerPidCtx}

private theorem PerPidCtx.Rescheduled.refs (h : pidCtx.Rescheduled entry) :
    entry.refs = pidCtx.refs := by
  rw [h]
  rfl

/-- A process is destroyed by an entry that may be older than the one in the table. -/
theorem destroyPidCtx_advances (w : World P) (h : References Q [] ctx)
    (hlookup : ctx.pid pidCtx.pid = some entry) (hsame : pidCtx.Rescheduled entry) :
    Advances w ctx (destroyPidCtx w ctx pidCtx) := by
  have hpid : entry.pid = pidCtx.pid := (mem_of_lookup hlookup).2
  have hold : destroyPidCtx w ctx pidCtx = destroyPidCtx w ctx entry := by
    rw [hsame]
    rfl
  rw [← hpid] at hlookup
  rw [hold]
  have hfound : (ctx.notify entry .destroy).pid entry.pid = some entry := hlookup
  have hdestroy := CacheStep.destroy (w := w) ctx entry hlookup
  exact (Advances.step hdestroy nofun rfl).trans
    (cleanElfCtxs_advances w ((h.notify entry .destroy).removePid hfound rfl))

/-- Scheduling writes to the entry in the table. -/
theorem ensureScheduled_advances (w : World P) (h : References Q [] ctx)
    (hlookup : ctx.pid pidCtx.pid = some pidCtx) :
    Advances w ctx (ensureScheduled w ctx pidCtx).2 ∧
      (ensureScheduled w ctx pidCtx).2.pid pidCtx.pid = some (ensureScheduled w ctx pidCtx).1 ∧
      pidCtx.Rescheduled (ensureScheduled w ctx pidCtx).1 := by
  unfold ensureScheduled
  split
  · rename_i hzero
    obtain ⟨hadv, -, rand, delay, -, -, heq⟩ := guScheduleNextMapsReload_spec w ctx pidCtx
    have hfound := ((h.schedule w pidCtx).pid pidCtx.pid).trans hlookup
    dsimp only
    generalize guScheduleNextMapsReload w ctx pidCtx = scheduled at hadv heq hfound ⊢
    refine ⟨hadv.trans (.step (.reschedule _ pidCtx _ _ _ hfound hzero) nofun rfl),
      ?_, ?_⟩
    · simp only [GuContext.pid, GuContext.modifyPid] at hfound ⊢
      simp only [lookup_update, implies_true, hfound, Option.map_some, if_true, heq]
    · rw [heq]
      rfl
  · exact ⟨.refl ctx, hlookup, rfl⟩

/-- A miss that is put off is a step of its own; one that is not has the clock at or past the
deadline. -/
theorem guMapsReloadAllowed_advances (w : World P) (h : References Q [] ctx)
    (hlookup : ctx.pid pidCtx.pid = some pidCtx) :
    Advances w ctx (guMapsReloadAllowed w ctx pidCtx).2 ∧
      ∃ entry, (guMapsReloadAllowed w ctx pidCtx).2.pid pidCtx.pid = some entry ∧
        pidCtx.Rescheduled entry ∧
        ((guMapsReloadAllowed w ctx pidCtx).1 = true →
          ∃ t < (guMapsReloadAllowed w ctx pidCtx).2.tick, entry.nextMapsReloadNs ≤ w.now t) := by
  obtain ⟨hadv, hfound, hsame⟩ := ensureScheduled_advances w h hlookup
  have hpid : (ensureScheduled w ctx pidCtx).1.pid = pidCtx.pid := (mem_of_lookup hfound).2
  simp only [guMapsReloadAllowed]
  generalize ensureScheduled w ctx pidCtx = scheduled at hadv hfound hsame hpid ⊢
  have hask : Advances w scheduled.2 (scheduled.2.ask w.now).2 := .ask w _ _
  split
  · rename_i hdue
    exact ⟨hadv.trans hask, _, hfound, hsame, fun _ => ⟨_, Nat.lt_succ_self _, hdue⟩⟩
  · rename_i hdue
    rw [← hpid] at hfound
    have hthrottle := CacheStep.throttle (w := w) (scheduled.2.ask w.now).2 scheduled.1
      (w.now scheduled.2.tick) hfound ⟨_, Nat.lt_succ_self _, rfl⟩ (BitVec.not_le.mp hdue)
    rw [hpid] at hfound
    refine ⟨(hadv.trans hask).trans (.step hthrottle (by simp) rfl), _, hfound, hsame, ?_⟩
    rintro ⟨⟩

private theorem copyPrivate_advances (w : World P) (ctx : GuContext P) (pidCtx : PerPidCtx) :
    Advances w ctx (copyPrivate w ctx pidCtx).2 := by
  unfold copyPrivate
  split
  · exact .refl ctx
  · exact .ask w ctx w.alloc

/-- What a process was loaded from does not depend on its client data. -/
theorem LoadedFrom.amend {sources : List (Source P)} (h : LoadedFrom w ctx pidCtx sources)
    (preload : Bool) (privateInfo : Option (List Byte)) :
    LoadedFrom w ctx { pidCtx with preload := preload, privateInfo := privateInfo } sources :=
  ⟨h.maps, h.files, h.items, h.clock, h.delay⟩

/-- A loaded process enters the table, with the client's data the caller gives it. -/
theorem addPidCtx_advances (info : StackInfo) (h : References Q [] ctx)
    (hnew : ctx.pid info.pid = none) (heq : guLoadPid w ctx info = (some pidCtx, ctx'))
    (preload : Bool) (privateInfo : Option (List Byte)) : Advances w ctx
      (addPidCtx ctx' { pidCtx with preload := preload, privateInfo := privateInfo }) := by
  have hfree := (h.loadPid_some heq hnew).2.2
  obtain ⟨hload, hloaded⟩ := guLoadPid_advances w info h hnew
  rw [heq] at hload hloaded
  obtain ⟨⟨sources, hfrom⟩, hread⟩ := hloaded pidCtx rfl
  refine ⟨⟨hload.moves.snoc (.load ctx' _ sources hfree (hfrom.amend _ _)), hload.tick, ?_⟩,
    hload.debug, hload.elfs⟩
  intro p' hp'
  rcases List.mem_append.mp hp' with hp | hp
  · exact hload.entries p' hp
  · rw [List.mem_singleton.mp hp]
    exact .inr ⟨ctx.tick, Nat.le_refl _, hread⟩

/-- The old entry is destroyed, and the new one enters the table if it can be loaded. -/
theorem guReloadPidCtx_advances (w : World P) {info : StackInfo} (h : References Q [] ctx)
    (hlookup : ctx.pid pidCtx.pid = some entry) (hsame : pidCtx.Rescheduled entry)
    (hsampled : pidCtx.pid = info.pid) : Advances w ctx (guReloadPidCtx w ctx pidCtx info).2.2 := by
  obtain ⟨hpids, hcopied⟩ := h.copyPrivate w pidCtx
  have hlookup' : (copyPrivate w ctx pidCtx).2.pid pidCtx.pid = some entry :=
    ((h.copyPrivate w pidCtx).pid _).trans hlookup
  have hdestroy := destroyPidCtx_advances w hcopied hlookup' hsame
  have hcleared := (hcopied.notify pidCtx .destroy).clearPidCtx w
    (show ((copyPrivate w ctx pidCtx).2.notify pidCtx .destroy).pid pidCtx.pid = some entry from
      hlookup') hsame.refs
  have hgone := guClearPidCtx_pid w ((copyPrivate w ctx pidCtx).2.notify pidCtx .destroy) pidCtx
  rw [hsampled] at hgone
  have hload := (guLoadPid_advances w info hcleared hgone).advances
  have hbefore := (copyPrivate_advances w ctx pidCtx).trans hdestroy
  simp only [guReloadPidCtx, destroyPidCtx]
  split
  case h_1 ctx' heq =>
    have hctx := congrArg Prod.snd heq
    exact hctx ▸ hbefore.trans hload
  case h_2 newCtx ctx' heq => exact hbefore.trans (addPidCtx_advances info hcleared hgone heq _ _)

/-- The reload behind a miss. -/
theorem reloadAndSearch_advances (w : World P) {v : Walk P} (pc : Word) (h : References Q [] v.ctx)
    (hlookup : v.ctx.pid pidCtx.pid = some entry) (hsame : pidCtx.Rescheduled entry)
    (hsampled : pidCtx.pid = v.info.pid)
    (hdue : ∃ t < v.ctx.tick, entry.nextMapsReloadNs ≤ w.now t) :
    Advances w v.ctx (reloadAndSearch w v pidCtx pc).ctx := by
  let counted := v.ctx.count fun st => { st with pidMapsReloadCount := st.pidMapsReloadCount + 1 }
  obtain ⟨t, ht, hdue⟩ := hdue
  have hcounted : Advances w v.ctx counted := by
    have hpid : entry.pid = pidCtx.pid := (mem_of_lookup hlookup).2
    rw [← hpid] at hlookup
    exact .step (.reload v.ctx entry (w.now t) hlookup ⟨t, ht, rfl⟩ hdue) nofun rfl
  have hrefs : References Q [] counted := h.of_eq rfl rfl rfl ⟨rfl, rfl, rfl⟩
  rw [reloadAndSearch_ctx]
  exact hcounted.trans (guReloadPidCtx_advances w hrefs hlookup hsame hsampled)

/-- Asking for a process loses no ELF entry. -/
theorem stillAlive_advances (w : World P) (ctx : GuContext P) (pid : Int) :
    Advances w ctx (stillAlive w ctx pid).2 := by
  unfold stillAlive
  split
  · exact .refl ctx
  · exact .ask w ctx _

/-! ## Walks -/

/-- What a search for the mapping of a pc does to the context of a walk. -/
inductive Walk.SearchedIn (Q : CfiProperty P) (w : World P) (pc : Word) (v : Walk P) :
    GuContext P → Prop where
  | kept : v.SearchedIn Q w pc v.ctx
  | postponed {pidCtx : PerPidCtx} (hfound : v.ctx.pid pidCtx.pid = some pidCtx) :
    v.SearchedIn Q w pc (guMapsReloadAllowed w v.ctx pidCtx).2
  | gone {pidCtx : PerPidCtx} (hfound : v.ctx.pid pidCtx.pid = some pidCtx) :
    v.SearchedIn Q w pc (askReload w v pidCtx)
  | reloaded {v' : Walk P} {pidCtx entry : PerPidCtx}
    (hfound : v.ctx.pid pidCtx.pid = some pidCtx)
    (hctx : v'.ctx = askReload w v pidCtx) (hrefs : References Q [] v'.ctx)
    (hentry : v'.ctx.pid pidCtx.pid = some entry) (hsame : pidCtx.Rescheduled entry)
    (hsampled : pidCtx.pid = v'.info.pid)
    (hdue : ∃ t < v'.ctx.tick, entry.nextMapsReloadNs ≤ w.now t) :
    v.SearchedIn Q w pc (reloadAndSearch w v' pidCtx pc).ctx

/-- What a search does to the context. -/
theorem Walk.Sound.searchedIn (w : World P) {v : Walk P} (h : v.Sound Q) (pc : Word) :
    Ends (fun v' => v.SearchedIn Q w pc v'.ctx) (guSearchPidElfCtx w v pc) := by
  refine h.search_ends w pc fun pidCtx v' hpid hfound hend => ?_
  obtain ⟨-, entry, hentry, hsame, hdue⟩ := guMapsReloadAllowed_advances w h.refs hfound
  have hasked := (h.refs.reloadAllowed w hfound).1.stillAlive w v.info.pid
  cases hend with
  | found | missed => exact .kept
  | postponed => exact .postponed hfound
  | exited => exact .gone hfound
  | reloaded hmiss hfresh hallowed =>
    obtain ⟨t, ht, hle⟩ := hdue hallowed
    have ht' : t < (askReload w v pidCtx).tick :=
      Nat.lt_of_lt_of_le ht (stillAlive_advances w _ v.info.pid).tick
    exact .reloaded hfound rfl hasked.refs ((hasked.pid _).trans hentry) hsame
      (h.sampled pidCtx.pid hpid) ⟨t, ht', hle⟩

/-- A search loses no ELF entry. -/
theorem Walk.SearchedIn.advances {v : Walk P} {pc : Word} (h : v.Sound Q)
    (hsearched : v.SearchedIn Q w pc ctx') : Advances w v.ctx ctx' := by
  have hask : ∀ {pidCtx : PerPidCtx}, v.ctx.pid pidCtx.pid = some pidCtx →
      Advances w v.ctx (askReload w v pidCtx) := fun hfound =>
    (guMapsReloadAllowed_advances w h.refs hfound).1.trans (stillAlive_advances w _ _)
  cases hsearched with
  | kept => exact .refl _
  | postponed hfound => exact (guMapsReloadAllowed_advances w h.refs hfound).1
  | gone hfound => exact hask hfound
  | reloaded hfound hctx hrefs hentry hsame hsampled hdue =>
    exact (hctx ▸ hask hfound).trans
      (reloadAndSearch_advances w pc hrefs hentry hsame hsampled hdue)

/-- Parsing a row is a step. -/
theorem parseElf_advances (w : World P) (S : SavedStates H P) (ctx : GuContext P)
    (globals : Globals H) (id : Nat) (cfi : GuCfi P) (pc : Word) :
    Advances w ctx (parseElf S ctx globals id cfi pc).2.1 :=
  .of_update (.cacheRow ctx id _) nofun rfl fun _ => ⟨rfl, rfl, rfl, rfl⟩

/-- A relation between contexts that everything a walk does to its context goes along. -/
structure WalkRelation (w : World P) (S : SavedStates H P) (Q : CfiProperty P)
    (R : GuContext P → GuContext P → Prop) : Prop where
  refl : ∀ ctx, R ctx ctx
  trans : ∀ {ctx ctx' ctx''}, R ctx ctx' → R ctx' ctx'' → R ctx ctx''
  search : ∀ {v : Walk P}, v.Sound Q → ∀ pc,
    Ends (fun v' => R v.ctx v'.ctx) (guSearchPidElfCtx w v pc)
  parse : ∀ ctx globals id cfi pc, R ctx (parseElf S ctx globals id cfi pc).2.1

variable {R : GuContext P → GuContext P → Prop}

private theorem WalkRelation.invariant {S : SavedStates H P} (hR : WalkRelation w S Q R)
    (hkept : Q.Kept S) (ctx : GuContext P) :
    WalkInvariant w S (fun v => v.Sound Q ∧ R ctx v.ctx) where
  locate v pc h := by
    have hsound := h.1.locate w pc
    unfold Walk.locate at hsound ⊢
    split
    · exact h
    rename_i hcovers
    rw [if_neg hcovers] at hsound
    have hrel := hR.search h.1 pc
    cases hsearch : guSearchPidElfCtx w v pc with
    | error stuck =>
      rw [hsearch] at hsound
      exact hsound
    | ok v' =>
      rw [hsearch] at hsound hrel
      exact ⟨hsound.1, hR.trans h.2 hrel⟩
  elfCtx _ h := h.1.elfCtx
  withInfo _ _ h hpid := ⟨h.1.withInfo hpid, h.2⟩
  restart _ h := ⟨⟨h.1.refs, h.1.entry, h.1.sampled, nofun⟩, h.2⟩
  parse _ _ _ globals pc h hmem hcfi :=
    ⟨h.1.parse hkept hmem hcfi globals pc, hR.trans h.2 (hR.parse _ globals _ _ pc)⟩

/-- A walk goes along the relation once the process is opened. -/
theorem WalkRelation.unwind {e : UnwindEnv H P}
    (hR : WalkRelation e.world e.saved CfiProperty.any R) (globals : Globals H) (info : StackInfo)
    (h : References CfiProperty.any [] ctx) (hopen : R ctx (openProcess e.world ctx info).2.2) :
    Ends (fun r => R ctx r.ctx) (guUnwind e ctx globals info) := by
  obtain ⟨hrefs, hopened⟩ := h.openProcess e.world info
  unfold guUnwind
  dsimp only
  split
  case h_1 reason info' ctx' heq =>
    rw [heq] at hopen
    exact hopen
  case h_2 pidCtx info' ctx' heq =>
    rw [heq] at hrefs hopened hopen
    obtain ⟨hfound, hsampled⟩ := hopened pidCtx rfl
    have hwalk := Walk.Sound.init hrefs hfound hsampled
    have hI := hR.invariant CfiProperty.any_kept ctx'
    split
    · exact (unwindFp_keeps hI globals ⟨hwalk, hR.refl ctx'⟩).imp
        fun r ⟨v, hv, hr⟩ => hr ▸ hR.trans hopen hv.2
    · exact (unwindDwarf_keeps hI globals ⟨hwalk, hR.refl ctx'⟩).imp
        fun r ⟨v, hv, hr⟩ => hr ▸ hR.trans hopen hv.2

/-! ## Public operations -/

/-- An entry that records point to is in use. -/
theorem References.used (h : References Q [] ctx) :
    ∀ id ∈ ctx.refs, ∀ e, ctx.elf id = some e → e.retired = false := by
  intro id hid e he
  obtain ⟨hmem, rfl⟩ := mem_of_lookup he
  have hpos : 0 < ctx.refs.count e.id := List.count_pos_iff.mpr hid
  have hexact := h.counted.exact e hmem
  rw [GuContext.uses] at hexact
  by_contra hretired
  have := (h.counted.idle_iff e hmem).mp (by simpa using hretired)
  omega

/-- A sweep on demand is made of steps. -/
theorem guMaybeSweepRetiredElf_renews (w : World P) (h : References Q [] ctx) :
    Renews w ctx (guMaybeSweepRetiredElf w ctx) := by
  have hask := Renews.ask w ctx w.sweepPending
  unfold guMaybeSweepRetiredElf
  split
  · exact .refl ctx
  dsimp only
  split
  · exact hask
  · exact (hask.trans (.ask w _ w.now)).trans (.step (.sweep _ _ h.used) nofun)

/-- Reusing a process loses no ELF entry. -/
theorem reuseEntry_advances (w : World P) (info : StackInfo) (h : References Q [] ctx) :
    Advances w ctx (reuseEntry w ctx info).2 := by
  unfold reuseEntry
  split
  · exact .refl ctx
  rename_i pidCtx hsome
  obtain ⟨-, hpid⟩ := mem_of_lookup hsome
  split
  · have hcount : Advances w ctx (ctx.count fun st =>
        { st with uniqueIdCausedReloadCount := st.uniqueIdCausedReloadCount + 1 }) :=
      .count w ctx ⟨rfl, rfl, rfl, rfl, rfl, rfl, rfl, rfl⟩
    have hrefs : References Q [] (ctx.count fun st =>
        { st with uniqueIdCausedReloadCount := st.uniqueIdCausedReloadCount + 1 }) :=
      h.of_eq rfl rfl rfl ⟨rfl, rfl, rfl⟩
    rw [← hpid] at hsome
    exact hcount.trans (destroyPidCtx_advances w hrefs hsome rfl)
  · exact .refl ctx

/-- Opening a process is made of steps. -/
theorem openProcess_renews (w : World P) (info : StackInfo) (h : References Q [] ctx) :
    Renews w ctx (openProcess w ctx info).2.2 := by
  unfold openProcess
  split
  · exact .refl ctx
  have hsweep := guMaybeSweepRetiredElf_renews w h
  obtain ⟨hrefs, hentry⟩ := (h.maybeSweep w).reuseEntry w info
  have hreuse := hsweep.trans (reuseEntry_advances w info (h.maybeSweep w)).toRenews
  dsimp only
  split
  case h_1 pidCtx ctx' heq =>
    rw [heq] at hreuse
    exact hreuse
  case h_2 ctx' heq =>
    rw [heq] at hrefs hentry hreuse
    have hasked := hrefs.ask fun t => w.alive t info.pid
    have halive := hreuse.trans (.ask w ctx' fun t => w.alive t info.pid)
    split
    · exact halive
    have hadv := (guLoadPid_advances w info hasked hentry).advances
    split
    case h_1 ctx'' hnone =>
      rw [hnone] at hadv
      exact halive.trans hadv.toRenews
    case h_2 pidCtx ctx'' hsome =>
      exact halive.trans (addPidCtx_advances info hasked hentry hsome _ _).toRenews

/-- Walks go on in steps. -/
theorem renews_walkRelation (w : World P) (S : SavedStates H P) :
    WalkRelation w S Q (Renews w) where
  refl := .refl
  trans := .trans
  search h pc := (h.searchedIn w pc).imp fun _ hsearched => (hsearched.advances h).toRenews
  parse ctx globals id cfi pc := (parseElf_advances w S ctx globals id cfi pc).toRenews

private theorem guGetPidUniqueId_renews (w : World P) (ctx : GuContext P) (pid : Int) :
    Renews w ctx (guGetPidUniqueId w ctx pid).2 := by
  unfold guGetPidUniqueId
  split
  · exact .refl ctx
  split
  · exact .ask w ctx _
  · split
    · exact .ask w ctx _
    · exact .refl ctx

/-- A preload is made of steps. -/
theorem guPreloadPidDebugInfo_renews (w : World P) (pid : Int) (h : References Q [] ctx) :
    Renews w ctx (guPreloadPidDebugInfo w ctx pid).2 := by
  have hrefs := (h.uniqueId w pid).maybeSweep w
  have hswept := (guGetPidUniqueId_renews w ctx pid).trans
    (guMaybeSweepRetiredElf_renews w (h.uniqueId w pid))
  unfold guPreloadPidDebugInfo
  dsimp only
  split
  · exact hswept
  rename_i hnone
  have hasked := hrefs.ask fun t => w.alive t pid
  have halive := hswept.trans (.ask w _ fun t => w.alive t pid)
  let info := preloadInfo pid (guGetPidUniqueId w ctx pid).1
  split
  · have hadv := (guLoadPid_advances w info hasked hnone).advances
    split
    case h_1 ctx' heq =>
      rw [heq] at hadv
      exact halive.trans hadv.toRenews
    case h_2 pidCtx ctx' heq =>
      have hloaded := addPidCtx_advances info hasked hnone heq true pidCtx.privateInfo
      exact halive.trans hloaded.toRenews
  · exact halive

private theorem guEventOccur_renews (w : World P) (event : GuEvent) (h : References Q [] ctx) :
    Renews w ctx (guEventOccur w ctx event) := by
  have hswept := guMaybeSweepRetiredElf_renews w h
  unfold guEventOccur
  dsimp only
  split
  · refine hswept.trans ?_
    unfold guSetPidExitUnique
    split
    · exact .refl _
    rename_i pidCtx hsome
    obtain ⟨-, rfl⟩ := mem_of_lookup hsome
    split
    · exact .refl _
    · exact (destroyPidCtx_advances w (h.maybeSweep w) hsome rfl).toRenews
  · exact hswept
  · exact hswept

private theorem guSetPidPrivateInfo_renews (w : World P) (ctx : GuContext P) (pid : Int)
    (blob : Option (List Byte)) : Renews w ctx (guSetPidPrivateInfo w ctx pid blob) := by
  unfold guSetPidPrivateInfo
  split
  · exact .refl ctx
  · exact .step (.amend ctx pid _ fun _ => rfl) nofun
  · exact (Renews.ask w ctx w.alloc).trans (.step (.amend _ pid _ fun _ => rfl) nofun)

/-! ## Reachable contexts -/

/-- A public operation in a system. -/
inductive Operation (w : World P) (S : SavedStates H P) : GuContext P → GuContext P → Prop where
  | unwind (ctx : GuContext P) (e : UnwindEnv H P) (globals : Globals H) (info : StackInfo)
    (r : UnwindResult H P) (hw : e.world = w) (hS : e.saved = S)
    (hr : guUnwind e ctx globals info = .ok r) : Operation w S ctx r.ctx
  | preload (ctx : GuContext P) (pid : Int) : Operation w S ctx (guPreloadPidDebugInfo w ctx pid).2
  | event (ctx : GuContext P) (event : GuEvent) : Operation w S ctx (guEventOccur w ctx event)
  | setPrivate (ctx : GuContext P) (pid : Int) (blob : Option (List Byte)) :
    Operation w S ctx (guSetPidPrivateInfo w ctx pid blob)
  | sweep (ctx : GuContext P) (now : Word) : Operation w S ctx (guRetiredElfSweep ctx now)

variable {S : SavedStates H P}

/-- Every public operation is made of steps. -/
theorem Operation.renews (h : Operation w S ctx ctx') (hrefs : References CfiProperty.any [] ctx) :
    Renews w ctx ctx' := by
  cases h with
  | unwind e globals info r hw hS hr =>
    subst hw
    have hends := (renews_walkRelation e.world e.saved).unwind globals info hrefs
      (openProcess_renews e.world info hrefs)
    rw [hr] at hends
    exact hends
  | preload pid => exact guPreloadPidDebugInfo_renews w pid hrefs
  | event event => exact guEventOccur_renews w event hrefs
  | setPrivate pid blob => exact guSetPidPrivateInfo_renews w ctx pid blob
  | sweep now => exact .step (.sweep ctx now hrefs.used) nofun

/-- Public operations keep contexts reachable. -/
theorem Operation.reachable (h : Operation w S ctx ctx') (hctx : Reachable S ctx) :
    Reachable S ctx' := by
  cases h with
  | unwind e globals info r hw hS hr => exact .unwind e globals info hctx hS hr
  | preload pid => exact .preload w pid hctx
  | event event => exact .event w event hctx
  | setPrivate pid blob => exact .setPrivate w pid blob hctx
  | sweep now => exact .sweep now hctx

/-- The contexts that public operations lead to in one system, whose answers are its history.
-/
inductive ReachableIn (w : World P) (S : SavedStates H P) : GuContext P → Prop where
  | init (debug goOnlyBuildid retireTimerStarted : Bool) :
    ReachableIn w S (guInit debug goOnlyBuildid retireTimerStarted)
  | step {ctx ctx' : GuContext P} (h : ReachableIn w S ctx) (hop : Operation w S ctx ctx') :
    ReachableIn w S ctx'

/-- One system is a special case. -/
theorem ReachableIn.reachable (h : ReachableIn w S ctx) : Reachable S ctx := by
  induction h with
  | init debug goOnlyBuildid retireTimerStarted => exact .init _ _ _
  | step _ hop ih => exact hop.reachable ih

/-- A context and the record of a run that leads to it. -/
def Recorded (w : World P) (record : List (CacheEvent P)) (ctx : GuContext P) : Prop :=
  ∃ debug goOnlyBuildid retireTimerStarted,
    Trace (CacheStep w) (guInit debug goOnlyBuildid retireTimerStarted) record ctx

/-- A reachable context comes with a record of how it was reached. -/
theorem ReachableIn.recorded (h : ReachableIn w S ctx) : ∃ record, Recorded w record ctx := by
  induction h with
  | init debug goOnlyBuildid retireTimerStarted => exact ⟨[], debug, _, _, .nil _⟩
  | step h hop ih =>
    obtain ⟨record, debug, goOnlyBuildid, retireTimerStarted, htrace⟩ := ih
    obtain ⟨more, hmore⟩ := (hop.renews (h.reachable.references CfiProperty.any_kept)).moves
    exact ⟨record ++ more, debug, goOnlyBuildid, retireTimerStarted, htrace.append hmore⟩

/-- What every step keeps of a context and its record. -/
theorem Recorded.history {record : List (CacheEvent P)}
    (J : List (CacheEvent P) → GuContext P → Prop)
    (hinit : ∀ debug goOnlyBuildid retireTimerStarted,
      J [] (guInit debug goOnlyBuildid retireTimerStarted))
    (hstep : ∀ record s event t, J record s → CacheStep w s event t → J (record ++ [event]) t)
    (h : Recorded w record ctx) : J record ctx := by
  obtain ⟨debug, goOnlyBuildid, retireTimerStarted, htrace⟩ := h
  exact htrace.history J hstep (hinit debug goOnlyBuildid retireTimerStarted)

/-- What every step keeps holds in every reachable context. -/
theorem Reachable.invariant (I : GuContext P → Prop)
    (hinit : ∀ debug goOnlyBuildid retireTimerStarted,
      I (guInit debug goOnlyBuildid retireTimerStarted))
    (hstep : ∀ w s event t, I s → CacheStep w s event t → I t) (h : Reachable S ctx) : I ctx := by
  have hoperation : ∀ {w ctx ctx'}, Operation w S ctx ctx' → Reachable S ctx → I ctx → I ctx' := by
    intro w ctx ctx' hop hctx hI
    obtain ⟨record, htrace⟩ := (hop.renews (hctx.references CfiProperty.any_kept)).moves
    exact htrace.invariant I (hstep w) hI
  induction h with
  | init debug goOnlyBuildid retireTimerStarted => exact hinit _ _ _
  | unwind e globals info h hS hr ih =>
    exact hoperation (.unwind _ e globals info _ rfl hS hr) h ih
  | preload w pid h ih => exact hoperation (.preload (w := w) _ pid) h ih
  | event w event h ih => exact hoperation (.event (w := w) _ event) h ih
  | setPrivate w pid blob h ih => exact hoperation (.setPrivate (w := w) _ pid blob) h ih
  | sweep now h ih => exact hoperation (.sweep (w := default) _ now) h ih

end Gunwinder
