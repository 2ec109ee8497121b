import Gunwinder.Walks.SampledChain

/-!
# A reload that fails in the middle of a walk

A reload that fails leaves the walk without a process, and a search for another pc then follows a
NULL pointer. The DWARF loop and its tail stop at the miss. The walk along the sampler's chain
goes on when unknown entries are reported.
-/

namespace Gunwinder

open Gunwinder.Core

variable {H P : Type} {e : UnwindEnv H P} {Q : CfiProperty P} {v v' : Walk P} {w : World P}
  {pc : Word}

/-! ## Searches without a process -/

private theorem Walk.Sound.pidCtx_of_item (h : v.Sound Q) (hitem : v.elfItem.isSome = true) :
    v.pidCtx ≠ none := by
  obtain ⟨item, hitem⟩ := Option.isSome_iff_exists.mp hitem
  obtain ⟨pid, hpid, -⟩ := h.held item hitem
  rw [Option.mem_def.mp hpid]
  exact Option.some_ne_none pid

/-- Without a process there is no record in hand. -/
theorem Walk.Sound.item_of_lost (h : v.Sound Q) (hpid : v.pidCtx = none) : v.elfItem = none := by
  by_contra hitem
  exact h.pidCtx_of_item (Option.isSome_iff_ne_none.mpr hitem) hpid

private theorem Walk.Sound.locate_of_lost (h : v.Sound Q) (hpid : v.pidCtx = none) (w : World P)
    (pc : Word) : v.locate w pc = .error .nullPointer := by
  have hcovers : v.covers pc = false := by simp only [Walk.covers, h.item_of_lost hpid]
  simp only [Walk.locate, hcovers, Bool.false_eq_true, if_false, guSearchPidElfCtx, Walk.entry,
    hpid]
  rfl

/-- A walk with consistent tables is stuck for want of a process only. -/
theorem Walk.Sound.lost_of_error (h : v.Sound Q) {stuck : Stuck}
    (hlocate : v.locate w pc = .error stuck) : v.pidCtx = none := by
  by_contra hpid
  obtain ⟨v', hok⟩ := h.exists_locate w hpid pc
  rw [hlocate] at hok
  cases hok

private theorem isSome_of_mapped {found : PerElfCtx P × Word}
    (h : guGetElfCtxFromItem v = .ok (some found)) : v.elfItem.isSome = true := by
  unfold guGetElfCtxFromItem at h
  split at h
  · cases h
  · rename_i item hitem
    rw [hitem]
    rfl

/-! ## The DWARF loop and its tail -/

/-- What the DWARF loop and its tail keep from head to head. -/
structure Walk.Held (v : Walk P) : Prop where
  sound : v.Sound CfiProperty.any
  process : v.pidCtx ≠ none

private theorem Walk.Held.locate_ne_error (h : v.Held) (stuck : Stuck) :
    v.locate w pc ≠ .error stuck :=
  fun herror => h.process (h.sound.lost_of_error herror)

private theorem Walk.Held.elf_ne_error (h : v.Held) (hlocate : v.locate w pc = .ok v')
    (stuck : Stuck) : guGetElfCtxFromItem v' ≠ .error stuck := by
  obtain ⟨found, hfound⟩ := (h.sound.of_locate hlocate).exists_elf
  rw [hfound]
  exact nofun

variable {start : DwarfState H P}

private theorem headState_held {s : DwarfState H P} {rawSp : Word} {n : Nat}
    (hstart : start.walk.Held)
    (h : headState (dwarfTurn e rawSp) n start = some s) : s.walk.Held := by
  refine headState_invariant (fun _ s => s.walk.Held) hstart ?_ h
  intro n s s' _ hheld hturn
  have hsound := dwarfTurn_keeps (Walk.Sound.invariant e.world CfiProperty.any_kept) rawSp s
    hheld.sound
  obtain ⟨c, rfl⟩ := exists_caller hturn
  rw [c.turn] at hsound
  refine ⟨hsound, ?_⟩
  exact (hheld.sound.of_locate c.located).pidCtx_of_item (isSome_of_mapped c.mapped)

/-- The DWARF loop never searches without a process. -/
theorem dwarfLoop_onlyDeep (hstart : start.walk.Held) : OnlyDeep (dwarfLoop e start) := by
  intro stuck herror
  rcases loop_ends (dwarfTurn e start.sp) (fun s => .ok s.spent) maxBacktraceLevel start with
    ⟨n, -, s, hhead, hstop⟩ | ⟨s, -, hout⟩
  · have hheld := headState_held hstart hhead
    rcases dwarfTurn_error (hstop.trans (congrArg Turn.stop herror)) with
      hlocate | ⟨walk, hlocate, helf⟩ | hdeep
    · exact absurd hlocate (hheld.locate_ne_error stuck)
    · exact absurd helf (hheld.elf_ne_error hlocate stuck)
    · exact hdeep
  · cases herror.symm.trans hout

/-- A frame that is appended was found in a mapping. -/
theorem guAppendPcFrame_held (h : v.Held) {initialFrame signalFrame : Bool} {frame : FrameRecord}
    (happend : guAppendPcFrame w v pc initialFrame signalFrame = .ok (v', some frame)) :
    v'.Held := by
  unfold guAppendPcFrame at happend
  split at happend
  · cases happend
  split at happend
  · cases happend
  rename_i walk hlocate
  have hsound := h.sound.of_locate hlocate
  split at happend
  · cases happend
  rename_i hitem
  have hheld : walk.Held := ⟨hsound, hsound.pidCtx_of_item
    (Option.isSome_iff_ne_none.mpr fun hnone => hitem (by rw [hnone]; rfl))⟩
  split at happend <;> cases happend <;> exact hheld

private theorem guAppendPcFrame_ne_error (h : v.Held) (initialFrame signalFrame : Bool)
    (stuck : Stuck) : guAppendPcFrame w v pc initialFrame signalFrame ≠ .error stuck := by
  intro herror
  unfold guAppendPcFrame at herror
  split at herror
  · cases herror
  split at herror
  · rename_i hlocate
    exact absurd hlocate (h.locate_ne_error _)
  · rename_i walk hlocate
    split at herror
    · cases herror
    split at herror
    · rename_i helf
      exact absurd helf (h.elf_ne_error hlocate _)
    · cases herror
    · cases herror

private theorem tailTurn_held {target : Target} {rawSp : Word} (s : TailState P) (h : s.walk.Held) :
    (tailTurn w target rawSp s).All (fun s => s.walk.Held)
      (fun r => ∀ stuck, r ≠ .error stuck) := by
  unfold tailTurn
  split
  · split
    · split
      · rename_i happend
        exact absurd happend (guAppendPcFrame_ne_error h _ _ _)
      · exact nofun
      · rename_i walk frame happend
        split
        · exact nofun
        · exact guAppendPcFrame_held h happend
    · exact nofun
  · exact nofun

/-- The tail loop never searches without a process. -/
theorem tailLoop_ne_error {target : Target} {rawSp : Word} {s : TailState P} (h : s.walk.Held)
    (stuck : Stuck) : tailLoop w target rawSp s ≠ .error stuck := by
  let NoError : Except Stuck (TailState P) → Prop := fun r => ∀ stuck, r ≠ .error stuck
  have hresult : NoError (tailLoop w target rawSp s) := by
    refine loop_all (fun s : TailState P => s.walk.Held) NoError tailTurn_held ?_ maxFpStackLevel h
    intro s _ stuck herror
    cases herror
  exact hresult stuck

variable {done : DwarfEnd H P}

section

variable (hstart : start.walk.Held) (h : dwarfLoop e start = .ok done)
include hstart h

/-- The pc of a mapping without an ELF file is found again by the tail, in the same table. -/
theorem tailWalk_locates (happend : done.appendCurrentPc = true) :
    ∃ item, done.tailWalk.locate e.world done.pc =
      .ok { done.tailWalk with elfItem := some item } := by
  rcases dwarfLoop_ends h with ⟨n, s, -, hhead, hstop⟩ | ⟨s, -, rfl⟩
  · have hheld := headState_held hstart hhead
    cases dwarfTurn_stop hstop with
    | emitted _ _ _ hleaves =>
      rw [hleaves.current] at happend
      cases happend
    | @unmapped walk hlocate hmapped hends =>
      subst hends
      obtain ⟨item, hitem⟩ := Option.isSome_iff_exists.mp happend
      have hfound : ∃ pidCtx, walk.entry = .ok pidCtx ∧ pidCtx.search s.pc = some item := by
        rcases Walk.locate_cases hheld.sound hlocate with ⟨hcovers, rfl⟩ | hsearched
        · -- a record that covers the pc has a file behind it
          obtain ⟨mapCtx, hpayload⟩ : ∃ mapCtx, item.payload = some mapCtx := by
            simp only [Walk.covers, hitem, Bool.and_eq_true] at hcovers
            exact Option.isSome_iff_exists.mp hcovers.1
          simp only [guGetElfCtxFromItem, hitem, hpayload] at hmapped
          split at hmapped <;> cases hmapped
        · cases hsearched with
          | kept _ hafter _ _ hsearch | replaced _ hafter _ hsearch =>
            exact ⟨_, hafter, hsearch.symm.trans hitem⟩
          | lost _ _ _ hnone =>
            rw [hnone] at hitem
            cases hitem
      obtain ⟨pidCtx, hentry, hsearch⟩ := hfound
      exact ⟨item, Walk.locate_of_search rfl hentry hsearch⟩
  · cases happend

/-- What the tail has before its loop is a walk with its process. -/
theorem appendCurrent_held (hdone : done.tailWalk.Held) {first : Option FrameRecord}
    (hfirst : appendCurrent e.world done.tailWalk done.pc done.appendCurrentPc = .ok (v, first)) :
    v.Held := by
  unfold appendCurrent at hfirst
  split at hfirst
  · rename_i happend
    cases first with
    | some frame => exact guAppendPcFrame_held hdone hfirst
    | none =>
      obtain ⟨item, hlocate⟩ := tailWalk_locates hstart h happend
      unfold guAppendPcFrame at hfirst
      split at hfirst
      · cases hfirst
        exact hdone
      · simp only [hlocate, Option.isNone_some, Bool.false_eq_true, if_false] at hfirst
        split at hfirst <;> cases hfirst
  · cases hfirst
    exact hdone

/-- What follows the DWARF loop never searches without a process. -/
theorem followTail_ne_error (rawSp : Word) (stuck : Stuck) :
    followTail e rawSp done ≠ .error stuck := by
  intro herror
  unfold followTail at herror
  split at herror
  · cases herror
  split at herror
  · cases herror
  rename_i bp _
  unfold guUnwindDwarfTailByFp at herror
  split at herror
  · cases herror
  rename_i hpid
  have hkeeps := dwarfLoop_keeps (Walk.Sound.invariant e.world CfiProperty.any_kept) start
    hstart.sound
  rw [h] at hkeeps
  have hdone : done.tailWalk.Held := by
    refine ⟨(Walk.Sound.invariant e.world
      (CfiProperty.any_kept (S := e.saved))).restart _ hkeeps, fun hnone => hpid ?_⟩
    rw [show done.walk.pidCtx = none from hnone]
    rfl
  change (appendCurrent e.world done.tailWalk done.pc done.appendCurrentPc >>= _) = _ at herror
  cases hfirst : appendCurrent e.world done.tailWalk done.pc done.appendCurrentPc with
  | error stuck' =>
    unfold appendCurrent at hfirst
    split at hfirst
    · exact guAppendPcFrame_ne_error hdone _ _ _ hfirst
    · cases hfirst
  | ok found =>
    obtain ⟨tailWalk, first⟩ := found
    have hheld := appendCurrent_held hstart h hdone hfirst
    rw [hfirst] at herror
    dsimp only [bind, Except.bind] at herror
    split at herror
    · cases herror
    split at herror
    · rename_i hloop
      exact tailLoop_ne_error hheld _ hloop
    · cases herror

end

private theorem unwindDwarf_onlyDeep {walk : Walk P} (hwalk : walk.Held) (globals : Globals H) :
    OnlyDeep (unwindDwarf e walk globals) := by
  intro stuck herror
  unfold unwindDwarf at herror
  dsimp only at herror
  cases hloop : dwarfLoop e (DwarfState.init e.target.arch walk globals) with
  | error stuck' =>
    rw [hloop] at herror
    cases herror
    exact dwarfLoop_onlyDeep hwalk stuck hloop
  | ok done =>
    rw [hloop] at herror
    dsimp only [bind, Except.bind, finishDwarf] at herror
    split at herror
    · rename_i htail
      exact absurd htail (followTail_ne_error hwalk hloop _ _)
    · cases herror

/-! ## The walk along the sampler's chain -/

/-- The walk with the mapping of an entry it comes to in hand. -/
def Looked (w : World P) (walk : Walk P) (i : Nat) (v : Walk P) : Prop :=
  ∃ s, headState (fpStep w walk) i (fpStart walk) = some s ∧ s.pc ≠ 0#64 ∧
    s.walk.locate w s.pc = .ok v

/-- A reload fails at an entry of the sampler's chain, and there is another entry to look up. -/
def ReloadFailsMidway (w : World P) (walk : Walk P) : Prop :=
  fpUnknown walk = true ∧ ∃ i v, Looked w walk i v ∧ v.pidCtx = none ∧ i + 1 < fpLevels walk ∧
    walk.info.ustackFp (i + 1) ≠ 0#64

variable {walk : Walk P}

/-- The entry behind the failed reload is searched without a process. -/
theorem guUnwindByFp_of_failed_reload (hwalk : walk.Held) (h : ReloadFailsMidway w walk) :
    guUnwindByFp w walk = .error .nullPointer := by
  obtain ⟨hallow, i, v, ⟨s, hhead, hpc, hlocate⟩, hlost, hnext, hnonzero⟩ := h
  have hentry := headState_atEntry hhead
  have hsound := (headState_sound hwalk.sound hhead).of_locate hlocate
  have hmapped : guGetElfCtxFromItem v = .ok none := by
    simp only [guGetElfCtxFromItem, hsound.item_of_lost hlost]
  have hturn : fpStep w walk s = .next ⟨v, walk.info.ustackFp (i + 1), i + 2, i + 1,
      s.frames ++ [anonFrame s.pc]⟩ := by
    unfold fpStep
    rw [fpTurn_eq, if_neg hpc, show guFlagsIsSet walk.info guFlagFpAllowUnknown = true from hallow]
    simp only [hlocate, fpRecord, hmapped, if_true, hentry.fpLevel, hentry.level]
    rw [if_neg]
    rintro (hbottom | hle)
    · cases hbottom
    · exact absurd hnext (Nat.not_lt.mpr hle)
  have hstuck : fpStep w walk ⟨v, walk.info.ustackFp (i + 1), i + 2, i + 1,
      s.frames ++ [anonFrame s.pc]⟩ = .stop (.error .nullPointer) := by
    unfold fpStep
    rw [fpTurn_eq, if_neg hnonzero]
    simp only [hsound.locate_of_lost hlost]
  have hpos : fpLevels walk ≠ 0 := Nat.ne_of_gt (Nat.zero_lt_of_lt hnext)
  have hbudget : i + 1 < maxFpStackLevel := Nat.lt_of_lt_of_le hnext (Nat.min_le_right _ _)
  rw [guUnwindByFp_eq, if_neg hpos]
  exact loop_of_head _ hbudget (headState_succ hhead hturn) hstuck

/-- The walk along the sampler's chain is stuck behind a failed reload only. -/
theorem failed_reload_of_guUnwindByFp (hwalk : walk.Held) {stuck : Stuck}
    (h : guUnwindByFp w walk = .error stuck) : ReloadFailsMidway w walk := by
  rw [guUnwindByFp_eq] at h
  split at h
  · cases h
  rcases loop_ends (fpStep w walk) (fun s => .ok ⟨s.walk, .truncated, s.level + 1, s.frames⟩)
    maxFpStackLevel (fpStart walk) with ⟨n, -, s, hhead, hstop⟩ | ⟨s, -, hout⟩
  · have hsound := headState_sound hwalk.sound hhead
    have hentry := headState_atEntry hhead
    obtain ⟨hpc, hstuck⟩ := fpTurn_error (hstop.trans (congrArg Turn.stop h))
    have hlost : s.walk.pidCtx = none := by
      rcases hstuck with hlocate | ⟨v, hlocate, helf⟩
      · exact hsound.lost_of_error hlocate
      · obtain ⟨found, hfound⟩ := (hsound.of_locate hlocate).exists_elf
        rw [helf] at hfound
        cases hfound
    cases n with
    | zero =>
      cases hhead
      exact absurd hlost hwalk.process
    | succ i =>
      obtain ⟨t, ht, hturn⟩ := headState_pred hhead
      obtain ⟨entry, -, -, rfl⟩ := fpTurn_next hturn
      have hallow : fpUnknown walk = true := by
        rcases entry.cases with ⟨hallow, -⟩ | ⟨elfCtx, bias, hmapped, -⟩
        · exact hallow
        · exact absurd hlost (hsound.pidCtx_of_item (isSome_of_mapped hmapped))
      refine ⟨hallow, i, entry.walk, ⟨t, ht, entry.nonzero, entry.located⟩, hlost, ?_,
        hentry.pc ▸ hpc⟩
      exact hentry.below.resolve_left (Nat.succ_ne_zero i)
  · cases h.symm.trans hout

/-- A call searches without a process exactly when a reload fails in the middle of a sampler's chain
whose unknown entries are reported. -/
theorem guUnwind_no_null_iff {H P : Type} {S : SavedStates H P} {ctx : GuContext P}
    (hctx : Reachable S ctx) (e : UnwindEnv H P) (globals : Globals H) (info : StackInfo) :
    guUnwind e ctx globals info ≠ .error .nullPointer ↔
      ¬(guFlagsIsSet info guFlagHintSetFp = true ∧
        ∃ walk ∈ startWalk e.world ctx info, ReloadFailsMidway e.world walk) := by
  rw [not_iff_not]
  cases hstart : startWalk e.world ctx info with
  | none =>
    constructor
    · intro herror
      unfold startWalk at hstart
      split at hstart
      · rename_i hopen
        simp only [guUnwind, hopen] at herror
        cases herror
      · cases hstart
    · rintro ⟨-, walk, ⟨⟩, -⟩
  | some walk =>
    obtain ⟨hsound, hpid⟩ := hctx.startWalk_sound hstart
    have hwalk : walk.Held := ⟨hsound, hpid⟩
    rw [guUnwind_of_startWalk hstart]
    cases hfp : guFlagsIsSet info guFlagHintSetFp with
    | true =>
      rw [if_pos rfl]
      constructor
      · intro herror
        unfold unwindFp at herror
        cases hdone : guUnwindByFp e.world walk with
        | ok done =>
          rw [hdone] at herror
          cases herror
        | error stuck => exact ⟨rfl, walk, rfl, failed_reload_of_guUnwindByFp hwalk hdone⟩
      · rintro ⟨-, _, ⟨⟩, hfails⟩
        unfold unwindFp
        rw [guUnwindByFp_of_failed_reload hwalk hfails]
        rfl
    | false =>
      rw [if_neg Bool.false_ne_true]
      constructor
      · intro herror
        cases unwindDwarf_onlyDeep hwalk globals _ herror
      · rintro ⟨⟨⟩, -⟩

/-- A sample of three entries. -/
theorem guUnwind_no_null_iff_three :
    guUnwind leafEnv (guInit false false false) ⟨.empty, (), .clear⟩ threeEntries ≠
      .error .nullPointer := by
  refine (guUnwind_no_null_iff (S := savedValues) (.init false false false) _ _ _).mpr ?_
  rintro ⟨-, walk, hwalk, hunknown, -⟩
  have hstart : startWalk threeFunctions (guInit false false false) threeEntries =
      some threeEntriesWalk := (Option.some_get _).symm
  cases hstart.symm.trans hwalk
  revert hunknown
  decide +kernel

/-! ## A process that exits between two entries -/

/-- The program of three functions, whose mappings are gone by the time of the first miss. -/
def vanishing : World (List CalcRules) :=
  { threeFunctions with
    now := fun t => if t < 12 then 1#64 else 100000000000#64
    maps := fun t pid => if t < 12 then threeFunctions.maps t pid else [] }

/-- A sample by its chain, with unknown entries reported; the first one is in no mapping. -/
def unknownEntry : StackInfo :=
  { leafSample with
    flags := guFlagHintSetFp ||| guFlagFpAllowUnknown
    ustackFp := fun i => [0x500000#64, 0x400110#64].getD i 0#64
    ustackFpLevel := 2#64 }

/-- The reload at the first entry fails, and the second one is searched without a process. -/
theorem guUnwind_searches_without_process :
    guUnwind { leafEnv with world := vanishing } (guInit false false false) ⟨.empty, (), .clear⟩
      unknownEntry = .error .nullPointer := by
  have hret : (guUnwind { leafEnv with world := vanishing } (guInit false false false)
      ⟨.empty, (), .clear⟩ unknownEntry).map UnwindResult.ret = .error .nullPointer := by
    decide +kernel
  cases hresult : guUnwind { leafEnv with world := vanishing } (guInit false false false)
      ⟨.empty, (), .clear⟩ unknownEntry with
  | ok result =>
    rw [hresult] at hret
    cases hret
  | error stuck =>
    rw [hresult] at hret
    exact congrArg Except.error (Except.error.inj hret)

end Gunwinder
