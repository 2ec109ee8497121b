import Gunwinder.Walks.SampledChain

/-!
# The number `gu_unwind` returns

A call returns the number of turns of its loop. A turn that ends the walk may have emitted its
frame or not, the counter of the DWARF loop goes one step further when the budget is spent, and
the frames of the tail are in no counter. Which of these it is can be read off the state the loop
has left and the frame records of the snapshot.
-/

namespace Gunwinder

open Gunwinder.Core

variable {H P : Type} {e : UnwindEnv H P}

/-! ## The DWARF loop -/

section Dwarf

variable {start s : DwarfState H P} {done : DwarfEnd H P} {n : Nat}

/-- The turn finds an ELF file behind its pc, and so it emits the frame. -/
def DwarfState.Emits (w : World P) (s : DwarfState H P) : Prop :=
  ∃ walk found, s.walk.locate w s.pc = .ok walk ∧ guGetElfCtxFromItem walk = .ok (some found)

/-- Every turn of the loop emits, and the budget is not spent. -/
def EmitsAlways (e : UnwindEnv H P) (start : DwarfState H P) : Prop :=
  headState (dwarfTurn e start.sp) maxBacktraceLevel start = none ∧
    ∀ n s, headState (dwarfTurn e start.sp) n start = some s → s.Emits e.world

/-- Every head has one frame per turn behind it. -/
theorem headState_counts {rawSp : Word} (h : headState (dwarfTurn e rawSp) n start = some s) :
    s.level = start.level + n ∧ s.frames.length = start.frames.length + n := by
  refine headState_invariant (fun n s =>
    s.level = start.level + n ∧ s.frames.length = start.frames.length + n) ⟨rfl, rfl⟩ ?_ h
  rintro n s s' - ⟨hlevel, hlength⟩ hturn
  obtain ⟨c, rfl⟩ := exists_caller hturn
  refine ⟨?_, ?_⟩
  · change s.level + 1 = _
    omega
  · change (s.frames ++ [c.frame]).length = _
    rw [List.length_append, List.length_singleton]
    omega

/-- A turn that finds a caller emits a frame. -/
theorem Caller.emits {rawSp : Word} (c : Caller e rawSp s) : s.Emits e.world :=
  ⟨c.walk, _, c.located, c.mapped⟩

/-- The loop ends with as many turns as frames when every turn emits, and with one turn more
otherwise. -/
theorem dwarfLoop_counts (hlevel : start.level = 0) (hframes : start.frames = [])
    (h : dwarfLoop e start = .ok done) :
    (EmitsAlways e start ∧ done.level = done.frames.length) ∨
      (¬EmitsAlways e start ∧ done.level = done.frames.length + 1) := by
  rcases dwarfLoop_ends h with ⟨n, s, hn, hhead, hstop⟩ | ⟨s, hhead, rfl⟩
  · obtain ⟨hcount, hlength⟩ := headState_counts hhead
    rw [hlevel] at hcount
    rw [hframes, List.length_nil] at hlength
    cases dwarfTurn_stop hstop with
    | unmapped hlocate hmapped hends =>
      subst hends
      refine .inr ⟨fun halways => ?_, by dsimp only; omega⟩
      obtain ⟨walk', found, hlocate', hmapped'⟩ := halways.2 n s hhead
      cases hlocate.symm.trans hlocate'
      cases hmapped.symm.trans hmapped'
    | emitted hlocate hmapped _ hleaves =>
      refine .inl ⟨⟨headState_of_stop hn hhead hstop, fun m t ht => ?_⟩, ?_⟩
      · rcases Nat.lt_trichotomy m n with hlt | rfl | hgt
        · obtain ⟨t', ht'⟩ := headState_le hlt hhead
          obtain ⟨u, hu, hturn⟩ := headState_pred ht'
          cases ht.symm.trans hu
          obtain ⟨c, -⟩ := exists_caller hturn
          exact c.emits
        · cases hhead.symm.trans ht
          exact ⟨_, _, hlocate, hmapped⟩
        · rw [headState_of_stop hgt hhead hstop] at ht
          cases ht
      · rw [hleaves.level, hleaves.frames, List.length_append, List.length_singleton]
        dsimp only
        omega
  · obtain ⟨hcount, hlength⟩ := headState_counts hhead
    rw [hlevel] at hcount
    rw [hframes, List.length_nil] at hlength
    refine .inr ⟨fun halways => ?_, ?_⟩
    · rw [halways.1] at hhead
      cases hhead
    · change s.level + 1 = s.frames.length + 1
      omega

end Dwarf

/-! ## The walk along the sampler's chain -/

section Chain

variable {w : World P} {walk : Walk P} {done : WalkEnd P}

/-- Up to the first stack bottom no entry is zero, and unless it is allowed none is without an ELF
file. -/
def EntriesEmitted (w : World P) (walk : Walk P) : Prop :=
  ∀ n < fpLevels walk, (∀ i < n, ¬EntryBottom w walk i) →
    walk.info.ustackFp n ≠ 0#64 ∧ (fpUnknown walk = true ∨ EntryBacked w walk n)

/-- The walk ends with as many turns as records when every entry is emitted, and with one turn
more otherwise. -/
theorem guUnwindByFp_counts (h : guUnwindByFp w walk = .ok done) :
    done.level = done.frames.length ↔ EntriesEmitted w walk := by
  rcases guUnwindByFp_ends h with ⟨hzero, rfl⟩ | ⟨n, s, hn, hhead, hstop⟩
  · refine ⟨fun _ n hn _ => ?_, fun _ => rfl⟩
    rw [hzero] at hn
    exact absurd hn (Nat.not_lt_zero n)
  · have hentry := headState_atEntry hhead
    have hlevel := hentry.level
    have hlength := hentry.length
    have hbefore : ∀ i < n, ¬EntryBottom w walk i := fun i hi => by
      obtain ⟨t, ht, entry, hbottom⟩ := entry_of_head hi hhead
      rw [entry.bottom_iff ht, hbottom]
      exact Bool.false_ne_true
    cases fpTurn_stop hstop with
    | zero hpc =>
      dsimp only
      refine ⟨fun heq => absurd heq (by omega), fun hall => ?_⟩
      exact absurd (hentry.pc ▸ hpc) (hall n hn hbefore).1
    | unmapped _ located record =>
      dsimp only
      refine ⟨fun heq => absurd heq (by omega), fun hall => ?_⟩
      exact absurd (hall n hn hbefore).2 (not_emitted_of_unmapped hhead located record)
    | last entry hlast =>
      have heq : s.level + 1 = (s.frames ++ [entry.frame]).length := by
        rw [List.length_append, List.length_singleton]
        omega
      refine ⟨fun _ m hm hbottom => ?_, fun _ => heq⟩
      rcases Nat.lt_trichotomy m n with hlt | rfl | hgt
      · exact (emittable_of_head hhead).2.1 m hlt
      · exact entry.emits hhead
      · have hmore : s.fpLevel < fpLevels walk := by
          rw [hentry.fpLevel]
          omega
        have hlast := hlast.resolve_right (Nat.not_le.mpr hmore)
        exact absurd ((entry.bottom_iff hhead).mpr hlast) (hbottom n hgt)

end Chain

/-! ## The tail -/

section Tail

variable {w : World P} {target : Target} {rawSp bp nextBp nextPc : Word} {v v' : Walk P}

/-- The symbol of the pc in the mapping in hand is a stack bottom. -/
def Walk.IsBottom (v : Walk P) (pc : Word) (initialFrame : Bool) : Prop :=
  ∃ elfCtx bias, guGetElfCtxFromItem v = .ok (some (elfCtx, bias)) ∧
    isStackBottomSymbol (guLookupElfSymbol elfCtx
      (guFrameLookupPcForReturnAddress (pc - bias) initialFrame false)).1 = true

/-- The frame record at a frame pointer leads to a return address in a mapping. -/
structure LeadsTo (w : World P) (target : Target) (rawSp : Word) (v : Walk P)
    (bp nextBp nextPc : Word) (v' : Walk P) : Prop where
  link : tailLink target v.info rawSp bp = some (nextBp, nextPc)
  located : v.locate w nextPc = .ok v'
  mapped : v'.elfItem.isSome = true

/-- The frame record at a frame pointer leads nowhere. -/
def ChainOver (w : World P) (target : Target) (rawSp : Word) (v : Walk P) (bp : Word) : Prop :=
  ∀ nextBp nextPc v', ¬LeadsTo w target rawSp v bp nextBp nextPc v'

/-- The frame record at a frame pointer leads to a return address behind which the chain ends. -/
def ChainOne (w : World P) (target : Target) (rawSp : Word) (v : Walk P) (bp : Word) : Prop :=
  ∃ nextBp nextPc v', LeadsTo w target rawSp v bp nextBp nextPc v' ∧
    (v'.IsBottom nextPc false ∨ ChainOver w target rawSp v' nextBp)

/-- What `gu_append_pc_frame` does with a pc. -/
theorem guAppendPcFrame_ends {pc : Word} {initialFrame : Bool} {found : Option FrameRecord}
    (h : guAppendPcFrame w v pc initialFrame false = .ok (v', found)) :
    (pc = 0#64 ∧ v' = v ∧ found = none) ∨
      pc ≠ 0#64 ∧ v.locate w pc = .ok v' ∧ found.isSome = v'.elfItem.isSome ∧
        ∀ frame ∈ found, isStackBottomSymbol frame.symbol = true ↔ v'.IsBottom pc initialFrame := by
  unfold guAppendPcFrame at h
  split at h
  · rename_i hpc
    cases h
    exact .inl ⟨hpc, rfl, rfl⟩
  · rename_i hpc
    refine .inr ⟨hpc, ?_⟩
    split at h
    · cases h
    rename_i u hlocated
    split at h
    · rename_i hitem
      cases h
      exact ⟨hlocated, by simpa using hitem, nofun⟩
    · rename_i hitem
      have hsome : u.elfItem.isSome = true := by simpa [Option.isSome_iff_ne_none] using hitem
      split at h
      · cases h
      · rename_i hmapped
        cases h
        refine ⟨hlocated, hsome.symm, fun frame hframe => ?_⟩
        cases hframe
        refine ⟨nofun, fun ⟨elfCtx, bias, helf, _⟩ => ?_⟩
        cases hmapped.symm.trans helf
      · rename_i elfCtx bias hmapped
        cases h
        refine ⟨hlocated, hsome.symm, fun frame hframe => ?_⟩
        cases hframe
        refine ⟨fun hbottom => ⟨elfCtx, bias, hmapped, hbottom⟩, fun ⟨_, _, helf, hbottom⟩ => ?_⟩
        cases hmapped.symm.trans helf
        exact hbottom

/-- What a turn of the tail does. -/
inductive TailMove (w : World P) (target : Target) (rawSp : Word) (s : TailState P) :
    Turn (TailState P) (Except Stuck (TailState P)) → Prop where
  | stuck (r : Stuck) : TailMove w target rawSp s (.stop (.error r))
  | ends (v : Walk P) (h : ChainOver w target rawSp s.walk s.bp) :
      TailMove w target rawSp s (.stop (.ok { s with walk := v }))
  | bottom {nextBp nextPc : Word} {v : Walk P} (frame : FrameRecord)
      (h : LeadsTo w target rawSp s.walk s.bp nextBp nextPc v) (hbottom : v.IsBottom nextPc false) :
      TailMove w target rawSp s (.stop (.ok ⟨v, s.bp, s.frames ++ [frame]⟩))
  | next {nextBp nextPc : Word} {v : Walk P} (frame : FrameRecord)
      (h : LeadsTo w target rawSp s.walk s.bp nextBp nextPc v)
      (hbottom : ¬v.IsBottom nextPc false) :
      TailMove w target rawSp s (.next ⟨v, nextBp, s.frames ++ [frame]⟩)

/-- A turn of the tail follows the frame record it is at. -/
theorem tailTurn_move (w : World P) (target : Target) (rawSp : Word) (s : TailState P) :
    TailMove w target rawSp s (tailTurn w target rawSp s) := by
  rw [tailTurn_eq]
  split
  · rename_i hlink
    refine .ends s.walk fun nextBp nextPc v hleads => ?_
    rw [hleads.link] at hlink
    cases hlink
  · rename_i nextBp nextPc hlink
    split
    · exact .stuck _
    · rename_i v happend
      refine .ends v fun nextBp' nextPc' v' hleads => ?_
      cases hleads.link.symm.trans hlink
      rcases guAppendPcFrame_ends happend with ⟨hpc, -⟩ | ⟨-, hlocated, hitem, -⟩
      · exact (tailLink_spec hlink).2 hpc
      · cases hlocated.symm.trans hleads.located
        rw [hleads.mapped] at hitem
        cases hitem
    · rename_i v frame happend
      rcases guAppendPcFrame_ends happend with ⟨-, -, hnone⟩ | ⟨-, hlocated, hitem, hbottom⟩
      · cases hnone
      have hleads : LeadsTo w target rawSp s.walk s.bp nextBp nextPc v :=
        ⟨hlink, hlocated, hitem.symm⟩
      split
      · rename_i hframe
        exact .bottom frame hleads ((hbottom frame rfl).mp hframe)
      · rename_i hframe
        exact .next frame hleads fun h => hframe ((hbottom frame rfl).mpr h)

/-- The tail drops no frame. -/
theorem tailLoop_length_le {n : Nat} {s last : TailState P}
    (h : loop (tailTurn w target rawSp) .ok n s = .ok last) :
    s.frames.length ≤ last.frames.length := by
  induction n generalizing s with
  | zero =>
    cases h
    exact Nat.le_refl _
  | succ n ih =>
    have hmove := tailTurn_move w target rawSp s
    cases hturn : tailTurn w target rawSp s with
    | stop r =>
      rw [loop_stop hturn] at h
      rw [hturn, h] at hmove
      cases hmove with
      | ends => exact Nat.le_refl _
      | bottom => simp
    | next s' =>
      rw [loop_next hturn] at h
      rw [hturn] at hmove
      have hle := ih h
      cases hmove with
      | next =>
        rw [List.length_append, List.length_singleton] at hle
        exact Nat.le_of_succ_le hle

/-- The tail appends nothing when the frame record it starts at leads nowhere. -/
theorem tailLoop_length_eq_iff {n : Nat} {s last : TailState P}
    (h : loop (tailTurn w target rawSp) .ok (n + 1) s = .ok last) :
    last.frames.length = s.frames.length ↔ ChainOver w target rawSp s.walk s.bp := by
  have hmove := tailTurn_move w target rawSp s
  cases hturn : tailTurn w target rawSp s with
  | stop r =>
    rw [loop_stop hturn] at h
    rw [hturn, h] at hmove
    cases hmove with
    | ends v hover => exact ⟨fun _ => hover, fun _ => rfl⟩
    | bottom frame hleads => exact ⟨by simp, fun hover => absurd hleads (hover _ _ _)⟩
  | next s' =>
    rw [loop_next hturn] at h
    rw [hturn] at hmove
    have hle := tailLoop_length_le h
    cases hmove with
    | next frame hleads =>
      rw [List.length_append, List.length_singleton] at hle
      exact ⟨fun heq => by omega, fun hover => absurd hleads (hover _ _ _)⟩

/-- The tail appends one frame when the frame record it starts at leads to the last one. -/
theorem tailLoop_length_succ_iff {n : Nat} {s last : TailState P}
    (h : loop (tailTurn w target rawSp) .ok (n + 2) s = .ok last) :
    last.frames.length = s.frames.length + 1 ↔ ChainOne w target rawSp s.walk s.bp := by
  have hmove := tailTurn_move w target rawSp s
  cases hturn : tailTurn w target rawSp s with
  | stop r =>
    rw [loop_stop hturn] at h
    rw [hturn, h] at hmove
    cases hmove with
    | ends v hover =>
      exact ⟨fun heq => absurd heq (by simp),
        fun ⟨_, _, _, hleads, _⟩ => absurd hleads (hover _ _ _)⟩
    | bottom frame hleads hbottom => exact ⟨fun _ => ⟨_, _, _, hleads, .inl hbottom⟩, by simp⟩
  | next s' =>
    rw [loop_next hturn] at h
    rw [hturn] at hmove
    have hiff := tailLoop_length_eq_iff h
    cases hmove with
    | next frame hleads hbottom =>
      rw [List.length_append, List.length_singleton] at hiff
      rw [hiff]
      refine ⟨fun hover => ⟨_, _, _, hleads, .inr hover⟩, fun ⟨_, _, _, hleads', hends⟩ => ?_⟩
      cases hleads.link.symm.trans hleads'.link
      cases hleads.located.symm.trans hleads'.located
      exact hends.resolve_left hbottom

end Tail

section Follow

variable {done : DwarfEnd H P} {rawSp : Word}

/-- The tail follows the frame pointer the DWARF loop has left. -/
structure TailRuns (e : UnwindEnv H P) (done : DwarfEnd H P) (bp : Word) : Prop where
  reason : done.reason ≠ .endOfStack ∧ done.reason ≠ .processExit
  bp : getRegs e.target.arch done.walk.info e.target.arch.regNameRbp = some bp
  pidCtx : done.walk.pidCtx ≠ none

/-- The walk of the tail once it has looked the pc of the last turn up, where that turn has left the
pc to it. -/
def DwarfEnd.currentWalk (w : World P) (done : DwarfEnd H P) : Walk P :=
  if done.appendCurrentPc = true ∧ done.pc ≠ 0#64 then
    (done.tailWalk.locate w done.pc).toOption.getD done.tailWalk
  else done.tailWalk

/-- The tail appends nothing: it does not run, or the pc of the last turn is not left to it or in no
mapping, and the frame record at the frame pointer leads nowhere. -/
def TailSilent (e : UnwindEnv H P) (rawSp : Word) (done : DwarfEnd H P) : Prop :=
  ∀ bp, TailRuns e done bp → (done.currentWalk e.world).elfItem = none ∧
    ChainOver e.world e.target rawSp (done.currentWalk e.world) bp

/-- The tail appends one frame: that of the pc of the last turn, a stack bottom or with a frame
record that leads nowhere, or that of a record that leads to the last one. -/
def TailOne (e : UnwindEnv H P) (rawSp : Word) (done : DwarfEnd H P) : Prop :=
  ∃ bp, TailRuns e done bp ∧
    if (done.currentWalk e.world).elfItem.isSome = true then
      (done.currentWalk e.world).IsBottom done.pc true ∨
        ChainOver e.world e.target rawSp (done.currentWalk e.world) bp
    else ChainOne e.world e.target rawSp (done.currentWalk e.world) bp

/-- The frame of the pc of the last turn. -/
theorem appendCurrent_ends {w : World P} {v : Walk P} {first : Option FrameRecord}
    (h : appendCurrent w done.tailWalk done.pc done.appendCurrentPc = .ok (v, first)) :
    v = done.currentWalk w ∧ first.isSome = v.elfItem.isSome ∧
      ∀ frame ∈ first, isStackBottomSymbol frame.symbol = true ↔ v.IsBottom done.pc true := by
  unfold appendCurrent at h
  unfold DwarfEnd.currentWalk
  split at h
  · rename_i happend
    rcases guAppendPcFrame_ends h with ⟨hpc, rfl, rfl⟩ | ⟨hpc, hlocated, hitem, hbottom⟩
    · rw [if_neg fun hboth => hboth.2 hpc]
      exact ⟨rfl, rfl, nofun⟩
    · rw [if_pos ⟨happend, hpc⟩, hlocated]
      exact ⟨rfl, hitem, hbottom⟩
  · rename_i happend
    cases h
    rw [if_neg fun hboth => happend hboth.1]
    exact ⟨rfl, rfl, nofun⟩

/-- How many frames the tail appends once it has looked the pc of the last turn up. -/
theorem tailFrames_length {w : World P} {target : Target} {bp : Word} {v : Walk P}
    {first : Option FrameRecord} {found : Walk P × List FrameRecord} {pc : Word}
    (hitem : first.isSome = v.elfItem.isSome)
    (hbottom : ∀ frame ∈ first, isStackBottomSymbol frame.symbol = true ↔ v.IsBottom pc true)
    (h : (if (first.any fun frame => isStackBottomSymbol frame.symbol) = true then
        (.ok (v, first.toList) : Except Stuck _)
      else do
        let tail ← tailLoop w target rawSp ⟨v, bp, first.toList⟩
        return (tail.walk, tail.frames)) = .ok found) :
    (found.2.length = 0 ↔ v.elfItem = none ∧ ChainOver w target rawSp v bp) ∧
      (found.2.length = 1 ↔ if v.elfItem.isSome = true then
        v.IsBottom pc true ∨ ChainOver w target rawSp v bp else ChainOne w target rawSp v bp) := by
  cases first with
  | none =>
    obtain ⟨tail, htail, hfound⟩ := exists_of_bind_ok h
    cases hfound
    have hnone : v.elfItem = none :=
      Option.not_isSome_iff_eq_none.mp fun hsome => by
        rw [hsome] at hitem
        cases hitem
    rw [hnone, Option.isSome_none, if_neg Bool.false_ne_true, eq_self_iff_true, true_and]
    exact ⟨tailLoop_length_eq_iff htail, tailLoop_length_succ_iff htail⟩
  | some frame =>
    have hsome : v.elfItem.isSome = true := hitem.symm
    have hne : v.elfItem ≠ none := Option.isSome_iff_ne_none.mp hsome
    rw [if_pos hsome]
    rw [Option.any_some] at h
    by_cases hends : isStackBottomSymbol frame.symbol = true
    · rw [if_pos hends] at h
      cases h
      exact ⟨⟨nofun, fun hnone => absurd hnone.1 hne⟩,
        ⟨fun _ => .inl ((hbottom frame rfl).mp hends), fun _ => rfl⟩⟩
    · rw [if_neg hends] at h
      obtain ⟨tail, htail, hfound⟩ := exists_of_bind_ok h
      cases hfound
      have hle := tailLoop_length_le htail
      rw [or_iff_right fun hb => hends ((hbottom frame rfl).mpr hb)]
      refine ⟨⟨fun hzero => ?_, fun hnone => absurd hnone.1 hne⟩, tailLoop_length_eq_iff htail⟩
      rw [hzero] at hle
      exact absurd hle (by simp)

/-- How many frames the tail appends. -/
theorem followTail_length {last : Walk P} {tail : List FrameRecord}
    (h : followTail e rawSp done = .ok (last, tail)) :
    (tail.length = 0 ↔ TailSilent e rawSp done) ∧ (tail.length = 1 ↔ TailOne e rawSp done) := by
  have hrests (hnot : ∀ bp, ¬TailRuns e done bp) :
      (([] : List FrameRecord).length = 0 ↔ TailSilent e rawSp done) ∧
        (([] : List FrameRecord).length = 1 ↔ TailOne e rawSp done) :=
    ⟨⟨fun _ bp hruns => absurd hruns (hnot bp), fun _ => rfl⟩,
      ⟨nofun, fun ⟨bp, hruns, _⟩ => absurd hruns (hnot bp)⟩⟩
  unfold followTail at h
  split at h
  · rename_i hreason
    cases h
    exact hrests fun bp hruns => hreason.elim hruns.reason.1 hruns.reason.2
  · rename_i hreason
    split at h
    · rename_i hbp
      cases h
      refine hrests fun bp hruns => ?_
      cases hbp.symm.trans hruns.bp
    · rename_i bp hbp
      unfold guUnwindDwarfTailByFp at h
      split at h
      · rename_i hpid
        cases h
        exact hrests fun bp hruns => hruns.pidCtx (Option.isNone_iff_eq_none.mp hpid)
      · rename_i hpid
        have hruns : TailRuns e done bp :=
          ⟨not_or.mp hreason, hbp, fun hnone => hpid (Option.isNone_iff_eq_none.mpr hnone)⟩
        have honly : ∀ bp', TailRuns e done bp' → bp' = bp := fun bp' hruns' =>
          Option.some.inj (hruns'.bp.symm.trans hbp)
        obtain ⟨⟨v, first⟩, hfirst, h⟩ := exists_of_bind_ok h
        obtain ⟨rfl, hitem, hbottom⟩ := appendCurrent_ends hfirst
        obtain ⟨hzero, hone⟩ := tailFrames_length hitem hbottom h
        refine ⟨hzero.trans ⟨fun hover bp' hruns' => honly bp' hruns' ▸ hover,
          fun hall => hall bp hruns⟩, hone.trans ⟨fun hends => ⟨bp, hruns, hends⟩, ?_⟩⟩
        rintro ⟨bp', hruns', hends⟩
        exact honly bp' hruns' ▸ hends

end Follow

/-! ## The call -/

/-- Every turn of the DWARF loop emits and the tail appends nothing, or a last turn does not and the
tail appends one frame. -/
def TailMakesUp (e : UnwindEnv H P) (start : DwarfState H P) : Prop :=
  ∀ done, dwarfLoop e start = .ok done →
    (EmitsAlways e start ∧ TailSilent e start.sp done) ∨
      (¬EmitsAlways e start ∧ TailOne e start.sp done)

/-- Turns and frames of a call agree. -/
def Counted (e : UnwindEnv H P) (ctx : GuContext P) (globals : Globals H) (info : StackInfo) :
    Prop :=
  ∀ walk ∈ startWalk e.world ctx info,
    if guFlagsIsSet info guFlagHintSetFp = true then EntriesEmitted e.world walk
    else TailMakesUp e (.init e.target.arch walk globals)

/-- The DWARF walk returns the number of its frames exactly when the tail makes up for the turn
that does not emit. -/
theorem unwindDwarf_counts {walk : Walk P} {globals : Globals H} {result : UnwindResult H P}
    (h : unwindDwarf e walk globals = .ok result) :
    result.ret = result.frames.length ↔ TailMakesUp e (.init e.target.arch walk globals) := by
  obtain ⟨done, last, tail, hloop, htail, rfl⟩ := unwindDwarf_ends h
  obtain ⟨hsilent, hone⟩ := followTail_length htail
  have hret : ((done.level : Int) = ((done.frames ++ tail).length : Nat)) ↔
      done.level = done.frames.length + tail.length := by rw [List.length_append, Int.ofNat_inj]
  rw [hret]
  unfold TailMakesUp
  rw [hloop]
  simp only [Except.ok.injEq, forall_eq', ← hsilent, ← hone]
  rcases dwarfLoop_counts rfl rfl hloop with ⟨halways, hlevel⟩ | ⟨halways, hlevel⟩
  · simp only [halways, true_and, not_true_eq_false, false_and, or_false]
    omega
  · simp only [halways, false_and, not_false_eq_true, true_and, false_or]
    omega

/-- A call that returns a number of frames returns the number of its frames exactly when turns and
frames agree. -/
theorem guUnwind_count_iff {H P : Type} {e : UnwindEnv H P} {ctx : GuContext P}
    {globals : Globals H} {info : StackInfo} {result : UnwindResult H P}
    (h : guUnwind e ctx globals info = .ok result) (hret : 0 ≤ result.ret) :
    result.ret = result.frames.length ↔ Counted e ctx globals info := by
  unfold Counted
  cases hstart : startWalk e.world ctx info with
  | none =>
    have hnone := (guUnwind_of_no_walk hstart h).1
    rw [hnone] at hret
    exact absurd hret (by decide)
  | some walk =>
    rw [guUnwind_of_startWalk hstart] at h
    simp only [Option.mem_def, Option.some.injEq, forall_eq']
    split at h
    · rename_i hfp
      rw [if_pos hfp]
      obtain ⟨done, hdone, rfl⟩ := unwindFp_ends h
      rw [← guUnwindByFp_counts hdone]
      exact Int.ofNat_inj
    · rename_i hfp
      rw [if_neg hfp]
      exact unwindDwarf_counts h

/-- The head the walk of the leaf's sample starts from. -/
def leafHead : DwarfState Unit (List CalcRules) :=
  .init leafEnv.target.arch ((startWalk threeFunctions (guInit false false false) leafSample).get
    (by decide +kernel)) ⟨.empty, (), .clear⟩

/-- Both turns of the walk find an ELF file, and the second one ends the stack. -/
theorem tailMakesUp_leaf : TailMakesUp (leafEnv.log true) leafHead := by
  have hends : headState (dwarfTurn (leafEnv.log true) leafHead.sp) 2 leafHead = none := by
    decide +kernel
  have hfound : ∀ n < 2, ∀ s ∈ headState (dwarfTurn (leafEnv.log true) leafHead.sp) n leafHead,
      ((s.walk.locate threeFunctions s.pc).toOption.bind fun v =>
        (guGetElfCtxFromItem v).toOption.join).isSome = true := by decide +kernel
  have hreason : (dwarfLoop (leafEnv.log true) leafHead).map DwarfEnd.reason =
      .ok .endOfStack := by decide +kernel
  have hheads {n : Nat} {s : DwarfState Unit (List CalcRules)}
      (h : headState (dwarfTurn (leafEnv.log true) leafHead.sp) n leafHead = some s) :
      n < 2 := by
    by_contra hle
    obtain ⟨t, ht⟩ := headState_le (Nat.le_of_not_lt hle) h
    cases hends.symm.trans ht
  refine fun done hdone => .inl ⟨⟨?_, fun n s hs => ?_⟩, fun bp hruns => ?_⟩
  · by_contra hsome
    obtain ⟨s, hs⟩ := Option.ne_none_iff_exists'.mp hsome
    exact absurd (hheads hs) (by decide)
  · have hsome := hfound n (hheads hs) s hs
    cases hlocate : s.walk.locate threeFunctions s.pc with
    | error stuck =>
      rw [hlocate] at hsome
      cases hsome
    | ok v =>
      rw [hlocate] at hsome
      cases hmapped : guGetElfCtxFromItem v with
      | error stuck => simp [hmapped, Except.toOption] at hsome
      | ok found =>
        cases found with
        | none => simp [hmapped, Except.toOption] at hsome
        | some elf => exact ⟨v, elf, hlocate, hmapped⟩
  · rw [hdone] at hreason
    exact absurd (Except.ok.inj hreason) hruns.reason.1

/-- A walk of two frames. -/
theorem guUnwind_count_iff_leaf : ∃ result, leafWalk true = .ok result ∧ 0 ≤ result.ret ∧
    Counted (leafEnv.log true) (guInit false false false) ⟨.empty, (), .clear⟩ leafSample ∧
    result.ret = result.frames.length := by
  have hret : (leafWalk true).map UnwindResult.ret = .ok 2 := by decide +kernel
  have hcounted : Counted (leafEnv.log true) (guInit false false false) ⟨.empty, (), .clear⟩
      leafSample := by
    intro walk hwalk
    have hstart : startWalk threeFunctions (guInit false false false) leafSample = some _ :=
      (Option.some_get (by decide +kernel)).symm
    cases hstart.symm.trans hwalk
    rw [if_neg (by decide)]
    exact tailMakesUp_leaf
  obtain ⟨result, hresult, hret⟩ := exists_of_map_ok hret
  have hpos : 0 ≤ result.ret := hret ▸ by decide
  exact ⟨result, hresult, hpos, hcounted, (guUnwind_count_iff hresult hpos).mpr hcounted⟩

/-- A sample whose pc is in no mapping. -/
def strayPc : StackInfo :=
  { leafSample with regs := some fun r => if r = 16 then 0x500000#64 else 0#64 }

/-- The number of frames a call returns and the number it emits. -/
def returnedAndEmitted (r : Except Stuck (UnwindResult H P)) : Except Stuck (Int × Nat) :=
  r.map fun result => (result.ret, result.frames.length)

/-- The call returns one frame and emits none. -/
theorem guUnwind_returns_more_than_emitted : ∃ result,
    guUnwind leafEnv (guInit false false false) ⟨.empty, (), .clear⟩ strayPc = .ok result ∧
      result.ret = 1 ∧ result.frames = [] := by
  have hcounts : returnedAndEmitted (guUnwind leafEnv (guInit false false false)
      ⟨.empty, (), .clear⟩ strayPc) = .ok (1, 0) := by decide +kernel
  obtain ⟨result, hresult, hcounts⟩ := exists_of_map_ok hcounts
  obtain ⟨hret, hlength⟩ := Prod.mk.inj hcounts
  exact ⟨result, hresult, hret, List.length_eq_zero_iff.mp hlength⟩

end Gunwinder
