import Mathlib.Order.Bounds.Basic
import Gunwinder.Walks.Tables

/-!
# The walk along the sampler's chain

`gu_unwind_by_fp` emits one record per entry of the chain, in order, until an entry ends it. The
table the entries are looked up in is replaced at most once, and the record in hand is never one
of a table that is gone.
-/

namespace Gunwinder

open Gunwinder.Core

variable {P : Type} {w : World P} {allowUnknown : Bool}

/-! ## One entry -/

/-- The record of an entry whose mapping is in hand, and whether it is a stack bottom; `none`
where the walk ends without one. -/
def fpRecord (allowUnknown : Bool) (v : Walk P) (pc : Word) :
    Except Stuck (Option (FrameRecord × Bool)) :=
  match guGetElfCtxFromItem v with
  | .error stuck => .error stuck
  | .ok none => .ok (if allowUnknown then some (anonFrame pc, false) else none)
  | .ok (some (elfCtx, bias)) =>
    let (sym, funcOffset) := fpSymbol elfCtx (pc - bias)
    .ok (some (elfFrame v.ctx elfCtx pc (pc - bias) funcOffset sym, isStackBottomSymbol sym))

/-- A turn by the record of its entry. -/
theorem fpTurn_eq (w : World P) (ustackFp : Nat → Word) (maxFpLevel : Nat) (allowUnknown : Bool)
    (s : FpState P) :
    fpTurn w ustackFp maxFpLevel allowUnknown s =
      if s.pc = 0#64 then .stop (.ok ⟨s.walk, .endOfStack, s.level + 1, s.frames⟩)
      else
        match s.walk.locate w s.pc with
        | .error stuck => .stop (.error stuck)
        | .ok v =>
          match fpRecord allowUnknown v s.pc with
          | .error stuck => .stop (.error stuck)
          | .ok none => .stop (.ok ⟨v, .noExecPc, s.level + 1, s.frames⟩)
          | .ok (some (frame, bottom)) =>
            if bottom = true ∨ maxFpLevel ≤ s.fpLevel then
              .stop (.ok ⟨v, .endOfStack, s.level + 1, s.frames ++ [frame]⟩)
            else
              .next ⟨v, ustackFp s.fpLevel, s.fpLevel + 1, s.level + 1, s.frames ++ [frame]⟩ := by
  unfold fpTurn
  by_cases hpc : s.pc = 0#64
  · simp only [if_pos hpc]
  simp only [if_neg hpc]
  cases s.walk.locate w s.pc with
  | error stuck => rfl
  | ok v =>
    dsimp only [fpRecord]
    cases guGetElfCtxFromItem v with
    | error stuck => rfl
    | ok found =>
      cases found with
      | none => cases allowUnknown <;> simp
      | some elf => rfl

/-- An entry that is emitted. -/
structure FpEntry (w : World P) (allowUnknown : Bool) (s : FpState P) where
  /-- The walk once the mapping of the entry is in hand. -/
  walk : Walk P
  frame : FrameRecord
  bottom : Bool
  nonzero : s.pc ≠ 0#64
  located : s.walk.locate w s.pc = .ok walk
  record : fpRecord allowUnknown walk s.pc = .ok (some (frame, bottom))

/-- How a turn that stops leaves the walk. -/
inductive FpStop (w : World P) (maxFpLevel : Nat) (allowUnknown : Bool) (s : FpState P) :
    WalkEnd P → Prop where
  | zero (hpc : s.pc = 0#64) :
      FpStop w maxFpLevel allowUnknown s ⟨s.walk, .endOfStack, s.level + 1, s.frames⟩
  | unmapped {v : Walk P} (nonzero : s.pc ≠ 0#64) (located : s.walk.locate w s.pc = .ok v)
      (record : fpRecord allowUnknown v s.pc = .ok none) :
      FpStop w maxFpLevel allowUnknown s ⟨v, .noExecPc, s.level + 1, s.frames⟩
  | last (entry : FpEntry w allowUnknown s)
      (hlast : entry.bottom = true ∨ maxFpLevel ≤ s.fpLevel) :
      FpStop w maxFpLevel allowUnknown s
        ⟨entry.walk, .endOfStack, s.level + 1, s.frames ++ [entry.frame]⟩

section Turn

variable {ustackFp : Nat → Word} {maxFpLevel : Nat} {s s' : FpState P}

/-- A turn goes on behind an entry that is emitted and neither a stack bottom nor the last. -/
theorem fpTurn_next (h : fpTurn w ustackFp maxFpLevel allowUnknown s = .next s') :
    ∃ entry : FpEntry w allowUnknown s, entry.bottom = false ∧ s.fpLevel < maxFpLevel ∧
      s' = ⟨entry.walk, ustackFp s.fpLevel, s.fpLevel + 1, s.level + 1,
        s.frames ++ [entry.frame]⟩ := by
  rw [fpTurn_eq] at h
  split at h
  · cases h
  rename_i hpc
  split at h
  · cases h
  rename_i v hlocated
  split at h
  · cases h
  · cases h
  · rename_i frame bottom hrecord
    split at h
    · cases h
    rename_i hlast
    obtain ⟨hbottom, hlevel⟩ := not_or.mp hlast
    cases h
    exact ⟨⟨v, frame, bottom, hpc, hlocated, hrecord⟩, Bool.eq_false_iff.mpr hbottom,
      Nat.lt_of_not_le hlevel, rfl⟩

/-- The ways out of a turn. -/
theorem fpTurn_stop {done : WalkEnd P}
    (h : fpTurn w ustackFp maxFpLevel allowUnknown s = .stop (.ok done)) :
    FpStop w maxFpLevel allowUnknown s done := by
  rw [fpTurn_eq] at h
  split at h
  · rename_i hpc
    cases h
    exact .zero hpc
  · rename_i hpc
    split at h
    · cases h
    rename_i v hlocated
    split at h
    · cases h
    · rename_i hrecord
      cases h
      exact .unmapped hpc hlocated hrecord
    · rename_i frame bottom hrecord
      split at h
      · rename_i hlast
        cases h
        exact .last ⟨v, frame, bottom, hpc, hlocated, hrecord⟩ hlast
      · cases h

/-- A turn is stuck at the lookup of its entry or at the record it finds. -/
theorem fpTurn_error {stuck : Stuck}
    (h : fpTurn w ustackFp maxFpLevel allowUnknown s = .stop (.error stuck)) :
    s.pc ≠ 0#64 ∧ (s.walk.locate w s.pc = .error stuck ∨
      ∃ v, s.walk.locate w s.pc = .ok v ∧ guGetElfCtxFromItem v = .error stuck) := by
  rw [fpTurn_eq] at h
  split at h
  · cases h
  rename_i hpc
  refine ⟨hpc, ?_⟩
  split at h
  · rename_i hlocated
    cases h
    exact .inl hlocated
  · rename_i v hlocated
    refine .inr ⟨v, hlocated, ?_⟩
    split at h
    · rename_i hrecord
      cases h
      unfold fpRecord at hrecord
      split at hrecord
      · rename_i hmapped
        cases hrecord
        exact hmapped
      · cases hrecord
      · cases hrecord
    · cases h
    · split at h <;> cases h

end Turn

/-! ## The heads of the walk -/

variable {i : Nat} {v : Walk P}

section Heads

variable {walk : Walk P} {n : Nat} {s : FpState P}

/-- Number of entries the walk may look at. -/
def fpLevels (walk : Walk P) : Nat := min walk.info.ustackFpLevel.toNat maxFpStackLevel

/-- Unknown entries are reported. -/
def fpUnknown (walk : Walk P) : Bool := guFlagsIsSet walk.info guFlagFpAllowUnknown

/-- An empty chain ends at once. -/
theorem guUnwindByFp_eq (w : World P) (walk : Walk P) :
    guUnwindByFp w walk =
      if fpLevels walk = 0 then .ok ⟨walk, .endOfStack, 0, []⟩
      else loop (fpStep w walk) (fun s => .ok ⟨s.walk, .truncated, s.level + 1, s.frames⟩)
        maxFpStackLevel (fpStart walk) := rfl

/-- The walk with the mapping of an entry in hand, the entries of the chain being looked up in
turn: it has the table in force. -/
def lookEntry (w : World P) (walk : Walk P) : Nat → Except Stuck (Walk P)
  | 0 => walk.locate w (walk.info.ustackFp 0)
  | i + 1 => lookEntry w walk i >>= fun v => v.locate w (walk.info.ustackFp (i + 1))

/-- The record is that of an entry. -/
def Emitted (w : World P) (walk : Walk P) (i : Nat) (frame : FrameRecord) : Prop :=
  ∃ s, headState (fpStep w walk) i (fpStart walk) = some s ∧
    ∃ entry : FpEntry w (fpUnknown walk) s, entry.frame = frame

/-- What the walk holds before an entry. -/
structure AtEntry (w : World P) (walk : Walk P) (n : Nat) (s : FpState P) : Prop where
  pc : s.pc = walk.info.ustackFp n
  fpLevel : s.fpLevel = n + 1
  level : s.level = n
  below : n = 0 ∨ n < fpLevels walk
  length : s.frames.length = n
  look : lookEntry w walk n = s.walk.locate w s.pc
  emitted : ∀ i frame, s.frames[i]? = some frame → Emitted w walk i frame

/-- The record of an entry is emitted behind those of the entries before it. -/
theorem AtEntry.snoc (h : AtEntry w walk n s)
    (hhead : headState (fpStep w walk) n (fpStart walk) = some s)
    (entry : FpEntry w (fpUnknown walk) s) {frame : FrameRecord}
    (hframe : (s.frames ++ [entry.frame])[i]? = some frame) : Emitted w walk i frame := by
  rcases Nat.lt_or_ge i n with hi | hi
  · rw [List.getElem?_append_left (h.length.symm ▸ hi)] at hframe
    exact h.emitted i frame hframe
  · rw [List.getElem?_append_right (h.length.symm ▸ hi), h.length] at hframe
    obtain ⟨hlt, hlast⟩ := List.getElem?_eq_some_iff.mp hframe
    obtain rfl : i = n := by
      simp only [List.length_singleton] at hlt
      omega
    exact ⟨s, hhead, entry, by simpa using hlast⟩

/-- Turn `n` is at entry `n`. -/
theorem headState_atEntry (h : headState (fpStep w walk) n (fpStart walk) = some s) :
    AtEntry w walk n s := by
  refine headState_invariant (AtEntry w walk) ?_ ?_ h
  · exact ⟨rfl, rfl, rfl, .inl rfl, rfl, rfl, nofun⟩
  · intro n s s' hhead hentry hturn
    obtain ⟨entry, -, hlevel, rfl⟩ := fpTurn_next hturn
    refine ⟨?_, ?_, ?_, .inr ?_, ?_, ?_, fun i frame hframe => hentry.snoc hhead entry hframe⟩
    · rw [hentry.fpLevel]
    · rw [hentry.fpLevel]
    · rw [hentry.level]
    · rw [hentry.fpLevel] at hlevel
      exact hlevel
    · rw [List.length_append, hentry.length]
      rfl
    · rw [lookEntry, hentry.look, entry.located, hentry.fpLevel]
      rfl

/-- A head behind another one is left by an entry that is no stack bottom. -/
theorem entry_of_head (hi : i < n) (h : headState (fpStep w walk) n (fpStart walk) = some s) :
    ∃ t, headState (fpStep w walk) i (fpStart walk) = some t ∧
      ∃ entry : FpEntry w (fpUnknown walk) t, entry.bottom = false := by
  obtain ⟨t', ht'⟩ := headState_le hi h
  obtain ⟨t, ht, hturn⟩ := headState_pred ht'
  obtain ⟨entry, hbottom, -, -⟩ := fpTurn_next hturn
  exact ⟨t, ht, entry, hbottom⟩

/-- The walk stops at an entry, long before its budget is spent. -/
theorem guUnwindByFp_ends {done : WalkEnd P} (h : guUnwindByFp w walk = .ok done) :
    (fpLevels walk = 0 ∧ done = ⟨walk, .endOfStack, 0, []⟩) ∨
      ∃ n s, n < fpLevels walk ∧ headState (fpStep w walk) n (fpStart walk) = some s ∧
        fpStep w walk s = .stop (.ok done) := by
  rw [guUnwindByFp_eq] at h
  split at h
  · rename_i hzero
    cases h
    exact .inl ⟨hzero, rfl⟩
  · rename_i hpos
    right
    have hbelow : ∀ {n s}, headState (fpStep w walk) n (fpStart walk) = some s →
        n < fpLevels walk := by
      intro n s hhead
      rcases (headState_atEntry hhead).below with rfl | hlt
      · exact Nat.pos_of_ne_zero hpos
      · exact hlt
    rcases loop_ends (fpStep w walk) (fun s => .ok ⟨s.walk, .truncated, s.level + 1, s.frames⟩)
      maxFpStackLevel (fpStart walk) with ⟨n, -, s, hhead, hstop⟩ | ⟨s, hhead, -⟩
    · exact ⟨n, s, hbelow hhead, hhead, hstop.trans (congrArg Turn.stop h)⟩
    · have hlt := hbelow hhead
      exact absurd hlt (Nat.not_lt.mpr (Nat.min_le_right _ _))

end Heads

/-! ## The prefix that is emitted -/

section Prefix

variable {walk : Walk P} {done : WalkEnd P}

/-- The lookup finds an ELF file behind an entry. -/
def EntryBacked (w : World P) (walk : Walk P) (i : Nat) : Prop :=
  ∃ v, lookEntry w walk i = .ok v ∧ v.Backed

/-- An entry resolves to a stack-bottom symbol. -/
def EntryBottom (w : World P) (walk : Walk P) (i : Nat) : Prop :=
  ∃ v elfCtx bias, lookEntry w walk i = .ok v ∧
    guGetElfCtxFromItem v = .ok (some (elfCtx, bias)) ∧
    isStackBottomSymbol (fpSymbol elfCtx (walk.info.ustackFp i - bias)).1 = true

/-- Prefixes of the chain that can be emitted: no zero entry, unless it is allowed no entry
without an ELF file, and a stack bottom at most at the end. -/
def emittable (w : World P) (walk : Walk P) : Set Nat :=
  { m | m ≤ fpLevels walk ∧
    (∀ i < m, walk.info.ustackFp i ≠ 0#64 ∧ (fpUnknown walk = true ∨ EntryBacked w walk i)) ∧
    ∀ i, i + 1 < m → ¬EntryBottom w walk i }

variable {n : Nat} {s : FpState P}

/-- The record of an entry, by the file behind it. -/
theorem FpEntry.cases (entry : FpEntry w allowUnknown s) :
    (allowUnknown = true ∧ guGetElfCtxFromItem entry.walk = .ok none ∧
      entry.frame = anonFrame s.pc ∧ entry.bottom = false) ∨
    ∃ elfCtx bias, guGetElfCtxFromItem entry.walk = .ok (some (elfCtx, bias)) ∧
      entry.frame = elfFrame entry.walk.ctx elfCtx s.pc (s.pc - bias)
        (fpSymbol elfCtx (s.pc - bias)).2 (fpSymbol elfCtx (s.pc - bias)).1 ∧
      entry.bottom = isStackBottomSymbol (fpSymbol elfCtx (s.pc - bias)).1 := by
  have hrecord := entry.record
  unfold fpRecord at hrecord
  split at hrecord
  · cases hrecord
  · rename_i hmapped
    split at hrecord
    · rename_i hallow
      obtain ⟨hframe, hbottom⟩ := Prod.mk.inj (Option.some.inj (Except.ok.inj hrecord))
      exact .inl ⟨hallow, hmapped, hframe.symm, hbottom.symm⟩
    · cases hrecord
  · rename_i elfCtx bias hmapped
    obtain ⟨hframe, hbottom⟩ := Prod.mk.inj (Option.some.inj (Except.ok.inj hrecord))
    exact .inr ⟨elfCtx, bias, hmapped, hframe.symm, hbottom.symm⟩

private theorem FpEntry.absPc (entry : FpEntry w allowUnknown s) : entry.frame.absPc = s.pc := by
  rcases entry.cases with ⟨-, -, hframe, -⟩ | ⟨elfCtx, bias, -, hframe, -⟩
  · rw [hframe]
    rfl
  · rw [hframe, elfFrame_absPc]

/-- The flag of a record says that no file is behind its entry. -/
theorem FpEntry.flags (entry : FpEntry w allowUnknown s) :
    entry.frame.flags &&& guFrameAnonExec ≠ 0#64 ↔ ¬entry.walk.Backed := by
  rcases entry.cases with ⟨-, hmapped, hframe, -⟩ | ⟨elfCtx, bias, hmapped, hframe, -⟩
  · have hnot : ¬entry.walk.Backed := fun ⟨elf, helf⟩ => by
      rw [hmapped] at helf
      cases helf
    simp only [hnot, not_false_eq_true, iff_true, hframe, anonFrame]
    decide
  · have hbacked : entry.walk.Backed := ⟨_, hmapped⟩
    have hflags : entry.frame.flags = 0#64 := by
      rw [hframe]
      unfold elfFrame
      split <;> rfl
    simp [hbacked, hflags]

section Entry

variable (hhead : headState (fpStep w walk) n (fpStart walk) = some s)
  (entry : FpEntry w (fpUnknown walk) s)
include hhead entry

/-- The entry is located in the table in force. -/
theorem FpEntry.look : lookEntry w walk n = .ok entry.walk :=
  (headState_atEntry hhead).look.trans entry.located

/-- A file is behind the entry when one is behind the record in hand. -/
theorem FpEntry.backed_iff : EntryBacked w walk n ↔ entry.walk.Backed := by
  refine ⟨fun ⟨v, hv, hbacked⟩ => ?_, fun hbacked => ⟨_, entry.look hhead, hbacked⟩⟩
  rwa [← Except.ok.inj (hv.symm.trans (entry.look hhead))]

/-- The entry is a stack bottom when its record is one. -/
theorem FpEntry.bottom_iff : EntryBottom w walk n ↔ entry.bottom = true := by
  have hpc := (headState_atEntry hhead).pc
  constructor
  · rintro ⟨v, elfCtx, bias, hv, hmapped, hbottom⟩
    cases hv.symm.trans (entry.look hhead)
    rcases entry.cases with ⟨-, hnone, -, -⟩ | ⟨elfCtx', bias', hsome, -, hsym⟩
    · rw [hmapped] at hnone
      cases hnone
    · cases hmapped.symm.trans hsome
      rw [hsym, hpc, hbottom]
  · intro hbottom
    rcases entry.cases with ⟨-, -, -, hnot⟩ | ⟨elfCtx, bias, hmapped, -, hsym⟩
    · rw [hnot] at hbottom
      cases hbottom
    · exact ⟨_, elfCtx, bias, entry.look hhead, hmapped, by rw [← hpc, ← hsym, hbottom]⟩

/-- An entry that is emitted may be. -/
theorem FpEntry.emits :
    walk.info.ustackFp n ≠ 0#64 ∧ (fpUnknown walk = true ∨ EntryBacked w walk n) := by
  refine ⟨(headState_atEntry hhead).pc ▸ entry.nonzero, ?_⟩
  rw [entry.backed_iff hhead]
  rcases entry.cases with ⟨hallow, -⟩ | ⟨elfCtx, bias, hmapped, -⟩
  · exact .inl hallow
  · exact .inr ⟨_, hmapped⟩

end Entry

/-- The entries before a head can be emitted. -/
theorem emittable_of_head (hhead : headState (fpStep w walk) n (fpStart walk) = some s) :
    n ∈ emittable w walk := by
  refine ⟨?_, fun i hi => ?_, fun i hi => ?_⟩
  · rcases (headState_atEntry hhead).below with rfl | hlt
    · exact Nat.zero_le _
    · exact Nat.le_of_lt hlt
  · obtain ⟨t, ht, entry, -⟩ := entry_of_head hi hhead
    exact entry.emits ht
  · obtain ⟨t, ht, entry, hbottom⟩ := entry_of_head (Nat.lt_of_succ_lt hi) hhead
    rw [entry.bottom_iff ht, hbottom]
    exact Bool.false_ne_true

/-- No longer prefix can be emitted when the entry behind one cannot, or when it is complete. -/
theorem isGreatest_emittable {m : Nat} (hmem : m ∈ emittable w walk)
    (hstop : m < fpLevels walk → walk.info.ustackFp m ≠ 0#64 →
      fpUnknown walk = true ∨ EntryBacked w walk m →
        ∃ i, i + 1 = m ∧ EntryBottom w walk i) : IsGreatest (emittable w walk) m := by
  refine ⟨hmem, fun k hk => ?_⟩
  obtain ⟨hle, hemits, hbottom⟩ := hk
  by_contra hlt
  have hmk : m < k := Nat.lt_of_not_le hlt
  obtain ⟨hzero, hbacked⟩ := hemits m hmk
  obtain ⟨i, rfl, hlast⟩ := hstop (Nat.lt_of_lt_of_le hmk hle) hzero hbacked
  exact hbottom i hmk hlast

/-- An entry that ends the walk without a record is none that can be emitted. -/
theorem not_emitted_of_unmapped {n : Nat} {s : FpState P}
    (hhead : headState (fpStep w walk) n (fpStart walk) = some s)
    (located : s.walk.locate w s.pc = .ok v)
    (record : fpRecord (fpUnknown walk) v s.pc = .ok none) :
    ¬(fpUnknown walk = true ∨ EntryBacked w walk n) := by
  intro hbacked
  unfold fpRecord at record
  split at record
  · cases record
  · rename_i hmapped
    split at record
    · cases record
    rename_i hallow
    obtain ⟨v', hv', elf, hmapped'⟩ := hbacked.resolve_left hallow
    rw [(headState_atEntry hhead).look, located] at hv'
    cases hv'
    rw [hmapped] at hmapped'
    cases hmapped'
  · cases record

/-- The records a walk leaves are those of the longest prefix. -/
theorem FpStop.report (hn : n < fpLevels walk)
    (hhead : headState (fpStep w walk) n (fpStart walk) = some s)
    (h : FpStop w (fpLevels walk) (fpUnknown walk) s done) :
    (∀ i frame, done.frames[i]? = some frame → Emitted w walk i frame) ∧
      IsGreatest (emittable w walk) done.frames.length := by
  have hentry := headState_atEntry hhead
  have hmem := emittable_of_head hhead
  cases h with
  | zero hpc =>
    refine ⟨hentry.emitted, ?_⟩
    dsimp only
    rw [hentry.length]
    exact isGreatest_emittable hmem fun _ hzero => absurd (hentry.pc ▸ hpc) hzero
  | @unmapped v nonzero located record =>
    refine ⟨hentry.emitted, ?_⟩
    dsimp only
    rw [hentry.length]
    exact isGreatest_emittable hmem fun _ _ hbacked =>
      absurd hbacked (not_emitted_of_unmapped hhead located record)
  | last entry hlast =>
    refine ⟨fun i frame hframe => hentry.snoc hhead entry hframe, ?_⟩
    have hlength : (s.frames ++ [entry.frame]).length = n + 1 := by
      rw [List.length_append, hentry.length]
      rfl
    dsimp only
    rw [hlength]
    refine isGreatest_emittable ⟨hn, fun i hi => ?_, fun i hi => ?_⟩ fun hlt _ _ => ?_
    · rcases Nat.lt_succ_iff_lt_or_eq.mp hi with hi | rfl
      · exact hmem.2.1 i hi
      · exact entry.emits hhead
    · obtain ⟨t, ht, entry', hbottom⟩ := entry_of_head (Nat.lt_of_succ_lt_succ hi) hhead
      rw [entry'.bottom_iff ht, hbottom]
      exact Bool.false_ne_true
    · refine ⟨n, rfl, (entry.bottom_iff hhead).mpr (hlast.resolve_right ?_)⟩
      rw [hentry.fpLevel]
      exact Nat.not_le.mpr hlt

/-! ## The tables of a walk -/

variable {Q : CfiProperty P} (hwalk : walk.Sound Q)
include hwalk

/-- The walk is sound at every turn. -/
theorem headState_sound (h : headState (fpStep w walk) n (fpStart walk) = some s) :
    s.walk.Sound Q := by
  refine headState_invariant (fun _ s => s.walk.Sound Q) hwalk ?_ h
  intro n s s' _ hsound hturn
  obtain ⟨entry, -, -, rfl⟩ := fpTurn_next hturn
  exact hsound.of_locate entry.located

section

variable (h : lookEntry w walk i = .ok v)
include h

end

end Prefix

/-- A sample of the three functions by its chain, whose last entry is in no mapping. -/
def threeEntries : StackInfo :=
  { leafSample with
    flags := guFlagHintSetFp
    ustackFp := fun i => [0x400110#64, 0x400200#64, 0x500000#64].getD i 0#64
    ustackFpLevel := 3#64 }

def threeEntriesWalk : Walk (List CalcRules) :=
  (startWalk threeFunctions (guInit false false false) threeEntries).get (by decide +kernel)

end Gunwinder
