import Gunwinder.Walks.FailedReload

/-!
# The tail along the frame records of the stack

`gu_unwind_dwarf_tail_by_fp` goes from frame record to frame record in the captured stack. The
sanity test of a record's link comes before its return address is emitted, so of a chain that
ends in a zero link all but the last return address are emitted.
-/

namespace Gunwinder

open Gunwinder.Core

variable {P : Type} {w : World P} {Q : CfiProperty P} {v : Walk P} {pidCtx : PerPidCtx}
  {target : Target} {info : StackInfo} {rawSp next : Word} {n : Nat} {b r : Nat → Word}

/-! ## Chains -/

/-- A chain of `n + 1` aligned frame records in the captured stack. The record at `b i` holds
the address of the next record and the return address `r i`; the last one links to `next`. -/
structure FrameChain (target : Target) (info : StackInfo) (rawSp : Word) (n : Nat)
    (b r : Nat → Word) (next : Word) : Prop where
  aligned : ∀ i ≤ n, b i &&& 7#64 = 0#64
  ascending : ∀ i < n, b i < b (i + 1)
  links : ∀ i < n, guStackSnapshotReadU64 target info rawSp (b i) = some (b (i + 1))
  last : guStackSnapshotReadU64 target info rawSp (b n) = some next
  returns : ∀ i ≤ n, guStackSnapshotReadU64 target info rawSp (b i + 8#64) = some (r i)

/-- There is a frame record at the address that the tail would take. -/
def UsableRecord (target : Target) (info : StackInfo) (rawSp bp : Word) : Prop :=
  ∃ nextBp nextPc, guStackSnapshotReadU64 target info rawSp bp = some nextBp ∧
    guStackSnapshotReadU64 target info rawSp (bp + 8#64) = some nextPc ∧
    guFramePointerSane bp nextBp = true ∧ nextPc ≠ 0#64

private theorem not_usableRecord_zero : ¬UsableRecord target info rawSp 0#64 := by
  rintro ⟨nextBp, -, -, -, hsane, -⟩
  simp [guFramePointerSane] at hsane

/-- The links of a chain that does not start at zero are sane. -/
theorem FrameChain.sane (h : FrameChain target info rawSp n b r next) (hstart : b 0 ≠ 0#64)
    {i : Nat} (hi : i < n) : guFramePointerSane (b i) (b (i + 1)) = true := by
  have hnonzero : b i ≠ 0#64 := by
    cases i with
    | zero => exact hstart
    | succ i =>
      intro hzero
      have hlt := h.ascending i (Nat.lt_of_succ_lt hi)
      rw [hzero] at hlt
      exact absurd hlt BitVec.not_lt_zero
  have hlt := h.ascending i hi
  have hnext : b (i + 1) ≠ 0#64 := by
    intro hzero
    rw [hzero] at hlt
    exact absurd hlt BitVec.not_lt_zero
  simp [guFramePointerSane, hnonzero, hnext, h.aligned i hi.le, h.aligned (i + 1) hi, hlt]

/-! ## Return addresses -/

/-- The symbol of the pc is a stack bottom when the record is in hand. -/
def Walk.bottomAt (v : Walk P) (item : Interval (Option MapCtx)) (pc : Word) : Bool :=
  match guGetElfCtxFromItem { v with elfItem := some item } with
  | .ok (some (elfCtx, bias)) => isStackBottomSymbol
      (guLookupElfSymbol elfCtx (guFrameLookupPcForReturnAddress (pc - bias) false false)).1
  | _ => false

/-- A return address in an executable mapping of the process, with no stack-bottom symbol. -/
structure ReturnsInto (v : Walk P) (pidCtx : PerPidCtx) (pc : Word) : Prop where
  nonzero : pc ≠ 0#64
  mapped : (pidCtx.search pc).isSome = true
  notBottom : ∀ item ∈ pidCtx.items, item.Contains pc → v.bottomAt item pc = false

/-- The walk of the tail with a mapping record in hand. -/
def Walk.inHand (v : Walk P) (hand : Option (Interval (Option MapCtx))) : Walk P :=
  { v with elfItem := hand, mapsReloaded := false }

/-- The frame of a return address is emitted and does not end the walk. -/
theorem ReturnsInto.append {hand : Option (Interval (Option MapCtx))} {pc : Word}
    (hpc : ReturnsInto v pidCtx pc) (h : (v.inHand hand).Sound Q) (w : World P)
    (hentry : v.entry = .ok pidCtx) :
    ∃ hand' frame, (v.inHand hand').Sound Q ∧
      guAppendPcFrame w (v.inHand hand) pc false false = .ok (v.inHand hand', some frame) ∧
      frame.absPc = pc ∧ isStackBottomSymbol frame.symbol = false := by
  obtain ⟨item, hmem, hcontains, hlocated⟩ := h.locate_mapped w hentry hpc.mapped
  have hlocate : (v.inHand hand).locate w pc = .ok (v.inHand (some item)) := hlocated
  have hsound := h.of_locate hlocate
  obtain ⟨found, hfound⟩ := hsound.exists_elf
  have hbottom := hpc.notBottom item hmem hcontains
  have hitem : (v.inHand (some item)).elfItem.isNone = false := rfl
  cases found with
  | none =>
    refine ⟨some item, anonFrame pc, hsound, ?_, rfl, rfl⟩
    simp only [guAppendPcFrame, hpc.nonzero, if_false, hlocate, hitem, Bool.false_eq_true, hfound]
  | some elf =>
    obtain ⟨elfCtx, bias⟩ := elf
    have hsame : guGetElfCtxFromItem { v with elfItem := some item } = .ok (some (elfCtx, bias)) :=
      hfound
    let found := guLookupElfSymbol elfCtx (guFrameLookupPcForReturnAddress (pc - bias) false false)
    have hsymbol : isStackBottomSymbol found.1 = false := by
      simpa only [Walk.bottomAt, hsame] using hbottom
    refine ⟨some item, ⟨pc - bias, pc, found.2, found.1, some elfCtx.id, 0#64⟩, hsound, ?_, rfl,
      hsymbol⟩
    simp only [guAppendPcFrame, hpc.nonzero, if_false, hlocate, hitem, Bool.false_eq_true, hfound]
    rfl

/-! ## Turns of the tail -/

variable {s : TailState P}

/-- Where there is no usable record the tail ends. -/
theorem tailTurn_end (h : ¬UsableRecord target s.walk.info rawSp s.bp) :
    tailTurn w target rawSp s = .stop (.ok s) := by
  unfold tailTurn
  split
  · rename_i nextBp nextPc hbp hpc
    exact if_neg fun hsane => h ⟨nextBp, nextPc, hbp, hpc, hsane.1, hsane.2⟩
  · rfl

/-- At the head of turn `i` the return addresses of the records before `b i` are emitted. -/
def AtRecord (Q : CfiProperty P) (v : Walk P) (r : Nat → Word) (bp : Word) (i : Nat)
    (s : TailState P) : Prop :=
  (∃ hand, s.walk = v.inHand hand) ∧ s.walk.Sound Q ∧ s.bp = bp ∧
    s.frames.map FrameRecord.absPc = (List.range i).map r

/-- A record with a sane link is emitted and left for the one it links to. -/
theorem tailTurn_record {i : Nat} {bp nextBp : Word} (h : AtRecord Q v r bp i s) (w : World P)
    (hentry : v.entry = .ok pidCtx)
    (hbp : guStackSnapshotReadU64 target v.info rawSp bp = some nextBp)
    (hreturn : guStackSnapshotReadU64 target v.info rawSp (bp + 8#64) = some (r i))
    (hsane : guFramePointerSane bp nextBp = true) (hpc : ReturnsInto v pidCtx (r i)) :
    ∃ s', tailTurn w target rawSp s = .next s' ∧ AtRecord Q v r nextBp (i + 1) s' := by
  obtain ⟨⟨hand, hwalk⟩, hsound, rfl, hframes⟩ := h
  rw [hwalk] at hsound
  obtain ⟨hand', frame, hkept, happend, habs, hbottom⟩ := hpc.append hsound w hentry
  refine ⟨⟨v.inHand hand', nextBp, s.frames ++ [frame]⟩, ?_, ⟨hand', rfl⟩, hkept, rfl, ?_⟩
  · have hinfo : (v.inHand hand).info = v.info := rfl
    simp only [tailTurn, hwalk, hinfo, hbp, hreturn, hsane, hpc.nonzero, ne_eq, not_false_eq_true,
      and_self, if_true, happend, hbottom, Bool.false_eq_true, if_false]
  · rw [List.map_append, hframes, List.range_succ, List.map_append, List.map_singleton,
      List.map_singleton, habs]

/-- The tail gets to every record of a chain. -/
theorem headState_atRecord (hchain : FrameChain target v.info rawSp n b r next)
    (hentry : v.entry = .ok pidCtx) (hreturns : ∀ i ≤ n, ReturnsInto v pidCtx (r i))
    (w : World P) (hsound : (v.inHand none).Sound Q) (hstart : b 0 ≠ 0#64) {i : Nat} (hi : i ≤ n) :
    ∃ s, headState (tailTurn w target rawSp) i ⟨v.inHand none, b 0, []⟩ = some s ∧
      AtRecord Q v r (b i) i s := by
  induction i with
  | zero => exact ⟨_, rfl, ⟨none, rfl⟩, hsound, rfl, rfl⟩
  | succ i ih =>
    obtain ⟨s, hhead, hat⟩ := ih (Nat.le_of_succ_le hi)
    obtain ⟨s', hturn, hat'⟩ := tailTurn_record hat w hentry (hchain.links i hi)
      (hchain.returns i (Nat.le_of_succ_le hi)) (hchain.sane hstart hi)
      (hreturns i (Nat.le_of_succ_le hi))
    exact ⟨s', headState_succ hhead hturn, hat'⟩

/-- Where a run of the tail ends that gets to a record it cannot use. -/
theorem tailLoop_of_head {start : TailState P} {i : Nat} (hi : i ≤ maxFpStackLevel)
    (hhead : headState (tailTurn w target rawSp) i start = some s)
    (hends : ¬UsableRecord target s.walk.info rawSp s.bp) :
    tailLoop w target rawSp start = .ok s := by
  rcases Nat.lt_or_eq_of_le hi with hlt | rfl
  · exact loop_of_head _ hlt hhead (tailTurn_end hends)
  · exact loop_of_spent _ hhead

/-- A tail without a current pc is its loop. -/
theorem guUnwindDwarfTailByFp_eq (hentry : v.entry = .ok pidCtx) (bp pc : Word)
    (h : tailLoop w target rawSp ⟨v.inHand none, bp, []⟩ = .ok s) :
    guUnwindDwarfTailByFp w target v rawSp bp pc false = .ok (s.walk, s.frames) := by
  have hpid : v.pidCtx.isNone = false := by
    cases hpid : v.pidCtx with
    | some pid => rfl
    | none => simp only [Walk.entry, hpid, reduceCtorEq] at hentry
  unfold guUnwindDwarfTailByFp
  rw [hpid]
  change (do let tail ← tailLoop w target rawSp ⟨v.inHand none, bp, []⟩
             return (tail.walk, tail.frames)) = _
  rw [h]
  rfl

/-- Along a chain of frame records behind whose last link there is no further record the tail
emits all return addresses exactly when that link is a sane frame pointer itself. Behind any
other link, a zero one among them, the last return address is missing. -/
theorem guUnwindDwarfTailByFp_whole_chain_iff (hsound : v.Sound Q) (hentry : v.entry = .ok pidCtx)
    (hn : n < maxFpStackLevel) (hchain : FrameChain target v.info rawSp n b r next)
    (hends : ¬UsableRecord target v.info rawSp next)
    (hreturns : ∀ i ≤ n, ReturnsInto v pidCtx (r i)) (pc : Word) :
    ∃ last frames, guUnwindDwarfTailByFp w target v rawSp (b 0) pc false = .ok (last, frames) ∧
      (frames.map FrameRecord.absPc = (List.range (n + 1)).map r ↔
        b 0 ≠ 0#64 ∧ guFramePointerSane (b n) next = true) ∧
      (b 0 ≠ 0#64 → guFramePointerSane (b n) next = false →
        frames.map FrameRecord.absPc = (List.range n).map r) := by
  have hfresh : (v.inHand none).Sound Q := ⟨hsound.refs, hsound.entry, hsound.sampled, nofun⟩
  by_cases hstart : b 0 = 0#64
  · -- the first record is at address zero: no link of it is sane
    have hloop : tailLoop w target rawSp ⟨v.inHand none, b 0, []⟩ =
        .ok ⟨v.inHand none, b 0, []⟩ :=
      tailLoop_of_head (Nat.zero_le _) rfl (hstart ▸ not_usableRecord_zero)
    refine ⟨_, _, guUnwindDwarfTailByFp_eq hentry _ pc hloop, ?_, fun h => absurd hstart h⟩
    simp [hstart]
  · obtain ⟨s, hhead, hat⟩ := headState_atRecord hchain hentry hreturns w hfresh hstart le_rfl
    cases hsane : guFramePointerSane (b n) next with
    | true =>
      obtain ⟨s', hturn, ⟨hand, hwalk⟩, -, hbp, hframes⟩ := tailTurn_record hat w hentry
        hchain.last (hchain.returns n le_rfl) hsane (hreturns n le_rfl)
      have hloop := tailLoop_of_head hn (headState_succ hhead hturn)
        (by rw [hwalk, hbp]; exact hends)
      refine ⟨_, _, guUnwindDwarfTailByFp_eq hentry _ pc hloop, ?_, nofun⟩
      exact ⟨fun _ => ⟨hstart, rfl⟩, fun _ => hframes⟩
    | false =>
      obtain ⟨⟨hand, hwalk⟩, -, hbp, hframes⟩ := hat
      have hunusable : ¬UsableRecord target s.walk.info rawSp s.bp := by
        rw [hwalk, hbp]
        rintro ⟨nextBp, nextPc, hread, -, hsane', -⟩
        cases hchain.last.symm.trans hread
        rw [hsane] at hsane'
        cases hsane'
      have hloop := tailLoop_of_head hn.le hhead hunusable
      refine ⟨_, _, guUnwindDwarfTailByFp_eq hentry _ pc hloop, ?_, fun _ _ => hframes⟩
      constructor
      · intro hall
        have hlength := congrArg List.length (hframes.symm.trans hall)
        simp at hlength
      · rintro ⟨-, hlink⟩
        cases hlink

variable (continued : Bool)

/-- Two frame records on the captured page, with return addresses in `leaf` and `rest`. The
second one links to the zeros above it, or to zero. -/
def twoRecords : StackInfo :=
  { leafSample with
    stackData := some fun i => ([0x10#8, 0x70#8, 0#8, 0#8, 0#8, 0#8, 0#8, 0#8,
      0x10#8, 0x01#8, 0x40#8, 0#8, 0#8, 0#8, 0#8, 0#8] ++
      (if continued then [0x20#8, 0x70#8] else [0#8, 0#8]) ++ [0#8, 0#8, 0#8, 0#8, 0#8, 0#8,
      0x10#8, 0x02#8, 0x40#8]).getD i 0#8 }

def twoRecordsWalk : Walk (List CalcRules) :=
  (startWalk threeFunctions (guInit false false false) (twoRecords continued)).get
    (by cases continued <;> decide +kernel)

/-- Where the records are. -/
def recordAt (i : Nat) : Word := [0x7000#64, 0x7010#64].getD i 0#64

def returnAt (i : Nat) : Word := [0x400110#64, 0x400210#64].getD i 0#64

def lastLink : Word := if continued then 0x7020#64 else 0#64

private theorem twoRecords_chain :
    FrameChain leafEnv.target (twoRecordsWalk continued).info 0x7000#64 1 recordAt returnAt
      (lastLink continued) := by
  cases continued <;> constructor <;> decide +kernel

private theorem twoRecords_return :
    ∃ pidCtx, (twoRecordsWalk continued).entry = .ok pidCtx ∧
      ∀ i ≤ 1, ReturnsInto (twoRecordsWalk continued) pidCtx (returnAt i) := by
  have hentry : ((twoRecordsWalk continued).entry.toOption).isSome = true := by
    cases continued <;> decide +kernel
  have hchecked : ∀ i ≤ 1, ∀ pidCtx ∈ (twoRecordsWalk continued).entry.toOption,
      returnAt i ≠ 0#64 ∧ (pidCtx.search (returnAt i)).isSome = true ∧
      ∀ item ∈ pidCtx.items, (twoRecordsWalk continued).bottomAt item (returnAt i) = false := by
    cases continued <;> decide +kernel
  cases hresult : (twoRecordsWalk continued).entry with
  | error stuck =>
    rw [hresult] at hentry
    cases hentry
  | ok pidCtx =>
    refine ⟨pidCtx, rfl, fun i hi => ?_⟩
    obtain ⟨hnonzero, hmapped, hbottom⟩ := hchecked i hi pidCtx (by rw [hresult]; rfl)
    exact ⟨hnonzero, hmapped, fun item hitem _ => hbottom item hitem⟩

/-- Two records that do not end in zero. -/
theorem guUnwindDwarfTailByFp_whole_chain_two :
    FrameChain leafEnv.target (twoRecordsWalk true).info 0x7000#64 1 recordAt returnAt 0x7020#64 ∧
      ∃ last frames, guUnwindDwarfTailByFp threeFunctions leafEnv.target (twoRecordsWalk true)
        0x7000#64 0x7000#64 0#64 false = .ok (last, frames) ∧
        frames.map FrameRecord.absPc = [0x400110#64, 0x400210#64] := by
  obtain ⟨pidCtx, hentry, hreturns⟩ := twoRecords_return true
  have hchain := twoRecords_chain true
  have hstart : startWalk threeFunctions (guInit false false false) (twoRecords true) =
      some (twoRecordsWalk true) := (Option.some_get _).symm
  have hends : ¬UsableRecord leafEnv.target (twoRecordsWalk true).info 0x7000#64 0x7020#64 := by
    rintro ⟨nextBp, nextPc, hread, -, hsane, -⟩
    have hzero : guStackSnapshotReadU64 leafEnv.target (twoRecordsWalk true).info 0x7000#64
        0x7020#64 = some 0#64 := by decide +kernel
    cases hzero.symm.trans hread
    exact absurd hsane (by decide)
  obtain ⟨last, frames, hwalk, hiff, -⟩ := guUnwindDwarfTailByFp_whole_chain_iff
    (w := threeFunctions) (Reachable.startWalk_sound (S := savedValues) (.init false false false)
      hstart).1 hentry (by decide) hchain hends hreturns 0#64
  exact ⟨hchain, last, frames, hwalk, hiff.mpr (by decide)⟩

/-- A chain that ends in zero loses its last record. -/
theorem guUnwindDwarfTailByFp_drops_last_record :
    FrameChain leafEnv.target (twoRecordsWalk false).info 0x7000#64 1 recordAt returnAt 0#64 ∧
      (∃ pidCtx, (twoRecordsWalk false).entry = .ok pidCtx ∧
        ∀ i ≤ 1, ReturnsInto (twoRecordsWalk false) pidCtx (returnAt i)) ∧
      (guUnwindDwarfTailByFp threeFunctions leafEnv.target (twoRecordsWalk false) 0x7000#64
        (recordAt 0) 0#64 false).map (fun r => r.2.map FrameRecord.absPc) = .ok [returnAt 0] := by
  refine ⟨twoRecords_chain false, twoRecords_return false, ?_⟩
  decide +kernel

end Gunwinder
