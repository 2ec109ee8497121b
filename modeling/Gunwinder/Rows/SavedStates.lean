import Gunwinder.Native.Parse

/-!
# Ownership of saved states

A run owns the chain behind its `prev` pointer: it starts with the chain it was given, and frees
only nodes of the chain it holds. A parse gives the run the chain of the CIE itself, because it
copies the CIE's initial context with its pointer; so the first clean-up frees the CIE's nodes.
-/

namespace Gunwinder

open Gunwinder.Core

/-- The same context with the saved states as values. -/
def CalcCtx.withSaved {P Q : Type} (ctx : CalcCtx P) (saved : Q) : CalcCtx Q := ⟨ctx.rules, saved⟩

/-- A run may have got from `heap` to `heap'`: it owns the chain behind `prev`, at or above
`base`, and has neither touched the nodes below nor released or read a node it did not own. -/
structure Owns (base : Nat) (heap heap' : Heap CalcRules) (prev : Option Nat)
    (saved : List CalcRules) : Prop where
  chain : Heap.Chain base none heap' prev saved
  above : Heap.Above base heap heap'
  sound : heap.Sound → heap'.Sound

variable {base : Nat} {start heap heap' : Heap CalcRules} {ctx ctx' : CalcCtx (Option Nat)}
  {saved : List CalcRules} {par : InsParams} {ins : CfaIns}

/-- A run that has done nothing owns the chain it was given. -/
theorem Owns.refl {prev : Option Nat} (hc : Heap.Chain base none heap prev saved) :
    Owns base heap heap prev saved :=
  ⟨hc, .refl base heap, id⟩

section

variable (h : Owns base start heap ctx.prev saved) (hbase : base ≤ start.nodes.length)
include h hbase

/-- An instruction has the same result on nodes and on values, and the chain follows the
values. -/
theorem Owns.execIns (hexec : execIns savedNodes par ctx heap ins = .ok (ctx', heap')) :
    ∃ saved', Gunwinder.execIns savedValues par (ctx.withSaved saved) () ins =
        .ok (ctx'.withSaved saved', ()) ∧
      Owns base start heap' ctx'.prev saved' := by
  have hlen : base ≤ heap.nodes.length := hbase.trans h.above.grown
  rcases execIns_ok hexec with ⟨rfl, hsave, hrules⟩ | ⟨rfl, hrestore⟩ | ⟨hne, hne', rfl, rfl⟩
  · obtain ⟨rfl, hprev⟩ := Prod.mk.inj hsave
    obtain ⟨a, ha, haprev⟩ := Option.map_eq_some_iff.mp hprev
    refine ⟨ctx.rules :: saved, ?_, ?_⟩
    · simp only [Gunwinder.execIns, savedValues, CalcCtx.withSaved, hrules]
    · rw [← haprev]
      refine ⟨(Heap.push_chain hlen h.chain ?_).2 a ha, h.above.trans (Heap.push_above hlen),
        fun hs => Heap.push_sound (h.sound hs)⟩
      rintro _ ⟨⟩
  · cases saved with
    | nil => simp [savedNodes, h.chain.pop_nil] at hrestore
    | cons rules saved =>
      obtain ⟨heap'', link, hpop, hchain, habove, hsound⟩ := h.chain.pop
      rw [show savedNodes.restore heap ctx.prev = _ from hpop] at hrestore
      obtain ⟨rfl, hrules, hprev⟩ := by simpa only [Option.some.injEq, Prod.mk.injEq] using hrestore
      refine ⟨saved, ?_, ?_⟩
      · simp only [Gunwinder.execIns, savedValues, CalcCtx.withSaved, hrules]
      · rw [← hprev]
        exact ⟨hchain, h.above.trans habove, fun hs => hsound (h.sound hs)⟩
  · exact ⟨saved, execIns_rule savedValues par (ctx.withSaved saved) () hne hne', h⟩

/-- An instruction that fails leaves the chain as it is. -/
theorem Owns.execIns_error (hexec : Gunwinder.execIns savedNodes par ctx heap ins = .error heap') :
    Owns base start heap' ctx.prev saved := by
  have hlen : base ≤ heap.nodes.length := hbase.trans h.above.grown
  rcases Gunwinder.execIns_error hexec with ⟨rfl, hsave⟩ | ⟨rfl, -, rfl⟩
  · obtain ⟨rfl, -⟩ := Prod.mk.inj hsave
    exact ⟨(Heap.push_chain hlen h.chain nofun).1, h.above.trans (Heap.push_above hlen),
      fun hs => Heap.push_sound (h.sound hs)⟩
  · exact h

end

section Run

variable {sec : Section} {fdeEncoding : Byte} {insEnd : Nat} {findPc : Word} {I : CalcRules → Prop}

/-- What a run over nodes keeps: it owns a chain, and all rules have a property that every
instruction keeps. -/
def Keeps (I : CalcRules → Prop) (base : Nat) (start heap : Heap CalcRules)
    (ctx : CalcCtx (Option Nat)) : Prop :=
  ∃ saved, Owns base start heap ctx.prev saved ∧ (ctx.withSaved saved).All I

private theorem Keeps.execIns (h : Keeps I base start heap ctx) (hbase : base ≤ start.nodes.length)
    (hI : ∀ par rules ins, I rules → I (execRule par rules ins))
    (hexec : Gunwinder.execIns savedNodes par ctx heap ins = .ok (ctx', heap')) :
    Keeps I base start heap' ctx' := by
  obtain ⟨saved, howns, hall⟩ := h
  obtain ⟨saved', hvalues, howns'⟩ := howns.execIns hbase hexec
  exact ⟨saved', howns', hall.execIns (hI _ _ _) hvalues⟩

private theorem Keeps.stop {s : InsState (Heap CalcRules) (Option Nat)}
    {r : InsResult (Heap CalcRules) (Option Nat)} (h : Keeps I base start s.heap s.ctx)
    (hbase : base ≤ start.nodes.length)
    (hI : ∀ par rules ins, I rules → I (execRule par rules ins))
    (hturn : insTurn savedNodes sec par fdeEncoding insEnd findPc s = .stop r) :
    Keeps I base start r.heap r.ctx := by
  rcases insTurn_stop hturn with ⟨-, rfl⟩ | ⟨-, -, rfl⟩ | ⟨ins, next, -, -, hrun⟩
  · exact h
  · exact h
  · rcases hrun with ⟨heap, hexec, rfl⟩ | ⟨ctx, heap, loc, hexec, -, -, rfl⟩
    · obtain ⟨saved, howns, hall⟩ := h
      exact ⟨saved, howns.execIns_error hbase hexec, hall⟩
    · exact h.execIns hbase hI hexec

end Run

/-- A run of instructions owns a chain at every exit, and its rules have what every
instruction keeps. -/
theorem Keeps.initCalcCtxByIns (I : CalcRules → Prop)
    (hI : ∀ par rules ins, I rules → I (execRule par rules ins)) (arch : Arch) (sec : Section)
    (cie : Cie (Option Nat)) (ctx : CalcCtx (Option Nat)) (insStart insEnd : Nat)
    (loc findPc : Word) (hc : Heap.Chain base none heap ctx.prev saved)
    (hbase : base ≤ heap.nodes.length) (hall : (ctx.withSaved saved).All I) :
    let run := Gunwinder.initCalcCtxByIns savedNodes arch sec cie ctx heap insStart insEnd loc
      findPc
    Keeps I base heap run.heap run.ctx :=
  loop_invariant (fun s => Keeps I base heap s.heap s.ctx) (fun r => Keeps I base heap r.heap r.ctx)
    (fun _ _ h hturn => by
      obtain ⟨-, ins, -, hexec, -, -⟩ := insTurn_next hturn
      exact h.execIns hbase hI hexec)
    (fun _ _ h hturn => h.stop hbase hI hturn) (fun _ h => h) _ ⟨saved, .refl hc, hall⟩

/-- A run of instructions owns a chain at every exit. -/
theorem Owns.initCalcCtxByIns (arch : Arch) (sec : Section) (cie : Cie (Option Nat))
    (ctx : CalcCtx (Option Nat)) (insStart insEnd : Nat) (loc findPc : Word)
    (hc : Heap.Chain base none heap ctx.prev saved) (hbase : base ≤ heap.nodes.length) :
    let run := Gunwinder.initCalcCtxByIns savedNodes arch sec cie ctx heap insStart insEnd loc
      findPc
    ∃ saved', Owns base heap run.heap run.ctx.prev saved' := by
  obtain ⟨saved', howns, -⟩ := Keeps.initCalcCtxByIns (fun _ => True) (fun _ _ _ _ => trivial) arch
    sec cie ctx insStart insEnd loc findPc hc hbase ⟨trivial, fun _ _ => trivial⟩
  exact ⟨saved', howns⟩

/-! ## Parses -/

/-- What a sequence of calls leaves behind. -/
def parses {H P : Type} (S : SavedStates H P) (cfi : CfiData P) (st : ParseState H)
    (pcs : List Word) : ParseState H :=
  pcs.foldl (fun st pc => (guCfiParseCfiEx S cfi st pc).2) st

/-- Every FDE of the object belongs to the CIE. -/
def CfiData.OfCie {P : Type} (cfi : CfiData P) (cie : Cie P) : Prop :=
  ∀ fde ∈ cfi.fdes, fde.cie = some cie

/-- From `heap` to `heap'` no node was released twice or read after its release, and the
nodes behind `prev` are as they were. -/
structure KeepsSaved (prev : Option Nat) (heap heap' : Heap CalcRules) : Prop where
  sound : heap'.Sound
  same : ∀ a, heap.Reach prev a → heap'.nodes[a]? = heap.nodes[a]?

section Parse

variable {cfi : CfiData (Option Nat)} {cie : Cie (Option Nat)}

variable (hcfi : cfi.OfCie cie) (hnull : cie.cieCalcCtx.prev = none)
include hcfi hnull

/-- A parse from a CIE without saved states only uses nodes of its own. -/
theorem parseMiss_above (heap : Heap CalcRules) (pc : Word) :
    let heap' := (parseMiss savedNodes cfi heap pc).2
    Heap.Above heap.nodes.length heap heap' ∧ (heap.Sound → heap'.Sound) := by
  intro heap'
  cases hfind : findFde cfi pc with
  | none =>
    have hheap : heap' = heap := by simp only [heap', parseMiss, hfind]
    rw [hheap]
    exact ⟨.refl _ _, id⟩
  | some found =>
    obtain ⟨fde, cie'⟩ := found
    obtain ⟨hmem, hcie⟩ := findFde_sound hfind
    obtain rfl := Option.some.inj (hcie.symm.trans (hcfi fde hmem))
    have hchain : Heap.Chain heap.nodes.length none heap cie'.cieCalcCtx.prev [] := by
      rw [hnull]
      exact .nil
    obtain ⟨saved, howns⟩ := Owns.initCalcCtxByIns cfi.arch cfi.sec cie' cie'.cieCalcCtx
      fde.instructions fde.instructionsEnd fde.start pc hchain (Nat.le_refl _)
    rw [show heap' = _ from parseMiss_heap hfind heap]
    split
    · obtain ⟨habove, hsound⟩ := howns.chain.clear _
      exact ⟨howns.above.trans habove, fun hs => hsound (howns.sound hs)⟩
    · exact ⟨howns.above, howns.sound⟩

/-- A call, with whatever the cache holds, only uses nodes of its own. -/
theorem guCfiParseCfiEx_above (st : ParseState (Heap CalcRules)) (pc : Word) :
    let st' := (guCfiParseCfiEx savedNodes cfi st pc).2
    Heap.Above st.heap.nodes.length st.heap st'.heap ∧ (st.heap.Sound → st'.heap.Sound) := by
  intro st'
  cases hload : guCfiParseCacheLoad st.cache pc with
  | some entry =>
    have hst : st'.heap = st.heap := by simp only [st', guCfiParseCfiEx, hload]
    rw [hst]
    exact ⟨.refl _ _, id⟩
  | none =>
    have hst : st'.heap = (parseMiss savedNodes cfi st.heap pc).2 := by
      simp only [st', guCfiParseCfiEx, hload]
    rw [hst]
    exact parseMiss_above hcfi hnull st.heap pc

private theorem parses_above (st : ParseState (Heap CalcRules)) (pcs : List Word) :
    let st' := parses savedNodes cfi st pcs
    Heap.Above st.heap.nodes.length st.heap st'.heap ∧ (st.heap.Sound → st'.heap.Sound) := by
  induction pcs generalizing st with
  | nil => exact ⟨.refl _ _, id⟩
  | cons pc pcs ih =>
    obtain ⟨habove, hsound⟩ := guCfiParseCfiEx_above hcfi hnull st pc
    obtain ⟨habove', hsound'⟩ := ih (guCfiParseCfiEx savedNodes cfi st pc).2
    exact ⟨habove.trans (habove'.mono habove.grown), fun hs => hsound' (hsound hs)⟩

end Parse

section Init

variable {arch : Arch} {sec : Section} {cieOff : Word} {dwarfCie : DwarfCie}
  {defaults : Option CalcRules} {cie : Cie (Option Nat)} {I : CalcRules → Prop}

/-- Computing the default rules releases nothing twice, and they have what every instruction
keeps. -/
theorem defaultRules_keeps (arch : Arch)
    (hI : ∀ par rules ins, I rules → I (execRule par rules ins))
    (hzero : I .zero) (hdefaults : ∀ rules, defaults = some rules → I rules)
    (cie : Cie (Option Nat)) (heap : Heap CalcRules) :
    let r := defaultRules savedNodes arch cie defaults heap
    I r.1 ∧ (heap.Sound → r.2.Sound) := by
  cases defaults with
  | some rules => exact ⟨hdefaults rules rfl, id⟩
  | none =>
    obtain ⟨saved, howns, hall⟩ := Keeps.initCalcCtxByIns I hI arch (defaultSection arch) cie
      ⟨.zero, none⟩ (defaultSection arch).dBuf (defaultSection arch).fin 0#64 (-1#64)
      (Heap.Chain.nil (h := heap)) (Nat.zero_le _) ⟨hzero, fun _ h => absurd h List.not_mem_nil⟩
    exact ⟨hall.rules, howns.sound⟩

/-- A CIE that is accepted owns the chain behind its pointer, and initialising it released
nothing twice. -/
theorem initCieFromBuf_keeps (hI : ∀ par rules ins, I rules → I (execRule par rules ins))
    (hzero : I .zero) (hdefaults : ∀ rules, defaults = some rules → I rules)
    (hcie : (initCieFromBuf savedNodes arch sec cieOff dwarfCie defaults heap).cie = some cie) :
    let heap' := (initCieFromBuf savedNodes arch sec cieOff dwarfCie defaults heap).heap
    I cie.cieCalcCtx.rules ∧ (∃ saved, Heap.Chain 0 none heap' cie.cieCalcCtx.prev saved) ∧
      (heap.Sound → heap'.Sound) := by
  dsimp only [initCieFromBuf] at hcie ⊢
  obtain ⟨hrules, hsound⟩ := defaultRules_keeps arch hI hzero hdefaults
    (cieHeader savedNodes sec cieOff dwarfCie) heap
  generalize defaultRules savedNodes arch (cieHeader savedNodes sec cieOff dwarfCie) defaults heap
    = rules at hcie hrules hsound ⊢
  obtain ⟨saved, howns, hall⟩ := Keeps.initCalcCtxByIns I hI arch sec
    (cieHeader savedNodes sec cieOff dwarfCie) ⟨rules.1, none⟩
    (cieHeader savedNodes sec cieOff dwarfCie).initialInstructions
    (cieHeader savedNodes sec cieOff dwarfCie).initialInstructionsEnd 0#64 (-1#64)
    (Heap.Chain.nil (h := rules.2)) (Nat.zero_le _) ⟨hrules, fun _ h => absurd h List.not_mem_nil⟩
  split at hcie
  · rw [← Option.some.inj hcie]
    exact ⟨hall.rules, ⟨saved, howns.chain⟩, fun hs => howns.sound (hsound hs)⟩
  · cases hcie

end Init

/-- An object with one FDE `[0, 16)` of the CIE, without instructions. -/
def emptyFdeCfi (arch : Arch) (sec : Section) (cie : Cie (Option Nat)) : CfiData (Option Nat) where
  arch := arch
  sec := sec
  hdrIntervalArray := guIntervalArrayInit [⟨0#64, 16#64, some {
    cie := some cie
    start := 0#64
    fin := 16#64
    instructions := sec.dBuf
    instructionsEnd := sec.dBuf }⟩]

private theorem emptyFdeCfi_ofCie (arch : Arch) (sec : Section) (cie : Cie (Option Nat)) :
    (emptyFdeCfi arch sec cie).OfCie cie := by
  intro fde hfde
  obtain rfl := List.mem_singleton.mp hfde
  rfl

private theorem emptyFdeCfi_findFde (arch : Arch) (sec : Section) (cie : Cie (Option Nat)) :
    findFde (emptyFdeCfi arch sec cie) 0#64 =
      some (⟨some cie, 0#64, 16#64, sec.dBuf, sec.dBuf⟩, cie) := by
  simp [findFde, emptyFdeCfi, guIntervalArrayInit, fillEnds, narrow, uint32Max,
    guIntervalArraySearch, IntervalArray.probe, bisect, closedMid]

/-- Parsing it frees the node on top of the chain of the CIE. -/
theorem emptyFdeCfi_releases (arch : Arch) (sec : Section) {cie : Cie (Option Nat)}
    {heap : Heap CalcRules} {a : Nat} {saved : List CalcRules}
    (hprev : cie.cieCalcCtx.prev = some a)
    (hchain : Heap.Chain 0 none heap (some a) saved) (ops : Scratch) :
    (parses savedNodes (emptyFdeCfi arch sec cie) ⟨.empty, ops, heap⟩ [0#64]).heap.Released a := by
  change (parseMiss savedNodes (emptyFdeCfi arch sec cie) heap 0#64).2.Released a
  rw [parseMiss_heap (emptyFdeCfi_findFde arch sec cie) heap]
  have hrun : initCalcCtxByIns savedNodes arch sec cie cie.cieCalcCtx heap sec.dBuf sec.dBuf 0#64
      0#64 = ⟨true, cie.cieCalcCtx, heap⟩ := by simp [initCalcCtxByIns, runIns, insOut]
  have hpos : 0 < heap.nodes.length := Nat.zero_lt_of_lt (hchain.lt_length nofun a rfl)
  rw [show (emptyFdeCfi arch sec cie).arch = arch from rfl,
    show (emptyFdeCfi arch sec cie).sec = sec from rfl, hrun, if_pos rfl, hprev]
  exact hchain.clear_top hpos

/-- Parses of a CIE's FDEs never release a node twice, never read a released node and never
touch the nodes of the CIE, for all its FDEs and all pcs, if and only if the initial
instructions of the CIE leave no remembered state behind. -/
theorem parses_keep_saved_iff (arch : Arch) (sec : Section) (cieOff : Word) (dwarfCie : DwarfCie)
    (defaults : Option CalcRules) (heap : Heap CalcRules) (cie : Cie (Option Nat))
    (hheap : heap.Sound)
    (hcie : (initCieFromBuf savedNodes arch sec cieOff dwarfCie defaults heap).cie = some cie) :
    (∀ (cfi : CfiData (Option Nat)) (st : ParseState (Heap CalcRules)) (pcs : List Word),
      cfi.arch = arch → cfi.sec = sec → cfi.OfCie cie →
      st.heap = (initCieFromBuf savedNodes arch sec cieOff dwarfCie defaults heap).heap →
      KeepsSaved cie.cieCalcCtx.prev st.heap (parses savedNodes cfi st pcs).heap) ↔
    cie.cieCalcCtx.prev = none := by
  obtain ⟨-, ⟨saved, hchain⟩, hsound⟩ := initCieFromBuf_keeps (I := fun _ => True)
    (fun _ _ _ _ => trivial) trivial (fun _ _ => trivial) hcie
  constructor
  · intro h
    cases hprev : cie.cieCalcCtx.prev with
    | none => rfl
    | some a =>
      rw [hprev] at hchain
      have hkeeps := h (emptyFdeCfi arch sec cie) ⟨.empty, .empty, _⟩ [0#64] rfl rfl
        (emptyFdeCfi_ofCie arch sec cie) rfl
      rw [hprev] at hkeeps
      obtain ⟨node, hnode, hreleased⟩ := emptyFdeCfi_releases arch sec hprev hchain .empty
      rw [hkeeps.same a .top] at hnode
      -- The node was live before the parse.
      cases hchain with
      | cons hlive _ _ _ =>
        rw [hlive] at hnode
        exact absurd (Option.some.inj hnode ▸ rfl) hreleased
  · intro hnull cfi st pcs _ _ hcfi hst
    obtain ⟨habove, hsound'⟩ := parses_above hcfi hnull st pcs
    refine ⟨hsound' (hst ▸ hsound hheap), fun a ha => ?_⟩
    rw [hnull] at ha
    cases ha

/-- A CIE whose initial instructions are the first `n` bytes of a section at `0x1000`. -/
def leadingCie (n : Nat) : DwarfCie where
  codeAlignmentFactor := 1#64
  dataAlignmentFactor := -8#64
  returnAddressRegister := 16#64
  initialInstructions := 0x1000
  initialInstructionsEnd := 0x1000 + n
  augmentation := []
  augmentationData := 0

/-- A CIE that remembers a state and restores it: parses are sound for all its FDEs. -/
theorem parses_keep_saved_iff_balanced :
    let sec := bytesSection [0x0a#8, 0x0b#8] (by decide)
    let init := initCieFromBuf savedNodes .x86 sec 0#64 (leadingCie 2) none (.empty fun _ => true)
    ∃ cie, init.cie = some cie ∧
      ∀ pcs, KeepsSaved cie.cieCalcCtx.prev init.heap
        (parses savedNodes (emptyFdeCfi .x86 sec cie) ⟨.empty, .empty, init.heap⟩ pcs).heap := by
  intro sec init
  have hprev : init.cie.map (·.cieCalcCtx.prev) = some none := by decide +kernel
  obtain ⟨cie, hcie, hnull⟩ := Option.map_eq_some_iff.mp hprev
  refine ⟨cie, hcie, fun pcs => ?_⟩
  have hkeeps := (parses_keep_saved_iff .x86 sec 0#64 (leadingCie 2) none (.empty fun _ => true)
    cie ⟨fun _ h => absurd h List.not_mem_nil, rfl⟩ hcie).mpr hnull
  generalize hheap : init.heap = heap
  exact hkeeps (emptyFdeCfi .x86 sec cie) ⟨.empty, .empty, heap⟩ pcs rfl rfl
    (emptyFdeCfi_ofCie .x86 sec cie) hheap.symm

/-- A CIE that remembers a state and does not restore it: two parses free its node twice,
and the second one reads it after its release. -/
theorem parses_release_cie_node_twice :
    let sec := bytesSection [0x0a#8] (by decide)
    let init := initCieFromBuf savedNodes .x86 sec 0#64 (leadingCie 1) none (.empty fun _ => true)
    ∃ cie, init.cie = some cie ∧
      let heap := (parses savedNodes (emptyFdeCfi .x86 sec cie) ⟨.empty, .empty, init.heap⟩
        [0#64, 1#64]).heap
      ¬ KeepsSaved cie.cieCalcCtx.prev init.heap heap ∧
        heap.nodes.map Node.releases = [2] ∧ heap.staleReads = 1 := by
  intro sec init
  have haccepted : init.cie.isSome = true := by decide +kernel
  have hstale : (parses savedNodes (emptyFdeCfi .x86 sec (init.cie.get haccepted))
      ⟨.empty, .empty, init.heap⟩ [0#64, 1#64]).heap.staleReads = 1 := by decide +kernel +revert
  refine ⟨init.cie.get haccepted, (Option.some_get haccepted).symm, fun h => ?_,
    by decide +kernel +revert, hstale⟩
  exact absurd (hstale.symm.trans h.sound.fresh) Nat.one_ne_zero

end Gunwinder
