import Gunwinder.Rows.SavedStates

/-!
# Saved states that a parse leaves behind

What a run allocates and does not release is what it still has saved, beyond what it was given.
So the run over nodes is compared with the same run over values. A successful run releases all of
them, a failed one returns with them.
-/

namespace Gunwinder

open Gunwinder.Core

/-- Saved states as values, with requests that may be refused. -/
def savedGranted (granted : Nat → Bool) : SavedStates Nat (List CalcRules) where
  null := []
  save requests rules prev :=
    (requests + 1, if granted requests then some (rules :: prev) else none)
  restore requests
    | [] => none
    | rules :: prev => some (requests, rules, prev)
  discard requests _ := requests

/-- The nodes behind `prev` hold the saved values, and what was allocated since `start` and not
released is what is saved now beyond `given`. -/
structure Tracks (start : Heap CalcRules) (given : List CalcRules) (heap : Heap CalcRules)
    (prev : Option Nat) (requests : Nat) (saved : List CalcRules) : Prop where
  chain : Heap.Chain 0 none heap prev saved
  requests : heap.requests = requests
  granted : heap.granted = start.granted
  grown : start.nodes.length ≤ heap.nodes.length
  released : start.released ≤ heap.released
  balance : heap.nodes.length + start.released + given.length =
    start.nodes.length + heap.released + saved.length

private theorem Tracks.refl {start : Heap CalcRules} {given : List CalcRules} {prev : Option Nat}
    (hc : Heap.Chain 0 none start prev given) :
    Tracks start given start prev start.requests given :=
  ⟨hc, rfl, rfl, Nat.le_refl _, Nat.le_refl _, rfl⟩

section Steps

variable {start heap : Heap CalcRules} {given saved : List CalcRules} {requests : Nat}

/-- A request is answered alike in both stores. -/
theorem Tracks.save {prev : Option Nat} (h : Tracks start given heap prev requests saved)
    (rules : CalcRules) :
    (start.granted requests = true ∧ ∃ heap' top,
      savedNodes.save heap rules prev = (heap', some top) ∧
      Tracks start given heap' top (requests + 1) (rules :: saved)) ∨
    (start.granted requests = false ∧ ∃ heap',
      savedNodes.save heap rules prev = (heap', none) ∧
      Tracks start given heap' prev (requests + 1) saved) := by
  have hpush := Heap.push_chain (x := rules) (Nat.zero_le heap.nodes.length) h.chain nofun
  have hreleased : (heap.push rules prev).1.released = heap.released := Heap.released_push
  have hgrant : heap.granted heap.requests = start.granted requests := by rw [h.granted, h.requests]
  cases hg : start.granted requests with
  | true =>
    have heq : heap.push rules prev = ({ heap with
        nodes := heap.nodes ++ [⟨rules, prev, 0⟩], requests := heap.requests + 1 },
        some heap.nodes.length) := by rw [Heap.push, hgrant, hg, if_pos rfl]
    have hbalance := h.balance
    have hgrown := h.grown
    rw [heq] at hpush hreleased
    refine .inl ⟨rfl, _, some heap.nodes.length, congrArg (Prod.map id (Option.map some)) heq,
      hpush.2 _ rfl, ?_, h.granted, ?_, hreleased ▸ h.released, ?_⟩
    · simp [h.requests]
    · simp only [id_eq, List.length_append, List.length_singleton]
      omega
    · simp only [id_eq, hreleased, List.length_append, List.length_cons, List.length_nil]
      omega
  | false =>
    have heq : heap.push rules prev = ({ heap with requests := heap.requests + 1 }, none) := by
      rw [Heap.push, hgrant, hg]
      rfl
    rw [heq] at hpush hreleased
    exact .inr ⟨rfl, _, congrArg (Prod.map id (Option.map some)) heq, hpush.1,
      by simp [h.requests], h.granted, h.grown, h.released, h.balance⟩

/-- An instruction has the same effect on nodes as on values. -/
theorem Tracks.execIns {ctx : CalcCtx (Option Nat)}
    (h : Tracks start given heap ctx.prev requests saved) (par : InsParams) (ins : CfaIns) :
    (∃ ctx' heap' requests' saved',
      Gunwinder.execIns savedNodes par ctx heap ins = .ok (ctx', heap') ∧
      Gunwinder.execIns (savedGranted start.granted) par (ctx.withSaved saved) requests ins =
        .ok (ctx'.withSaved saved', requests') ∧
      Tracks start given heap' ctx'.prev requests' saved') ∨
    (∃ heap' requests', Gunwinder.execIns savedNodes par ctx heap ins = .error heap' ∧
      Gunwinder.execIns (savedGranted start.granted) par (ctx.withSaved saved) requests ins =
        .error requests' ∧
      Tracks start given heap' ctx.prev requests' saved) := by
  by_cases hremember : ins = .rememberState
  · subst hremember
    rcases h.save ctx.rules with ⟨hg, heap', top, hsave, htracks⟩ | ⟨hg, heap', hsave, htracks⟩
    · refine .inl ⟨⟨ctx.rules, top⟩, heap', requests + 1, ctx.rules :: saved, ?_, ?_, htracks⟩
      · simp only [Gunwinder.execIns, hsave]
      · simp [Gunwinder.execIns, savedGranted, CalcCtx.withSaved, hg]
    · refine .inr ⟨heap', requests + 1, ?_, ?_, htracks⟩
      · simp only [Gunwinder.execIns, hsave]
      · simp [Gunwinder.execIns, savedGranted, CalcCtx.withSaved, hg]
  · by_cases hrestore : ins = .restoreState
    · subst hrestore
      have hchain := h.chain
      have hbalance := h.balance
      have hmono := h.released
      cases saved with
      | nil =>
        refine .inr ⟨heap, requests, ?_, rfl, h⟩
        simp only [Gunwinder.execIns, savedNodes, hchain.pop_nil]
      | cons rules saved =>
        obtain ⟨heap', link, hpop, hrest, hreleased, hlength, hrequests, hgranted⟩ :=
          hchain.pop_count
        refine .inl ⟨⟨rules, link⟩, heap', requests, saved, ?_, rfl, hrest,
          hrequests.trans h.requests, hgranted.trans h.granted, hlength ▸ h.grown, ?_, ?_⟩
        · simp only [Gunwinder.execIns, savedNodes, hpop]
        · omega
        · rw [hreleased, hlength]
          rw [List.length_cons] at hbalance
          omega
    · exact .inl ⟨_, _, _, saved, execIns_rule savedNodes par ctx heap hremember hrestore,
        execIns_rule _ par (ctx.withSaved saved) requests hremember hrestore, h⟩

/-- The two runs are at the same instruction with the same rules. -/
structure Mirrors (start : Heap CalcRules) (given : List CalcRules)
    (s : InsState (Heap CalcRules) (Option Nat)) (t : InsState Nat (List CalcRules)) : Prop where
  ins : s.ins = t.ins
  loc : s.loc = t.loc
  ctx : t.ctx = s.ctx.withSaved t.ctx.prev
  tracks : Tracks start given s.heap s.ctx.prev t.heap t.ctx.prev

/-- The two runs end alike. -/
structure EndsAlike (start : Heap CalcRules) (given : List CalcRules)
    (r : InsResult (Heap CalcRules) (Option Nat)) (q : InsResult Nat (List CalcRules)) : Prop where
  ok : r.ok = q.ok
  tracks : Tracks start given r.heap r.ctx.prev q.heap q.ctx.prev

/-- A turn keeps nodes and values alike. -/
theorem Mirrors.insTurn {s : InsState (Heap CalcRules) (Option Nat)}
    {t : InsState Nat (List CalcRules)} (h : Mirrors start given s t) (sec : Section)
    (par : InsParams) (fdeEncoding : Byte) (insEnd : Nat) (findPc : Word) :
    Turn.Rel (Mirrors start given) (EndsAlike start given)
      (Gunwinder.insTurn savedNodes sec par fdeEncoding insEnd findPc s)
      (Gunwinder.insTurn (savedGranted start.granted) sec par fdeEncoding insEnd findPc t) := by
  obtain ⟨ins, loc, ctx, heap⟩ := s
  obtain ⟨_, _, ⟨_, saved⟩, requests⟩ := t
  obtain ⟨rfl, rfl, hctx, htracks⟩ := h
  dsimp only at hctx htracks
  rw [hctx]
  unfold Gunwinder.insTurn
  dsimp only
  split
  · split
    · exact .stop ⟨rfl, htracks⟩
    · rename_i i next hread
      rcases htracks.execIns par i with
        ⟨ctx', heap', requests', saved', hnodes, hvalues, htracks'⟩ |
        ⟨heap', requests', hnodes, hvalues, htracks'⟩
      · rw [hnodes, hvalues]
        dsimp only
        split
        · exact .next ⟨rfl, rfl, rfl, htracks'⟩
        · split
          · exact .stop ⟨rfl, htracks'⟩
          · exact .next ⟨rfl, rfl, rfl, htracks'⟩
      · rw [hnodes, hvalues]
        exact .stop ⟨rfl, htracks'⟩
  · exact .stop ⟨rfl, htracks⟩

end Steps

/-- The run of an FDE's instructions over values, from the states a CIE has saved. -/
def valueRun {P : Type} (cfi : CfiData P) (granted : Nat → Bool) (requests : Nat) (fde : Fde P)
    (cie : Cie P) (saved : List CalcRules) (pc : Word) : InsResult Nat (List CalcRules) :=
  runIns (savedGranted granted) cfi.sec (cie.params cfi.arch fde.instructions) cie.fdeEncoding
    fde.instructions fde.instructionsEnd fde.start pc (cie.cieCalcCtx.withSaved saved) requests

/-- The instructions in front of the one that a run over values ends with. -/
def insBefore (granted : Nat → Bool) (sec : Section) (par : InsParams) (fdeEncoding : Byte)
    (insEnd : Nat) (findPc : Word) : Nat → InsState Nat (List CalcRules) → List CfaIns
  | 0, _ => []
  | n + 1, s =>
    match insTurn (savedGranted granted) sec par fdeEncoding insEnd findPc s,
      readIns sec insEnd fdeEncoding s.ins with
    | .next s', some (ins, _) =>
      ins :: insBefore granted sec par fdeEncoding insEnd findPc n s'
    | _, _ => []

/-- The instructions in front of the one that the run of an FDE ends with. -/
def valueIns {P : Type} (cfi : CfiData P) (granted : Nat → Bool) (requests : Nat) (fde : Fde P)
    (cie : Cie P) (saved : List CalcRules) (pc : Word) : List CfaIns :=
  insBefore granted cfi.sec (cie.params cfi.arch fde.instructions) cie.fdeEncoding
    fde.instructionsEnd pc (fde.instructionsEnd - fde.instructions)
    ⟨fde.instructions, fde.start, cie.cieCalcCtx.withSaved saved, requests⟩

/-- An instruction saves one state, takes one back, or leaves them. -/
theorem execIns_saved_length {granted : Nat → Bool} {par : InsParams}
    {ctx ctx' : CalcCtx (List CalcRules)} {requests requests' : Nat} {ins : CfaIns}
    (h : execIns (savedGranted granted) par ctx requests ins = .ok (ctx', requests')) :
    ctx'.prev.length + [ins].count .restoreState =
      ctx.prev.length + [ins].count .rememberState := by
  rcases execIns_ok h with ⟨rfl, hsave, -⟩ | ⟨rfl, hrestore⟩ | ⟨hremember, hrestore, rfl, -⟩
  · simp only [savedGranted, Prod.mk.injEq] at hsave
    split at hsave
    · rw [← Option.some.inj hsave.2]
      rfl
    · cases hsave.2
  · cases hprev : ctx.prev with
    | nil =>
      rw [hprev] at hrestore
      cases hrestore
    | cons rules prev =>
      simp only [savedGranted, hprev, Option.some.injEq, Prod.mk.injEq] at hrestore
      rw [← hrestore.2.2]
      rfl
  · rw [List.count_eq_zero_of_not_mem (by simpa using Ne.symm hrestore),
      List.count_eq_zero_of_not_mem (by simpa using Ne.symm hremember)]

/-- A run that fails has saved what the instructions in front of the failing one remember and do
not restore. -/
theorem loop_saved_length {granted : Nat → Bool} {sec : Section} {par : InsParams}
    {fdeEncoding : Byte} {insEnd : Nat} {findPc : Word} (n : Nat)
    {s : InsState Nat (List CalcRules)} {r : InsResult Nat (List CalcRules)}
    (h : loop (insTurn (savedGranted granted) sec par fdeEncoding insEnd findPc) insOut n s = r)
    (hfails : r.ok = false) :
    let before := insBefore granted sec par fdeEncoding insEnd findPc n s
    r.ctx.prev.length + before.count .restoreState =
      s.ctx.prev.length + before.count .rememberState := by
  induction n generalizing s with
  | zero =>
    subst h
    cases hfails
  | succ n ih =>
    dsimp only
    unfold insBefore
    cases hturn : insTurn (savedGranted granted) sec par fdeEncoding insEnd findPc s with
    | stop last =>
      rw [loop_stop hturn] at h
      subst h
      rcases insTurn_stop hturn with ⟨-, rfl⟩ | ⟨-, -, rfl⟩ |
        ⟨_, _, -, -, ⟨_, -, rfl⟩ | ⟨_, _, _, -, -, -, rfl⟩⟩
      · cases hfails
      · rfl
      · rfl
      · cases hfails
    | next s' =>
      rw [loop_next hturn] at h
      obtain ⟨-, ins, hread, hexec, -⟩ := insTurn_next hturn
      have hrest := ih h
      have hfirst := execIns_saved_length hexec
      simp only [hread, List.count_cons, List.count_nil, Nat.zero_add] at hrest hfirst ⊢
      omega

variable {cie : Cie (Option Nat)}

private theorem valueRun_endsAlike (cfi : CfiData (Option Nat)) {heap : Heap CalcRules}
    {saved : List CalcRules} (hlive : Heap.Chain 0 none heap cie.cieCalcCtx.prev saved)
    (fde : Fde (Option Nat)) (pc : Word) :
    EndsAlike heap saved
      (initCalcCtxByIns savedNodes cfi.arch cfi.sec cie cie.cieCalcCtx heap fde.instructions
        fde.instructionsEnd fde.start pc)
      (valueRun cfi heap.granted heap.requests fde cie saved pc) :=
  loop_simulation (Mirrors heap saved) (EndsAlike heap saved)
    (fun _ _ h => h.insTurn _ _ _ _ _) (fun _ _ h => ⟨rfl, h.tracks⟩) _
    ⟨rfl, rfl, rfl, .refl hlive⟩

/-- From `heap` to `heap'` as many nodes were released as were allocated. -/
def Settled (heap heap' : Heap CalcRules) : Prop :=
  heap'.nodes.length - heap.nodes.length = heap'.released - heap.released

/-- A parse behind a cache miss is settled exactly when a success had no states of the CIE to
release, and a failure has restored all it remembered. -/
theorem parseMiss_settled_iff {cfi : CfiData (Option Nat)} {heap : Heap CalcRules} {pc : Word}
    {fde : Fde (Option Nat)} {saved : List CalcRules} (hfind : findFde cfi pc = some (fde, cie))
    (hlive : Heap.Chain 0 none heap cie.cieCalcCtx.prev saved) :
    Settled heap (parseMiss savedNodes cfi heap pc).2 ↔
      let run := valueRun cfi heap.granted heap.requests fde cie saved pc
      let before := valueIns cfi heap.granted heap.requests fde cie saved pc
      (run.ok = true → saved = []) ∧
        (run.ok = false → before.count .rememberState = before.count .restoreState) := by
  have hlength := loop_saved_length (fde.instructionsEnd - fde.instructions)
    (rfl : _ = valueRun cfi heap.granted heap.requests fde cie saved pc)
  have hends := valueRun_endsAlike cfi hlive fde pc
  dsimp only
  rw [parseMiss_heap hfind heap, hends.ok]
  change _ → _ + (valueIns cfi heap.granted heap.requests fde cie saved pc).count _ =
    saved.length + (valueIns cfi heap.granted heap.requests fde cie saved pc).count _ at hlength
  generalize valueRun cfi heap.granted heap.requests fde cie saved pc = run at hends hlength
  generalize initCalcCtxByIns savedNodes cfi.arch cfi.sec cie cie.cieCalcCtx heap
    fde.instructions fde.instructionsEnd fde.start pc = nodes at hends
  have htracks := hends.tracks
  have hbalance := htracks.balance
  have hgrown := htracks.grown
  have hreleased := htracks.released
  unfold Settled
  cases hok : run.ok with
  | true =>
    obtain ⟨hclear, hlength⟩ := htracks.chain.clear_count htracks.chain.length_le
    simp only [ite_true, reduceCtorEq, false_implies, and_true, forall_const, savedNodes,
      hclear, hlength, ← List.length_eq_zero_iff]
    omega
  | false =>
    have hsaved := hlength hok
    simp only [Bool.false_eq_true, ite_false, false_implies, true_and, forall_const]
    omega

/-- A call of `gu_cfi_parse_cfi_ex` releases as many nodes as it allocates exactly when its row is
cached, there is no FDE, its run succeeds and the CIE has no saved states, or its run fails and
the instructions in front of the failing one restore as many states as they remember. -/
theorem guCfiParseCfiEx_settled_iff (cfi : CfiData (Option Nat)) (st : ParseState (Heap CalcRules))
    (pc : Word) (saved : List CalcRules)
    (hlive : ∀ fde cie, findFde cfi pc = some (fde, cie) →
      Heap.Chain 0 none st.heap cie.cieCalcCtx.prev saved) :
    Settled st.heap (guCfiParseCfiEx savedNodes cfi st pc).2.heap ↔
      guCfiParseCacheLoad st.cache pc ≠ none ∨ ∀ fde cie, findFde cfi pc = some (fde, cie) →
        let run := valueRun cfi st.heap.granted st.heap.requests fde cie saved pc
        let before := valueIns cfi st.heap.granted st.heap.requests fde cie saved pc
        (run.ok = true → saved = []) ∧
          (run.ok = false → before.count .rememberState = before.count .restoreState) := by
  cases hload : guCfiParseCacheLoad st.cache pc with
  | some entry =>
    have hst : (guCfiParseCfiEx savedNodes cfi st pc).2.heap = st.heap := by
      simp only [guCfiParseCfiEx, hload]
    simp [hst, Settled]
  | none =>
    have hst : (guCfiParseCfiEx savedNodes cfi st pc).2.heap =
        (parseMiss savedNodes cfi st.heap pc).2 := by simp only [guCfiParseCfiEx, hload]
    rw [hst]
    simp only [ne_eq, not_true_eq_false, false_or]
    cases hfind : findFde cfi pc with
    | none => simp [Settled, parseMiss, hfind]
    | some found =>
      obtain ⟨fde, cie⟩ := found
      rw [parseMiss_settled_iff hfind (hlive fde cie hfind)]
      simp only [Option.some.injEq, Prod.mk.injEq]
      constructor
      · rintro h _ _ ⟨rfl, rfl⟩
        exact h
      · intro h
        exact h fde cie ⟨rfl, rfl⟩

/-- An object with one FDE `[0, 16)` whose instructions are the bytes of the section. -/
def wholeFdeCfi (sec : Section) : CfiData (Option Nat) where
  arch := .x86
  sec := sec
  hdrIntervalArray := guIntervalArrayInit [⟨0#64, 16#64, some {
    cie := some (callerCie none)
    start := 0#64
    fin := 16#64
    instructions := sec.dBuf
    instructionsEnd := sec.fin }⟩]

/-- The CIE of the FDE has saved nothing. -/
theorem wholeFdeCfi_live {sec : Section} {pc : Word} {fde : Fde (Option Nat)}
    (h : findFde (wholeFdeCfi sec) pc = some (fde, cie)) (heap : Heap CalcRules) :
    Heap.Chain 0 none heap cie.cieCalcCtx.prev [] := by
  obtain ⟨hmem, hcie⟩ := findFde_sound h
  obtain rfl := List.mem_singleton.mp hmem
  cases hcie
  exact .nil

/-- A state that is remembered and not restored is released behind a successful run. -/
theorem guCfiParseCfiEx_settled_remember :
    Settled (.empty fun _ => true) (guCfiParseCfiEx savedNodes
      (wholeFdeCfi (bytesSection [0x0a] (by decide))) ⟨.empty, .empty, .empty fun _ => true⟩
      0#64).2.heap := by
  refine (guCfiParseCfiEx_settled_iff (wholeFdeCfi (bytesSection [0x0a] (by decide)))
    ⟨.empty, .empty, .empty fun _ => true⟩ 0#64 [] fun fde cie hfind =>
      wholeFdeCfi_live hfind _).mpr (.inr fun fde cie hfind => ⟨fun _ => rfl, fun hfails => ?_⟩)
  obtain ⟨hmem, hcie⟩ := findFde_sound hfind
  obtain rfl := List.mem_singleton.mp hmem
  cases hcie
  revert hfails
  decide +kernel

/-- `DW_CFA_remember_state` in front of a `DW_CFA_def_cfa` without operands: the parse fails with
the node allocated and not released. -/
theorem guCfiParseCfiEx_leaks :
    let parse := guCfiParseCfiEx savedNodes (wholeFdeCfi (bytesSection [0x0a, 0x0c] (by decide)))
      ⟨.empty, .empty, .empty fun _ => true⟩ 0#64
    parse.1.ok = false ∧ parse.2.heap.nodes.map Node.releases = [0] := by
  decide +kernel

end Gunwinder
