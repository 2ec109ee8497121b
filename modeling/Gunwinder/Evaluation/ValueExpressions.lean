import Gunwinder.Evaluation.Expression
import Gunwinder.Evaluation.Termination

/-!
# Register expressions and value expressions

The two rules share their block; the list of a value expression has the mark
`DW_OP_stack_value` at the byte behind it. The lists are run in step until they end. A branch to
the byte behind the block is the exception: the search for its target finds the mark, and nothing
in the list of a register expression.
-/

namespace Gunwinder

open Gunwinder.Core

/-! ## The two lists -/

/-- The list of a register rule for a decoded block. -/
def ruleList (rule : FrameRule) (block : Block) (ops : List DwarfOp) : List DwarfOp :=
  opsPrologue false ++ (ops ++ opsEpilogue rule block.length.toNat)

/-- Both rules accept the same blocks, and decode them to the same operations. -/
theorem guCfiInitOpsFromBlock_rules (mem : Mem) (block : Block) :
    (∀ rule, guCfiInitOpsFromBlock mem block rule false = none) ∨
      ∃ ops, OpsAt mem block.start block.fin block.start ops ∧ ops ≠ [] ∧
        ∀ rule, guCfiInitOpsFromBlock mem block rule false = some (ruleList rule block ops) := by
  by_cases hlen : block.length = 0#64
  · exact .inl fun rule => if_pos hlen
  cases hops : decodeOps mem block.start block.fin (dwarfOpsMax - (opsPrologue false).length)
      block.start with
  | none => exact .inl fun rule => by simp only [guCfiInitOpsFromBlock, if_neg hlen, hops]
  | some decoded =>
    obtain ⟨ops, last⟩ := decoded
    by_cases hbad : last < block.fin ∨ dwarfOpsMax ≤ (opsPrologue false).length + ops.length
    · exact .inl fun rule => by simp only [guCfiInitOpsFromBlock, if_neg hlen, hops, if_pos hbad]
    have hfin : block.start ≤ block.fin := Nat.le_add_right _ _
    have hle := (decodeOps_bounds hfin hops).2
    obtain rfl : last = block.fin := by omega
    have hsize : block.fin - block.start = block.length.toNat := by
      simp [Block.start, Block.fin]
    have hat := decodeOps_opsAt hops
    refine .inr ⟨ops, hat, ?_, fun rule => ?_⟩
    · rintro rfl
      have hempty : block.length.toNat = 0 := by rw [← hsize, ← hat.eq_fin, Nat.sub_self]
      exact hlen (BitVec.eq_of_toNat_eq hempty)
    · simp only [guCfiInitOpsFromBlock, if_neg hlen, hops, if_neg hbad, ruleList, hsize,
        List.append_assoc]

section Lists

variable {mem : Mem} {block : Block} {rule : FrameRule} {ops : List DwarfOp} {op : DwarfOp}
  {i : Nat} {key : Word}

private theorem ruleList_get (rule : FrameRule) (block : Block) (hop : ops[i]? = some op) :
    (ruleList rule block ops)[i + 1]? = some op := by
  change (ops ++ _)[i]? = _
  rw [List.getElem?_append_left (List.getElem?_eq_some_iff.mp hop).1]
  exact hop

/-- Behind the operations of the block there is the appended one. -/
theorem ruleList_behind (rule : FrameRule) (block : Block) (ops : List DwarfOp) (k : Nat) :
    (ruleList rule block ops)[ops.length + k + 1]? =
      (opsEpilogue rule block.length.toNat)[k]? := by
  change (ops ++ _)[ops.length + k]? = _
  rw [List.getElem?_append_right (Nat.le_add_right _ _), Nat.add_sub_cancel_left]

/-- The mark of a value expression, at the byte behind the block. -/
def endMark (block : Block) : DwarfOp :=
  ⟨.stackValue, 0#64, 0#64, BitVec.ofNat 64 block.length.toNat⟩

private theorem ruleList_length (block : Block) (ops : List DwarfOp) :
    (ruleList .valExpression block ops).length = ops.length + 2 := by
  simp [ruleList, opsPrologue, opsEpilogue]

/-! ## Branch targets -/

variable (hat : OpsAt mem block.start block.fin block.start ops)
include hat

/-- The offset of an operation of the block is found in the list of both rules. -/
theorem bsearch_found (rule : FrameRule) (hop : ops[i]? = some op) :
    bsearch (compareOffset (ruleList rule block ops) op.offset)
      (ruleList rule block ops).length = some (i + 1) := by
  have hfound := bsearch_block hat rule false hop
  rw [Nat.add_comm i 1]
  exact hfound

/-- An offset that no operation has is not found. -/
theorem bsearch_missing (hne : ops ≠ []) (rule : FrameRule)
    (hkey : ∀ op ∈ ops ++ opsEpilogue rule block.length.toNat, op.offset ≠ key) :
    bsearch (compareOffset (ruleList rule block ops) key) (ruleList rule block ops).length =
      none := by
  cases hfound : bsearch (compareOffset (ruleList rule block ops) key)
      (ruleList rule block ops).length with
  | none => rfl
  | some i =>
    obtain ⟨-, hi, heq⟩ := bisect_sound halfMid_inside _ hfound
    have hop := List.getElem?_eq_getElem hi
    have hoffset := (compareOffset_eq hop).mp heq
    cases i with
    | zero =>
      -- the prepended operation has the offset of the first one of the block
      obtain ⟨op0, rest, rfl⟩ := List.exists_cons_of_ne_nil hne
      have hzero : op0.offset = 0#64 := hat.first_offset rfl
      have hkey0 : (0#64 : Word) = key := hoffset
      exact absurd (hzero.trans hkey0) (hkey op0 (List.mem_append_left _ List.mem_cons_self))
    | succ i =>
      refine absurd hoffset (hkey _ (List.mem_of_getElem? (i := i) ?_))
      exact hop

/-- The byte behind the block is found in the list of a value expression. -/
theorem bsearch_mark (hne : ops ≠ []) :
    bsearch (compareOffset (ruleList .valExpression block ops) (endMark block).offset)
      (ruleList .valExpression block ops).length = some (ops.length + 1) := by
  obtain ⟨op0, rest, rfl⟩ := List.exists_cons_of_ne_nil hne
  have hzero : op0.offset = 0#64 := hat.first_offset rfl
  have hmark : ((op0 :: rest) ++ [endMark block])[(op0 :: rest).length]? = some (endMark block) :=
    List.getElem?_concat_length
  exact bsearch_offset_cons (rfl : (DwarfOp.bare .callFrameCfa).offset = 0#64)
    (hat.sorted_epilogue .valExpression) rfl hzero hmark

end Lists

/-! ## One turn -/

variable {oor : OutOfRange}

section Turns

variable {env : EvalEnv} {callCfa : OutOfRange → EvalResult} {mem : Mem} {block : Block}
  {ops list : List DwarfOp} {op : DwarfOp} {s s' : EvalState} {n : Nat}

/-- The turn branches to the last operation of the list. -/
def LeavesBlock (env : EvalEnv) (callCfa : OutOfRange → EvalResult) (list : List DwarfOp)
    (s s' : EvalState) : Prop :=
  ∃ op, list[s.pos]? = some op ∧ Branches op.atom s.stack ∧
    evalTurn env callCfa list s = .next s' ∧ s'.pos + 1 = list.length

/-- A state of a run at an operation of the block, or behind the last one. -/
structure InBlock (ops : List DwarfOp) (s : EvalState) : Prop where
  low : 1 ≤ s.pos
  high : s.pos ≤ ops.length + 1
  location : s.isLocation = true

/-- Results without a value. -/
def NoValue (r : EvalResult) : Prop := ∀ val oor, r ≠ .ok val oor

private theorem noValue_fail (oor : OutOfRange) : NoValue (.fail oor) := by
  rintro _ _ ⟨⟩

/-- An operation that does not branch goes on behind itself, whatever the list. -/
theorem evalOp_straight (env : EvalEnv) (callCfa : OutOfRange → EvalResult)
    (hcall : op.atom ≠ .callFrameCfa) (hvalue : op.atom ≠ .stackValue)
    (hbranch : ¬Branches op.atom s.stack) (list list' : List DwarfOp) :
    evalOp env callCfa list op s = evalOp env callCfa list' op s ∧
      (evalOp env callCfa list op s).All
        (fun s' => s'.pos = s.pos + 1 ∧ s'.isLocation = s.isLocation) NoValue := by
  unfold evalOp
  split
  case h_1 | h_2 =>
    refine ⟨rfl, ?_⟩
    unfold evalDeref
    split
    · exact noValue_fail _
    split
    · exact noValue_fail _
    split
    · exact noValue_fail _
    dsimp only
    split
    · exact noValue_fail _
    · exact ⟨rfl, rfl⟩
  case h_3 hbra =>
    cases hstack : s.stack with
    | nil => exact ⟨rfl, noValue_fail _⟩
    | cons val rest =>
      dsimp only [dwPop]
      by_cases hval : val = 0#64
      · simp only [if_pos hval]
        exact ⟨trivial, rfl, rfl⟩
      · exact absurd (.inr ⟨hbra, val, rest, hstack, hval⟩) hbranch
  case h_4 hskip => exact absurd (.inl hskip) hbranch
  case h_5 h => exact absurd h hcall
  case h_6 h => exact absurd h hvalue
  case h_7 =>
    refine ⟨rfl, ?_⟩
    split
    · exact noValue_fail _
    · exact ⟨rfl, rfl⟩

/-- An operation that branches does so with one stack, whatever the list. -/
theorem evalOp_branches (env : EvalEnv) (callCfa : OutOfRange → EvalResult)
    (hbranch : Branches op.atom s.stack) :
    ∃ stack, ∀ list,
      evalOp env callCfa list op s = takeBranch list op { s with stack := stack } := by
  rcases hbranch with hskip | ⟨hbra, val, rest, hstack, hval⟩
  · refine ⟨s.stack, fun list => ?_⟩
    unfold evalOp
    rw [hskip]
  · refine ⟨rest, fun list => ?_⟩
    unfold evalOp
    rw [hbra]
    simp only [hstack, dwPop, if_neg hval]

/-- A taken branch: both lists go on at one operation, or both fail, or the target is behind
the block. -/
theorem takeBranch_rules (hat : OpsAt mem block.start block.fin block.start ops) (hne : ops ≠ [])
    (op : DwarfOp) (s : EvalState) :
    (∃ i < ops.length, ∀ rule, takeBranch (ruleList rule block ops) op s =
        .next { s with pos := i + 1 }) ∨
      (∀ rule, takeBranch (ruleList rule block ops) op s = .stop (.fail s.oor)) ∨
      (takeBranch (ruleList .expression block ops) op s = .stop (.fail s.oor) ∧
        takeBranch (ruleList .valExpression block ops) op s =
          .next { s with pos := ops.length + 1 }) := by
  by_cases hfound : ∃ (i : Nat) (target : DwarfOp), ops[i]? = some target ∧
      target.offset = branchTarget op
  · obtain ⟨i, target, htarget, hoffset⟩ := hfound
    refine .inl ⟨i, (List.getElem?_eq_some_iff.mp htarget).1, fun rule => ?_⟩
    have hsearch := bsearch_found hat rule htarget
    rw [hoffset] at hsearch
    simp only [takeBranch, hsearch]
  · have hmiss : ∀ target ∈ ops, target.offset ≠ branchTarget op := by
      intro target hmem hoffset
      obtain ⟨i, htarget⟩ := List.mem_iff_getElem?.mp hmem
      exact hfound ⟨i, target, htarget, hoffset⟩
    have hfails (rule : FrameRule) (hend : rule = .valExpression →
        (endMark block).offset ≠ branchTarget op) :
        takeBranch (ruleList rule block ops) op s = .stop (.fail s.oor) := by
      have hsearch := bsearch_missing hat hne rule fun target hmem => by
        rcases List.mem_append.mp hmem with hmem | hmem
        · exact hmiss target hmem
        unfold opsEpilogue at hmem
        split at hmem
        · rename_i hrule
          rw [List.mem_singleton.mp hmem]
          exact hend hrule
        · cases hmem
      simp only [takeBranch, hsearch]
    by_cases hmark : (endMark block).offset = branchTarget op
    · refine .inr (.inr ⟨hfails .expression nofun, ?_⟩)
      have hsearch := bsearch_mark hat hne
      rw [hmark] at hsearch
      simp only [takeBranch, hsearch]
    · exact .inr (.inl fun rule => hfails rule fun _ => hmark)

/-- A turn inside the block: both lists take it alike, or only the value expression leaves the
block by a branch. -/
theorem evalTurn_rules (hat : OpsAt mem block.start block.fin block.start ops)
    (hplain : ∀ op ∈ ops, op.atom ≠ .callFrameCfa ∧ op.atom ≠ .stackValue)
    (h : InBlock ops s) (hinside : s.pos ≤ ops.length) :
    ((∀ s', ¬LeavesBlock env callCfa (ruleList .valExpression block ops) s s') ∧
      evalTurn env callCfa (ruleList .expression block ops) s =
        evalTurn env callCfa (ruleList .valExpression block ops) s ∧
      (evalTurn env callCfa (ruleList .valExpression block ops) s).All (InBlock ops) NoValue) ∨
    ∃ s', LeavesBlock env callCfa (ruleList .valExpression block ops) s s' ∧ InBlock ops s' ∧
      s'.pos = ops.length + 1 ∧
      ∃ oor, evalTurn env callCfa (ruleList .expression block ops) s = .stop (.fail oor) := by
  obtain ⟨i, hpos⟩ := Nat.exists_eq_add_of_le' h.low
  have hi : i < ops.length := by omega
  have hop := List.getElem?_eq_getElem hi
  obtain ⟨hcall, hvalue⟩ := hplain _ (List.mem_of_getElem? hop)
  have hat' (rule : FrameRule) : (ruleList rule block ops)[s.pos]? = some ops[i] := by
    rw [hpos]
    exact ruleList_get rule block hop
  have hturn (rule : FrameRule) : evalTurn env callCfa (ruleList rule block ops) s =
      evalOp env callCfa (ruleList rule block ops) ops[i] s := by simp only [evalTurn, hat']
  have hne : ops ≠ [] := List.ne_nil_of_length_pos (by omega)
  have hlength := ruleList_length block ops
  by_cases hbranch : Branches ops[i].atom s.stack
  · obtain ⟨stack, hbranches⟩ := evalOp_branches env callCfa hbranch
    rcases takeBranch_rules hat hne ops[i] { s with stack := stack } with
      ⟨j, hj, htake⟩ | htake | ⟨hexpr, hval⟩
    · left
      simp only [hturn, hbranches, htake]
      refine ⟨?_, trivial, ⟨Nat.le_add_left _ _, by dsimp only; omega, h.location⟩⟩
      rintro s' ⟨op, -, -, hnext, hlast⟩
      rw [hturn, hbranches, htake] at hnext
      cases hnext
      dsimp only at hlast
      omega
    · left
      simp only [hturn, hbranches, htake]
      refine ⟨?_, trivial, noValue_fail _⟩
      rintro s' ⟨op, -, -, hnext, -⟩
      rw [hturn, hbranches, htake] at hnext
      cases hnext
    · right
      refine ⟨{ s with pos := ops.length + 1, stack := stack }, ⟨ops[i], hat' _, hbranch, ?_, ?_⟩,
        ⟨Nat.le_add_left _ _, Nat.le_refl _, h.location⟩, rfl, s.oor, ?_⟩
      · rw [hturn, hbranches, hval]
      · exact hlength.symm
      · rw [hturn, hbranches, hexpr]
  · left
    obtain ⟨hsame, hall⟩ := evalOp_straight env callCfa hcall hvalue hbranch
      (ruleList .valExpression block ops) (ruleList .expression block ops)
    refine ⟨?_, ?_, ?_⟩
    · rintro s' ⟨op, hop', hbranch', -⟩
      cases (hat' _).symm.trans hop'
      exact hbranch hbranch'
    · rw [hturn, hturn, hsame]
    · rw [hturn]
      cases hresult : evalOp env callCfa (ruleList .valExpression block ops) ops[i] s with
      | stop r => rwa [hresult] at hall
      | next s' =>
        rw [hresult] at hall
        obtain ⟨hpos', hlocation⟩ := hall
        exact ⟨by omega, by omega, hlocation.trans h.location⟩

/-! ## Whole runs -/

/-- The word of the snapshot at an address. -/
def EvalEnv.wordAt (env : EvalEnv) (addr : Word) : Option Word := (readAddr env addr .clear).1

/-- The results of the two rules: the register expression has the word at the address the value
expression has. -/
def SameWord (env : EvalEnv) (expr value : EvalResult) : Prop :=
  ∀ val, (∃ oor, expr = .ok val oor) ↔
    ∃ addr, (∃ oor, value = .ok addr oor) ∧ env.wordAt addr = some val

/-- The run leaves the block by a branch, with a readable address on its stack. -/
def LeavesReadable (env : EvalEnv) (callCfa : OutOfRange → EvalResult) (list : List DwarfOp)
    (s : EvalState) : Prop :=
  ∃ k t t', headState (evalTurn env callCfa list) k s = some t ∧
    LeavesBlock env callCfa list t t' ∧ (t'.stack.head?.bind env.wordAt).isSome = true

/-- The run ends within `n` steps. -/
def WithinSteps (env : EvalEnv) (callCfa : OutOfRange → EvalResult) (list : List DwarfOp) (n : Nat)
    (s : EvalState) : Prop :=
  ∀ t, headState (evalTurn env callCfa list) n s = some t → list[t.pos]? = none

private theorem sameWord_of_noValue {expr value : EvalResult} (hexpr : NoValue expr)
    (hvalue : NoValue value) : SameWord env expr value := by
  intro val
  constructor
  · rintro ⟨oor, heq⟩
    exact absurd heq (hexpr val oor)
  · rintro ⟨addr, ⟨oor, heq⟩, -⟩
    exact absurd heq (hvalue addr oor)

/-- One result agrees with itself when a value it has is the word at its own address. -/
theorem sameWord_self {result : EvalResult} :
    SameWord env result result ↔
      ∀ val, (∃ oor, result = .ok val oor) → env.wordAt val = some val := by
  constructor
  · intro h val hval
    obtain ⟨addr, ⟨oor, haddr⟩, hword⟩ := (h val).mp hval
    obtain ⟨oor', hval⟩ := hval
    cases haddr.symm.trans hval
    exact hword
  · intro h val
    constructor
    · exact fun hval => ⟨val, hval, h val hval⟩
    · rintro ⟨addr, haddr, hword⟩
      rw [h addr haddr] at hword
      exact Option.some.inj hword ▸ haddr

private theorem leavesReadable_next (hturn : evalTurn env callCfa list s = .next s')
    (hstays : ∀ t, ¬LeavesBlock env callCfa list s t) :
    LeavesReadable env callCfa list s ↔ LeavesReadable env callCfa list s' := by
  constructor
  · rintro ⟨k, t, t', hhead, hleaves, hword⟩
    cases k with
    | zero =>
      cases hhead
      exact absurd hleaves (hstays t')
    | succ k => exact ⟨k, t, t', (headState_next hturn k).symm.trans hhead, hleaves, hword⟩
  · rintro ⟨k, t, t', hhead, hleaves, hword⟩
    exact ⟨k + 1, t, t', (headState_next hturn k).trans hhead, hleaves, hword⟩

private theorem not_leavesReadable_stop {r : EvalResult}
    (hturn : evalTurn env callCfa list s = .stop r) : ¬LeavesReadable env callCfa list s := by
  rintro ⟨k, t, t', hhead, ⟨op, -, -, hnext, -⟩, -⟩
  cases k with
  | zero =>
    cases hhead
    rw [hturn] at hnext
    cases hnext
  | succ k =>
    rw [headState_stop hturn] at hhead
    cases hhead

/-- The state behind the mark. -/
def EvalState.marked (s : EvalState) : EvalState := { s with pos := s.pos + 1, isLocation := false }

private theorem ruleList_mark (block : Block) (ops : List DwarfOp) :
    (ruleList .valExpression block ops)[ops.length + 1]? = some (endMark block) :=
  ruleList_behind .valExpression block ops 0

section

variable (hpos : s.pos = ops.length + 1)
include hpos

private theorem evalTurn_mark :
    evalTurn env callCfa (ruleList .valExpression block ops) s = .next s.marked := by
  simp only [evalTurn, hpos, ruleList_mark]
  rfl

private theorem ruleList_behind_mark :
    (ruleList .valExpression block ops)[s.marked.pos]? = none := by
  change (ruleList .valExpression block ops)[s.pos + 1]? = none
  rw [hpos]
  exact ruleList_behind .valExpression block ops 1

private theorem not_leavesReadable_mark :
    ¬LeavesReadable env callCfa (ruleList .valExpression block ops) s := by
  rw [leavesReadable_next (evalTurn_mark hpos)]
  · have hstop : evalTurn env callCfa (ruleList .valExpression block ops) s.marked =
        .stop (evalFinish env s.marked) := by simp only [evalTurn, ruleList_behind_mark hpos]
    exact not_leavesReadable_stop hstop
  · rintro t ⟨op, hop, hbranch, -⟩
    rw [hpos, ruleList_mark] at hop
    cases hop
    rcases hbranch with hskip | ⟨hbra, -⟩
    · cases hskip
    · cases hbra

/-- At the mark the run of a value expression takes the address on its stack. -/
theorem loop_mark (hsteps : WithinSteps env callCfa (ruleList .valExpression block ops) n s) :
    loop (evalTurn env callCfa (ruleList .valExpression block ops))
      (evalOut env (ruleList .valExpression block ops)) n s = evalFinish env s.marked := by
  cases n with
  | zero =>
    have hend := hsteps s rfl
    rw [hpos, ruleList_mark] at hend
    cases hend
  | succ n => rw [loop_next (evalTurn_mark hpos), evalLoop_end n (ruleList_behind_mark hpos)]

end

private theorem evalFinish_marked (env : EvalEnv) (s : EvalState) (addr : Word) :
    (∃ oor, evalFinish env s.marked = .ok addr oor) ↔ s.stack.head? = some addr := by
  rw [evalFinish_ok]
  simp only [EvalState.marked, Bool.false_eq_true, if_false]
  cases s.stack <;> simp

/-- The register expression reads the address that the value expression has. -/
theorem sameWord_finish (hlocation : s.isLocation = true) :
    SameWord env (evalFinish env s) (evalFinish env s.marked) := by
  intro val
  simp only [evalFinish_marked]
  rw [evalFinish_ok]
  cases s.stack with
  | nil => simp
  | cons top rest => simp [hlocation, EvalEnv.wordAt, machine_load_word env top .clear]

/-- A register expression that has failed agrees when the address cannot be read. -/
theorem sameWord_failed :
    SameWord env (.fail oor) (evalFinish env s.marked) ↔
      ¬(s.stack.head?.bind env.wordAt).isSome = true := by
  simp only [SameWord, evalFinish_marked, reduceCtorEq, exists_false, false_iff]
  cases s.stack with
  | nil => simp
  | cons top rest => simp [Option.eq_none_iff_forall_ne_some]

private theorem WithinSteps.next (h : WithinSteps env callCfa list (n + 1) s)
    (hturn : evalTurn env callCfa list s = .next s') : WithinSteps env callCfa list n s' :=
  fun t ht => h t ((headState_next hturn n).trans ht)

/-- From a state inside the block the runs agree exactly when the value expression does not
leave it by a branch with a readable address on top. -/
theorem sameWord_loop_iff (hat : OpsAt mem block.start block.fin block.start ops)
    (hplain : ∀ op ∈ ops, op.atom ≠ .callFrameCfa ∧ op.atom ≠ .stackValue)
    (h : InBlock ops s) (hinside : s.pos ≤ ops.length)
    (hsteps : WithinSteps env callCfa (ruleList .valExpression block ops) n s) :
    SameWord env
        (loop (evalTurn env callCfa (ruleList .expression block ops))
          (evalOut env (ruleList .expression block ops)) n s)
        (loop (evalTurn env callCfa (ruleList .valExpression block ops))
          (evalOut env (ruleList .valExpression block ops)) n s) ↔
      ¬LeavesReadable env callCfa (ruleList .valExpression block ops) s := by
  induction n generalizing s with
  | zero =>
    -- the budget would be spent at an operation
    obtain ⟨i, hpos⟩ := Nat.exists_eq_add_of_le' h.low
    have hend := hsteps s rfl
    rw [hpos, ruleList_get _ _ (List.getElem?_eq_getElem (by omega : i < ops.length))] at hend
    cases hend
  | succ n ih =>
    rcases evalTurn_rules hat hplain h hinside with
      ⟨hstays, hsame, hall⟩ | ⟨s', hleaves, hin, hpos, oor, hfails⟩
    · cases hturn : evalTurn env callCfa (ruleList .valExpression block ops) s with
      | stop r =>
        rw [hturn] at hsame hall
        rw [loop_stop hsame, loop_stop hturn]
        exact ⟨fun _ => not_leavesReadable_stop hturn, fun _ => sameWord_of_noValue hall hall⟩
      | next s' =>
        rw [hturn] at hsame hall
        rw [loop_next hsame, loop_next hturn, leavesReadable_next hturn hstays]
        by_cases hlast : s'.pos ≤ ops.length
        · exact ih hall hlast (hsteps.next hturn)
        -- both runs have come to the end of the block
        have hpos : s'.pos = ops.length + 1 := Nat.le_antisymm hall.high (Nat.not_le.mp hlast)
        have hend : (ruleList .expression block ops)[s'.pos]? = none := by
          rw [hpos]
          exact ruleList_behind .expression block ops 0
        rw [loop_mark hpos (hsteps.next hturn), evalLoop_end n hend]
        exact ⟨fun _ => not_leavesReadable_mark hpos, fun _ => sameWord_finish hall.location⟩
    · obtain ⟨op, hop, hbranch, hturn, hlast⟩ := hleaves
      rw [loop_stop hfails, loop_next hturn, loop_mark hpos (hsteps.next hturn), sameWord_failed,
        not_iff_not]
      constructor
      · intro hword
        exact ⟨0, s, s', rfl, ⟨op, hop, hbranch, hturn, hlast⟩, hword⟩
      · rintro ⟨k, t, t', hhead, hleaves, hword⟩
        cases k with
        | zero =>
          cases hhead
          obtain ⟨-, -, -, hturn', -⟩ := hleaves
          cases hturn.symm.trans hturn'
          exact hword
        | succ k =>
          rw [headState_next hturn] at hhead
          exact absurd ⟨k, t, t', hhead, hleaves, hword⟩ (not_leavesReadable_mark hpos)

private theorem evalTurn_call {cfa : Word} {oor' : OutOfRange} (hcall : callCfa oor = .ok cfa oor')
    (rest : List DwarfOp) :
    evalTurn env callCfa (.bare .callFrameCfa :: rest) (EvalState.init oor) =
      .next ⟨1, [cfa], true, oor'⟩ := by
  simp [evalTurn, evalOp, EvalState.init, DwarfOp.bare, hcall, dwPush, dwEvalStackSize]

private theorem evalTurn_call_stop (hcall : NoValue (callCfa oor)) (rest : List DwarfOp) :
    ∃ r, NoValue r ∧
      evalTurn env callCfa (.bare .callFrameCfa :: rest) (EvalState.init oor) = .stop r := by
  cases hresult : callCfa oor with
  | ok cfa oor' => exact absurd hresult (hcall cfa oor')
  | fail oor' =>
    exact ⟨.fail oor', noValue_fail oor',
      by simp [evalTurn, evalOp, EvalState.init, DwarfOp.bare, hresult]⟩
  | deep =>
    refine ⟨.deep, ?_, by simp [evalTurn, evalOp, EvalState.init, DwarfOp.bare, hresult]⟩
    rintro _ _ ⟨⟩

/-- The evaluations agree exactly when the value expression does not leave its block by a
branch with a readable address on top. -/
theorem sameWord_body_iff (hat : OpsAt mem block.start block.fin block.start ops) (hne : ops ≠ [])
    (hplain : ∀ op ∈ ops, op.atom ≠ .callFrameCfa ∧ op.atom ≠ .stackValue)
    (hsteps : WithinSteps env callCfa (ruleList .valExpression block ops) dwEvalStepsMax
      (EvalState.init oor)) :
    SameWord env (evalBody env callCfa (ruleList .expression block ops) oor)
        (evalBody env callCfa (ruleList .valExpression block ops) oor) ↔
      ¬LeavesReadable env callCfa (ruleList .valExpression block ops) (EvalState.init oor) := by
  have hbody (rule : FrameRule) : evalBody env callCfa (ruleList rule block ops) oor =
      loop (evalTurn env callCfa (ruleList rule block ops)) (evalOut env (ruleList rule block ops))
        (4095 + 1) (EvalState.init oor) := evalBody_cons _ _ _ oor
  rw [hbody, hbody]
  by_cases hcall : NoValue (callCfa oor)
  · have hstop (rule : FrameRule) : ∃ r, NoValue r ∧
        evalTurn env callCfa (ruleList rule block ops) (EvalState.init oor) = .stop r :=
      evalTurn_call_stop hcall _
    obtain ⟨r, hr, hexpr⟩ := hstop .expression
    obtain ⟨r', hr', hvalue⟩ := hstop .valExpression
    rw [loop_stop hexpr, loop_stop hvalue]
    exact ⟨fun _ => not_leavesReadable_stop hvalue, fun _ => sameWord_of_noValue hr hr'⟩
  · obtain ⟨cfa, oor', hcfa⟩ : ∃ cfa oor', callCfa oor = .ok cfa oor' := by
      simpa [NoValue] using hcall
    have hturn (rule : FrameRule) :
        evalTurn env callCfa (ruleList rule block ops) (EvalState.init oor) =
          .next ⟨1, [cfa], true, oor'⟩ := evalTurn_call hcfa _
    have hstays : ∀ t, ¬LeavesBlock env callCfa (ruleList .valExpression block ops)
        (EvalState.init oor) t := by
      rintro t ⟨op, hop, hbranch, -⟩
      cases hop
      rcases hbranch with hskip | ⟨hbra, -⟩
      · cases hskip
      · cases hbra
    rw [loop_next (hturn _), loop_next (hturn _), leavesReadable_next (hturn _) hstays]
    have hpos : 0 < ops.length := List.length_pos_iff.mpr hne
    exact sameWord_loop_iff hat hplain ⟨Nat.le_refl 1, Nat.le_add_left 1 _, rfl⟩ hpos
      (hsteps.next (hturn _))

end Turns

/-! ## Recovered registers -/

/-- The CFA has one value at all depths that allow for it. -/
theorem guDwarfOpsEval_settled (env : EvalEnv) (cfaOps : List DwarfOp) (depth : Nat) :
    guDwarfOpsEval env cfaOps (depth + 2) cfaOps =
      guDwarfOpsEval env cfaOps (depth + 1) cfaOps := by
  by_cases hreach : ReachesCall env cfaOps
  · rw [guDwarfOpsEval_deep hreach, guDwarfOpsEval_deep hreach]
  · obtain ⟨result, -, heq⟩ := evalBody_of_not_reachesCall hreach
    exact (heq _ (guDwarfOpsEval_record env cfaOps (depth + 1) cfaOps)).trans
      (heq _ (guDwarfOpsEval_record env cfaOps depth cfaOps)).symm

/-- The operations a parse installs for a column with an expression rule. -/
def blockOps (mem : Mem) (block : Block) (rule : FrameRule) : List DwarfOp :=
  (guCfiInitOpsFromBlock mem block rule false).getD []

/-- The installed lists with an expression rule for a column. -/
def Scratch.withBlock (scratch : Scratch) (mem : Mem) (t : RegType) (rule : FrameRule)
    (block : Block) : Scratch :=
  { scratch with regs := scratch.regs.set t (blockOps mem block rule) }

/-- `gen_reg` recovers the value. -/
def Recovers (env : EvalEnv) (scratch : Scratch) (depth : Nat) (regno : Int) (oor : OutOfRange)
    (val : Word) : Prop :=
  ∃ oor', genReg env scratch depth regno oor = some (.ok val, oor')

private theorem recovers_iff {env : EvalEnv} {scratch : Scratch} {depth : Nat} {regno : Int}
    {ops : List DwarfOp} {val : Word}
    (hops : guCfiGetOps scratch (transRegType env.target.arch regno) false = some ops) :
    Recovers env scratch (depth + 2) regno oor val ↔
      ∃ oor', evalBody env (guDwarfOpsEval env scratch.cfa (depth + 1) scratch.cfa) ops .clear =
        .ok val oor' := by
  unfold Recovers
  rw [genReg_eq_report (congrFun (guDwarfOpsEval_settled env scratch.cfa depth) _) hops,
    guDwarfOpsEval_succ]
  cases evalBody env (guDwarfOpsEval env scratch.cfa (depth + 1) scratch.cfa) ops .clear <;>
    simp [EvalResult.report]

/-- A register expression recovers the words at the addresses that the value expression of the
same block recovers, exactly when the run of the value expression does not leave the block by a
branch with a readable address on its stack and, in the stack pointer's column, a block that
does not decode stands over a CFA whose word is the CFA: the column then gets the CFA's
operations under both rules. -/
theorem expression_agrees_valExpression_iff (env : EvalEnv) (scratch : Scratch) (mem : Mem)
    (block : Block) (depth : Nat) {t : RegType} {regno : Int}
    (htype : transRegType env.target.arch regno = some t)
    (hplain : ∀ a, OpStart mem block a →
      Atom.ofByte (mem a) ≠ .callFrameCfa ∧ Atom.ofByte (mem a) ≠ .stackValue)
    (hsteps : WithinSteps env (guDwarfOpsEval env scratch.cfa (depth + 1) scratch.cfa)
      (blockOps mem block .valExpression) dwEvalStepsMax (EvalState.init .clear))
    (oor : OutOfRange) :
    (∀ val, Recovers env (scratch.withBlock mem t .expression block) (depth + 2) regno oor val ↔
        ∃ addr, Recovers env (scratch.withBlock mem t .valExpression block) (depth + 2) regno oor
          addr ∧ env.wordAt addr = some val) ↔
      ¬LeavesReadable env (guDwarfOpsEval env scratch.cfa (depth + 1) scratch.cfa)
          (blockOps mem block .valExpression) (EvalState.init .clear) ∧
        (t = .rsp → guCfiInitOpsFromBlock mem block .expression false = none → ∀ cfa,
          (∃ r, guDwarfOpsEval env scratch.cfa (depth + 2) scratch.cfa .clear = .ok cfa r) →
            env.wordAt cfa = some cfa) := by
  have hget (rule : FrameRule) (hlist : ¬(t = .rsp ∧ blockOps mem block rule = [])) :
      guCfiGetOps (scratch.withBlock mem t rule block) (transRegType env.target.arch regno) false =
        some (blockOps mem block rule) := by
    rw [htype]
    simp only [guCfiGetOps, Scratch.withBlock, Columns.get_set, if_true, Bool.false_eq_true,
      false_or]
    exact if_neg hlist
  rcases guCfiInitOpsFromBlock_rules mem block with hnone | ⟨ops, hat, hne, hlists⟩
  · have hnil (rule : FrameRule) : blockOps mem block rule = [] := by
      rw [blockOps, hnone, Option.getD_none]
    have hstays : ¬LeavesReadable env (guDwarfOpsEval env scratch.cfa (depth + 1) scratch.cfa)
        (blockOps mem block .valExpression) (EvalState.init .clear) := by
      rw [hnil]
      exact not_leavesReadable_stop rfl
    rw [iff_true_intro hstays, true_and]
    by_cases hrsp : t = .rsp
    · -- the column has no operations of its own
      subst hrsp
      have hcfa (rule : FrameRule) : guCfiGetOps (scratch.withBlock mem .rsp rule block)
          (transRegType env.target.arch regno) false = some scratch.cfa := by
        rw [htype]
        simp [guCfiGetOps, Scratch.withBlock, hnil]
      simp only [recovers_iff (hcfa _), hnone, true_imp_iff]
      exact sameWord_self
    · have hlist (rule : FrameRule) : ¬(t = .rsp ∧ blockOps mem block rule = []) :=
        fun hempty => hrsp hempty.1
      simp only [recovers_iff (hget _ (hlist _)), hnil, hrsp, false_imp_iff, iff_true]
      exact sameWord_of_noValue (noValue_fail _) (noValue_fail _)
  · have heq (rule : FrameRule) : blockOps mem block rule = ruleList rule block ops := by
      rw [blockOps, hlists, Option.getD_some]
    have hlist (rule : FrameRule) : ¬(t = .rsp ∧ blockOps mem block rule = []) := by
      rintro ⟨-, hnil⟩
      rw [heq] at hnil
      cases hnil
    have hops : ∀ op ∈ ops, op.atom ≠ .callFrameCfa ∧ op.atom ≠ .stackValue := by
      intro op hop
      obtain ⟨a, hstart, hatom⟩ := hat.start .first hop
      exact hatom ▸ hplain a hstart
    have hdecoded : guCfiInitOpsFromBlock mem block .expression false ≠ none := by
      rw [hlists]
      exact Option.some_ne_none _
    rw [heq] at hsteps ⊢
    simp only [recovers_iff (hget _ (hlist _)), heq, hdecoded, false_imp_iff, implies_true,
      and_true]
    exact sameWord_body_iff hat hne hops hsteps

/-- The bytes of a block at `0x1000`. -/
def blockBytes (bytes : List Byte) : Mem := fun a => (bytes[a - 0x1000]?).getD 0#8

/-- A CFA eight bytes above the sampled stack pointer. -/
def cfaEight : Scratch := ⟨⟨[], [], []⟩, [⟨.bregx, 7#64, 8#64, 0#64⟩]⟩

/-- The block is `DW_OP_plus_uconst 0`. -/
theorem expression_agrees_valExpression_plusUconst :
    let mem := blockBytes [0x23#8, 0x00#8]
    let block : Block := ⟨2#64, 0x1000#64⟩
    ∀ val, Recovers sampleEnv (cfaEight.withBlock mem .rip .expression block) 2 16 .clear val ↔
      ∃ addr, Recovers sampleEnv (cfaEight.withBlock mem .rip .valExpression block) 2 16 .clear
        addr ∧ sampleEnv.wordAt addr = some val := by
  intro mem block
  have htype : transRegType sampleEnv.target.arch 16 = some .rip := by decide
  refine (expression_agrees_valExpression_iff sampleEnv cfaEight mem block 0 htype ?_ ?_
    .clear).mpr ⟨?_, nofun⟩
  · intro a ha
    have hbytes : ∀ i < 2, Atom.ofByte (mem (0x1000 + i)) ≠ .callFrameCfa ∧
        Atom.ofByte (mem (0x1000 + i)) ≠ .stackValue := by decide
    obtain ⟨hlow, hhigh⟩ := ha.inside
    have hlow' : 0x1000 ≤ a := hlow
    have hhigh' : a < 0x1002 := hhigh
    obtain ⟨i, rfl⟩ := Nat.exists_eq_add_of_le hlow'
    exact hbytes i (by omega)
  · intro s hs
    have hends : headState
        (evalTurn sampleEnv (guDwarfOpsEval sampleEnv cfaEight.cfa 1 cfaEight.cfa)
          (blockOps mem block .valExpression)) dwEvalStepsMax (EvalState.init .clear) = none := by
      decide +kernel
    cases hends.symm.trans hs
  · rintro ⟨k, s, s', -, ⟨op, hop, hbranch, -⟩, -⟩
    have hstraight : ∀ op ∈ blockOps mem block .valExpression,
        op.atom ≠ .skip ∧ op.atom ≠ .bra := by decide +kernel
    obtain ⟨hskip, hbra⟩ := hstraight op (List.mem_of_getElem? hop)
    rcases hbranch with h | ⟨h, -⟩
    · exact hskip h
    · exact hbra h

/-- The block is `DW_OP_skip 0`, a branch to the byte behind it: the value expression recovers
the CFA, where there is a word, and the register expression fails. -/
theorem expression_fails_at_block_end :
    let mem := blockBytes [0x2f#8, 0x00#8, 0x00#8]
    let block : Block := ⟨3#64, 0x1000#64⟩
    Recovers sampleEnv (cfaEight.withBlock mem .rip .valExpression block) 2 16 .clear 0x7008#64 ∧
      sampleEnv.wordAt 0x7008#64 = some 0x2a#64 ∧
      ¬Recovers sampleEnv (cfaEight.withBlock mem .rip .expression block) 2 16 .clear 0x2a#64 := by
  intro mem block
  have hexpr : (genReg sampleEnv (cfaEight.withBlock mem .rip .expression block) 2 16 .clear).map
      (fun r => r.1.toOption) = some none := by decide +kernel
  refine ⟨⟨.clear, by decide +kernel⟩, by decide +kernel, ?_⟩
  rintro ⟨oor, hvalue⟩
  rw [hvalue] at hexpr
  cases hexpr

end Gunwinder
