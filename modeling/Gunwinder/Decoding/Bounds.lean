import Gunwinder.Core.Fetch
import Gunwinder.Native.CalcCtx

/-!
# Decoding stays inside its bytes

The decoders once more, as programs that fetch every byte they look at and store every
operation they write. Run on the bytes between the start and the end only, they give what the
model gives and fault nowhere.
-/

namespace Gunwinder

open Gunwinder.Core

/-! ## Encoded values -/

/-- Little-endian loads. -/
def fetch16 (a : Nat) : Fetch Byte (BitVec 16) := do
  let low ← fetch a
  let high ← fetch (a + 1)
  pure (high ++ low)

def fetch32 (a : Nat) : Fetch Byte (BitVec 32) := do
  let low ← fetch16 a
  let high ← fetch16 (a + 2)
  pure (high ++ low)

def fetch64 (a : Nat) : Fetch Byte Word := do
  let low ← fetch32 a
  let high ← fetch32 (a + 4)
  pure (high ++ low)

/-- The loop of `decode_uleb128`. -/
def fetchUlebLoop (buffer : Nat) : Nat → Nat → Nat → Word → Fetch Byte (Word × Nat)
  | 0, count, _, result => pure (result, count)
  | n + 1, count, shift, result => do
    let byte ← fetch (buffer + count)
    let result := result ||| shlInt byte shift
    if byte &&& 0x80#8 = 0#8 then pure (result, count + 1)
    else fetchUlebLoop buffer n (count + 1) (shift + 7) result

/-- The loop of `decode_sleb128`. -/
def fetchSlebLoop (buffer : Nat) :
    Nat → Nat → Nat → Word → Byte → Fetch Byte (Word × Nat × Nat × Byte)
  | 0, count, shift, result, byte => pure (result, count, shift, byte)
  | n + 1, count, shift, result, _ => do
    let byte ← fetch (buffer + count)
    let result := result ||| ((byte &&& 0x7f#8).setWidth 64 <<< (shift % 64))
    if byte &&& 0x80#8 = 0#8 then pure (result, count + 1, shift, byte)
    else fetchSlebLoop buffer n (count + 1) (shift + 7) result byte

/-- `decode_sleb128`. -/
def fetchSleb128 (buffer : Nat) : Fetch Byte (Word × Nat) := do
  match ← fetchSlebLoop buffer 10 0 0 0#64 0#8 with
  | (result, count, shift, byte) =>
    if byte &&& 0x40#8 = 0#8 then pure (result, count)
    else pure (result ||| ((~~~0#64) <<< ((shift + 7) % 64)), count)

/-- `decode_read`. -/
def fetchRead (buf : Nat) : PtrFormat → Fetch Byte (Word × Nat)
  | .uleb128 => do
    let (value, size) ← fetchUlebLoop buf 8 0 0 0#64
    pure (value, buf + size)
  | .sleb128 => do
    let (value, size) ← fetchSleb128 buf
    pure (value, buf + size)
  | .udata2 => do pure ((← fetch16 buf).setWidth 64, buf + 2)
  | .udata4 => do pure ((← fetch32 buf).setWidth 64, buf + 4)
  | .udata8 => do pure (← fetch64 buf, buf + 8)
  | .absptr => do pure (← fetch64 buf, buf + 8)
  | .sdata2 => do pure ((← fetch16 buf).signExtend 64, buf + 2)
  | .sdata4 => do pure ((← fetch32 buf).signExtend 64, buf + 4)
  | .sdata8 => do pure (← fetch64 buf, buf + 8)

/-- The loop at the end of `decode_read_fits`, from byte `i` with `n` bytes still allowed. -/
def fetchLebEnds (buf fin : Nat) : Nat → Nat → Fetch Byte Bool
  | 0, _ => pure false
  | n + 1, i =>
    if buf + i < fin then do
      let byte ← fetch (buf + i)
      if byte &&& 0x80#8 = 0#8 then pure true else fetchLebEnds buf fin n (i + 1)
    else pure false

/-- `decode_read_fits`. -/
def fetchReadFits (buf fin : Nat) (type : PtrFormat) : Fetch Byte Bool :=
  if buf = 0 ∨ fin = 0 ∨ fin < buf then pure false
  else
    match type with
    | .uleb128 => fetchLebEnds buf fin 8 0
    | .sleb128 => fetchLebEnds buf fin 10 0
    | .udata2 | .sdata2 => pure (2 ≤ fin - buf)
    | .udata4 | .sdata4 => pure (4 ≤ fin - buf)
    | .udata8 | .sdata8 | .absptr => pure (8 ≤ fin - buf)

/-- `decode_read_checked`. -/
def fetchReadChecked (buf fin : Nat) (type : Byte) : OptionT (Fetch Byte) (Word × Nat) :=
  match ptrFormat type with
  | none => failure
  | some fmt => do
    let fits ← OptionT.lift (fetchReadFits buf fin fmt)
    if fits then
      let (value, next) ← OptionT.lift (fetchRead buf fmt)
      if fin < next then failure else pure (value, next)
    else failure

section Values

variable {mem : Mem} {lo buf fin : Nat}

private theorem reads_fetch16 {a : Nat} (hlo : lo ≤ a) (hfin : a + 2 ≤ fin) :
    Reads mem lo fin (fetch16 a) (load16 mem a) :=
  (reads_fetch hlo (by omega)).bind
    ((reads_fetch (by omega) (by omega)).bind (reads_pure _))

private theorem reads_fetch32 {a : Nat} (hlo : lo ≤ a) (hfin : a + 4 ≤ fin) :
    Reads mem lo fin (fetch32 a) (load32 mem a) :=
  (reads_fetch16 hlo (by omega)).bind
    ((reads_fetch16 (by omega) (by omega)).bind (reads_pure _))

/-- A word inside the bounds. -/
theorem reads_fetch64 {a : Nat} (hlo : lo ≤ a) (hfin : a + 8 ≤ fin) :
    Reads mem lo fin (fetch64 a) (load64 mem a) :=
  (reads_fetch32 hlo (by omega)).bind
    ((reads_fetch32 (by omega) (by omega)).bind (reads_pure _))

/-- A sequence that ends before `fin` is fetched without touching `fin`. -/
theorem reads_fetchUlebLoop (hlo : lo ≤ buf) (n count shift : Nat) (result : Word)
    (hend : ∃ i < n, buf + count + i < fin ∧ mem (buf + count + i) &&& 0x80#8 = 0#8) :
    Reads mem lo fin (fetchUlebLoop buf n count shift result)
      (decodeUlebLoop mem buf n count shift result) := by
  induction n generalizing count shift result with
  | zero => exact reads_pure _
  | succ n ih =>
    obtain ⟨i, hi, hlt, hz⟩ := hend
    refine (reads_fetch (by omega) (by omega)).bind ?_
    simp only [decodeUlebLoop]
    split
    · exact reads_pure _
    · rename_i hne
      exact ih _ _ _ (endsAfter hi hlt hz hne)

private theorem reads_fetchSlebLoop (hlo : lo ≤ buf) (n count shift : Nat) (result : Word)
    (byte : Byte) (hend : ∃ i < n, buf + count + i < fin ∧ mem (buf + count + i) &&& 0x80#8 = 0#8) :
    Reads mem lo fin (fetchSlebLoop buf n count shift result byte)
      (decodeSlebLoop mem buf n count shift result byte) := by
  induction n generalizing count shift result byte with
  | zero => exact reads_pure _
  | succ n ih =>
    obtain ⟨i, hi, hlt, hz⟩ := hend
    refine (reads_fetch (by omega) (by omega)).bind ?_
    simp only [decodeSlebLoop]
    split
    · exact reads_pure _
    · rename_i hne
      exact ih _ _ _ _ (endsAfter hi hlt hz hne)

private theorem reads_fetchSleb128 (hlo : lo ≤ buf) (hend : lebEnds mem buf fin 10 = true) :
    Reads mem lo fin (fetchSleb128 buf) (decodeSleb128 mem buf) := by
  refine (reads_fetchSlebLoop hlo 10 0 0 0#64 0#8 (lebEnds_iff.mp hend)).bind ?_
  unfold decodeSleb128
  rcases decodeSlebLoop mem buf 10 0 0 0#64 0#8 with ⟨result, count, shift, byte⟩
  dsimp only
  split
  · exact reads_pure _
  · exact reads_pure _

/-- A byte that does not end the sequence leaves the search to the bytes behind it. -/
theorem lebEnds_succ {i : Nat} (n : Nat) (hne : ¬mem (buf + i) &&& 0x80#8 = 0#8) :
    lebEnds mem (buf + i) fin (n + 1) = lebEnds mem (buf + (i + 1)) fin n := by
  rw [Bool.eq_iff_iff, lebEnds_iff, lebEnds_iff]
  constructor
  · rintro ⟨j, hj, hlt, hz⟩
    exact endsAfter hj hlt hz hne
  · rintro ⟨j, hj, hlt, hz⟩
    have hshift : buf + (i + 1) + j = buf + i + (j + 1) := by omega
    rw [hshift] at hlt hz
    exact ⟨j + 1, by omega, hlt, hz⟩

/-- The search for the last byte of a sequence looks at bytes before `fin` only. -/
theorem reads_fetchLebEnds (hlo : lo ≤ buf) (n i : Nat) :
    Reads mem lo fin (fetchLebEnds buf fin n i) (lebEnds mem (buf + i) fin n) := by
  induction n generalizing i with
  | zero => exact reads_pure false
  | succ n ih =>
    simp only [fetchLebEnds]
    split
    · rename_i hlt
      refine (reads_fetch (by omega) hlt).bind ?_
      split
      · rename_i hz
        have hends : lebEnds mem (buf + i) fin (n + 1) = true :=
          lebEnds_iff.mpr ⟨0, Nat.succ_pos n, hlt, hz⟩
        rw [hends]
        exact reads_pure true
      · rename_i hne
        rw [lebEnds_succ n hne]
        exact ih (i + 1)
    · rename_i hge
      have hnone : lebEnds mem (buf + i) fin (n + 1) = false := by
        rw [Bool.eq_false_iff]
        intro h
        obtain ⟨j, -, hlt, -⟩ := lebEnds_iff.mp h
        omega
      rw [hnone]
      exact reads_pure false

private theorem reads_fetchReadFits (hlo : lo ≤ buf) (fmt : PtrFormat) :
    Reads mem lo fin (fetchReadFits buf fin fmt) (decodeReadFits mem buf fin fmt) := by
  unfold fetchReadFits decodeReadFits
  split
  · exact reads_pure false
  cases fmt
  case uleb128 => exact reads_fetchLebEnds hlo 8 0
  case sleb128 => exact reads_fetchLebEnds hlo 10 0
  all_goals exact reads_pure _

/-- Where the value fits, every byte that is fetched for it lies in the buffer. -/
theorem reads_fetchRead (hlo : lo ≤ buf) {fmt : PtrFormat}
    (hfit : decodeReadFits mem buf fin fmt = true) :
    Reads mem lo fin (fetchRead buf fmt) (decodeRead mem buf fmt) := by
  unfold decodeReadFits at hfit
  split at hfit
  · cases hfit
  rename_i hne
  push Not at hne
  cases fmt <;> simp only [decide_eq_true_eq] at hfit
  case uleb128 =>
    exact (reads_fetchUlebLoop hlo 8 0 0 0#64 (lebEnds_iff.mp hfit)).bind (reads_pure _)
  case sleb128 => exact (reads_fetchSleb128 hlo hfit).bind (reads_pure _)
  case udata2 | sdata2 => exact (reads_fetch16 hlo (by omega)).bind (reads_pure _)
  case udata4 | sdata4 => exact (reads_fetch32 hlo (by omega)).bind (reads_pure _)
  case udata8 | sdata8 | absptr => exact (reads_fetch64 hlo (by omega)).bind (reads_pure _)

/-- `decode_read_checked` fetches bytes of its buffer only. -/
theorem reads_fetchReadChecked (hlo : lo ≤ buf) (type : Byte) :
    Reads mem lo fin (fetchReadChecked buf fin type).run
      (decodeReadChecked mem buf fin type) := by
  unfold fetchReadChecked decodeReadChecked
  cases ptrFormat type with
  | none => exact reads_pure none
  | some fmt =>
    refine (reads_fetchReadFits hlo fmt).lift ?_
    dsimp only
    split
    · rename_i hfit
      refine (reads_fetchRead hlo hfit).lift ?_
      split
      · exact reads_pure none
      · exact reads_pure _
    · exact reads_pure none

end Values

/-! ## Instructions -/

section Instructions

variable (dBuf insEnd : Nat)

/-- An instruction with one encoded operand. -/
def fetchOne (type : Byte) (ins : Nat) (make : Word → CfaIns) :
    OptionT (Fetch Byte) (CfaIns × Nat) := do
  let (operand, ins) ← fetchReadChecked ins insEnd type
  pure (make operand, ins)

/-- An instruction with two encoded operands. -/
def fetchTwo (type type2 : Byte) (ins : Nat) (make : Word → Word → CfaIns) :
    OptionT (Fetch Byte) (CfaIns × Nat) := do
  let (operand, ins) ← fetchReadChecked ins insEnd type
  let (operand2, ins) ← fetchReadChecked ins insEnd type2
  pure (make operand operand2, ins)

/-- A register rule given by an expression block. -/
def fetchRegExpression (ins : Nat) (make : Word → Word → CfaIns) :
    OptionT (Fetch Byte) (CfaIns × Nat) := do
  let (regno, ins) ← fetchReadChecked ins insEnd dwEhPeUleb128
  let (length, data) ← fetchReadChecked ins insEnd dwEhPeUleb128
  if blockFits data insEnd length then
    pure (make regno (BitVec.ofNat 64 (ins - dBuf)), data + length.toNat)
  else failure

/-- `DW_CFA_def_cfa_expression`. -/
def fetchCfaExpression (ins : Nat) : OptionT (Fetch Byte) (CfaIns × Nat) := do
  let (length, data) ← fetchReadChecked ins insEnd dwEhPeUleb128
  if blockFits data insEnd length then
    pure (.defCfaExpression ⟨length, BitVec.ofNat 64 data⟩, data + length.toNat)
  else failure

/-- The instruction whose opcode is at `ins`. -/
def fetchIns (fdeEncoding : Byte) (ins : Nat) : OptionT (Fetch Byte) (CfaIns × Nat) := do
  let op ← OptionT.lift (fetch ins)
  let operand : Word := (op &&& 0x3f#8).setWidth 64
  let ins := ins + 1
  if 0x40 ≤ op.toNat ∧ op.toNat ≤ 0x7f then pure (.advanceLoc operand, ins)
  else if 0x80 ≤ op.toNat ∧ op.toNat ≤ 0xbf then
    fetchOne insEnd dwEhPeUleb128 ins (.offset operand)
  else if 0xc0 ≤ op.toNat then pure (.restore operand, ins)
  else
    match op.toNat with
    | 0x00 => pure (.nop, ins)
    | 0x01 => fetchOne insEnd fdeEncoding ins .setLoc
    | 0x02 =>
      if insEnd ≤ ins then failure
      else do
        let operand ← OptionT.lift (fetch ins)
        pure (.advanceLoc (operand.setWidth 64), ins + 1)
    | 0x03 => fetchOne insEnd dwEhPeUdata2 ins .advanceLoc
    | 0x04 => fetchOne insEnd dwEhPeUdata4 ins .advanceLoc
    | 0x05 => fetchTwo insEnd dwEhPeUleb128 dwEhPeUleb128 ins .offset
    | 0x06 => fetchOne insEnd dwEhPeUleb128 ins .restore
    | 0x07 => fetchOne insEnd dwEhPeUleb128 ins .undefined
    | 0x08 => fetchOne insEnd dwEhPeUleb128 ins .sameValue
    | 0x09 => fetchTwo insEnd dwEhPeUleb128 dwEhPeUleb128 ins .register
    | 0x0a => pure (.rememberState, ins)
    | 0x0b => pure (.restoreState, ins)
    | 0x0c => fetchTwo insEnd dwEhPeUleb128 dwEhPeUleb128 ins .defCfa
    | 0x0d => fetchOne insEnd dwEhPeUleb128 ins .defCfaRegister
    | 0x0e => fetchOne insEnd dwEhPeUleb128 ins .defCfaOffset
    | 0x0f => fetchCfaExpression insEnd ins
    | 0x10 => fetchRegExpression dBuf insEnd ins .expression
    | 0x11 => fetchTwo insEnd dwEhPeUleb128 dwEhPeSleb128 ins .offsetSf
    | 0x12 => fetchTwo insEnd dwEhPeUleb128 dwEhPeSleb128 ins .defCfaSf
    | 0x13 => fetchOne insEnd dwEhPeSleb128 ins .defCfaOffsetSf
    | 0x14 => fetchTwo insEnd dwEhPeUleb128 dwEhPeUleb128 ins .valOffset
    | 0x15 => fetchTwo insEnd dwEhPeUleb128 dwEhPeSleb128 ins .valOffsetSf
    | 0x16 => fetchRegExpression dBuf insEnd ins .valExpression
    | 0x1d => fetchOne insEnd dwEhPeUdata8 ins .advanceLoc
    | 0x2e => fetchOne insEnd dwEhPeUleb128 ins .argsSize
    | 0x2f => fetchTwo insEnd dwEhPeUleb128 dwEhPeUleb128 ins .negativeOffset
    | _ => pure (.unknown op, ins)

end Instructions

section Instructions

variable {sec : Section} {lo insEnd ins : Nat}

variable (hlo : lo ≤ ins)
include hlo

private theorem reads_fetchOne (type : Byte) (make : Word → CfaIns) :
    Reads sec.mem lo insEnd (fetchOne insEnd type ins make).run
      (readOne sec insEnd type ins make) :=
  (reads_fetchReadChecked hlo type).andThen fun _ _ => reads_pure _

private theorem reads_fetchTwo (type type2 : Byte) (make : Word → Word → CfaIns) :
    Reads sec.mem lo insEnd (fetchTwo insEnd type type2 ins make).run
      (readTwo sec insEnd type type2 ins make) := by
  refine (reads_fetchReadChecked hlo type).andThen ?_
  rintro ⟨operand, mid⟩ hread
  have hb := decodeReadChecked_bounds hread
  exact (reads_fetchReadChecked (hlo.trans hb.1.le) type2).andThen fun _ _ => reads_pure _

private theorem reads_fetchRegExpression (make : Word → Word → CfaIns) :
    Reads sec.mem lo insEnd (fetchRegExpression sec.dBuf insEnd ins make).run
      (readRegExpression sec insEnd ins make) := by
  refine (reads_fetchReadChecked hlo dwEhPeUleb128).andThen ?_
  rintro ⟨regno, mid⟩ hread
  have hb := decodeReadChecked_bounds hread
  refine (reads_fetchReadChecked (hlo.trans hb.1.le) dwEhPeUleb128).andThen ?_
  rintro ⟨length, data⟩ -
  dsimp only
  split
  · exact reads_pure _
  · exact reads_pure none

private theorem reads_fetchCfaExpression :
    Reads sec.mem lo insEnd (fetchCfaExpression insEnd ins).run
      (readCfaExpression sec insEnd ins) := by
  refine (reads_fetchReadChecked hlo dwEhPeUleb128).andThen ?_
  rintro ⟨length, data⟩ -
  dsimp only
  split
  · exact reads_pure _
  · exact reads_pure none

/-- An instruction is read from the bytes between its opcode and the end. -/
theorem reads_fetchIns (hins : ins < insEnd) (fdeEncoding : Byte) :
    Reads sec.mem lo insEnd (fetchIns sec.dBuf insEnd fdeEncoding ins).run
      (readIns sec insEnd fdeEncoding ins) := by
  have hlo' : lo ≤ ins + 1 := hlo.trans (Nat.le_succ ins)
  generalize hread : readIns sec insEnd fdeEncoding ins = result
  refine (reads_fetch hlo hins).lift ?_
  unfold readIns at hread
  dsimp only at hread ⊢
  generalize sec.mem ins = op at hread ⊢
  split
  · rename_i hop
    rw [if_pos hop] at hread
    exact hread ▸ reads_pure _
  · rename_i hadvance
    rw [if_neg hadvance] at hread
    split
    · rename_i hop
      rw [if_pos hop] at hread
      exact hread ▸ reads_fetchOne hlo' _ _
    · rename_i hoffset
      rw [if_neg hoffset] at hread
      split
      · rename_i hop
        rw [if_pos hop] at hread
        exact hread ▸ reads_pure _
      · rename_i hrestore
        rw [if_neg hrestore] at hread
        generalize op.toNat = code at hread ⊢
        split
        -- `DW_CFA_advance_loc1` checks its one operand byte by hand
        case h_3 =>
          change (if insEnd ≤ ins + 1 then none
            else some (.advanceLoc ((sec.mem (ins + 1)).setWidth 64), ins + 1 + 1)) =
              result at hread
          split
          · rename_i hend
            rw [if_pos hend] at hread
            exact hread ▸ reads_pure none
          · rename_i hend
            rw [if_neg hend] at hread
            exact hread ▸ (reads_fetch hlo' (by omega)).lift (reads_pure _)
        case h_16 => exact hread ▸ reads_fetchCfaExpression hlo'
        case h_17 | h_23 => exact hread ▸ reads_fetchRegExpression hlo' _
        -- the default of the other match is reached by the same inequalities
        case h_27 =>
          split at hread
          all_goals first
            | contradiction
            | exact hread ▸ reads_pure _
        all_goals first
          | exact hread ▸ reads_pure _
          | exact hread ▸ reads_fetchOne hlo' _ _
          | exact hread ▸ reads_fetchTwo hlo' _ _ _

end Instructions

/-! ## The instruction loop -/

section Loop

variable {H P : Type} (S : SavedStates H P)

/-- One turn of the loop of `init_calc_ctx_by_ins`. -/
def fetchInsTurn (par : InsParams) (fdeEncoding : Byte) (dBuf insEnd : Nat) (findPc : Word)
    (s : InsState H P) : Fetch Byte (Turn (InsState H P) (InsResult H P)) :=
  if s.ins < insEnd then do
    match ← (fetchIns dBuf insEnd fdeEncoding s.ins).run with
    | none => pure (.stop ⟨false, s.ctx, s.heap⟩)
    | some (ins, next) =>
      match execIns S par s.ctx s.heap ins with
      | .error heap => pure (.stop ⟨false, s.ctx, heap⟩)
      | .ok (ctx, heap) =>
        match execLoc par s.loc ins with
        | none => pure (.next ⟨next, s.loc, ctx, heap⟩)
        | some loc =>
          if findPc < loc then pure (.stop ⟨true, ctx, heap⟩)
          else pure (.next ⟨next, loc, ctx, heap⟩)
  else pure (.stop ⟨true, s.ctx, s.heap⟩)

/-- `init_calc_ctx_by_ins`, stopped after `n` turns. -/
def fetchCalcCtxByIns (arch : Arch) (dBuf : Nat) (cie : Cie P) (ctx : CalcCtx P) (heap : H)
    (insStart insEnd : Nat) (loc findPc : Word) (n : Nat) : Fetch Byte (InsResult H P) :=
  fetchLoop (fetchInsTurn S (cie.params arch insStart) cie.fdeEncoding dBuf insEnd findPc)
    insOut n ⟨insStart, loc, ctx, heap⟩

variable {S} {sec : Section} {par : InsParams} {fdeEncoding : Byte} {insStart insEnd : Nat}
  {findPc : Word}

variable {s : InsState H P}

private theorem reads_fetchInsTurn (hlo : insStart ≤ s.ins) :
    Reads sec.mem insStart insEnd (fetchInsTurn S par fdeEncoding sec.dBuf insEnd findPc s)
      (insTurn S sec par fdeEncoding insEnd findPc s) := by
  unfold fetchInsTurn insTurn
  split
  · rename_i hlt
    refine (reads_fetchIns hlo hlt fdeEncoding).bind ?_
    cases readIns sec insEnd fdeEncoding s.ins with
    | none => exact reads_pure _
    | some p =>
      obtain ⟨ins, next⟩ := p
      dsimp only
      cases execIns S par s.ctx s.heap ins with
      | error heap => exact reads_pure _
      | ok q =>
        dsimp only
        cases execLoc par s.loc ins with
        | none => exact reads_pure _
        | some loc =>
          dsimp only
          split
          · exact reads_pure _
          · exact reads_pure _
  · exact reads_pure _

/-- A turn that goes on has consumed a byte, and only bytes before the end. -/
theorem insTurn_consumes {s' : InsState H P}
    (h : insTurn S sec par fdeEncoding insEnd findPc s = .next s') :
    s.ins < s'.ins ∧ s'.ins ≤ insEnd := by
  obtain ⟨hlt, ins, hread, -⟩ := insTurn_next h
  exact readIns_bounds hlt hread

/-- Behind the last byte the loop stops by itself. -/
theorem insTurn_end (h : insEnd ≤ s.ins) :
    insTurn S sec par fdeEncoding insEnd findPc s = .stop (insOut s) := by
  rw [insTurn, if_neg (Nat.not_lt.mpr h), insOut]

/-- The `n`-th turn of a run starts at least `n` bytes behind its first. -/
theorem headState_consumed {start : InsState H P} {n : Nat}
    (h : headState (insTurn S sec par fdeEncoding insEnd findPc) n start = some s) :
    start.ins + n ≤ s.ins := by
  refine headState_invariant (fun n s => start.ins + n ≤ s.ins) le_rfl ?_ h
  rintro n t t' - ht hnext
  have := insTurn_consumes hnext
  omega

/-- With a turn for each byte, the loop gives what the model gives and fetches no byte outside
its range. -/
theorem reads_fetchCalcCtxByIns (arch : Arch) (cie : Cie P)
    (ctx : CalcCtx P) (heap : H) (loc : Word) {n : Nat} (hn : insEnd - insStart ≤ n) :
    Reads sec.mem insStart insEnd
      (fetchCalcCtxByIns S arch sec.dBuf cie ctx heap insStart insEnd loc findPc n)
      (initCalcCtxByIns S arch sec cie ctx heap insStart insEnd loc findPc) := by
  have hbudget : initCalcCtxByIns S arch sec cie ctx heap insStart insEnd loc findPc =
      loop (insTurn S sec (cie.params arch insStart) cie.fdeEncoding insEnd findPc) insOut n
        ⟨insStart, loc, ctx, heap⟩ := by
    refine loop_of_measure (fun s => insEnd - s.ins) ?_ ?_ le_rfl hn
    · intro s s' hnext
      obtain ⟨hlt, -⟩ := insTurn_next hnext
      have := insTurn_consumes hnext
      omega
    · intro s hzero
      exact insTurn_end (by omega)
  rw [hbudget]
  refine reads_fetchLoop insOut (fun s => insStart ≤ s.ins) ?_ ?_ n le_rfl
  · intro s hlo
    exact reads_fetchInsTurn hlo
  · intro s s' hlo hnext
    have := insTurn_consumes hnext
    omega

end Loop

/-! ## Operations -/

/-- The operands of an operation. -/
def fetchOperands (data fin : Nat) : OperandForm → OptionT (Fetch Byte) (Word × Word × Nat)
  | .none => pure (0#64, 0#64, data)
  | .byte =>
    if fin ≤ data then failure
    else do
      let byte ← OptionT.lift (fetch data)
      pure (byte.setWidth 64, 0#64, data + 1)
  | .sbyte =>
    if fin ≤ data then failure
    else do
      let byte ← OptionT.lift (fetch data)
      pure (byte.signExtend 64, 0#64, data + 1)
  | .one type => do
    let (number, data) ← fetchReadChecked data fin type
    pure (number, 0#64, data)
  | .two type type2 => do
    let (number, data) ← fetchReadChecked data fin type
    let (number2, data) ← fetchReadChecked data fin type2
    pure (number, number2, data)
  | .byteThen type =>
    if fin ≤ data then failure
    else do
      let byte ← OptionT.lift (fetch data)
      let (number2, next) ← fetchReadChecked (data + 1) fin type
      pure (byte.setWidth 64, number2, next)

/-- One turn of the decoder. -/
def fetchOp (base fin data : Nat) : OptionT (Fetch Byte) (DwarfOp × Nat) := do
  let byte ← OptionT.lift (fetch data)
  match operandForm (Atom.ofByte byte) with
  | none => failure
  | some form =>
    let (number, number2, next) ← fetchOperands (data + 1) fin form
    pure (⟨Atom.ofByte byte, number, number2, BitVec.ofNat 64 (data - base)⟩, next)

/-- The decoding loop, stopped after `n` turns; `ops` stand in the static buffer. -/
def fetchOps (base fin : Nat) :
    Nat → Nat → List DwarfOp → OptionT (Fetch Byte) (List DwarfOp × Nat)
  | 0, data, ops => pure (ops, data)
  | n + 1, data, ops =>
    if data < fin ∧ ops.length < dwarfOpsMax then do
      let (op, next) ← fetchOp base fin data
      let ops ← OptionT.lift (store dwarfOpsMax ops op)
      fetchOps base fin n next ops
    else pure (ops, data)

/-- The operation stored in front of a register rule's block. -/
def storePrologue (cfa : Bool) : Fetch Byte (List DwarfOp) :=
  if cfa then pure [] else store dwarfOpsMax [] (.bare .callFrameCfa)

/-- The operation stored behind a `val_expression` block of `len` bytes. -/
def storeEpilogue (rule : FrameRule) (len : Nat) (ops : List DwarfOp) :
    Fetch Byte (List DwarfOp) :=
  if rule = .valExpression then
    store dwarfOpsMax ops ⟨.stackValue, 0#64, 0#64, BitVec.ofNat 64 len⟩
  else pure ops

/-- `gu_cfi_init_ops_from_block` with its loop stopped after `n` turns. -/
def fetchInitOpsFromBlock (block : Block) (rule : FrameRule) (cfa : Bool) (n : Nat) :
    OptionT (Fetch Byte) (List DwarfOp) :=
  if block.length = 0#64 then failure
  else do
    let ops ← OptionT.lift (storePrologue cfa)
    let (ops, data) ← fetchOps block.start block.fin n block.start ops
    if data < block.fin ∨ dwarfOpsMax ≤ ops.length then failure
    else OptionT.lift (storeEpilogue rule (data - block.start) ops)

section Operations

variable {mem : Mem} {lo base fin data : Nat}

private theorem reads_fetchOperands (hlo : lo ≤ data) (form : OperandForm) :
    Reads mem lo fin (fetchOperands data fin form).run (readOperands mem data fin form) := by
  cases form with
  | none => exact reads_pure _
  | byte | sbyte =>
    simp only [fetchOperands, readOperands]
    split
    · exact reads_pure none
    · exact (reads_fetch hlo (by omega)).lift (reads_pure _)
  | one type =>
    simp only [fetchOperands, readOperands]
    refine (reads_fetchReadChecked hlo type).cases (fun hread => by rw [hread]) ?_
    rintro ⟨number, next⟩ hread
    rw [hread]
    exact reads_pure _
  | two type type2 =>
    simp only [fetchOperands, readOperands]
    refine (reads_fetchReadChecked hlo type).cases (fun hread => by rw [hread]) ?_
    rintro ⟨number, mid⟩ hread
    rw [hread]
    have hmid := hlo.trans (decodeReadChecked_bounds hread).1.le
    refine (reads_fetchReadChecked hmid type2).cases (fun hread2 => by simp only [hread2]) ?_
    rintro ⟨number2, next⟩ hread2
    simp only [hread2]
    exact reads_pure _
  | byteThen type =>
    simp only [fetchOperands, readOperands]
    split
    · exact reads_pure none
    refine (reads_fetch hlo (by omega)).lift ?_
    have hnext := hlo.trans (Nat.le_succ data)
    refine (reads_fetchReadChecked hnext type).cases (fun hread => by rw [hread]) ?_
    rintro ⟨number2, next⟩ hread
    rw [hread]
    exact reads_pure _

private theorem reads_fetchOp (hlo : lo ≤ data) (hd : data < fin) :
    Reads mem lo fin (fetchOp base fin data).run (decodeOp mem base fin data) := by
  refine (reads_fetch hlo hd).lift ?_
  unfold decodeOp
  cases operandForm (Atom.ofByte (mem data)) with
  | none => exact reads_pure none
  | some form =>
    have hnext := hlo.trans (Nat.le_succ data)
    refine (reads_fetchOperands hnext form).cases (fun hread => by simp only [hread]) ?_
    rintro ⟨number, number2, next⟩ hread
    simp only [hread]
    exact reads_pure _

/-- Behind the last byte there is nothing to decode. -/
theorem decodeOps_end (h : ¬data < fin) (room : Nat) :
    decodeOps mem base fin room data = some ([], data) := by
  cases room with
  | zero => rfl
  | succ room => rw [decodeOps, if_neg h]

/-- What the decoding loop leaves when `ops` are in the buffer and `more` is decoded. -/
def appendOps (ops : List DwarfOp) (more : Option (List DwarfOp × Nat)) :
    Option (List DwarfOp × Nat) :=
  more.map fun p => (ops ++ p.1, p.2)

@[simp] theorem appendOps_some (ops more : List DwarfOp) (last : Nat) :
    appendOps ops (some (more, last)) = some (ops ++ more, last) := rfl

/-- With a turn for each byte, the decoding loop keeps to the block and to the buffer. -/
theorem reads_fetchOps (n : Nat) (ops : List DwarfOp) (hlo : lo ≤ data) (hn : fin - data ≤ n) :
    Reads mem lo fin (fetchOps base fin n data ops).run
      (appendOps ops (decodeOps mem base fin (dwarfOpsMax - ops.length) data)) := by
  induction n generalizing data ops with
  | zero =>
    rw [decodeOps_end (by omega), appendOps_some, List.append_nil]
    exact reads_pure _
  | succ n ih =>
    simp only [fetchOps]
    split
    · rename_i hgo
      have hroom : dwarfOpsMax - ops.length = dwarfOpsMax - (ops.length + 1) + 1 := by omega
      rw [hroom, decodeOps, if_pos hgo.1]
      refine (reads_fetchOp hlo hgo.1).cases (fun hop => by simp [hop, appendOps]) ?_
      rintro ⟨op, next⟩ hop
      have hb := decodeOp_bounds hgo.1 hop
      refine (reads_store hgo.2 op).lift ?_
      have hrest := ih (ops ++ [op]) (hlo.trans hb.1.le) (by omega : fin - next ≤ n)
      rw [List.length_append, List.length_singleton] at hrest
      simp only [hop]
      cases hmore : decodeOps mem base fin (dwarfOpsMax - (ops.length + 1)) next with
      | none =>
        rw [hmore] at hrest
        exact hrest
      | some p =>
        rw [hmore, appendOps_some, List.append_assoc] at hrest
        exact hrest
    · rename_i hstop
      rcases Nat.lt_or_ge data fin with hlt | hge
      · have hfull : dwarfOpsMax - ops.length = 0 := by omega
        rw [hfull, decodeOps, appendOps_some, List.append_nil]
        exact reads_pure _
      · rw [decodeOps_end (by omega), appendOps_some, List.append_nil]
        exact reads_pure _

private theorem reads_storePrologue (cfa : Bool) :
    Reads mem lo fin (storePrologue cfa) (opsPrologue cfa) := by
  cases cfa with
  | true => exact reads_pure _
  | false =>
    have hroom : ([] : List DwarfOp).length < dwarfOpsMax := by decide
    exact reads_store hroom _

private theorem reads_storeEpilogue {ops : List DwarfOp} (hops : ops.length < dwarfOpsMax)
    (rule : FrameRule) (len : Nat) :
    Reads mem lo fin (storeEpilogue rule len ops) (ops ++ opsEpilogue rule len) := by
  unfold storeEpilogue opsEpilogue
  split
  · exact reads_store hops _
  · rw [List.append_nil]
    exact reads_pure _

/-- `gu_cfi_init_ops_from_block` keeps to its block and to the static buffer. -/
theorem reads_fetchInitOpsFromBlock (mem : Mem) (block : Block) (rule : FrameRule) (cfa : Bool)
    {n : Nat} (hn : block.length.toNat ≤ n) :
    Reads mem block.start block.fin (fetchInitOpsFromBlock block rule cfa n).run
      (guCfiInitOpsFromBlock mem block rule cfa) := by
  unfold fetchInitOpsFromBlock guCfiInitOpsFromBlock
  split
  · exact reads_pure none
  refine (reads_storePrologue cfa).lift ?_
  have hbytes : block.fin - block.start ≤ n := by
    simp only [Block.fin, Block.start]
    omega
  have hloop : Reads mem block.start block.fin
      (fetchOps block.start block.fin n block.start (opsPrologue cfa)).run
      (appendOps (opsPrologue cfa) (decodeOps mem block.start block.fin
        (dwarfOpsMax - (opsPrologue cfa).length) block.start)) :=
    reads_fetchOps n _ le_rfl hbytes
  cases hops : decodeOps mem block.start block.fin (dwarfOpsMax - (opsPrologue cfa).length)
      block.start with
  | none =>
    rw [hops] at hloop
    refine hloop.cases (fun _ => rfl) ?_
    rintro _ ⟨⟩
  | some p =>
    obtain ⟨ops, last⟩ := p
    rw [hops] at hloop
    refine hloop.cases (fun hnone => absurd hnone (Option.some_ne_none _)) ?_
    rintro _ hsome
    cases hsome
    simp only [List.length_append]
    split
    · exact reads_pure none
    · rename_i hroom
      rw [← List.length_append] at hroom
      exact (reads_storeEpilogue (by omega) rule _).bind (reads_pure _)

/-- An accepted block fills at most the static buffer. -/
theorem guCfiInitOpsFromBlock_length {block : Block} {rule : FrameRule} {cfa : Bool}
    {ops : List DwarfOp} (h : guCfiInitOpsFromBlock mem block rule cfa = some ops) :
    ops.length ≤ dwarfOpsMax := by
  unfold guCfiInitOpsFromBlock at h
  split at h
  · cases h
  split at h
  · cases h
  split at h
  · cases h
  rename_i more last _ hroom
  cases h
  have hepi : (opsEpilogue rule (last - block.start)).length ≤ 1 := by
    unfold opsEpilogue
    split
    · exact le_rfl
    · exact Nat.zero_le 1
  simp only [List.length_append]
  omega

end Operations

end Gunwinder
