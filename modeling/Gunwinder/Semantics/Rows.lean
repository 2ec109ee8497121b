import Gunwinder.Native.CalcCtx

/-!
# Rows of the unwind table

What call frame instructions mean: a whole instruction stream is executed on a full
register file, over integers, with an explicit stack of remembered rows. The result is the
table of rows. Instructions that have no meaning in the current row make the stream meaningless.
-/

namespace Gunwinder

/-- How the canonical frame address is computed. Offsets are added to an address, so they
are words. -/
inductive CfaDef where
  | undefined
  | regOffset (reg : Nat) (offset : Word)
  | expr (block : Block)
  deriving DecidableEq, Repr

/-- How a register of the caller is recovered. Expressions are named by the place of their
block in the section. -/
inductive RegRule where
  | unspecified
  | undefined
  | sameValue
  | offset (n : Int)
  | valOffset (n : Int)
  | register (reg : Nat)
  | expression (place : Nat)
  | valExpression (place : Nat)
  deriving DecidableEq, Repr

/-- A row: the CFA and a rule for every register. -/
structure Row where
  cfa : CfaDef
  regs : Nat → RegRule

/-- Give a register a rule. -/
def Row.setReg (row : Row) (reg : Nat) (rule : RegRule) : Row :=
  { row with regs := Function.update row.regs reg rule }

/-- What the instructions of an FDE take from its CIE. -/
structure RowParams where
  codeFactor : Nat
  dataFactor : Int
  /-- The register a number stands for. -/
  reg : Nat → Nat
  /-- The row behind the initial instructions. -/
  initial : Row

/-- The current location and row, and the remembered rows. -/
structure RowState where
  loc : Nat
  row : Row
  stack : List Row

/-- The instructions that change the row in place; `none` where they have no meaning. -/
def rowRule (par : RowParams) (row : Row) : CfaIns → Option Row
  | .defCfa reg offset => some { row with cfa := .regOffset reg.toNat offset }
  | .defCfaSf reg offset =>
    some { row with cfa := .regOffset reg.toNat (.ofInt 64 (offset.toInt * par.dataFactor)) }
  | .defCfaRegister reg =>
    match row.cfa with
    | .regOffset _ offset => some { row with cfa := .regOffset reg.toNat offset }
    | _ => none
  | .defCfaOffset offset =>
    match row.cfa with
    | .regOffset reg _ => some { row with cfa := .regOffset reg offset }
    | _ => none
  | .defCfaOffsetSf offset =>
    match row.cfa with
    | .regOffset reg _ =>
      some { row with cfa := .regOffset reg (.ofInt 64 (offset.toInt * par.dataFactor)) }
    | _ => none
  | .defCfaExpression block => some { row with cfa := .expr block }
  | .undefined reg => some (row.setReg (par.reg reg.toNat) .undefined)
  | .sameValue reg => some (row.setReg (par.reg reg.toNat) .sameValue)
  | .offset reg n => some (row.setReg (par.reg reg.toNat) (.offset (n.toNat * par.dataFactor)))
  | .offsetSf reg n => some (row.setReg (par.reg reg.toNat) (.offset (n.toInt * par.dataFactor)))
  | .negativeOffset reg n =>
    some (row.setReg (par.reg reg.toNat) (.offset (-n.toNat * par.dataFactor)))
  | .valOffset reg n =>
    some (row.setReg (par.reg reg.toNat) (.valOffset (n.toNat * par.dataFactor)))
  | .valOffsetSf reg n =>
    some (row.setReg (par.reg reg.toNat) (.valOffset (n.toInt * par.dataFactor)))
  | .register reg other => some (row.setReg (par.reg reg.toNat) (.register other.toNat))
  | .expression reg place => some (row.setReg (par.reg reg.toNat) (.expression place.toNat))
  | .valExpression reg place =>
    some (row.setReg (par.reg reg.toNat) (.valExpression place.toNat))
  | .restore reg =>
    some (row.setReg (par.reg reg.toNat) (par.initial.regs (par.reg reg.toNat)))
  | .nop | .argsSize _ => some row
  | .advanceLoc _ | .setLoc _ | .rememberState | .restoreState | .unknown _ => none

/-- The location an instruction moves to, if it moves. -/
def rowLoc (par : RowParams) (loc : Nat) : CfaIns → Option Nat
  | .advanceLoc delta => some (loc + delta.toNat * par.codeFactor)
  | .setLoc loc => some loc.toNat
  | _ => none

/-- One instruction that does not move the location. -/
def rowStep (par : RowParams) (st : RowState) : CfaIns → Option RowState
  | .rememberState => some { st with stack := st.row :: st.stack }
  | .restoreState =>
    match st.stack with
    | [] => none
    | row :: stack => some { st with row, stack }
  | ins => (rowRule par st.row ins).map fun row => { st with row }

/-- The table of a stream: a row is closed when the location moves and at the end. -/
def rowTable (par : RowParams) : RowState → List CfaIns → Option (List (Nat × Row))
  | st, [] => some [(st.loc, st.row)]
  | st, ins :: rest =>
    match rowLoc par st.loc ins with
    | some loc => (rowTable par { st with loc } rest).map ((st.loc, st.row) :: ·)
    | none =>
      match rowStep par st ins with
      | none => none
      | some st' => rowTable par st' rest

/-- The last row at or below a pc. -/
def rowAt (table : List (Nat × Row)) (pc : Nat) : Option Row :=
  ((table.filter fun entry => entry.1 ≤ pc).getLast?).map Prod.snd

/-- All instructions of a byte range; `none` when an operand cannot be read. -/
def readAll (sec : Section) (fdeEncoding : Byte) (insEnd : Nat) : Nat → Nat → Option (List CfaIns)
  | 0, ins => if ins < insEnd then none else some []
  | n + 1, ins =>
    if ins < insEnd then
      match readIns sec insEnd fdeEncoding ins with
      | none => none
      | some (i, next) => (readAll sec fdeEncoding insEnd n next).map (i :: ·)
    else some []

section Table

variable {par : RowParams} {st st' : RowState} {ins : CfaIns} {is : List CfaIns}
  {table : List (Nat × Row)}

/-- Only `rowLoc` moves the location. -/
theorem rowStep_loc (h : rowStep par st ins = some st') : st'.loc = st.loc := by
  unfold rowStep at h
  split at h
  · exact Option.some.inj h ▸ rfl
  · split at h
    · cases h
    · exact Option.some.inj h ▸ rfl
  · obtain ⟨row, -, rfl⟩ := Option.map_eq_some_iff.mp h
    rfl

/-- A table with an instruction in front: the location moves and the row is closed, or it is
executed in the row. -/
theorem rowTable_cons (h : rowTable par st (ins :: is) = some table) :
    (∃ loc rest, rowLoc par st.loc ins = some loc ∧
      rowTable par { st with loc } is = some rest ∧ table = (st.loc, st.row) :: rest) ∨
    (rowLoc par st.loc ins = none ∧
      ∃ st', rowStep par st ins = some st' ∧ rowTable par st' is = some table) := by
  unfold rowTable at h
  split at h
  · rename_i loc hloc
    obtain ⟨rest, hrest, rfl⟩ := Option.map_eq_some_iff.mp h
    exact .inl ⟨loc, rest, hloc, hrest, rfl⟩
  · rename_i hloc
    split at h
    · cases h
    · rename_i st' hstep
      exact .inr ⟨hloc, st', hstep, h⟩

/-- The table starts at the current location. -/
theorem rowTable_head (h : rowTable par st is = some table) :
    ∃ row rest, table = (st.loc, row) :: rest := by
  induction is generalizing st with
  | nil => exact ⟨st.row, [], (Option.some.inj h).symm⟩
  | cons ins is ih =>
    rcases rowTable_cons h with ⟨loc, rest, -, -, rfl⟩ | ⟨-, st', hstep, hrest⟩
    · exact ⟨st.row, rest, rfl⟩
    · rw [← rowStep_loc hstep]
      exact ih hrest

/-- The first row is the last one at or below the pc when all others are above it. -/
theorem rowAt_first {loc pc : Nat} {row : Row} {rest : List (Nat × Row)} (hloc : loc ≤ pc)
    (hrest : ∀ entry ∈ rest, pc < entry.1) : rowAt ((loc, row) :: rest) pc = some row := by
  have hnone : rest.filter (fun entry => entry.1 ≤ pc) = [] := by
    simpa [List.filter_eq_nil_iff] using hrest
  simp [rowAt, hloc, hnone]

/-- The first row does not matter when another one is at or below the pc. -/
theorem rowAt_later {loc pc : Nat} {row : Row} {rest : List (Nat × Row)} {found : Row}
    (h : rowAt rest pc = some found) : rowAt ((loc, row) :: rest) pc = some found := by
  obtain ⟨last, hlast, rfl⟩ := Option.map_eq_some_iff.mp h
  simp only [rowAt, List.filter_cons]
  split
  · rw [List.getLast?_cons, hlast]
    rfl
  · rw [hlast]
    rfl

end Table

end Gunwinder
