import Gunwinder.Native.IntervalArray

/-!
# Symbol tables

`fill_symbols_debug_info` keeps the functions of a symbol table and the untyped symbols in
executable sections, and indexes them by address. A symbol it cannot read makes it give up the
whole table. How a kept name is stored, stripped or as it is, is a parameter.
-/

namespace Gunwinder

/-- `GELF_ST_TYPE`. -/
inductive SymType where
  | func
  | notype
  | other
  deriving DecidableEq, Repr

/-- `GElf_Sym`, with its name (`none` for NULL) and whether its section is executable. -/
structure ElfSym where
  stValue : Word
  stSize : Word
  type : SymType
  isExecScn : Bool
  name : Option String
  deriving DecidableEq, Repr

/-- What `fill_symbols_debug_info` reads of the context. -/
structure SymtabConfig where
  /-- The file is a Go binary and the context reports build ids only. -/
  onlyBuildid : Bool
  /-- The name as it is kept; `none` when no memory is left for it. -/
  storeName : String → Option String

/-- A symbol that is kept, with the name that is stored for it. -/
structure KeptSymbol where
  sym : ElfSym
  stored : Option String
  deriving DecidableEq, Repr

/-- `is_arm_elf_mapping_symbol_name`. -/
def isArmElfMappingSymbolName (name : String) : Bool :=
  match name.toList with
  | '$' :: c :: rest =>
    (c == 'a' || c == 'd' || c == 't' || c == 'x') && (rest.isEmpty || rest.head? == some '.')
  | _ => false

/-- One turn of the loop of `fill_symbols_debug_info`: a symbol is skipped (`ok none`), kept, or
ends the loop with an error. -/
def keepSymbol (cfg : SymtabConfig) (sym : ElfSym) : Except Unit (Option KeptSymbol) :=
  if sym.stValue = 0#64 then .ok none
  else if sym.type ≠ .func ∧ ¬(sym.type = .notype ∧ sym.isExecScn) then .ok none
  else
    match sym.name with
    | none => .error ()
    | some name =>
      if name.isEmpty then .ok none
      else if sym.type = .notype ∧ isArmElfMappingSymbolName name then .ok none
      else if cfg.onlyBuildid then .ok (some ⟨sym, none⟩)
      else
        match cfg.storeName name with
        | none => .error ()
        | some stored => .ok (some ⟨sym, some stored⟩)

/-- The symbols of a table that are kept. An entry is `none` when `gelf_getsym` fails on it; the
result is `none` when the loop ends with an error. -/
def keptSymbols (cfg : SymtabConfig) : List (Option ElfSym) → Option (List KeptSymbol)
  | [] => some []
  | none :: _ => none
  | some sym :: rest =>
    match keepSymbol cfg sym with
    | .error _ => none
    | .ok none => keptSymbols cfg rest
    | .ok (some kept) => (keptSymbols cfg rest).map (kept :: ·)

/-- A function without a size has an open end. -/
def KeptSymbol.item (kept : KeptSymbol) : Interval (Option String) where
  start := kept.sym.stValue
  fin := if kept.sym.type = .func ∧ kept.sym.stSize = 0#64 then 0#64
    else kept.sym.stValue + kept.sym.stSize
  payload := kept.stored

/-- `fill_symbols_debug_info`; `none` leaves the file without symbols. -/
def fillSymbolsDebugInfo (cfg : SymtabConfig) (symtab : List (Option ElfSym)) :
    Option (IntervalArray (Option String)) :=
  (keptSymbols cfg symtab).bind fun kept => guIntervalArrayInit (kept.map KeptSymbol.item)

end Gunwinder
