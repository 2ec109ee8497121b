import Gunwinder.Core.Mutex
import Gunwinder.Native.KernelSymbols

/-!
# Kernel symbols among threads

A load of the kernel symbols builds an interval array by address and a hash by name, puts them in
the place of the old ones under `kernel_symbols_mutex`, and destroys the old ones. Every function
is cut at the mutex, at each access to a pointer of the context, and at each use of a table. What
is destroyed is remembered, so that a use of it, or a second destruction, is seen.
-/

namespace Gunwinder

open Gunwinder.Core

/-! ## Tables -/

/-- `struct kernel_symbol_entry`. -/
structure KernelSymbolEntry where
  name : String
  addr : Word
  deriving DecidableEq, Repr

/-- `kernel_symbol_hash`. Which of several entries of a name is found depends on the buckets. -/
structure KernelSymbolHash where
  entries : List KernelSymbolEntry
  /-- `HASH_FIND_STR`. -/
  find : String → Option KernelSymbolEntry
  find_some : ∀ {name entry}, find name = some entry → entry ∈ entries ∧ entry.name = name
  find_none : ∀ {name}, find name = none → ∀ entry ∈ entries, entry.name ≠ name

/-- What a load builds. -/
structure KernelTables where
  array : IntervalArray String
  hash : KernelSymbolHash

/-- The entry of a symbol. -/
def KernelSymbol.entry (sym : KernelSymbol) : KernelSymbolEntry := ⟨sym.name, sym.addr⟩

/-- The tables a load may build: the array has all symbols, the hash those for which an entry
could be allocated. The number is `g_ksym_items_count`, before and after. -/
inductive KernelTables.Loaded (count : Nat) : KernelTables → Nat → Prop where
  | intro {tables : KernelTables} {count' : Nat} (uninit : Nat → Word) (lines : List KallsymsLine)
      (harray : guLoadKernelSymbols uninit lines ⟨none, count⟩ =
        (true, ⟨some tables.array, count'⟩))
      (hhash : tables.hash.entries.Sublist ((textSymbols lines).map KernelSymbol.entry)) :
      Loaded count tables count'

/-- `gu_search_kernel_symbol` in the tables in use. -/
def KernelTables.symbol (tables : Option KernelTables) (addr : Word) (len : Nat) :
    Option KernelHit :=
  guSearchKernelSymbol ⟨tables.map KernelTables.array, 0⟩ addr len

/-- The entry `gu_search_kernel_address` finds in the tables in use. -/
def KernelTables.entry (tables : Option KernelTables) (name : String) :
    Option KernelSymbolEntry :=
  tables.bind fun tables => tables.hash.find name

/-- The address of an entry, 0 without one. -/
def entryAddr (entry : Option KernelSymbolEntry) : Word := (entry.map (·.addr)).getD 0#64

/-! ## Threads -/

/-- What the threads share. A pointer to a table is the number of its load. -/
structure KsymShared where
  kernelSymbols : Option Nat
  kernelSymbolHash : Option Nat
  gKsymItemsCount : Nat
  tables : List KernelTables
  freedArrays : List Nat
  freedHashes : List Nat

/-- A context before its first load. -/
def KsymShared.initial : KsymShared := ⟨none, none, 0, [], [], []⟩

/-- The table of a load has a hash; a hash without entries is NULL. -/
def KsymShared.hashed (sh : KsymShared) (n : Nat) : Bool :=
  match sh.tables[n]? with
  | none => false
  | some tables => !tables.hash.entries.isEmpty

/-- Where a thread is, with its locals. -/
inductive KsymPlace where
  | outside
  /-- `gu_load_kernel_symbols`. -/
  | loadRead
  | loadBuild (count : Nat)
  | loadOldArray (new : Option Nat)
  | loadOldHash (new oldArray : Option Nat)
  | loadLock (new : Nat) (oldArray oldHash : Option Nat)
  | loadArray (new : Nat) (oldArray oldHash : Option Nat)
  | loadHash (new : Nat) (oldArray oldHash : Option Nat)
  | loadUnlock (oldArray oldHash : Option Nat)
  | loadFreeArray (oldArray oldHash : Option Nat)
  | loadFreeHash (oldHash : Option Nat)
  /-- `gu_search_kernel_symbol`. -/
  | addrLock (addr : Word) (len : Nat)
  | addrTest (addr : Word) (len : Nat)
  | addrSearch (addr : Word) (len array : Nat)
  | addrUnlock (addr : Word) (len : Nat) (result : Option KernelHit)
  | addrReturn (addr : Word) (len : Nat) (result : Option KernelHit)
  /-- `gu_search_kernel_address`. -/
  | nameLock (name : String)
  | nameTest (name : String)
  | nameFind (name : String) (hash : Nat)
  | nameUnlock (name : String) (entry : Option (Nat × KernelSymbolEntry))
  | nameRead (name : String) (entry : Option (Nat × KernelSymbolEntry))

/-- What a thread reports. -/
inductive KsymEvent where
  | callLoad
  | callAddr (addr : Word) (len : Nat)
  | callName (name : String)
  /-- The tables of a load are in use. -/
  | publish (tables : KernelTables)
  | retLoad (ok : Bool)
  | retAddr (addr : Word) (len : Nat) (result : Option KernelHit)
  | retName (name : String) (addr : Word)
  /-- Memory is used that has been freed. -/
  | fault (place : KsymPlace)

/-- The operations other than those on the mutex. -/
inductive KsymAct : KsymPlace → KsymShared → KsymPlace → KsymShared → Option KsymEvent → Prop where
  | callLoad {sh} : KsymAct .outside sh .loadRead sh (some .callLoad)
  | loadRead {sh} : KsymAct .loadRead sh (.loadBuild sh.gKsymItemsCount) sh none
  /-- The file cannot be opened, or the items cannot be allocated. -/
  | loadFailed {sh count} : KsymAct (.loadBuild count) sh .outside sh (some (.retLoad false))
  /-- There are no symbols, or the array cannot be allocated. -/
  | loadEmpty {sh count} (uninit : Nat → Word) (lines : List KallsymsLine) :
      KsymAct (.loadBuild count) sh (.loadOldArray none)
        { sh with
          gKsymItemsCount := (guLoadKernelSymbols uninit lines ⟨none, count⟩).2.gKsymItemsCount }
        none
  | loadBuilt {sh count tables count'} (h : KernelTables.Loaded count tables count') :
      KsymAct (.loadBuild count) sh (.loadOldArray (some sh.tables.length))
        { sh with gKsymItemsCount := count', tables := sh.tables ++ [tables] } none
  | loadOldArray {sh new} :
      KsymAct (.loadOldArray new) sh (.loadOldHash new sh.kernelSymbols) sh none
  | loadNoArray {sh oldArray} :
      KsymAct (.loadOldHash none oldArray) sh .outside sh (some (.retLoad false))
  | loadOldHash {sh new oldArray} :
      KsymAct (.loadOldHash (some new) oldArray) sh (.loadLock new oldArray sh.kernelSymbolHash)
        sh none
  | loadArray {sh new oldArray oldHash} :
      KsymAct (.loadArray new oldArray oldHash) sh (.loadHash new oldArray oldHash)
        { sh with kernelSymbols := some new } none
  | loadHash {sh new oldArray oldHash tables} (h : sh.tables[new]? = some tables) :
      KsymAct (.loadHash new oldArray oldHash) sh (.loadUnlock oldArray oldHash)
        { sh with kernelSymbolHash := if sh.hashed new then some new else none }
        (some (.publish tables))
  | noFreeArray {sh oldHash} :
      KsymAct (.loadFreeArray none oldHash) sh (.loadFreeHash oldHash) sh none
  | freeArray {sh old oldHash} (h : old ∉ sh.freedArrays) :
      KsymAct (.loadFreeArray (some old) oldHash) sh (.loadFreeHash oldHash)
        { sh with freedArrays := old :: sh.freedArrays } none
  | freeArrayAgain {sh old oldHash} (h : old ∈ sh.freedArrays) :
      KsymAct (.loadFreeArray (some old) oldHash) sh .outside sh
        (some (.fault (.loadFreeArray (some old) oldHash)))
  | noFreeHash {sh} : KsymAct (.loadFreeHash none) sh .outside sh (some (.retLoad true))
  | freeHash {sh old} (h : old ∉ sh.freedHashes) :
      KsymAct (.loadFreeHash (some old)) sh .outside
        { sh with freedHashes := old :: sh.freedHashes } (some (.retLoad true))
  | freeHashAgain {sh old} (h : old ∈ sh.freedHashes) :
      KsymAct (.loadFreeHash (some old)) sh .outside sh (some (.fault (.loadFreeHash (some old))))
  | callAddr {sh} (addr : Word) (len : Nat) :
      KsymAct .outside sh (.addrLock addr len) sh (some (.callAddr addr len))
  | addrNull {sh addr len} (h : sh.kernelSymbols = none) :
      KsymAct (.addrTest addr len) sh (.addrUnlock addr len none) sh none
  | addrTest {sh addr len array} (h : sh.kernelSymbols = some array) :
      KsymAct (.addrTest addr len) sh (.addrSearch addr len array) sh none
  | addrSearch {sh addr len array tables} (hlive : array ∉ sh.freedArrays)
      (h : sh.tables[array]? = some tables) :
      KsymAct (.addrSearch addr len array) sh
        (.addrUnlock addr len (KernelTables.symbol (some tables) addr len)) sh none
  | addrFault {sh addr len array} (h : array ∈ sh.freedArrays) :
      KsymAct (.addrSearch addr len array) sh (.addrUnlock addr len none) sh
        (some (.fault (.addrSearch addr len array)))
  | addrReturn {sh addr len result} :
      KsymAct (.addrReturn addr len result) sh .outside sh (some (.retAddr addr len result))
  | callName {sh} (name : String) :
      KsymAct .outside sh (.nameLock name) sh (some (.callName name))
  | nameNull {sh name} (h : sh.kernelSymbolHash = none) :
      KsymAct (.nameTest name) sh (.nameUnlock name none) sh none
  | nameTest {sh name hash} (h : sh.kernelSymbolHash = some hash) :
      KsymAct (.nameTest name) sh (.nameFind name hash) sh none
  /-- The keys that are compared belong to the array. -/
  | nameFind {sh name hash tables} (hlive : hash ∉ sh.freedHashes)
      (hkeys : hash ∉ sh.freedArrays) (h : sh.tables[hash]? = some tables) :
      KsymAct (.nameFind name hash) sh
        (.nameUnlock name ((tables.hash.find name).map fun entry => (hash, entry))) sh none
  | nameFault {sh name hash} (h : hash ∈ sh.freedHashes ∨ hash ∈ sh.freedArrays) :
      KsymAct (.nameFind name hash) sh (.nameUnlock name none) sh
        (some (.fault (.nameFind name hash)))
  | nameNone {sh name} :
      KsymAct (.nameRead name none) sh .outside sh (some (.retName name (entryAddr none)))
  | nameRead {sh name hash entry} (hlive : hash ∉ sh.freedHashes) :
      KsymAct (.nameRead name (some (hash, entry))) sh .outside sh
        (some (.retName name (entryAddr (some entry))))
  /-- The entry is gone, and the address that is returned is whatever its memory holds. -/
  | nameReadFault {sh name hash entry} (h : hash ∈ sh.freedHashes) :
      KsymAct (.nameRead name (some (hash, entry))) sh .outside sh
        (some (.fault (.nameRead name (some (hash, entry)))))

/-- What a thread does at its place. -/
def KsymPlace.op : KsymPlace → MutexOp KsymShared KsymPlace KsymEvent
  | loadLock new oldArray oldHash => .lock (loadArray new oldArray oldHash)
  | loadUnlock oldArray oldHash => .unlock (loadFreeArray oldArray oldHash)
  | addrLock addr len => .lock (addrTest addr len)
  | addrUnlock addr len result => .unlock (addrReturn addr len result)
  | nameLock name => .lock (nameTest name)
  | nameUnlock name entry => .unlock (nameRead name entry)
  | place => .act (KsymAct place)

/-- The thread is in `gu_load_kernel_symbols`. -/
def KsymPlace.loading : KsymPlace → Bool
  | loadRead | loadBuild _ | loadOldArray _ | loadOldHash .. | loadLock .. | loadArray ..
  | loadHash .. | loadUnlock .. | loadFreeArray .. | loadFreeHash _ => true
  | _ => false

/-- The thread holds the mutex. -/
def KsymPlace.inside : KsymPlace → Bool
  | loadArray .. | loadHash .. | loadUnlock .. | addrTest .. | addrSearch .. | addrUnlock ..
  | nameTest _ | nameFind .. | nameUnlock .. => true
  | _ => false

variable {ι : Type} [DecidableEq ι]

abbrev KsymState (ι : Type) := MutexState ι KsymShared KsymPlace

abbrev KsymLabel (ι : Type) := Option (ι × KsymEvent)

/-- No thread has called a function. -/
def KsymState.initial : KsymState ι := ⟨none, .initial, fun _ => .outside⟩

/-- A step of a thread. -/
abbrev KsymStep : KsymState ι → KsymLabel ι → KsymState ι → Prop := MutexStep KsymPlace.op

/-- A step of threads that load one after the other. -/
def SerialStep (s : KsymState ι) (label : KsymLabel ι) (t : KsymState ι) : Prop :=
  KsymStep s label t ∧
    ((∃ i, label = some (i, .callLoad)) → ∀ j, (s.place j).loading = false)

/-- The tables a label brings into use. -/
def KsymLabel.publish? : KsymLabel ι → Option KernelTables
  | some (_, .publish tables) => some tables
  | _ => none

/-- The tables in use, after a record. -/
def published (as : List (KsymLabel ι)) : Option KernelTables :=
  (as.filterMap KsymLabel.publish?).getLast?

end Gunwinder
