import Gunwinder.Native.KernelTables

/-!
# Tables of kernel symbols and who has them

While loads of the kernel symbols follow one another, every table that was built is in use, in
the hands of the load, or destroyed, and the two pointers of the context belong to one load
except between the stores that replace them. Each operation of a load keeps these books.
-/

namespace Gunwinder

open Gunwinder.Core

/-! ## The mutex -/

/-- A place that is no operation on the mutex. -/
theorem KsymPlace.act_of_op {l : KsymPlace}
    {run : KsymShared → KsymPlace → KsymShared → Option KsymEvent → Prop}
    (h : l.op = .act run) : run = KsymAct l := by
  cases l <;> cases h <;> rfl

variable {report : Option KsymEvent}

private theorem KsymAct.inside_eq {l l' : KsymPlace} {sh sh' : KsymShared}
    (h : KsymAct l sh l' sh' report) : l'.inside = l.inside := by
  cases h <;> rfl

/-- The searches change nothing. -/
theorem KsymAct.searches {p p' : KsymPlace} {sh sh' : KsymShared} (h : KsymAct p sh p' sh' report)
    (hp : p.loading = false) (hreport : report ≠ some .callLoad) :
    sh' = sh ∧ p'.loading = false ∧ ∀ tables, report ≠ some (.publish tables) := by
  cases h <;> cases hp
  case callLoad => exact absurd rfl hreport
  all_goals exact ⟨rfl, rfl, fun _ h => by cases h⟩

/-- Searches and loads lock and unlock in turn. -/
theorem ksym_disciplined : Disciplined KsymPlace.op KsymPlace.inside where
  lock {l next} h := by cases l <;> cases h <;> exact ⟨rfl, rfl⟩
  unlock {l next} h := by cases l <;> cases h <;> exact ⟨rfl, rfl⟩
  act {l next run shared shared' report} h hrun := by
    rw [KsymPlace.act_of_op h] at hrun
    exact hrun.inside_eq

/-! ## Tables and who has them -/

/-- Every table that was built is destroyed or among the given ones. -/
structure KsymShared.Books (sh : KsymShared) (arrays hashes : List Nat) : Prop where
  arrays : (sh.freedArrays ++ arrays).Perm (List.range sh.tables.length)
  hashes : (sh.freedHashes ++ hashes).Perm ((List.range sh.tables.length).filter sh.hashed)

namespace KsymShared.Books

variable {sh : KsymShared} {arrays hashes : List Nat} {n : Nat}

variable (h : sh.Books arrays hashes)
include h

/-- A table in use was built. -/
theorem lt_of_mem (hn : n ∈ arrays) : n < sh.tables.length :=
  List.mem_range.mp (h.arrays.mem_iff.mp (List.mem_append_right _ hn))

/-- An array in use is not freed. -/
theorem not_freed_array (hn : n ∈ arrays) :
    n ∉ sh.freedArrays := fun hfreed =>
  (List.nodup_append.mp (h.arrays.nodup_iff.mpr List.nodup_range)).2.2 n hfreed n hn rfl

/-- A hash in use is not freed. -/
theorem not_freed_hash (hn : n ∈ hashes) : n ∉ sh.freedHashes :=
  fun hfreed =>
    (List.nodup_append.mp (h.hashes.nodup_iff.mpr (List.nodup_range.filter _))).2.2 n hfreed n hn
      rfl

/-- Arrays out of use are freed. -/
theorem mem_freedArrays (hn : n < sh.tables.length) : n ∈ sh.freedArrays ↔ n ∉ arrays := by
  refine ⟨fun hfreed harray => h.not_freed_array harray hfreed, fun harray => ?_⟩
  have hmem := h.arrays.mem_iff.mpr (List.mem_range.mpr hn)
  exact (List.mem_append.mp hmem).resolve_right harray

/-- Hashes out of use are freed. -/
theorem mem_freedHashes (hn : n < sh.tables.length) (hhashed : sh.hashed n = true) :
    n ∈ sh.freedHashes ↔ n ∉ hashes := by
  refine ⟨fun hfreed hhash => h.not_freed_hash hhash hfreed, fun hhash => ?_⟩
  have hmem := h.hashes.mem_iff.mpr (List.mem_filter.mpr ⟨List.mem_range.mpr hn, hhashed⟩)
  exact (List.mem_append.mp hmem).resolve_right hhash

/-- It does not matter in which order they are given. -/
theorem perm {arrays' hashes' : List Nat} (harrays : arrays'.Perm arrays)
    (hhashes : hashes'.Perm hashes) : sh.Books arrays' hashes' :=
  ⟨(harrays.append_left _).trans h.arrays, (hhashes.append_left _).trans h.hashes⟩

end KsymShared.Books

/-- The arrays only this thread will destroy. -/
def KsymPlace.owedArrays : KsymPlace → List Nat
  | loadOldArray new | loadOldHash new _ => new.toList
  | loadLock new _ _ | loadArray new _ _ => [new]
  | loadHash _ oldArray _ | loadUnlock oldArray _ | loadFreeArray oldArray _ => oldArray.toList
  | _ => []

/-- The hashes only this thread will destroy. -/
def KsymPlace.owedHashes (sh : KsymShared) : KsymPlace → List Nat
  | loadOldArray new | loadOldHash new _ => new.toList.filter sh.hashed
  | loadLock new _ _ | loadArray new _ _ | loadHash new _ _ => [new].filter sh.hashed
  | loadUnlock _ oldHash | loadFreeArray _ oldHash | loadFreeHash oldHash => oldHash.toList
  | _ => []

/-- The pointers of the context belong to one load, except between the two stores. -/
def KsymShared.Paired (sh : KsymShared) : KsymPlace → Prop
  | .loadHash new oldArray oldHash => sh.kernelSymbols = some new ∧
      sh.kernelSymbolHash = oldHash ∧ oldHash = oldArray.filter sh.hashed
  | _ => sh.kernelSymbolHash = sh.kernelSymbols.filter sh.hashed

/-- What the load has read is still in use. -/
def KsymShared.Current (sh : KsymShared) : KsymPlace → Prop
  | .loadOldHash _ oldArray => oldArray = sh.kernelSymbols
  | .loadLock _ oldArray oldHash | .loadArray _ oldArray oldHash =>
      oldArray = sh.kernelSymbols ∧ oldHash = sh.kernelSymbolHash
  | _ => True

/-- The shared state while the load is at this place, or there is none. -/
structure KsymShared.LoaderAt (sh : KsymShared) (p : KsymPlace) : Prop where
  books : sh.Books (sh.kernelSymbols.toList ++ p.owedArrays)
    (sh.kernelSymbolHash.toList ++ p.owedHashes sh)
  paired : sh.Paired p
  current : sh.Current p

namespace KsymShared

variable {sh sh' : KsymShared} {n : Nat}

/-- Another load does not change the tables of the earlier ones. -/
theorem hashed_of_prefix (h : sh.tables <+: sh'.tables) (hn : n < sh.tables.length) :
    sh'.hashed n = sh.hashed n := by
  obtain ⟨more, hmore⟩ := h
  unfold hashed
  rw [← hmore, List.getElem?_append_left hn]

private theorem filter_hashed_of_prefix (h : sh.tables <+: sh'.tables) {l : List Nat}
    (hl : ∀ n ∈ l, n < sh.tables.length) : l.filter sh'.hashed = l.filter sh.hashed :=
  List.filter_congr fun n hn => hashed_of_prefix h (hl n hn)

private theorem toList_filter (p : Nat → Bool) (o : Option Nat) :
    (o.filter p).toList = o.toList.filter p := by
  cases o with
  | none => rfl
  | some n => by_cases h : p n <;> simp [Option.filter, h]

namespace LoaderAt

variable {new : Nat} {oldArray oldHash : Option Nat}

/-- New tables are in the hands of the load. -/
theorem built (h : sh.LoaderAt (.loadBuild n)) (tables : KernelTables) (count : Nat) :
    KsymShared.LoaderAt { sh with gKsymItemsCount := count, tables := sh.tables ++ [tables] }
      (.loadOldArray (some sh.tables.length)) := by
  obtain ⟨hbooks, hpaired, -⟩ := h
  set sh' : KsymShared :=
    { sh with gKsymItemsCount := count, tables := sh.tables ++ [tables] } with hsh'
  have hprefix : sh.tables <+: sh'.tables := List.prefix_append _ _
  have hlength : sh'.tables.length = sh.tables.length + 1 := List.length_append
  have hcurrent : ∀ m ∈ sh.kernelSymbols.toList, m < sh.tables.length := fun m hm =>
    hbooks.lt_of_mem (List.mem_append_left _ hm)
  refine ⟨⟨?_, ?_⟩, ?_, trivial⟩
  · rw [hlength, List.range_succ, ← List.append_assoc]
    refine List.Perm.append_right _ ?_
    simpa [KsymPlace.owedArrays] using hbooks.arrays
  · rw [hlength, List.range_succ, List.filter_append, ← List.append_assoc,
      filter_hashed_of_prefix hprefix fun m hm => List.mem_range.mp hm]
    refine List.Perm.append_right _ ?_
    simpa [KsymPlace.owedHashes] using hbooks.hashes
  · show sh.kernelSymbolHash = sh.kernelSymbols.filter sh'.hashed
    rw [show sh.kernelSymbolHash = _ from hpaired]
    cases harray : sh.kernelSymbols with
    | none => rfl
    | some m =>
      have hm := hashed_of_prefix hprefix (hcurrent m (by rw [harray]; exact List.mem_cons_self))
      rw [Option.filter_some, Option.filter_some, hm]

/-- The array of the load comes into use. -/
theorem storeArray (h : sh.LoaderAt (.loadArray new oldArray oldHash)) :
    KsymShared.LoaderAt { sh with kernelSymbols := some new }
      (.loadHash new oldArray oldHash) := by
  obtain ⟨hbooks, hpaired, rfl, rfl⟩ := h
  refine ⟨?_, ⟨rfl, rfl, hpaired⟩, trivial⟩
  have hperm : ([new] ++ sh.kernelSymbols.toList).Perm (sh.kernelSymbols.toList ++ [new]) :=
    List.perm_append_comm
  obtain ⟨harrays, hhashes⟩ := hbooks.perm hperm (.refl _)
  exact ⟨harrays, hhashes⟩

/-- The hash of the load comes into use. -/
theorem storeHash (h : sh.LoaderAt (.loadHash new oldArray oldHash)) :
    KsymShared.LoaderAt
      { sh with kernelSymbolHash := if sh.hashed new then some new else none }
      (.loadUnlock oldArray oldHash) := by
  obtain ⟨hbooks, ⟨harray, rfl, -⟩, -⟩ := h
  have hnew : (if sh.hashed new then some new else none) = (some new).filter sh.hashed := by
    by_cases h : sh.hashed new <;> simp [Option.filter, h]
  refine ⟨?_, ?_, trivial⟩
  · have hperm : (((some new).filter sh.hashed).toList ++ sh.kernelSymbolHash.toList).Perm
        (sh.kernelSymbolHash.toList ++ [new].filter sh.hashed) := by
      rw [toList_filter]
      exact List.perm_append_comm
    rw [hnew]
    obtain ⟨harrays, hhashes⟩ := hbooks.perm (.refl _) hperm
    exact ⟨harrays, hhashes⟩
  · show (if sh.hashed new then some new else none) = sh.kernelSymbols.filter sh.hashed
    rw [hnew, harray]

/-- The old array is destroyed. -/
theorem freeArray (h : sh.LoaderAt (.loadFreeArray (some n) oldHash)) :
    KsymShared.LoaderAt { sh with freedArrays := n :: sh.freedArrays }
      (.loadFreeHash oldHash) := by
  obtain ⟨⟨harrays, hhashes⟩, hpaired, -⟩ := h
  refine ⟨⟨?_, hhashes⟩, hpaired, trivial⟩
  have hperm : (n :: sh.freedArrays ++ (sh.kernelSymbols.toList ++ [])).Perm
      (sh.freedArrays ++ (sh.kernelSymbols.toList ++ [n])) := by
    rw [List.append_nil, ← List.append_assoc]
    exact (List.perm_append_singleton n _).symm
  exact hperm.trans harrays

/-- The old hash is destroyed. -/
theorem freeHash (h : sh.LoaderAt (.loadFreeHash (some n))) :
    KsymShared.LoaderAt { sh with freedHashes := n :: sh.freedHashes } .outside := by
  obtain ⟨⟨harrays, hhashes⟩, hpaired, -⟩ := h
  refine ⟨⟨harrays, ?_⟩, hpaired, trivial⟩
  have hperm : (n :: sh.freedHashes ++ (sh.kernelSymbolHash.toList ++ [])).Perm
      (sh.freedHashes ++ (sh.kernelSymbolHash.toList ++ [n])) := by
    rw [List.append_nil, ← List.append_assoc]
    exact (List.perm_append_singleton n _).symm
  exact hperm.trans hhashes

/-- A load keeps the books and frees nothing twice. -/
theorem act {p p' : KsymPlace} (h : sh.LoaderAt p) (hp : p.loading = true)
    (hact : KsymAct p sh p' sh' report) : sh'.LoaderAt p' ∧ ∀ q, report ≠ some (.fault q) := by
  cases hact <;> cases hp
  case loadRead => exact ⟨⟨h.books, h.paired, trivial⟩, nofun⟩
  case loadFailed => exact ⟨⟨h.books, h.paired, trivial⟩, nofun⟩
  case loadEmpty => exact ⟨⟨⟨h.books.arrays, h.books.hashes⟩, h.paired, trivial⟩, nofun⟩
  case loadBuilt count tables count' hloaded => exact ⟨h.built tables count', nofun⟩
  case loadOldArray => exact ⟨⟨h.books, h.paired, rfl⟩, nofun⟩
  case loadNoArray => exact ⟨⟨h.books, h.paired, trivial⟩, nofun⟩
  case loadOldHash => exact ⟨⟨h.books, h.paired, h.current, rfl⟩, nofun⟩
  case loadArray => exact ⟨h.storeArray, nofun⟩
  case loadHash tables htables => exact ⟨h.storeHash, nofun⟩
  case noFreeArray => exact ⟨⟨h.books, h.paired, trivial⟩, nofun⟩
  case freeArray => exact ⟨h.freeArray, nofun⟩
  case freeArrayAgain old oldHash hfreed =>
    have howed : old ∈ (KsymPlace.loadFreeArray (some old) oldHash).owedArrays := List.mem_cons_self
    exact absurd hfreed (h.books.not_freed_array (List.mem_append_right _ howed))
  case noFreeHash => exact ⟨⟨h.books, h.paired, trivial⟩, nofun⟩
  case freeHash => exact ⟨h.freeHash, nofun⟩
  case freeHashAgain old hfreed =>
    have howed : old ∈ (KsymPlace.loadFreeHash (some old)).owedHashes sh := List.mem_cons_self
    exact absurd hfreed (h.books.not_freed_hash (List.mem_append_right _ howed))

end LoaderAt

end KsymShared

end Gunwinder
