import Gunwinder.Threads.KernelTables

/-!
# Searches while kernel symbols are replaced

A search sees the tables of one load, and those in use at a moment of its call. A search by
address uses no table that is destroyed; a search by name does so when it reads the address in the
entry it has found, because it has given the mutex back by then.
-/

namespace Gunwinder

open Gunwinder.Core

variable {ι : Type}

/-! ## What searches know -/

private theorem published_snoc_publish (as : List (KsymLabel ι)) (i : ι) (tables : KernelTables) :
    published (as ++ [some (i, .publish tables)]) = some tables := by
  rw [published, filterMap_snoc]
  exact List.getLast?_concat

private theorem published_snoc {label : KsymLabel ι} (as : List (KsymLabel ι))
    (h : label.publish? = none) : published (as ++ [label]) = published as := by
  rw [published, published, filterMap_snoc, h, Option.toList_none, List.append_nil]

/-- The tables in use are those of the pointers, before a load stores them and after. -/
def KsymShared.InUse (sh : KsymShared) (as : List (KsymLabel ι)) : KsymPlace → Prop
  | .loadHash _ oldArray _ => published as = oldArray.bind fun n => sh.tables[n]?
  | _ => published as = sh.kernelSymbols.bind fun n => sh.tables[n]?

variable {p' p : KsymPlace} {sh' sh : KsymShared} {report : Option KsymEvent}
  {as : List (KsymLabel ι)}

/-- The tables in use change with the second store of a load. -/
theorem KsymShared.InUse.act (huse : sh.InUse as p) (i : ι) (hp : p.loading = true)
    (hloader : sh.LoaderAt p) (hact : KsymAct p sh p' sh' report) :
    sh'.InUse (as ++ [report.map fun a => (i, a)]) p' := by
  cases hact <;> cases hp
  case loadBuilt count tables count' hloaded =>
    refine (published_snoc as rfl).trans (huse.trans ?_)
    dsimp only
    cases harray : sh.kernelSymbols with
    | none => rfl
    | some n =>
      have hn : n < sh.tables.length := hloader.books.lt_of_mem
        (List.mem_append_left _ (by rw [harray]; exact List.mem_cons_self))
      rw [Option.bind_some, Option.bind_some, List.getElem?_append_left hn]
  case loadArray new oldArray oldHash =>
    obtain ⟨rfl, -⟩ := hloader.current
    exact (published_snoc as rfl).trans huse
  case loadHash new oldArray oldHash tables htables =>
    refine (published_snoc_publish as i tables).trans ?_
    dsimp only
    rw [hloader.paired.1, Option.bind_some, htables]
  all_goals exact (published_snoc as rfl).trans huse

/-- The search a thread is in. -/
def KsymPlace.call? : KsymPlace → Option KsymEvent
  | addrLock addr len | addrTest addr len | addrSearch addr len _ | addrUnlock addr len _
  | addrReturn addr len _ => some (.callAddr addr len)
  | nameLock name | nameTest name | nameFind name _ | nameUnlock name _ | nameRead name _ =>
      some (.callName name)
  | _ => none

/-- The result of a search, once there is one, is the one of the tables in use. -/
def KsymPlace.Right (record : List (KsymLabel ι)) : KsymPlace → Prop
  | addrUnlock addr len result | addrReturn addr len result =>
      result = KernelTables.symbol (published record) addr len
  | nameUnlock name entry | nameRead name entry =>
      entry.map Prod.snd = KernelTables.entry (published record) name
  | _ => True

/-- The pointer a search has read is the one of the context. -/
def KsymShared.Reads (sh : KsymShared) : KsymPlace → Prop
  | .addrSearch _ _ array => sh.kernelSymbols = some array
  | .nameFind _ hash => sh.kernelSymbolHash = some hash
  | _ => True

/-- What a thread that searches knows of the tables in use. -/
structure KsymShared.Knows (sh : KsymShared) (as : List (KsymLabel ι)) (i : ι)
    (p : KsymPlace) : Prop where
  during : ∀ call, p.call? = some call → DuringCall i call (fun record => p.Right record) as
  reads : sh.Reads p

/-- A label is as it should be: answers were right at a moment of the call, and memory that has
been freed is used only to read the address in an entry. -/
def RightLabel (as : List (KsymLabel ι)) : KsymLabel ι → Prop
  | some (i, .retAddr addr len result) => DuringCall i (.callAddr addr len)
      (fun record => result = KernelTables.symbol (published record) addr len) as
  | some (i, .retName name addr) => DuringCall i (.callName name)
      (fun record => addr = entryAddr (KernelTables.entry (published record) name)) as
  | some (_, .fault place) => ∃ name entry, place = .nameRead name (some entry)
  | _ => True

/-- What a thread knows stays true while others step: they do not touch the pointers while it
is inside. -/
theorem KsymShared.Knows.mono {i : ι} {label : KsymLabel ι} (h : sh.Knows as i p)
    (hlabel : ∀ a, label ≠ some (i, a))
    (hpointers : p.inside = true → sh'.kernelSymbols = sh.kernelSymbols ∧
      sh'.kernelSymbolHash = sh.kernelSymbolHash) : sh'.Knows (as ++ [label]) i p := by
  refine ⟨fun call hcall => (h.during call hcall).snoc hlabel, ?_⟩
  have hreads := h.reads
  cases p
  case addrSearch => exact (hpointers rfl).1.trans hreads
  case nameFind => exact (hpointers rfl).2.trans hreads
  all_goals trivial

/-- A thread outside of a search knows nothing. -/
theorem KsymShared.Knows.outside (sh : KsymShared) (as : List (KsymLabel ι)) (i : ι) :
    sh.Knows as i .outside :=
  ⟨by rintro call ⟨⟩, trivial⟩

/-- A thread in a search knows what it has found. -/
theorem KsymShared.Knows.of_during {i : ι} {call : KsymEvent} (hcall : p.call? = some call)
    (hduring : DuringCall i call (fun record => p.Right record) as) (hreads : sh.Reads p) :
    sh.Knows as i p := by
  refine ⟨fun call' hcall' => ?_, hreads⟩
  cases hcall.symm.trans hcall'
  exact hduring

/-- The search of a thread has begun. -/
theorem KsymShared.Knows.begun {i : ι} {call : KsymEvent} (h : sh.Knows as i p)
    (hcall : p.call? = some call) : DuringCall i call (fun _ => True) as :=
  (h.during call hcall).mono fun _ _ => trivial

/-- To take the mutex or to give it back changes nothing else. -/
structure KsymPlace.Passes (ι : Type) (p p' : KsymPlace) : Prop where
  loading : p'.loading = p.loading
  call : p'.call? = p.call?
  right : ∀ record : List (KsymLabel ι), p.Right record → p'.Right record
  loader : ∀ {sh : KsymShared}, sh.LoaderAt p → sh.LoaderAt p'
  use : ∀ {sh : KsymShared} {as : List (KsymLabel ι)}, sh.InUse as p → sh.InUse as p'
  reads : ∀ sh : KsymShared, sh.Reads p'

private theorem KsymPlace.passes_of_lock (h : p.op = .lock p') : p.Passes ι p' := by
  cases p <;> cases h <;> exact ⟨rfl, rfl, fun _ h => h,
    fun h => ⟨h.books, h.paired, h.current⟩, fun h => h, fun _ => trivial⟩

private theorem KsymPlace.passes_of_unlock (h : p.op = .unlock p') : p.Passes ι p' := by
  cases p <;> cases h <;> exact ⟨rfl, rfl, fun _ h => h,
    fun h => ⟨h.books, h.paired, trivial⟩, fun h => h, fun _ => trivial⟩

/-- Threads that load one after the other, after this record. -/
structure KsymInv (as : List (KsymLabel ι)) (s : KsymState ι) : Prop where
  guarded : s.Guarded KsymPlace.inside
  alone : ∀ i j, (s.place i).loading = true → (s.place j).loading = true → i = j
  loader : ∃ p, (p = .outside ∨ ∃ i, (s.place i).loading = true ∧ s.place i = p) ∧
    (∀ i, (s.place i).loading = true → s.place i = p) ∧ s.shared.LoaderAt p ∧
    s.shared.InUse as p
  knows : ∀ i, s.shared.Knows as i (s.place i)
  right : Always RightLabel as

namespace KsymInv

variable {as : List (KsymLabel ι)} {s : KsymState ι} {i : ι}

private theorem initial : KsymInv [] (KsymState.initial : KsymState ι) := by
  refine ⟨fun i => ⟨?_, ?_⟩, ?_, ⟨.outside, .inl rfl, ?_, ⟨⟨.refl _, .refl _⟩, rfl, trivial⟩, rfl⟩,
    fun i => .outside _ _ i, .nil _⟩
  · rintro ⟨⟩
  · rintro ⟨⟩
  · rintro i j ⟨⟩
  · rintro i ⟨⟩

section

variable (h : KsymInv as s)
include h

/-- A search that is inside sees the tables in use, all of one load. -/
theorem visible (hin : (s.place i).inside = true) (hi : (s.place i).loading = false) :
    published as = s.shared.kernelSymbols.bind (fun n => s.shared.tables[n]?) ∧
      s.shared.kernelSymbolHash = s.shared.kernelSymbols.filter s.shared.hashed := by
  obtain ⟨p, hp, -, hloader, huse⟩ := h.loader
  have hpaired := hloader.paired
  -- a load between its two stores would be inside as well
  have hne : ∀ new oldArray oldHash, p ≠ .loadHash new oldArray oldHash := by
    rintro new oldArray oldHash rfl
    rcases hp with hp | ⟨j, hj, hplace⟩
    · cases hp
    · have hji : j = i := h.guarded.exclusive (by rw [hplace]; rfl) hin
      rw [hji, hi] at hj
      cases hj
  cases p
  case loadHash => exact absurd rfl (hne _ _ _)
  all_goals exact ⟨huse, hpaired⟩

/-- The array in use is not destroyed. -/
theorem array_live {n : Nat} (hn : s.shared.kernelSymbols = some n) :
    n ∉ s.shared.freedArrays ∧ n < s.shared.tables.length := by
  obtain ⟨p, -, -, hloader, -⟩ := h.loader
  have hmem : n ∈ s.shared.kernelSymbols.toList ++ p.owedArrays :=
    List.mem_append_left _ (by rw [hn]; exact List.mem_cons_self)
  exact ⟨hloader.books.not_freed_array hmem, hloader.books.lt_of_mem hmem⟩

/-- The hash in use is not destroyed. -/
theorem hash_live {n : Nat} (hn : s.shared.kernelSymbolHash = some n) :
    n ∉ s.shared.freedHashes := by
  obtain ⟨p, -, -, hloader, -⟩ := h.loader
  exact hloader.books.not_freed_hash (List.mem_append_left _ (by rw [hn]; exact List.mem_cons_self))

/-- A NULL hash finds what the tables in use find: nothing. -/
theorem entry_eq_none (hin : (s.place i).inside = true) (hi : (s.place i).loading = false)
    (hnull : s.shared.kernelSymbolHash = none) (name : String) :
    KernelTables.entry (published as) name = none := by
  obtain ⟨huse, hpaired⟩ := h.visible hin hi
  rw [huse]
  cases harray : s.shared.kernelSymbols with
  | none => rfl
  | some n =>
    rw [hnull, harray] at hpaired
    have hhashed : s.shared.hashed n = false := by
      rw [Option.filter_some] at hpaired
      split at hpaired
      · cases hpaired
      · exact eq_false_of_ne_true ‹_›
    unfold KsymShared.hashed at hhashed
    rw [Option.bind_some]
    cases htables : s.shared.tables[n]? with
    | none => rfl
    | some tables =>
      rw [htables] at hhashed
      have hempty : tables.hash.entries = [] := by simpa using hhashed
      refine Option.eq_none_iff_forall_ne_some.mpr fun entry hentry => ?_
      have hmem := (tables.hash.find_some hentry).1
      rw [hempty] at hmem
      cases hmem

/-- What a search finds is what the tables in use have, and it uses none that is destroyed
while it is inside. -/
theorem learns (hi : (s.place i).loading = false) (hp' : p'.loading = false)
    (hact : KsymAct (s.place i) s.shared p' sh' report) :
    s.shared.Knows (as ++ [report.map fun a => (i, a)]) i p' ∧
      RightLabel as (report.map fun a => (i, a)) := by
  have hknows := h.knows i
  have hvisible := fun hin => h.visible (i := i) hin hi
  have hnull := fun hin => h.entry_eq_none (i := i) hin hi
  generalize s.place i = p at *
  -- an operation that reports nothing only has to say what it has found
  have found : ∀ {call q}, q.call? = some call →
      DuringCall i call (fun record => q.Right record) as → s.shared.Reads q →
      s.shared.Knows (as ++ [none]) i q ∧ RightLabel as (none : KsymLabel ι) := by
    intro call q hq hduring hreads
    exact ⟨.of_during hq (hduring.snoc (by rintro a ⟨⟩)) hreads, trivial⟩
  cases hact <;> cases hi <;> cases hp'
  case callAddr addr len => exact ⟨.of_during rfl (DuringCall.start as i _) trivial, trivial⟩
  case addrNull addr len hzero =>
    have huse := (hvisible rfl).1
    rw [hzero] at huse
    exact found rfl ((hknows.begun rfl).now
      (congrArg (KernelTables.symbol · addr len) huse).symm) trivial
  case addrTest addr len array harray => exact found rfl (hknows.begun rfl) harray
  case addrSearch addr len array tables hlive htables =>
    have huse := (hvisible rfl).1
    rw [show s.shared.kernelSymbols = _ from hknows.reads, Option.bind_some, htables] at huse
    exact found rfl ((hknows.begun rfl).now
      (congrArg (KernelTables.symbol · addr len) huse).symm) trivial
  case addrFault addr len array hfreed => exact absurd hfreed (h.array_live hknows.reads).1
  case addrReturn addr len result => exact ⟨.outside _ _ _, hknows.during _ rfl⟩
  case callName name => exact ⟨.of_during rfl (DuringCall.start as i _) trivial, trivial⟩
  case nameNull name hzero =>
    exact found rfl ((hknows.begun rfl).now (hnull rfl hzero name).symm) trivial
  case nameTest name hash hhash => exact found rfl (hknows.begun rfl) hhash
  case nameFind name hash tables hlive hkeys htables =>
    obtain ⟨huse, hpaired⟩ := hvisible rfl
    rw [show s.shared.kernelSymbolHash = _ from hknows.reads] at hpaired
    obtain ⟨harray, -⟩ := Option.filter_eq_some_iff.mp hpaired.symm
    rw [harray, Option.bind_some, htables] at huse
    refine found rfl ((hknows.begun rfl).now ?_) trivial
    show Option.map _ _ = _
    rw [huse, Option.map_map]
    exact Option.map_id'
  case nameFault name hash hfreed =>
    have hhash : s.shared.kernelSymbolHash = some hash := hknows.reads
    have hpaired := (hvisible rfl).2
    rw [hhash] at hpaired
    obtain ⟨harray, -⟩ := Option.filter_eq_some_iff.mp hpaired.symm
    rcases hfreed with hfreed | hfreed
    · exact absurd hfreed (h.hash_live hhash)
    · exact absurd hfreed (h.array_live harray).1
  case nameNone name =>
    refine ⟨.outside _ _ _, ?_⟩
    show DuringCall i (.callName name) (fun record =>
      entryAddr none = entryAddr (KernelTables.entry (published record) name)) as
    exact (hknows.during _ rfl).mono fun record hentry => congrArg entryAddr hentry
  case nameRead name hash entry hlive =>
    refine ⟨.outside _ _ _, ?_⟩
    show DuringCall i (.callName name) (fun record =>
      entryAddr (some entry) = entryAddr (KernelTables.entry (published record) name)) as
    exact (hknows.during _ rfl).mono fun record hentry => congrArg entryAddr hentry
  case nameReadFault name hash entry hfreed =>
    exact ⟨.outside _ _ _, name, (hash, entry), rfl⟩

end

section Step

variable [DecidableEq ι] {owner : Option ι} {sh' : KsymShared} {p' : KsymPlace}
  {label : KsymLabel ι}

variable (h : KsymInv as s)
include h

/-- A step of a search. -/
theorem search (hi : (s.place i).loading = false) (hp' : p'.loading = false)
    (hpublish : label.publish? = none) (hlabel : ∀ j, j ≠ i → ∀ a, label ≠ some (j, a))
    (hright : RightLabel as label) (hknows : s.shared.Knows (as ++ [label]) i p')
    (hguarded : MutexState.Guarded KsymPlace.inside
      ⟨owner, s.shared, Function.update s.place i p'⟩) :
    KsymInv (as ++ [label]) ⟨owner, s.shared, Function.update s.place i p'⟩ := by
  have hplace := (Function.forall_update_iff s.place (a := i) (p := fun j p =>
      p.loading = true → (s.place j).loading = true ∧ p = s.place j)).mpr
    ⟨fun hj => absurd (hp'.symm.trans hj) Bool.false_ne_true, fun j _ hj => ⟨hj, rfl⟩⟩
  refine ⟨hguarded, ?_, ?_, ?_, h.right.snoc hright⟩
  · intro j k hj hk
    exact h.alone j k (hplace j hj).1 (hplace k hk).1
  · obtain ⟨p, hp, hall, hloader, huse⟩ := h.loader
    refine ⟨p, ?_, fun j hj => (hplace j hj).2.trans (hall j (hplace j hj).1), hloader, ?_⟩
    · rcases hp with hp | ⟨j, hj, hjp⟩
      · exact .inl hp
      · have hji : j ≠ i := by
          rintro rfl
          exact absurd (hi.symm.trans hj) Bool.false_ne_true
        refine .inr ⟨j, ?_⟩
        dsimp only
        rw [Function.update_of_ne hji]
        exact ⟨hj, hjp⟩
    · have hsame := published_snoc as hpublish
      cases p <;> exact hsame.trans huse
  · exact (Function.forall_update_iff s.place (p := s.shared.Knows (as ++ [label]))).mpr
      ⟨hknows, fun j hji => (h.knows j).mono (hlabel j hji) fun _ => ⟨rfl, rfl⟩⟩

/-- A step of the load. -/
theorem load (hother : ∀ j, j ≠ i → (s.place j).loading = false)
    (hp' : p'.loading = true ∨ p' = .outside) (hcall : p'.call? = none)
    (hlabel : ∀ j, j ≠ i → ∀ a, label ≠ some (j, a)) (hright : RightLabel as label)
    (hloader : sh'.LoaderAt p') (huse : sh'.InUse (as ++ [label]) p')
    (hpointers : (s.place i).inside = true ∨ sh'.kernelSymbols = s.shared.kernelSymbols ∧
      sh'.kernelSymbolHash = s.shared.kernelSymbolHash)
    (hguarded : MutexState.Guarded KsymPlace.inside
      ⟨owner, sh', Function.update s.place i p'⟩) :
    KsymInv (as ++ [label]) ⟨owner, sh', Function.update s.place i p'⟩ := by
  have hplace := (Function.forall_update_iff s.place (a := i) (b := p')
      (p := fun j p => p.loading = true → j = i)).mpr
    ⟨fun _ => rfl, fun j hji hj => absurd ((hother j hji).symm.trans hj) Bool.false_ne_true⟩
  refine ⟨hguarded, fun j k hj hk => (hplace j hj).trans (hplace k hk).symm, ?_, ?_,
    h.right.snoc hright⟩
  · refine ⟨p', hp'.symm.imp_right fun hp' => ⟨i, ?_⟩, fun j hj => ?_, hloader, huse⟩
    · dsimp only
      rw [Function.update_self]
      exact ⟨hp', rfl⟩
    · rw [hplace j hj]
      exact Function.update_self ..
  · refine (Function.forall_update_iff s.place (p := sh'.Knows (as ++ [label]))).mpr
      ⟨⟨fun call hc => ?_, ?_⟩, fun j hji => (h.knows j).mono (hlabel j hji) fun hj => ?_⟩
    · rw [hcall] at hc
      cases hc
    · cases p' <;> trivial
    · exact hpointers.resolve_left fun hin => hji (h.guarded.exclusive hj hin)

/-- An operation of the load. -/
theorem load_act (hi : (s.place i).loading = true)
    (hact : KsymAct (s.place i) s.shared p' sh' report)
    (hguarded : MutexState.Guarded KsymPlace.inside
      ⟨owner, sh', Function.update s.place i p'⟩) :
    KsymInv (as ++ [report.map fun a => (i, a)])
      ⟨owner, sh', Function.update s.place i p'⟩ := by
  have hother : ∀ j, j ≠ i → (s.place j).loading = false := fun j hji =>
    eq_false_of_ne_true fun hj => hji (h.alone j i hj hi)
  obtain ⟨p, -, hall, hloader, huse⟩ := h.loader
  rw [← hall i hi] at hloader huse
  obtain ⟨hloader', hfault⟩ := hloader.act hi hact
  refine h.load hother ?_ ?_ ?_ ?_ hloader' (huse.act i hi hloader hact) ?_ hguarded
  all_goals generalize s.place i = q at hi hact
  · cases hact <;> cases hi <;> first | exact .inl rfl | exact .inr rfl
  · cases hact <;> cases hi <;> rfl
  · rintro j hji a hlabel
    cases report <;> cases hlabel
    exact hji rfl
  · cases hact <;> cases hi <;> first | trivial | exact absurd rfl (hfault _)
  · cases hact <;> cases hi <;> first | exact .inr ⟨rfl, rfl⟩ | exact .inl rfl

/-- A load begins while there is no other. -/
theorem load_call (hact : KsymAct (s.place i) s.shared p' sh' (some .callLoad))
    (hnone : ∀ j, (s.place j).loading = false) (hguarded : MutexState.Guarded KsymPlace.inside
      ⟨owner, sh', Function.update s.place i p'⟩) :
    KsymInv (as ++ [some (i, .callLoad)]) ⟨owner, sh', Function.update s.place i p'⟩ := by
  obtain ⟨p, hp, -, hloader, huse⟩ := h.loader
  obtain rfl : p = .outside := by
    rcases hp with hp | ⟨j, hj, -⟩
    · exact hp
    · rw [hnone j] at hj
      cases hj
  generalize s.place i = q at hact
  cases hact
  refine h.load (fun j _ => hnone j) (.inl rfl) rfl ?_ trivial
    ⟨hloader.books, hloader.paired, trivial⟩ ?_ (.inr ⟨rfl, rfl⟩) hguarded
  · rintro j hji a ⟨⟩
    exact hji rfl
  · exact (published_snoc as rfl).trans huse

/-- The mutex is taken or given back. -/
theorem pass (hpass : (s.place i).Passes ι p') (hguarded : MutexState.Guarded KsymPlace.inside
      ⟨owner, s.shared, Function.update s.place i p'⟩) :
    KsymInv (as ++ [none]) ⟨owner, s.shared, Function.update s.place i p'⟩ := by
  have hquiet : ∀ (j : ι) a, (none : KsymLabel ι) ≠ some (j, a) := by rintro j a ⟨⟩
  cases hi : (s.place i).loading with
  | false =>
    refine h.search hi (hpass.loading.trans hi) rfl (fun j _ => hquiet j) trivial ?_ hguarded
    refine ⟨fun call hcall => ?_, hpass.reads _⟩
    have hduring := (h.knows i).during call (hpass.call ▸ hcall)
    exact (hduring.mono hpass.right).snoc (hquiet i)
  | true =>
    obtain ⟨p, -, hall, hloader, huse⟩ := h.loader
    rw [← hall i hi] at hloader huse
    have hcall : (s.place i).call? = none := by
      revert hi
      cases s.place i <;> first | exact fun _ => rfl | exact fun hi => by cases hi
    refine h.load ?_ (.inl (hpass.loading.trans hi)) (hpass.call.trans hcall)
      (fun j _ => hquiet j) trivial (hpass.loader hloader) ?_ (.inr ⟨rfl, rfl⟩) hguarded
    · exact fun j hji => eq_false_of_ne_true fun hj => hji (h.alone j i hj hi)
    · refine hpass.use ?_
      have hsame : published (as ++ [(none : KsymLabel ι)]) = published as := published_snoc as rfl
      generalize s.place i = q at huse
      cases q <;> exact hsame.trans huse

/-- One step of threads that load one after the other. -/
theorem step {t : KsymState ι} (hstep : SerialStep s label t) : KsymInv (as ++ [label]) t := by
  obtain ⟨hstep, hserial⟩ := hstep
  have hguarded := hstep.guarded ksym_disciplined h.guarded
  cases hstep with
  | @lock i next hlock hfree => exact h.pass (KsymPlace.passes_of_lock hlock) hguarded
  | @unlock i next hunlock => exact h.pass (KsymPlace.passes_of_unlock hunlock) hguarded
  | @act i run next shared report hop hrun =>
    rw [KsymPlace.act_of_op hop] at hrun
    cases hi : (s.place i).loading with
    | true => exact h.load_act hi hrun hguarded
    | false =>
      by_cases hcall : report = some .callLoad
      · subst hcall
        exact h.load_call hrun (hserial ⟨i, rfl⟩) hguarded
      · obtain ⟨rfl, hnext, hpublish⟩ := hrun.searches hi hcall
        obtain ⟨hknows, hright⟩ := h.learns hi hnext hrun
        refine h.search hi hnext ?_ ?_ hright hknows hguarded
        · cases report with
          | none => rfl
          | some event => cases event <;> first | rfl | exact absurd rfl (hpublish _)
        · rintro j hji a hlabel
          cases report <;> cases hlabel
          exact hji rfl

end Step

/-- Every run of threads that load one after the other. -/
theorem of_trace [DecidableEq ι] (h : Trace SerialStep KsymState.initial as s) : KsymInv as s := by
  have hrun := h.history KsymInv (fun _ _ _ _ hinv hstep => hinv.step hstep) initial
  rwa [List.nil_append] at hrun

end KsymInv

variable [DecidableEq ι]

/-! ## Runs -/

section Runs

variable {f : ι → KsymPlace} {owner : Option ι} {sh sh' : KsymShared} {i : ι} {p p' : KsymPlace}
  {report : Option KsymEvent}

private theorem serial_act (hact : KsymAct p sh p' sh' report) (hop : p.op = .act (KsymAct p))
    (hreport : report ≠ some .callLoad) :
    SerialStep ⟨owner, sh, Function.update f i p⟩ (report.map fun a => (i, a))
      ⟨owner, sh', Function.update f i p'⟩ := by
  refine ⟨.act_at hop hact, ?_⟩
  rintro ⟨j, hlabel⟩
  cases report <;> cases hlabel
  exact absurd rfl hreport

private theorem serial_quiet (hact : KsymAct p sh p' sh' none) (hop : p.op = .act (KsymAct p)) :
    SerialStep ⟨owner, sh, Function.update f i p⟩ none ⟨owner, sh', Function.update f i p'⟩ :=
  serial_act hact hop (by rintro ⟨⟩)

private theorem serial_call (hf : ∀ j, (f j).loading = false) :
    SerialStep ⟨owner, sh, Function.update f i .outside⟩ (some (i, .callLoad))
      ⟨owner, sh, Function.update f i .loadRead⟩ :=
  ⟨.act_at rfl KsymAct.callLoad, fun _ => (Function.forall_update_iff f
    (p := fun _ p => p.loading = false)).mpr ⟨rfl, fun j _ => hf j⟩⟩

private theorem serial_lock (hop : p.op = .lock p') :
    SerialStep ⟨none, sh, Function.update f i p⟩ none ⟨some i, sh, Function.update f i p'⟩ := by
  refine ⟨.lock_at hop, ?_⟩
  rintro ⟨j, ⟨⟩⟩

private theorem serial_unlock (hop : p.op = .unlock p') :
    SerialStep ⟨owner, sh, Function.update f i p⟩ none ⟨none, sh, Function.update f i p'⟩ := by
  refine ⟨.unlock_at hop, ?_⟩
  rintro ⟨j, ⟨⟩⟩

private theorem moves_freeArray {oldArray oldHash : Option Nat}
    (h : ∀ n ∈ oldArray, n ∉ sh.freedArrays) :
    Moves SerialStep ⟨none, sh, Function.update f i (.loadFreeArray oldArray oldHash)⟩
      ⟨none, { sh with freedArrays := oldArray.toList ++ sh.freedArrays },
        Function.update f i (.loadFreeHash oldHash)⟩ := by
  cases oldArray with
  | none => exact .single (serial_quiet .noFreeArray rfl)
  | some n => exact .single (serial_quiet (.freeArray (h n rfl)) rfl)

private theorem moves_freeHash {oldHash : Option Nat} (h : ∀ n ∈ oldHash, n ∉ sh.freedHashes) :
    Moves SerialStep ⟨none, sh, Function.update f i (.loadFreeHash oldHash)⟩
      ⟨none, { sh with freedHashes := oldHash.toList ++ sh.freedHashes },
        Function.update f i .outside⟩ := by
  cases oldHash with
  | none => exact .single (serial_act .noFreeHash rfl (by rintro ⟨⟩))
  | some n => exact .single (serial_act (.freeHash (h n rfl)) rfl (by rintro ⟨⟩))

/-- The shared state after a load. -/
def KsymShared.loaded (sh : KsymShared) (tables : KernelTables) (count : Nat) : KsymShared where
  kernelSymbols := some sh.tables.length
  kernelSymbolHash := some sh.tables.length
  gKsymItemsCount := count
  tables := sh.tables ++ [tables]
  freedArrays := sh.kernelSymbols.toList ++ sh.freedArrays
  freedHashes := sh.kernelSymbolHash.toList ++ sh.freedHashes

/-- A load that has begun can run to its end. -/
theorem moves_loadRead {tables : KernelTables} {count : Nat}
    (hloaded : KernelTables.Loaded sh.gKsymItemsCount tables count)
    (hhash : tables.hash.entries ≠ []) (harrays : ∀ n ∈ sh.kernelSymbols, n ∉ sh.freedArrays)
    (hhashes : ∀ n ∈ sh.kernelSymbolHash, n ∉ sh.freedHashes) :
    Moves SerialStep ⟨none, sh, Function.update f i .loadRead⟩
      ⟨none, sh.loaded tables count, Function.update f i .outside⟩ := by
  have hlast : (sh.tables ++ [tables])[sh.tables.length]? = some tables :=
    List.getElem?_concat_length
  have hhashed : ({ sh with
      kernelSymbols := some sh.tables.length
      gKsymItemsCount := count
      tables := sh.tables ++ [tables] } : KsymShared).hashed sh.tables.length = true := by
    unfold KsymShared.hashed
    dsimp only
    rw [hlast]
    simpa using hhash
  have hpublished := (Moves.single (serial_quiet .loadRead rfl)).snoc
    (serial_quiet (.loadBuilt hloaded) rfl) |>.snoc
    (serial_quiet .loadOldArray rfl) |>.snoc
    (serial_quiet .loadOldHash rfl) |>.snoc
    (serial_lock rfl) |>.snoc
    (serial_quiet .loadArray rfl) |>.snoc
    (serial_act (.loadHash hlast) rfl (by rintro ⟨⟩)) |>.snoc
    (serial_unlock (f := f) (i := i) rfl)
  rw [if_pos hhashed] at hpublished
  exact (hpublished.trans (moves_freeArray harrays)).trans (moves_freeHash hhashes)

end Runs

/-- Every answer of a search of the kernel symbols, while other threads search and load, is that of
the tables that were in use at a moment of its call. A search by name that reads its entry once it
is freed has no answer here: what it returns is what the memory holds by then. -/
theorem kernel_searches_linearizable {as : List (KsymLabel ι)} {s : KsymState ι}
    (h : Trace SerialStep KsymState.initial as s) :
    (∀ pre i addr len result post, as = pre ++ some (i, .retAddr addr len result) :: post →
      DuringCall i (.callAddr addr len)
        (fun record => result = KernelTables.symbol (published record) addr len) pre) ∧
    (∀ pre i name addr post, as = pre ++ some (i, .retName name addr) :: post →
      DuringCall i (.callName name)
        (fun record => addr = entryAddr (KernelTables.entry (published record) name)) pre) := by
  have hright := (KsymInv.of_trace h).right
  constructor
  · intro pre i addr len result post hsplit
    exact hright pre _ post hsplit
  · intro pre i name addr post hsplit
    exact hright pre _ post hsplit

/-- Tables of one symbol. -/
def oneSymbolTables : KernelTables where
  array := (guIntervalArrayInit [(⟨0x10#64, 0#64, "f"⟩ : Interval String)]).get (by decide)
  hash :=
    { entries := [⟨"f", 0x10#64⟩]
      find := fun name => if name = "f" then some ⟨"f", 0x10#64⟩ else none
      find_some := by
        intro name entry h
        split at h
        · cases h
          exact ⟨List.mem_cons_self, Eq.symm ‹_›⟩
        · cases h
      find_none := by
        intro name h entry hentry
        obtain rfl := List.mem_singleton.mp hentry
        split at h
        · cases h
        · exact Ne.symm ‹_› }

private theorem oneSymbolTables_loaded {count : Nat} (h : count ≤ 1) :
    KernelTables.Loaded count oneSymbolTables 1 := by
  refine ⟨fun _ => 0#64, [⟨true, some ⟨0x10#64, 't', "f"⟩⟩], ?_, .refl _⟩
  rcases Nat.le_one_iff_eq_zero_or_eq_one.mp h with rfl | rfl <;> rfl

/-- One thread is at this place, the other is out. -/
abbrev oneAt (p : KsymPlace) : Bool → KsymPlace := Function.update (fun _ => .outside) false p

private theorem oneAt_update (p : KsymPlace) : Function.update (oneAt p) true .outside = oneAt p :=
  Function.update_eq_self true _

/-- The other thread loads the symbols. -/
theorem moves_oneSymbol (sh : KsymShared) (hp : p.loading = false) (hcount : sh.gKsymItemsCount ≤ 1)
    (harrays : ∀ n ∈ sh.kernelSymbols, n ∉ sh.freedArrays)
    (hhashes : ∀ n ∈ sh.kernelSymbolHash, n ∉ sh.freedHashes) :
    Moves SerialStep ⟨none, sh, oneAt p⟩ ⟨none, sh.loaded oneSymbolTables 1, oneAt p⟩ := by
  rw [← oneAt_update]
  refine (Moves.single (serial_call ?_)).trans
    (moves_loadRead (oneSymbolTables_loaded hcount) (by rintro ⟨⟩) harrays hhashes)
  rintro (_ | _)
  · exact hp
  · rfl

/-- The symbols are loaded once. -/
theorem moves_loadedOnce : Moves SerialStep KsymState.initial
    ⟨none, KsymShared.initial.loaded oneSymbolTables 1, oneAt .outside⟩ := by
  have hself : oneAt .outside = fun _ => .outside := Function.update_eq_self false _
  have hload := moves_oneSymbol .initial (p := .outside) rfl (Nat.zero_le 1)
    (by rintro n ⟨⟩) (by rintro n ⟨⟩)
  rw [hself] at hload ⊢
  exact hload

/-- A load and a search. -/
theorem kernel_searches_linearizable_run :
    ∃ (as : List (KsymLabel Bool)) (s : KsymState Bool) (pre post : List (KsymLabel Bool)),
      Trace SerialStep KsymState.initial as s ∧
      as = pre ++ some (false, .retAddr 0x18#64 8 (some ⟨some "f", 8#64⟩)) :: post ∧
      DuringCall false (.callAddr 0x18#64 8) (fun record =>
        some ⟨some "f", 8#64⟩ = KernelTables.symbol (published record) 0x18#64 8) pre := by
  obtain ⟨as, has⟩ := moves_loadedOnce
  have hlive : 0 ∉ (KsymShared.initial.loaded oneSymbolTables 1).freedArrays := List.not_mem_nil
  have hsearch : Trace SerialStep
      ⟨none, KsymShared.initial.loaded oneSymbolTables 1, oneAt .outside⟩
      [some (false, .callAddr 0x18#64 8), none, none, none, none,
        some (false, .retAddr 0x18#64 8 (some ⟨some "f", 8#64⟩))]
      ⟨none, KsymShared.initial.loaded oneSymbolTables 1, oneAt .outside⟩ :=
    .cons (serial_act (.callAddr _ _) rfl (by rintro ⟨⟩)) <|
    .cons (serial_lock rfl) <|
    .cons (serial_quiet (.addrTest rfl) rfl) <|
    .cons (serial_quiet (.addrSearch hlive rfl) rfl) <|
    .cons (serial_unlock rfl) <|
    .cons (serial_act .addrReturn rfl (by rintro ⟨⟩)) (.nil _)
  have hrun := has.append hsearch
  refine ⟨_, _, as ++ [some (false, .callAddr 0x18#64 8), none, none, none, none], [], hrun,
    by simp, ?_⟩
  exact (kernel_searches_linearizable hrun).1 _ _ _ _ _ [] (by simp)

/-- While threads search the kernel symbols and load them one after the other, memory that has
been freed is used only by `gu_search_kernel_address`, for the address in the entry it has
found; no table is freed twice, and those that are not freed when all threads are out are the
ones in use. -/
theorem kernel_tables_freed_once {as : List (KsymLabel ι)} {s : KsymState ι}
    (h : Trace SerialStep KsymState.initial as s) :
    (∀ pre i place post, as = pre ++ some (i, .fault place) :: post →
      ∃ name entry, place = .nameRead name (some entry)) ∧
    s.shared.freedArrays.Nodup ∧ s.shared.freedHashes.Nodup ∧
    ((∀ i, s.place i = .outside) →
      (∀ n < s.shared.tables.length, n ∈ s.shared.freedArrays ↔ s.shared.kernelSymbols ≠ some n) ∧
      (∀ n < s.shared.tables.length, s.shared.hashed n = true →
        (n ∈ s.shared.freedHashes ↔ s.shared.kernelSymbolHash ≠ some n))) := by
  have hinv := KsymInv.of_trace h
  obtain ⟨p, hp, -, hloader, -⟩ := hinv.loader
  have hbooks := hloader.books
  refine ⟨fun pre i place post hsplit => hinv.right pre _ post hsplit, ?_, ?_, fun hquiet => ?_⟩
  · exact (List.nodup_append.mp (hbooks.arrays.nodup_iff.mpr List.nodup_range)).1
  · exact (List.nodup_append.mp (hbooks.hashes.nodup_iff.mpr (List.nodup_range.filter _))).1
  · obtain rfl : p = .outside := by
      rcases hp with hp | ⟨i, hi, -⟩
      · exact hp
      · rw [hquiet i] at hi
        cases hi
    constructor
    · intro n hn
      simpa [KsymPlace.owedArrays] using hbooks.mem_freedArrays hn
    · intro n hn hhashed
      simpa [KsymPlace.owedHashes] using hbooks.mem_freedHashes hn hhashed

/-- A search by name finds its entry, another thread loads the symbols again, and the search
reads the address in an entry that is gone. -/
theorem kernel_tables_freed_once_run :
    ∃ (as : List (KsymLabel Bool)) (s : KsymState Bool) (pre post : List (KsymLabel Bool))
      (place : KsymPlace), Trace SerialStep KsymState.initial as s ∧
      as = pre ++ some (false, .fault place) :: post ∧
      (∃ name entry, place = .nameRead name (some entry)) ∧ (∀ i, s.place i = .outside) ∧
      s.shared.tables.length = 2 ∧ s.shared.freedArrays = [0] ∧
      (1 ∈ s.shared.freedArrays ↔ s.shared.kernelSymbols ≠ some 1) := by
  obtain ⟨as, has⟩ := moves_loadedOnce
  set sh := KsymShared.initial.loaded oneSymbolTables 1 with hsh
  have hlive : 0 ∉ sh.freedArrays := List.not_mem_nil
  have hfind : Trace SerialStep ⟨none, sh, oneAt .outside⟩
      [some (false, .callName "f"), none, none, none, none]
      ⟨none, sh, oneAt (.nameRead "f" (some (0, ⟨"f", 0x10#64⟩)))⟩ :=
    .cons (serial_act (.callName _) rfl (by rintro ⟨⟩)) <|
    .cons (serial_lock rfl) <|
    .cons (serial_quiet (.nameTest rfl) rfl) <|
    .cons (serial_quiet (.nameFind List.not_mem_nil hlive rfl) rfl) <|
    .cons (serial_unlock rfl) (.nil _)
  obtain ⟨bs, hbs⟩ := moves_oneSymbol sh
    (p := .nameRead "f" (some (0, ⟨"f", 0x10#64⟩))) rfl (Nat.le_refl 1)
    (fun n _ => List.not_mem_nil) (fun n _ => List.not_mem_nil)
  have hread : Trace SerialStep
      ⟨none, sh.loaded oneSymbolTables 1, oneAt (.nameRead "f" (some (0, ⟨"f", 0x10#64⟩)))⟩
      [some (false, .fault (.nameRead "f" (some (0, ⟨"f", 0x10#64⟩))))]
      ⟨none, sh.loaded oneSymbolTables 1, oneAt .outside⟩ :=
    .single (serial_act (.nameReadFault List.mem_cons_self) rfl (by rintro ⟨⟩))
  have hrun := ((has.append hfind).append hbs).append hread
  obtain ⟨hfaults, -, -, hquiet⟩ := kernel_tables_freed_once hrun
  have hout : ∀ i, oneAt .outside i = .outside := congrFun (Function.update_eq_self false _)
  refine ⟨_, _, _, [], _, hrun, rfl, hfaults _ _ _ [] rfl, hout, rfl, rfl, ?_⟩
  exact (hquiet hout).1 1 (by decide)

end Gunwinder
