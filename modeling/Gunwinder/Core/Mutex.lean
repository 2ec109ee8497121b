import Gunwinder.Core.Trace
import Mathlib.Logic.Function.Basic

/-!
# Threads and a mutex

Threads that share a state and one mutex. A thread is an automaton: its place in the code
determines whether it takes the mutex, gives it back or touches the shared state. `DuringCall`
says that something held at a moment of a call, between the report that opened it and now.
-/

namespace Gunwinder.Core

variable {ι σ L α : Type*}

/-! ## The system -/

/-- What a thread does at its place. -/
inductive MutexOp (σ L α : Type*) where
  | lock (next : L)
  | unlock (next : L)
  /-- One operation on the shared state: the place it leads to, the state it leaves and what is
  reported. -/
  | act (run : σ → L → σ → Option α → Prop)

/-- The thread that holds the mutex, the shared state and the places of the threads. -/
structure MutexState (ι σ L : Type*) where
  owner : Option ι
  shared : σ
  place : ι → L

/-- A step of one thread; a label is a report with the thread that made it. -/
inductive MutexStep [DecidableEq ι] (op : L → MutexOp σ L α) :
    MutexState ι σ L → Option (ι × α) → MutexState ι σ L → Prop where
  | lock {s : MutexState ι σ L} {i : ι} {next : L} (hop : op (s.place i) = .lock next)
      (hfree : s.owner = none) :
      MutexStep op s none { s with owner := some i, place := Function.update s.place i next }
  | unlock {s : MutexState ι σ L} {i : ι} {next : L} (hop : op (s.place i) = .unlock next) :
      MutexStep op s none { s with owner := none, place := Function.update s.place i next }
  | act {s : MutexState ι σ L} {i : ι} {run : σ → L → σ → Option α → Prop} {next : L}
      {shared : σ} {report : Option α} (hop : op (s.place i) = .act run)
      (hrun : run s.shared next shared report) :
      MutexStep op s (report.map fun a => (i, a))
        { s with shared, place := Function.update s.place i next }

/-! Steps of a thread whose place is given, for runs that are written out. -/

section Given

variable [DecidableEq ι] {op : L → MutexOp σ L α} {owner : Option ι} {shared shared' : σ}
  {place : ι → L} {i : ι} {l next : L}

/-- A free mutex is taken. -/
theorem MutexStep.lock_at (hop : op l = .lock next) :
    MutexStep op ⟨none, shared, Function.update place i l⟩ none
      ⟨some i, shared, Function.update place i next⟩ := by
  have hself : op (Function.update place i l i) = op l := congrArg op (Function.update_self ..)
  rw [← Function.update_idem (f := place) (a := i) l next]
  exact .lock (s := ⟨none, shared, Function.update place i l⟩) (hself.trans hop) rfl

/-- The mutex is left. -/
theorem MutexStep.unlock_at (hop : op l = .unlock next) :
    MutexStep op ⟨owner, shared, Function.update place i l⟩ none
      ⟨none, shared, Function.update place i next⟩ := by
  have hself : op (Function.update place i l i) = op l := congrArg op (Function.update_self ..)
  rw [← Function.update_idem (f := place) (a := i) l next]
  exact .unlock (s := ⟨owner, shared, Function.update place i l⟩) (hself.trans hop)

/-- The owner acts. -/
theorem MutexStep.act_at {run : σ → L → σ → Option α → Prop} {report : Option α}
    (hop : op l = .act run) (hrun : run shared next shared' report) :
    MutexStep op ⟨owner, shared, Function.update place i l⟩ (report.map fun a => (i, a))
      ⟨owner, shared', Function.update place i next⟩ := by
  have hself : op (Function.update place i l i) = op l := congrArg op (Function.update_self ..)
  rw [← Function.update_idem (f := place) (a := i) l next]
  exact .act (s := ⟨owner, shared, Function.update place i l⟩) (hself.trans hop) hrun

end Given

/-! ## Mutual exclusion -/

/-- The code takes the mutex when it enters the inside and gives it back when it leaves. -/
structure Disciplined (op : L → MutexOp σ L α) (inside : L → Bool) : Prop where
  lock : ∀ {l next : L}, op l = .lock next → inside l = false ∧ inside next = true
  unlock : ∀ {l next : L}, op l = .unlock next → inside l = true ∧ inside next = false
  act : ∀ {l next : L} {run : σ → L → σ → Option α → Prop} {shared shared' : σ}
    {report : Option α}, op l = .act run → run shared next shared' report → inside next = inside l

/-- The thread that holds the mutex is the one that is inside. -/
def MutexState.Guarded (inside : L → Bool) (s : MutexState ι σ L) : Prop :=
  ∀ i, s.owner = some i ↔ inside (s.place i) = true

/-- Two threads that are inside are one. -/
theorem MutexState.Guarded.exclusive {inside : L → Bool} {s : MutexState ι σ L}
    (h : s.Guarded inside) {i j : ι} (hi : inside (s.place i) = true)
    (hj : inside (s.place j) = true) : i = j :=
  Option.some.inj (((h i).mpr hi).symm.trans ((h j).mpr hj))

variable {label : Option (ι × α)}

/-- Steps keep other threads outside. -/
theorem MutexStep.guarded [DecidableEq ι] {op : L → MutexOp σ L α} {inside : L → Bool}
    {s t : MutexState ι σ L} (hop : Disciplined op inside) (hstep : MutexStep op s label t)
    (h : s.Guarded inside) : t.Guarded inside := by
  intro j
  cases hstep with
  | @lock i next hlock hfree =>
    obtain ⟨-, hnext⟩ := hop.lock hlock
    by_cases hji : j = i
    · subst hji
      simp only [Function.update_self, hnext]
    · have hout : ¬ inside (s.place j) = true := fun hin => by
        have := (h j).mpr hin
        rw [hfree] at this
        cases this
      simp only [Function.update_of_ne hji, Option.some.injEq]
      exact ⟨fun heq => absurd heq.symm hji, fun hin => absurd hin hout⟩
  | @unlock i next hunlock =>
    obtain ⟨hin, hnext⟩ := hop.unlock hunlock
    by_cases hji : j = i
    · subst hji
      simp only [Function.update_self, hnext, reduceCtorEq, Bool.false_eq_true]
    · simp only [Function.update_of_ne hji, reduceCtorEq, false_iff]
      exact fun hj => hji (h.exclusive hj hin)
  | @act i run next shared report hact hrun =>
    by_cases hji : j = i
    · subst hji
      simp only [Function.update_self, hop.act hact hrun]
      exact h j
    · simp only [Function.update_of_ne hji]
      exact h j

/-! ## Records -/

/-- Every label of a record, with what is in front of it. -/
def Always (Q : List α → α → Prop) (as : List α) : Prop :=
  ∀ pre a post, as = pre ++ a :: post → Q pre a

/-- An empty record. -/
theorem Always.nil (Q : List α → α → Prop) : Always Q [] := by
  intro pre a post h
  cases pre <;> cases h

/-- One more report. -/
theorem Always.snoc {Q : List α → α → Prop} {as : List α} {a : α} (h : Always Q as)
    (ha : Q as a) : Always Q (as ++ [a]) := by
  intro pre b post hsplit
  rcases List.eq_nil_or_concat post with rfl | ⟨rest, c, rfl⟩
  · obtain ⟨rfl, hlast⟩ := List.append_inj' hsplit rfl
    obtain rfl := List.head_eq_of_cons_eq hlast
    exact ha
  · rw [List.concat_eq_append, ← List.cons_append, ← List.append_assoc] at hsplit
    obtain ⟨hfront, -⟩ := List.append_inj' hsplit rfl
    exact h pre b rest hfront

/-- Thread `i` last reported `call`, and since then there was a moment at which the record had
the property. -/
def DuringCall (i : ι) (call : α) (Q : List (Option (ι × α)) → Prop)
    (as : List (Option (ι × α))) : Prop :=
  ∃ pre mid rest, as = pre ++ some (i, call) :: mid ++ rest ∧
    (∀ a, some (i, a) ∉ mid ++ rest) ∧ Q (pre ++ some (i, call) :: mid)

namespace DuringCall

variable {i : ι} {call : α} {Q : List (Option (ι × α)) → Prop} {as : List (Option (ι × α))}

/-- The call has begun. -/
theorem start (as : List (Option (ι × α))) (i : ι) (call : α) :
    DuringCall i call (fun _ => True) (as ++ [some (i, call)]) :=
  ⟨as, [], [], (List.append_nil _).symm, fun _ => List.not_mem_nil, trivial⟩

/-- The moment is now. -/
theorem now (h : DuringCall i call (fun _ => True) as) (hQ : Q as) : DuringCall i call Q as := by
  obtain ⟨pre, mid, rest, rfl, hmid, -⟩ := h
  refine ⟨pre, mid ++ rest, [], ?_, ?_, ?_⟩
  · simp
  · simpa using hmid
  · simpa using hQ

/-- The moment stays where it is as long as the thread reports nothing. -/
theorem snoc (h : DuringCall i call Q as) (hlabel : ∀ a, label ≠ some (i, a)) :
    DuringCall i call Q (as ++ [label]) := by
  obtain ⟨pre, mid, rest, rfl, hmid, hQ⟩ := h
  refine ⟨pre, mid, rest ++ [label], by simp, ?_, hQ⟩
  intro a ha
  rw [← List.append_assoc] at ha
  rcases List.mem_append.mp ha with hold | hnew
  · exact hmid a hold
  · exact hlabel a (List.mem_singleton.mp hnew).symm

/-- A weaker property of the record. -/
theorem mono {Q' : List (Option (ι × α)) → Prop} (h : DuringCall i call Q as)
    (hQ : ∀ record, Q record → Q' record) : DuringCall i call Q' as := by
  obtain ⟨pre, mid, rest, has, hmid, hmoment⟩ := h
  exact ⟨pre, mid, rest, has, hmid, hQ _ hmoment⟩

end DuringCall

/-- The report of a thread, if the label is one. -/
def reportOf [DecidableEq ι] (i : ι) : Option (ι × α) → Option α
  | some (j, a) => if j = i then some a else none
  | none => none

/-- There was a moment of the call at which the record had the property, and the reports of the
thread since then are these. -/
def SinceCall [DecidableEq ι] (i : ι) (call : α) (Q : List (Option (ι × α)) → Prop)
    (reports : List α) (as : List (Option (ι × α))) : Prop :=
  ∃ front back, as = front ++ back ∧ DuringCall i call Q front ∧
    back.filterMap (reportOf i) = reports

namespace SinceCall

variable [DecidableEq ι] {i : ι} {call : α} {Q : List (Option (ι × α)) → Prop}
  {reports : List α} {as : List (Option (ι × α))}

/-- No report since the moment. -/
theorem of_during (h : DuringCall i call Q as) : SinceCall i call Q [] as :=
  ⟨as, [], (List.append_nil as).symm, h, rfl⟩

/-- The thread reports. -/
theorem report (h : SinceCall i call Q reports as) (a : α) :
    SinceCall i call Q (reports ++ [a]) (as ++ [some (i, a)]) := by
  obtain ⟨front, back, rfl, hfront, rfl⟩ := h
  refine ⟨front, back ++ [some (i, a)], List.append_assoc .., hfront, ?_⟩
  rw [filterMap_snoc, reportOf, if_pos rfl]
  rfl

/-- Another thread reports, or none. -/
theorem snoc (h : SinceCall i call Q reports as) (hlabel : ∀ a, label ≠ some (i, a)) :
    SinceCall i call Q reports (as ++ [label]) := by
  obtain ⟨front, back, rfl, hfront, rfl⟩ := h
  refine ⟨front, back ++ [label], List.append_assoc .., hfront, ?_⟩
  have hnone : reportOf i label = none := by
    rcases label with _ | ⟨j, a⟩
    · rfl
    · refine if_neg fun hji => hlabel a ?_
      rw [hji]
  rw [filterMap_snoc, hnone, Option.toList_none, List.append_nil]

end SinceCall

end Gunwinder.Core
