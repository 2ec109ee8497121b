import Mathlib.Algebra.Ring.Nat
import Mathlib.Logic.Basic
import Mathlib.Tactic.Common

/-!
# Stacks of heap nodes

A stack is kept as a chain of nodes. The heap never hands an address out again and counts the
releases of each node and the reads of released ones. `Chain` is the ownership predicate: as long
as it holds, pushing, popping and clearing work as on the list of payloads, and only the nodes of
the chain are released, once.
-/

namespace Gunwinder.Core

variable {α : Type*}

/-- A node: what it stores, the node below it and how often it was released. -/
structure Node (α : Type*) where
  payload : α
  link : Option Nat
  releases : Nat
  deriving DecidableEq, Repr

/-- Nodes by address, with the answers to allocation requests and the stale reads. -/
structure Heap (α : Type*) where
  nodes : List (Node α)
  /-- Allocation requests made so far. -/
  requests : Nat
  /-- Whether a request is granted. -/
  granted : Nat → Bool
  staleReads : Nat

namespace Heap

/-- A heap that has been asked for nothing yet. -/
def empty (granted : Nat → Bool) : Heap α := ⟨[], 0, granted, 0⟩

/-- Put a payload on top of a stack; `none` when the allocation is refused. -/
def push (h : Heap α) (x : α) (top : Option Nat) : Heap α × Option Nat :=
  if h.granted h.requests then
    ({ h with nodes := h.nodes ++ [⟨x, top, 0⟩], requests := h.requests + 1 },
      some h.nodes.length)
  else ({ h with requests := h.requests + 1 }, none)

/-- Record the read of a node. -/
def touch (h : Heap α) (node : Node α) : Heap α :=
  if node.releases = 0 then h else { h with staleReads := h.staleReads + 1 }

/-- Release a node. -/
def release (h : Heap α) (a : Nat) : Heap α :=
  { h with nodes := h.nodes.modify a fun n => { n with releases := n.releases + 1 } }

/-- Read the node under a head pointer and release it. -/
def pop (h : Heap α) (top : Option Nat) : Option (Heap α × α × Option Nat) :=
  match top with
  | none => none
  | some a =>
    match h.nodes[a]? with
    | none => none
    | some node => some ((h.touch node).release a, node.payload, node.link)

/-- Pop until nothing is left, for at most `fuel` nodes. -/
def clear : Nat → Heap α → Option Nat → Heap α
  | 0, h, _ => h
  | fuel + 1, h, top =>
    match h.pop top with
    | none => h
    | some (h', _, link) => clear fuel h' link

/-- The live nodes between a head pointer and the pointer `floor`, all at addresses from
`base` on, and what they store. Links lead to older nodes. -/
inductive Chain (base : Nat) (floor : Option Nat) (h : Heap α) : Option Nat → List α → Prop where
  | nil : Chain base floor h floor []
  | cons {a : Nat} {x : α} {link : Option Nat} {xs : List α}
      (node : h.nodes[a]? = some ⟨x, link, 0⟩) (above : base ≤ a)
      (older : ∀ b, link = some b → b < a) (rest : Chain base floor h link xs) :
      Chain base floor h (some a) (x :: xs)

/-- Addresses that following links from a head pointer leads to. -/
inductive Reach (h : Heap α) : Option Nat → Nat → Prop where
  | top {a : Nat} : Reach h (some a) a
  | link {a b : Nat} {node : Node α} (hnode : h.nodes[a]? = some node)
      (rest : Reach h node.link b) : Reach h (some a) b

/-- The node was released at least once. -/
def Released (h : Heap α) (a : Nat) : Prop :=
  ∃ node, h.nodes[a]? = some node ∧ node.releases ≠ 0

/-- No node was released twice and no released node was read. -/
structure Sound (h : Heap α) : Prop where
  once : ∀ node ∈ h.nodes, node.releases ≤ 1
  fresh : h.staleReads = 0

/-- What the nodes store, released ones included. -/
def payloads (h : Heap α) : List α := h.nodes.map Node.payload

/-- How many nodes were released, each as often as it was. -/
def released (h : Heap α) : Nat := (h.nodes.map Node.releases).sum

variable {h : Heap α}

/-- A push stores at most the payload it is given. -/
theorem mem_payloads_push {x y : α} {top : Option Nat} (hy : y ∈ (h.push x top).1.payloads) :
    y ∈ h.payloads ∨ y = x := by
  unfold push at hy
  split at hy
  · simpa [payloads] using hy
  · exact .inl hy

variable {link : Option Nat} {h' : Heap α}

/-- A pop gives a payload of the heap and changes none. -/
theorem payloads_pop {x : α} {top : Option Nat} (hpop : h.pop top = some (h', x, link)) :
    x ∈ h.payloads ∧ h'.payloads = h.payloads := by
  cases top with
  | none => cases hpop
  | some a =>
    cases hnode : h.nodes[a]? with
    | none => simp [pop, hnode] at hpop
    | some node =>
      simp only [pop, hnode, Option.some.injEq, Prod.mk.injEq] at hpop
      obtain ⟨rfl, rfl, -⟩ := hpop
      refine ⟨List.mem_map_of_mem (List.mem_of_getElem? hnode), ?_⟩
      have htouch : (h.touch node).nodes = h.nodes := by
        unfold touch
        split <;> rfl
      simp only [payloads, release, htouch]
      apply List.ext_getElem?
      intro i
      rw [List.getElem?_map, List.getElem?_map, List.getElem?_modify]
      cases h.nodes[i]? with
      | none => rfl
      | some other => split <;> rfl

/-- A later heap in which the nodes below `base` are as they were. -/
structure Above (base : Nat) (h h' : Heap α) : Prop where
  grown : h.nodes.length ≤ h'.nodes.length
  same : ∀ a < base, h'.nodes[a]? = h.nodes[a]?
  granted : h'.granted = h.granted

/-- Nothing is changed below. -/
theorem Above.refl (base : Nat) (h : Heap α) : Above base h h :=
  ⟨Nat.le_refl _, fun _ _ => rfl, rfl⟩

/-- Changes above compose. -/
theorem Above.trans {base : Nat} {h'' : Heap α} (h1 : Above base h h') (h2 : Above base h' h'') :
    Above base h h'' :=
  ⟨Nat.le_trans h1.grown h2.grown, fun a ha => (h2.same a ha).trans (h1.same a ha),
    h2.granted.trans h1.granted⟩

/-- A lower bound. -/
theorem Above.mono {base base' : Nat} (hab : Above base h h') (hle : base' ≤ base) :
    Above base' h h' :=
  ⟨hab.grown, fun a ha => hab.same a (Nat.lt_of_lt_of_le ha hle), hab.granted⟩

section Push

variable {base : Nat} {h : Heap α} {x : α} {floor top : Option Nat} {xs : List α}

/-- A request changes nothing that was there. -/
theorem push_above (hbase : base ≤ h.nodes.length) : Above base h (h.push x top).1 := by
  unfold push
  split
  · exact ⟨by simp, fun a ha => List.getElem?_append_left (by omega), rfl⟩
  · exact ⟨Nat.le_refl _, fun _ _ => rfl, rfl⟩

/-- A push keeps the heap sound. -/
theorem push_sound (hs : h.Sound) : (h.push x top).1.Sound := by
  unfold push
  split
  · refine ⟨fun node hnode => ?_, hs.fresh⟩
    rcases List.mem_append.mp hnode with hold | hnew
    · exact hs.once node hold
    · simp [List.mem_singleton.mp hnew]
  · exact ⟨hs.once, hs.fresh⟩

/-- New nodes and released nodes elsewhere leave a chain alone. -/
theorem Chain.mono (hc : Chain base floor h top xs)
    (hsame : ∀ a node, h.nodes[a]? = some node → node.releases = 0 → (∃ b, top = some b ∧ a ≤ b) →
      h'.nodes[a]? = some node) : Chain base floor h' top xs := by
  induction hc with
  | nil => exact .nil
  | cons node above older _ ih =>
    refine .cons (hsame _ _ node rfl ⟨_, rfl, Nat.le_refl _⟩) above older (ih ?_)
    rintro a n hn hrel ⟨b, hb, hab⟩
    exact hsame a n hn hrel ⟨_, rfl, by have := older b hb; omega⟩

/-- A head pointer of a chain is the address of a node, if the floor is. -/
theorem Chain.lt_length (hc : Chain base floor h top xs)
    (hfloor : ∀ a, floor = some a → a < h.nodes.length) :
    ∀ a, top = some a → a < h.nodes.length := by
  cases hc with
  | nil => exact hfloor
  | cons node _ _ _ =>
    rintro a ⟨⟩
    exact (List.getElem?_eq_some_iff.mp node).1

/-- A refused request leaves the chain, a granted one puts the payload on top. -/
theorem push_chain (hbase : base ≤ h.nodes.length) (hc : Chain base floor h top xs)
    (hfloor : ∀ a, floor = some a → a < h.nodes.length) :
    Chain base floor (h.push x top).1 top xs ∧
      ∀ a, (h.push x top).2 = some a → Chain base floor (h.push x top).1 (some a) (x :: xs) := by
  unfold push
  split
  · have hold : Chain base floor { h with
        nodes := h.nodes ++ [⟨x, top, 0⟩], requests := h.requests + 1 } top xs := by
      refine hc.mono fun a node hnode _ _ => ?_
      exact (List.getElem?_append_left (List.getElem?_eq_some_iff.mp hnode).1).trans hnode
    refine ⟨hold, ?_⟩
    rintro a ha
    cases ha
    exact .cons (by simp) hbase (hc.lt_length hfloor) hold
  · exact ⟨hc.mono fun _ _ hnode _ _ => hnode, by simp⟩

end Push

variable {a : Nat}

section Pop

variable {base : Nat} {h : Heap α} {floor top : Option Nat} {x : α} {xs : List α}

/-- Releasing a node leaves the others alone. -/
theorem release_other {c : Nat} (hac : a ≠ c) : (h.release a).nodes[c]? = h.nodes[c]? := by
  simp [release, hac]

private theorem release_self {node : Node α} (hnode : h.nodes[a]? = some node) :
    (h.release a).nodes[a]? = some { node with releases := node.releases + 1 } := by
  simp [release, hnode]

/-- Popping a chain reads its first payload and leaves the rest of it. -/
theorem Chain.pop (hc : Chain base floor h top (x :: xs)) :
    ∃ h' link, h.pop top = some (h', x, link) ∧ Chain base floor h' link xs ∧ Above base h h' ∧
      (h.Sound → h'.Sound) := by
  cases hc with
  | @cons a _ link _ node above older rest =>
    have hpop : h.pop (some a) = some (h.release a, x, link) := by simp [Heap.pop, node, touch]
    refine ⟨h.release a, link, hpop, ?_, ?_, ?_⟩
    · refine rest.mono ?_
      rintro c n hn _ ⟨b, hb, hcb⟩
      have := older b hb
      rwa [release_other (by omega)]
    · exact ⟨by simp [release], fun c hc => release_other (by omega), rfl⟩
    · intro hs
      refine ⟨fun n hn => ?_, hs.fresh⟩
      obtain ⟨c, hc⟩ := List.mem_iff_getElem?.mp hn
      by_cases hac : a = c
      · subst hac
        rw [release_self node] at hc
        simp [← Option.some.inj hc]
      · rw [release_other hac] at hc
        exact hs.once n (List.mem_of_getElem? hc)

/-- Popping releases the node on top. -/
theorem Released.of_pop (hpop : h.pop (some a) = some (h', x, link)) : h'.Released a := by
  unfold Heap.pop at hpop
  dsimp only at hpop
  split at hpop
  · cases hpop
  rename_i node hnode
  have hnode' : (h.touch node).nodes[a]? = some node := by
    unfold touch
    split <;> exact hnode
  cases hpop
  exact ⟨_, release_self hnode', Nat.succ_ne_zero _⟩

/-- A released node stays released. -/
theorem Released.pop {b : Nat} (hr : h.Released b) (hpop : h.pop top = some (h', x, link)) :
    h'.Released b := by
  cases top with
  | none => cases hpop
  | some a =>
    by_cases hab : a = b
    · subst hab
      exact .of_pop hpop
    · unfold Heap.pop at hpop
      dsimp only at hpop
      split at hpop
      · cases hpop
      rename_i node hnode
      cases hpop
      obtain ⟨n, hn, hne⟩ := hr
      refine ⟨n, ?_, hne⟩
      rw [release_other hab]
      unfold touch
      split <;> exact hn

private theorem Released.clear {b : Nat} (hr : h.Released b) (fuel : Nat) :
    (h.clear fuel top).Released b := by
  induction fuel generalizing h top with
  | zero => exact hr
  | succ fuel ih =>
    unfold Heap.clear
    split
    · exact hr
    · rename_i hpop
      exact ih (hr.pop hpop)

/-- An empty chain has nothing to pop. -/
theorem Chain.pop_nil (hc : Chain base none h top []) : h.pop top = none := by
  cases hc
  rfl

/-- Clearing a chain keeps everything below its base and releases nothing twice. -/
theorem Chain.clear (hc : Chain base none h top xs) (fuel : Nat) :
    Above base h (h.clear fuel top) ∧ (h.Sound → (h.clear fuel top).Sound) := by
  induction fuel generalizing h top xs with
  | zero => exact ⟨.refl base h, id⟩
  | succ fuel ih =>
    cases xs with
    | nil => simp only [Heap.clear, hc.pop_nil]; exact ⟨.refl base h, id⟩
    | cons x xs =>
      obtain ⟨h', link, hpop, hc', habove, hsound⟩ := hc.pop
      simp only [Heap.clear, hpop]
      obtain ⟨habove', hsound'⟩ := ih hc'
      exact ⟨habove.trans habove', fun hs => hsound' (hsound hs)⟩

/-- Clearing a chain releases the node on top. -/
theorem Chain.clear_top (hc : Chain base none h (some a) xs) {fuel : Nat} (hfuel : 0 < fuel) :
    (h.clear fuel (some a)).Released a := by
  obtain ⟨fuel, rfl⟩ := Nat.exists_eq_succ_of_ne_zero (Nat.pos_iff_ne_zero.mp hfuel)
  cases xs with
  | nil => cases hc
  | cons x xs =>
    obtain ⟨h', link, hpop, -⟩ := hc.pop
    simp only [Heap.clear, hpop]
    exact (Released.of_pop hpop).clear fuel

end Pop

section Count

variable {base : Nat} {h : Heap α} {top : Option Nat} {x : α} {xs : List α}

@[simp] theorem released_push : (h.push x top).1.released = h.released := by
  unfold push released
  split
  · simp
  · rfl

private theorem released_release (ha : a < h.nodes.length) :
    (h.release a).released = h.released + 1 := by
  have hlist : ∀ (l : List (Node α)) (a : Nat), a < l.length →
      ((l.modify a fun n => { n with releases := n.releases + 1 }).map Node.releases).sum =
        (l.map Node.releases).sum + 1 := by
    intro l
    induction l with
    | nil => exact fun a ha => absurd ha (Nat.not_lt_zero a)
    | cons n l ih =>
      intro a ha
      cases a with
      | zero =>
        simp only [List.modify_zero_cons, List.map_cons, List.sum_cons]
        omega
      | succ a =>
        simp only [List.modify_succ_cons, List.map_cons, List.sum_cons,
          ih a (Nat.lt_of_succ_lt_succ ha)]
        omega
  exact hlist h.nodes a ha

/-- Links lead to older nodes, so a chain is no longer than the heap. -/
theorem Chain.length_le (hc : Chain base none h top xs) : xs.length ≤ h.nodes.length := by
  have hbound : ∀ a, top = some a → xs.length ≤ a + 1 := by
    induction hc with
    | nil => exact nofun
    | @cons a _ link _ _ _ older rest ih =>
      rintro _ ⟨⟩
      cases link with
      | none =>
        cases rest
        simp
      | some b =>
        have hlen := ih b rfl
        have hold := older b rfl
        rw [List.length_cons]
        omega
  cases top with
  | none =>
    cases hc
    exact Nat.zero_le _
  | some a =>
    have hlt := hc.lt_length nofun a rfl
    have hle := hbound a rfl
    omega

/-- Popping a chain releases one node and allocates none. -/
theorem Chain.pop_count (hc : Chain base none h top (x :: xs)) :
    ∃ h' link, h.pop top = some (h', x, link) ∧ Chain base none h' link xs ∧
      h'.released = h.released + 1 ∧ h'.nodes.length = h.nodes.length ∧
      h'.requests = h.requests ∧ h'.granted = h.granted := by
  obtain ⟨h', link, hpop, hrest, -, -⟩ := hc.pop
  cases hc with
  | @cons a _ link' _ node above older rest =>
    have hpop' : h.pop (some a) = some (h.release a, x, link') := by simp [Heap.pop, node, touch]
    obtain ⟨rfl, -, -⟩ : h' = h.release a ∧ x = x ∧ link = link' := by
      simpa using hpop.symm.trans hpop'
    exact ⟨_, link, hpop, hrest, released_release (List.getElem?_eq_some_iff.mp node).1,
      by simp [release], rfl, rfl⟩

/-- Clearing a chain releases all of it. -/
theorem Chain.clear_count (hc : Chain base none h top xs) {fuel : Nat} (hfuel : xs.length ≤ fuel) :
    (h.clear fuel top).released = h.released + xs.length ∧
      (h.clear fuel top).nodes.length = h.nodes.length := by
  induction fuel generalizing h top xs with
  | zero =>
    obtain rfl := List.length_eq_zero_iff.mp (Nat.le_zero.mp hfuel)
    exact ⟨rfl, rfl⟩
  | succ fuel ih =>
    cases xs with
    | nil =>
      simp only [Heap.clear, hc.pop_nil]
      exact ⟨rfl, trivial⟩
    | cons x xs =>
      obtain ⟨h', link, hpop, hrest, hreleased, hlength, -, -⟩ := hc.pop_count
      simp only [Heap.clear, hpop]
      obtain ⟨hreleased', hlength'⟩ := ih hrest (Nat.le_of_succ_le_succ hfuel)
      refine ⟨?_, hlength'.trans hlength⟩
      rw [hreleased', hreleased, List.length_cons]
      omega

end Count

end Heap

end Gunwinder.Core
