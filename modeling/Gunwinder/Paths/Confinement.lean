import Gunwinder.Paths.Turn
import Mathlib.Data.List.Induction

/-!
# Confinement and balance

Every descriptor in `dir_fds` is at or below the root, and a name that is not `..` leads no
higher. The walk holds exactly the descriptors in `dir_fds` up to `depth`, at every way out of its
loop. The loop is left: a turn consumes a name, or it follows one of at most 40 links.
-/

namespace Gunwinder

open Gunwinder.Core

variable {ν : Type} {w : Host ν} {before : Descriptors ν} {root : ν}

/-! ## The objects opened -/

variable (t : FileTree ν)

/-- The objects opened since `before` are at or below the root. -/
def OpenedBelow (root : Option ν) (before after : Descriptors ν) : Prop :=
  ∀ fd o, before.count ≤ fd → after.nodes[fd]? = some o → ∃ r, root = some r ∧ t.Below r o

/-- Nothing was opened. -/
theorem openedBelow_refl (root : Option ν) (f : Descriptors ν) : OpenedBelow t root f f := by
  intro fd o hfd hnode
  obtain ⟨hlt, -⟩ := List.getElem?_eq_some_iff.mp hnode
  exact absurd hlt (Nat.not_lt_of_le hfd)

variable {f : Descriptors ν}

/-- Closing changes nothing. -/
theorem OpenedBelow.of_nodes {t : FileTree ν} {root : Option ν} {f' : Descriptors ν}
    (h : OpenedBelow t root before f) (hnodes : f'.nodes = f.nodes) :
    OpenedBelow t root before f' :=
  fun fd o hfd hobject => h fd o hfd (hnodes ▸ hobject)

/-- One more object at or below the root. -/
theorem OpenedBelow.opened {t : FileTree ν} {o : ν} (h : OpenedBelow t (some root) before f)
    (ho : t.Below root o) : OpenedBelow t (some root) before (f.opened o) := by
  intro fd o' hfd hobject
  rw [Descriptors.opened_nodes, List.getElem?_append] at hobject
  split at hobject
  · exact h fd o' hfd hobject
  · obtain rfl := List.mem_singleton.mp (List.mem_of_getElem? hobject)
    exact ⟨root, rfl, ho⟩

namespace PathWalk

variable {s : PathWalk ν}

/-! ## The descriptors held -/

/-- The entries of `dir_fds` up to `depth`. -/
structure Holds (dirFds : Nat → Option Nat) (depth : Nat) (held : List Nat) : Prop where
  length : held.length = depth + 1
  entries : ∀ i < held.length, dirFds i = held[i]?

variable {p : Proc ν}

section Holds

variable {dirFds : Nat → Option Nat} {depth fd : Nat} {held : List Nat}

/-- The last descriptor held is the one that is used. -/
theorem Holds.top (h : Holds dirFds depth held) (hfd : dirFd dirFds depth = some fd) :
    ∃ front, held = front ++ [fd] := by
  have hlen := h.length
  have hentry := h.entries depth (by omega)
  unfold dirFd at hfd
  split at hfd
  · rw [hentry] at hfd
    refine ⟨held.take depth, ?_⟩
    obtain ⟨hlt, rfl⟩ := List.getElem?_eq_some_iff.mp hfd
    rw [List.take_append_getElem, List.take_of_length_le (by omega)]
  · cases hfd

/-- The entry is there as long as there is room. -/
theorem Holds.dirFd_ne_none (h : Holds dirFds depth held)
    (hroom : depth < guOpenInRootMaxComponents) : dirFd dirFds depth ≠ none := by
  have hlt : depth < held.length := by rw [h.length]; exact Nat.lt_succ_self _
  rw [dirFd, if_pos hroom, h.entries depth hlt, List.getElem?_eq_getElem hlt]
  exact Option.some_ne_none _

/-- Going up takes the last one away. -/
theorem Holds.up {front : List Nat} (h : Holds dirFds depth (front ++ [fd])) (hdepth : 0 < depth) :
    Holds dirFds (depth - 1) front := by
  have hlen := h.length
  rw [List.length_append, List.length_singleton] at hlen
  refine ⟨by omega, fun i hi => ?_⟩
  rw [h.entries i (by rw [List.length_append]; omega), List.getElem?_append_left hi]

/-- Entering a directory adds one. -/
theorem Holds.enter (h : Holds dirFds depth held) (fd : Nat) :
    Holds (Function.update dirFds (depth + 1) (some fd)) (depth + 1) (held ++ [fd]) := by
  have hlen := h.length
  refine ⟨by rw [List.length_append, List.length_singleton, hlen], fun i hi => ?_⟩
  by_cases hi' : i = depth + 1
  · subst hi'
    rw [Function.update_self, ← hlen, List.getElem?_concat_length]
  · rw [List.length_append, List.length_singleton] at hi
    have hlt : i < held.length := by omega
    rw [Function.update_of_ne hi', h.entries i hlt, List.getElem?_append_left hlt]

/-- The root's alone. -/
theorem Holds.bottom (h : Holds dirFds depth held) : Holds dirFds 0 (held.take 1) := by
  have hlen := h.length
  have htake : (held.take 1).length = 1 := by rw [List.length_take, hlen]; omega
  refine ⟨htake, fun i hi => ?_⟩
  rw [h.entries i (by omega), List.getElem?_take_of_lt (by omega)]

/-- Closing entries from the last one down to `low` closes the descriptors held there. -/
theorem closeDirs_balanced (low : Nat) {kept : List Nat}
    (hentries : ∀ i < held.length, dirFds i = held[i]?)
    (hroom : held.length ≤ guOpenInRootMaxComponents) (h : before.Balanced p.fds (held ++ kept)) :
    ∃ p', closeDirs dirFds low held.length p = some p' ∧ p'.fds.nodes = p.fds.nodes ∧
      before.Balanced p'.fds (held.take low ++ kept) := by
  induction held using List.reverseRecOn generalizing p with
  | nil => exact ⟨p, rfl, rfl, by simpa using h⟩
  | append_singleton front fd ih =>
    rw [List.length_append, List.length_singleton] at hentries hroom ⊢
    rw [closeDirs]
    by_cases hlow : front.length < low
    · rw [if_pos hlow, List.take_of_length_le (by rw [List.length_append]; exact hlow)]
      exact ⟨p, rfl, rfl, h⟩
    · have hfd : dirFd dirFds front.length = some fd := by
        rw [dirFd, if_pos (by omega), hentries _ (Nat.lt_succ_self _), List.getElem?_concat_length]
      rw [if_neg hlow, hfd, List.take_append_of_le_length (by omega)]
      rw [List.append_assoc] at h
      refine ih (p := p.close fd) (fun i hi => ?_) (by omega) h.close
      rw [hentries i (by omega), List.getElem?_append_left hi]

/-- So the closing loops of the source use entries that are there. -/
theorem Holds.close (low : Nat) {kept : List Nat} (h : Holds dirFds depth held)
    (hroom : depth < guOpenInRootMaxComponents) (hbalanced : before.Balanced p.fds (held ++ kept)) :
    ∃ p', closeDirs dirFds low (depth + 1) p = some p' ∧ p'.fds.nodes = p.fds.nodes ∧
      before.Balanced p'.fds (held.take low ++ kept) := by
  have hclosed := closeDirs_balanced low h.entries (by rw [h.length]; exact hroom) hbalanced
  rwa [h.length] at hclosed

end Holds

/-! ## The invariant -/

/-- What holds at the head of the loop. -/
structure Kept (w : Host ν) (before : Descriptors ν) (root : ν) (s : PathWalk ν) : Prop where
  held : ∃ held, Holds s.dirFds s.depth held ∧ before.Balanced s.proc.fds held
  room : s.depth < guOpenInRootMaxComponents
  short : s.cursor.length < pathMax
  links : s.symlinkCount ≤ guOpenInRootMaxSymlinks
  below : OpenedBelow w.tree (some root) before s.proc.fds

/-- The descriptor that a result returns. -/
def returned : Except Errno Nat → List Nat
  | .ok fd => [fd]
  | .error _ => []

/-- What holds when the loop is left. -/
def Left (w : Host ν) (before : Descriptors ν) (root : ν) : PathEnd ν → Prop
  | .error _ => False
  | .ok (result, s) =>
    (∃ held, Holds s.dirFds s.depth held ∧
      before.Balanced s.proc.fds (held ++ returned result)) ∧
    s.depth < guOpenInRootMaxComponents ∧ OpenedBelow w.tree (some root) before s.proc.fds

/-- Links that may still be followed, and characters that are left. -/
def work (s : PathWalk ν) : Nat :=
  (guOpenInRootMaxSymlinks - s.symlinkCount) * pathMax + s.cursor.length

/-- The directory of the walk is at or below the root. -/
theorem Kept.below_top (h : Kept w before root s) {fd : Nat} {d : ν}
    (hfd : dirFd s.dirFds s.depth = some fd) (hnode : s.proc.fds.node fd = some d) :
    w.tree.Below root d := by
  obtain ⟨held, hholds, hbalanced⟩ := h.held
  obtain ⟨front, rfl⟩ := hholds.top hfd
  have hmine := hbalanced.mine fd (by simp)
  obtain ⟨r, hr, hbelow⟩ := h.below fd d hmine.1 (Descriptors.getElem?_of_node hnode)
  exact Option.some.inj hr ▸ hbelow

/-- So is an object that it looks at. -/
theorem Kept.below_visits (h : Kept w before root s) {name : List Char} {d o : ν}
    (visits : Visits w s name d o) : w.tree.Below root o := by
  obtain ⟨fd, hfd, hnode⟩ := visits.fd
  exact .entry (h.below_top hfd hnode) visits.dot visits.dotDot visits.entry

/-- An object that was opened and closed again leaves the balance as it was. -/
theorem balanced_visited {held : List Nat} (h : before.Balanced s.proc.fds held) (o : ν) :
    before.Balanced (s.visited o) held := by
  have hclosed := (h.opened o).close
  rwa [List.append_nil] at hclosed

/-- The number of links left goes down with every link. -/
theorem work_link {cursor : List Char} (hlinks : s.symlinkCount < guOpenInRootMaxSymlinks)
    (hfits : cursor.length < pathMax) :
    (guOpenInRootMaxSymlinks - (s.symlinkCount + 1)) * pathMax + cursor.length < s.work := by
  obtain ⟨n, hn⟩ : ∃ n, guOpenInRootMaxSymlinks - s.symlinkCount = n + 1 :=
    ⟨guOpenInRootMaxSymlinks - s.symlinkCount - 1, by omega⟩
  have hn' : guOpenInRootMaxSymlinks - (s.symlinkCount + 1) = n := by omega
  rw [work, hn, hn', Nat.succ_mul]
  omega

variable (flags : List OpenFlag)

/-- A turn keeps the invariant and lowers the work, or it leaves the loop in balance. -/
theorem turn_kept (h : Kept w before root s) :
    (turn w flags s).All (fun s' => Kept w before root s' ∧ s'.work < s.work)
      (Left w before root) := by
  obtain ⟨held, hholds, hbalanced⟩ := h.held
  have hvisited {proc : Proc ν} {o : ν} (fds : proc.fds = s.visited o) :
      before.Balanced proc.fds (held ++ []) := by
    rw [fds, List.append_nil]
    exact balanced_visited hbalanced o
  generalize hturn : turn w flags s = result
  have hadvance : Advance w s result := hturn ▸ turn_advance w flags s
  cases hadvance with
  | skip next dots =>
    have hshort := Nat.lt_trans next.shorter h.short
    exact ⟨⟨h.held, h.room, hshort, h.links, h.below⟩, Nat.add_lt_add_left next.shorter _⟩
  | up next inner entry =>
    obtain ⟨front, rfl⟩ := hholds.top entry
    have hshort := Nat.lt_trans next.shorter h.short
    have hclosed := hbalanced.close
    rw [List.append_nil] at hclosed
    exact ⟨⟨⟨front, hholds.up inner, hclosed⟩, Nat.lt_of_le_of_lt (Nat.sub_le _ _) h.room, hshort,
      h.links, h.below⟩, Nat.add_lt_add_left next.shorter _⟩
  | link next visits kind links fits relative fds =>
    refine ⟨⟨⟨held, hholds, ?_⟩, h.room, fits, links, ?_⟩, work_link links fits⟩
    · rw [fds]
      exact balanced_visited hbalanced _
    · rw [fds]
      exact h.below.opened (h.below_visits visits)
  | @jump name rest target d o proc proc' next visits kind links fits absolute fds closed =>
    obtain ⟨p', hclosed, hnodes, hbalanced'⟩ := hholds.close 1 h.room (hvisited fds)
    rw [closed] at hclosed
    cases hclosed
    rw [List.append_nil] at hbalanced'
    refine ⟨⟨⟨held.take 1, hholds.bottom, hbalanced'⟩, Nat.succ_pos _, fits, links, ?_⟩,
      work_link links fits⟩
    rw [fds] at hnodes
    exact (h.below.opened (h.below_visits visits)).of_nodes hnodes
  | enter next visits kind room fds =>
    have hshort := Nat.lt_trans next.shorter h.short
    refine ⟨⟨⟨held ++ [s.proc.fds.count], hholds.enter _, ?_⟩, room, hshort, h.links, ?_⟩,
      Nat.add_lt_add_left next.shorter _⟩
    · rw [fds]
      exact hbalanced.opened _
    · rw [fds]
      exact h.below.opened (h.below_visits visits)
  | refuse fds =>
    refine ⟨⟨held, hholds, ?_⟩, h.room, ?_⟩
    · rw [fds, returned, List.append_nil]
      exact hbalanced
    · rw [fds]
      exact h.below
  | reject visits fds =>
    refine ⟨⟨held, hholds, ?_⟩, h.room, ?_⟩
    · exact hvisited fds
    · rw [fds]
      exact h.below.opened (h.below_visits visits)
  | here names entry node dir fds =>
    refine ⟨⟨held, hholds, ?_⟩, h.room, ?_⟩
    · rw [fds]
      exact hbalanced.opened _
    · rw [fds]
      exact h.below.opened (h.below_top entry node)
  | @last name d o proc next visits kind fds =>
    have hbelow := h.below_visits visits
    refine ⟨⟨held, hholds, ?_⟩, h.room, ?_⟩
    · have hopened := (balanced_visited hbalanced o).opened o
      rw [visited, Descriptors.close_count, Descriptors.opened_count] at hopened
      rw [fds]
      exact hopened
    · rw [fds]
      exact (h.below.opened hbelow).opened hbelow
  | fault hfault =>
    rcases hfault with hnone | ⟨proc, o, fds, hnone⟩
    · exact hholds.dirFd_ne_none h.room hnone
    · obtain ⟨p', hclosed, -⟩ := hholds.close 1 h.room (hvisited fds)
      rw [hnone] at hclosed
      cases hclosed

/-- The walk starts with the root's descriptor. -/
theorem kept_start {path : List Char} (hpath : path.length < pathMax)
    (hfds : p.fds = before.opened root) : Kept w before root (start p before.count path) := by
  refine ⟨⟨[before.count], ⟨rfl, fun i hi => ?_⟩, ?_⟩, Nat.succ_pos _, hpath, Nat.zero_le _, ?_⟩
  · obtain rfl : i = 0 := Nat.lt_one_iff.mp hi
    rfl
  · rw [start, hfds]
    exact (Descriptors.Balanced.refl before).opened root
  · rw [start, hfds]
    exact OpenedBelow.opened (openedBelow_refl _ _ _) .root

/-- The loop is left in balance. -/
theorem loop_left {path : List Char} {fuel : Nat} (hpath : path.length < pathMax)
    (hfds : p.fds = before.opened root) (hfuel : (guOpenInRootMaxSymlinks + 1) * pathMax ≤ fuel) :
    Left w before root (loop (turn w flags) (fun _ => .error .running) fuel
      (start p before.count path)) := by
  have hwork : (start p before.count path).work < fuel := by
    rw [work, start, Nat.sub_zero]
    rw [Nat.succ_mul] at hfuel
    dsimp only
    omega
  exact loop_total _ (Kept w before root) (Left w before root) work
    (fun s hs => turn_kept flags hs) (kept_start hpath hfds) hwork

/-- Behind the loop everything is closed but the descriptor that is returned. -/
theorem Left.finish {left : PathEnd ν} (h : Left w before root left) :
    ∃ result p', finish left = .ok (result, p') ∧ before.Balanced p'.fds (returned result) ∧
      OpenedBelow w.tree (some root) before p'.fds := by
  match left, h with
  | .ok (result, s), ⟨⟨held, hholds, hbalanced⟩, hroom, hbelow⟩ =>
    obtain ⟨p', hclosed, hnodes, hbalanced'⟩ := hholds.close 0 hroom hbalanced
    exact ⟨result, p', by rw [PathWalk.finish, hclosed], hbalanced', hbelow.of_nodes hnodes⟩

end PathWalk

/-! ## The whole call -/

/-- A call opens objects at or below the root, and leaves no descriptor open but the one that it
returns. -/
structure OpensBelow (root : Option ν) (before after : Descriptors ν) (result : Except Errno Nat) :
    Prop where
  balanced : before.Balanced after (PathWalk.returned result)
  below : OpenedBelow t root before after

/-- A call that fails and opens nothing. -/
theorem opensBelow_refused (root : Option ν) (e : Errno) {f' : Descriptors ν} (hfds : f' = f) :
    OpensBelow t root f f' (.error e) := by
  subst hfds
  exact ⟨.refl _, openedBelow_refl _ _ _⟩

/-- The resolution of a path returns and uses no entry outside of `dir_fds`. -/
theorem guOpenat2InRootCompat_opensBelow (w : Host ν) (p : Proc ν) (rootFd : Int)
    (path : Option (List Char)) (flags : List OpenFlag) {fuel : Nat}
    (hfuel : (guOpenInRootMaxSymlinks + 1) * pathMax ≤ fuel) :
    ∃ result p', guOpenat2InRootCompat w p rootFd path flags fuel = .ok (result, p') ∧
      OpensBelow w.tree (p.fds.node rootFd.toNat) p.fds p'.fds result := by
  unfold guOpenat2InRootCompat
  split
  · exact ⟨_, _, rfl, opensBelow_refused _ _ _ rfl⟩
  rename_i path
  split
  · exact ⟨_, _, rfl, opensBelow_refused _ _ _ rfl⟩
  split
  · exact ⟨_, _, rfl, opensBelow_refused _ _ _ rfl⟩
  rename_i hpath
  split
  · rename_i e p' hdup
    obtain ⟨-, -, hfds⟩ | ⟨-, -, herr, -⟩ := Host.dupfd_cases hdup
    · exact ⟨_, _, rfl, opensBelow_refused _ _ _ hfds⟩
    · cases herr
  · rename_i fd p' hdup
    obtain ⟨e, herr, -⟩ | ⟨root, hnode, hok, hfds⟩ := Host.dupfd_cases hdup
    · cases herr
    cases hok
    obtain ⟨result, p'', hfinish, hbalanced, hbelow⟩ :=
      (PathWalk.loop_left flags (Nat.lt_of_not_le hpath) hfds hfuel).finish
    exact ⟨result, p'', hfinish, hbalanced, hnode ▸ hbelow⟩

/-- A call has opened objects at or below its root only, and has closed each descriptor that it
opened once, the one that it returns apart, and no other. -/
structure Confined (before : Descriptors ν) (rootFd : Int) (result : Except Errno Nat)
    (after : Descriptors ν) : Prop where
  below : ∀ fd o, before.count ≤ fd → after.nodes[fd]? = some o →
    ∃ root, before.node rootFd.toNat = some root ∧ t.Below root o
  returns : ∀ fd, result = .ok fd → before.count ≤ fd ∧ fd < after.count
  closes : ∀ fd, after.closes.count fd = before.closes.count fd +
    if before.count ≤ fd ∧ fd < after.count ∧ fd ∉ PathWalk.returned result then 1 else 0

/-- The resolution of a path returns, uses no entry outside of `dir_fds`, and is confined. -/
theorem guOpenat2InRootCompat_confined (w : Host ν) (p : Proc ν) (rootFd : Int)
    (path : Option (List Char)) (flags : List OpenFlag) (fuel : Nat)
    (hfuel : (guOpenInRootMaxSymlinks + 1) * pathMax ≤ fuel) :
    ∃ result p', guOpenat2InRootCompat w p rootFd path flags fuel = .ok (result, p') ∧
      Confined w.tree p.fds rootFd result p'.fds := by
  obtain ⟨result, p', hcall, hopens⟩ := guOpenat2InRootCompat_opensBelow w p rootFd path flags hfuel
  refine ⟨result, p', hcall, hopens.below, fun fd hresult => hopens.balanced.mine fd ?_,
    hopens.balanced.closes⟩
  rw [hresult]
  exact List.mem_singleton_self fd

/-- A root with a directory `d` and a file `f`; the link `l` in the directory climbs above the
root on its way to the file. -/
def climbTree : FileTree Nat where
  kind o :=
    if o < 2 then .dir
    else if o = 2 then .link ['.', '.', '/', '.', '.', '/', 'f']
    else .other
  entry d name :=
    if d = 0 ∧ name = ['d'] then some 1
    else if d = 1 ∧ name = ['l'] then some 2
    else if d = 0 ∧ name = ['f'] then some 3
    else none
  parent _ := 0
  level o := o
  parent_entry := by
    intro d name o hentry hkind
    split at hentry
    · omega
    split at hentry
    · cases hentry
      cases hkind
    · split at hentry
      · cases hentry
        cases hkind
      · cases hentry
  level_entry := by
    intro d name o hentry hkind
    split at hentry
    · cases hentry
      omega
    · split at hentry
      · cases hentry
        omega
      · split at hentry
        · cases hentry
          omega
        · cases hentry
  target_lt := by
    intro o target hkind
    split at hkind
    · cases hkind
    split at hkind
    · cases hkind
      decide
    · cases hkind

/-- Its system answers every call. -/
def climbHost : Host Nat where
  tree := climbTree
  follow _ _ := none
  fail _ := none
  refuse _ _ := none

/-- A link that climbs above the root. -/
theorem guOpenat2InRootCompat_confined_climb :
    ∃ result p', guOpenat2InRootCompat climbHost ⟨⟨[0], []⟩, 0⟩ 0 (some ['d', '/', 'l']) []
        (41 * 4096) = .ok (result, p') ∧ Confined climbTree ⟨[0], []⟩ 0 result p'.fds :=
  guOpenat2InRootCompat_confined climbHost ⟨⟨[0], []⟩, 0⟩ 0 (some ['d', '/', 'l']) []
    (41 * 4096) (by decide)

end Gunwinder
