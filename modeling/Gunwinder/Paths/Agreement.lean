import Gunwinder.Paths.Confinement

/-!
# Agreement with `openat2`

The names that the walk has left lead from its directory to the object that the whole path leads
to, so the object that is opened is the kernel's. The slash at the end of a path is lost, however:
it is cut off with the last name, and with it what the kernel asks of the object.
-/

namespace Gunwinder

open Gunwinder.Core

variable {ν : Type} {w : Host ν} {root : ν} {path : List Char}

variable {p : Proc ν}

namespace PathWalk

variable {s : PathWalk ν}

/-! ## Links -/

/-- The names of a link come in front of those that are left. -/
theorem components_splice (linkTarget remainder : List Char) :
    components (splice linkTarget remainder) =
      components linkTarget ++ components remainder := by
  unfold splice
  split
  · rename_i hnil
    rw [hnil, components_nil, List.append_nil, List.append_nil, List.append_nil]
  · rw [List.append_assoc]
    exact components_append_slash linkTarget remainder

/-- A link is read as a whole. -/
theorem take_target {o : ν} {target : List Char} (hkind : w.tree.kind o = .link target) :
    target.take (pathMax - 1) = target :=
  List.take_of_length_le (Nat.le_sub_one_of_lt (w.tree.target_lt hkind))

/-- Closing descriptors opens none. -/
theorem closeDirs_nodes {dirFds : Nat → Option Nat} {low n : Nat} {p' : Proc ν}
    (h : closeDirs dirFds low n p = some p') : p'.fds.nodes = p.fds.nodes := by
  induction n generalizing p with
  | zero =>
    cases h
    rfl
  | succ n ih =>
    rw [closeDirs] at h
    split at h
    · cases h
      rfl
    · split at h
      · cases h
      · exact (ih h).trans rfl

/-! ## The directories on the way -/

/-- The entries of `dir_fds` lead from the root down to the directory of the walk. -/
structure Descends (w : Host ν) (root : ν) (s : PathWalk ν) (dirs : Nat → ν) : Prop where
  nodes : ∀ i ≤ s.depth, ∃ fd, s.dirFds i = some fd ∧ s.proc.fds.nodes[fd]? = some (dirs i)
  bottom : dirs 0 = root
  dir : ∀ i < s.depth, w.tree.kind (dirs i) = .dir ∧ w.tree.kind (dirs (i + 1)) = .dir
  parent : ∀ i < s.depth, w.tree.parent (dirs (i + 1)) = dirs i
  level : ∀ i < s.depth, w.tree.level (dirs i) < w.tree.level (dirs (i + 1))

namespace Descends

variable {dirs : Nat → ν}

variable (h : Descends w root s dirs)
include h

/-- The walk is in a directory if its root is one, and the other way round. -/
theorem kind_top : w.tree.kind (dirs s.depth) = .dir ↔ w.tree.kind root = .dir := by
  rw [← h.bottom]
  cases hdepth : s.depth with
  | zero => exact Iff.rfl
  | succ n =>
    have hzero := h.dir 0 (by omega)
    have htop := h.dir n (by omega)
    exact ⟨fun _ => hzero.1, fun _ => htop.2⟩

/-- The directories below the root are not the root. -/
theorem level_lt {i : Nat} (hi : i < s.depth) :
    w.tree.level root < w.tree.level (dirs (i + 1)) := by
  induction i with
  | zero =>
    rw [← h.bottom]
    exact h.level 0 hi
  | succ i ih => exact Nat.lt_trans (ih (Nat.lt_of_succ_lt hi)) (h.level (i + 1) hi)

/-- The directory above the one of the walk. -/
theorem up_top [DecidableEq ν] (hdepth : 0 < s.depth) :
    w.tree.up root (dirs s.depth) = dirs (s.depth - 1) := by
  obtain ⟨n, hn⟩ : ∃ n, s.depth = n + 1 := ⟨s.depth - 1, by omega⟩
  have hlevel := h.level_lt (i := n) (by omega)
  have hne : dirs (n + 1) ≠ root := fun heq => by
    rw [heq] at hlevel
    exact Nat.lt_irrefl _ hlevel
  rw [hn, Nat.add_sub_cancel, FileTree.up, if_neg hne]
  exact h.parent n (by omega)

/-- The object behind `dir_fds[depth]`. -/
theorem top {fd : Nat} {d : ν} (hfd : dirFd s.dirFds s.depth = some fd)
    (hnode : s.proc.fds.node fd = some d) : d = dirs s.depth := by
  obtain ⟨fd', hentry, hobject⟩ := h.nodes s.depth (Nat.le_refl _)
  unfold dirFd at hfd
  split at hfd
  · rw [hentry] at hfd
    cases hfd
    rw [Descriptors.getElem?_of_node hnode] at hobject
    exact Option.some.inj hobject
  · cases hfd

/-- More descriptors, and less depth, leave the directories as they are. -/
theorem shrink {s' : PathWalk ν} (hdirFds : s'.dirFds = s.dirFds) (hdepth : s'.depth ≤ s.depth)
    (hnodes : s.proc.fds.nodes <+: s'.proc.fds.nodes) : Descends w root s' dirs := by
  refine ⟨fun i hi => ?_, h.bottom, fun i hi => h.dir i (Nat.lt_of_lt_of_le hi hdepth),
    fun i hi => h.parent i (Nat.lt_of_lt_of_le hi hdepth),
    fun i hi => h.level i (Nat.lt_of_lt_of_le hi hdepth)⟩
  obtain ⟨fd, hentry, hobject⟩ := h.nodes i (Nat.le_trans hi hdepth)
  rw [hdirFds]
  exact ⟨fd, hentry, Descriptors.getElem?_of_prefix hnodes hobject⟩

/-- A directory that is entered is the next one. -/
theorem enter {proc : Proc ν} {name cursor : List Char} {o : ν}
    (visits : Visits w s name (dirs s.depth) o) (hkind : w.tree.kind o = .dir)
    (hfds : proc.fds = s.proc.fds.opened o) :
    Descends w root { s with
        proc, cursor, depth := s.depth + 1
        dirFds := Function.update s.dirFds (s.depth + 1) (some s.proc.fds.count) }
      (Function.update dirs (s.depth + 1) o) := by
  have hold {i : Nat} (hi : i ≤ s.depth) : Function.update dirs (s.depth + 1) o i = dirs i :=
    Function.update_of_ne (by omega) ..
  have hnew : Function.update dirs (s.depth + 1) o (s.depth + 1) = o := Function.update_self ..
  have hgrown : s.proc.fds.nodes <+: proc.fds.nodes := by
    rw [hfds]
    exact List.prefix_append ..
  refine ⟨fun i hi => ?_, (hold (Nat.zero_le _)).trans h.bottom, fun i hi => ?_, fun i hi => ?_,
    fun i hi => ?_⟩
  · rcases Nat.le_succ_iff.mp hi with hle | rfl
    · obtain ⟨fd, hentry, hobject⟩ := h.nodes i hle
      rw [hold hle]
      exact ⟨fd, (Function.update_of_ne (by omega) ..).trans hentry,
        Descriptors.getElem?_of_prefix hgrown hobject⟩
    · refine ⟨s.proc.fds.count, Function.update_self .., ?_⟩
      rw [hnew, hfds]
      exact List.getElem?_concat_length
  all_goals rcases Nat.lt_succ_iff_lt_or_eq.mp hi with hlt | rfl
  · rw [hold (Nat.le_of_lt hlt), hold hlt]
    exact h.dir i hlt
  · rw [hold (Nat.le_refl _), hnew]
    exact ⟨visits.dir, hkind⟩
  · rw [hold (Nat.le_of_lt hlt), hold hlt]
    exact h.parent i hlt
  · rw [hold (Nat.le_refl _), hnew]
    exact w.tree.parent_entry visits.entry hkind
  · rw [hold (Nat.le_of_lt hlt), hold hlt]
    exact h.level i hlt
  · rw [hold (Nat.le_refl _), hnew]
    exact w.tree.level_entry visits.entry hkind

end Descends

/-! ## The names that are left -/

variable [DecidableEq ν]

/-- The names that are left lead to the object of the whole path. -/
structure Leads (w : Host ν) (root : ν) (path : List Char) (s : PathWalk ν) : Prop where
  links : s.symlinkCount ≤ guOpenInRootMaxSymlinks
  dirs : ∃ dirs, Descends w root s dirs ∧ (w.tree.kind root = .dir →
    w.tree.goal root (guOpenInRootMaxSymlinks - s.symlinkCount) (dirs s.depth)
      (components s.cursor) = w.tree.goal root guOpenInRootMaxSymlinks root (components path))

/-- The object behind a descriptor that is returned is the one of the path. -/
def Reaches (w : Host ν) (root : ν) (path : List Char) : PathEnd ν → Prop
  | .ok (.ok fd, s) => ∃ o, s.proc.fds.nodes[fd]? = some o ∧
    w.tree.goal root guOpenInRootMaxSymlinks root (components path) = some o
  | _ => True

/-- A turn keeps the names leading to the object of the path. -/
theorem turn_leads (flags : List OpenFlag) (h : Leads w root path s) :
    (turn w flags s).All (Leads w root path) (Reaches w root path) := by
  obtain ⟨hlinks, dirs, hdirs, hgoal⟩ := h
  generalize hturn : turn w flags s = result
  have hadvance : Advance w s result := hturn ▸ turn_advance w flags s
  -- an object that is looked at is an entry of the directory that the walk is in
  have hvisits {name : List Char} {d o : ν} (visits : Visits w s name d o) :
      d = dirs s.depth ∧ w.tree.kind root = .dir := by
    obtain ⟨fd, hfd, hnode⟩ := visits.fd
    obtain rfl := hdirs.top hfd hnode
    exact ⟨rfl, hdirs.kind_top.mp visits.dir⟩
  have hgrown {proc : Proc ν} {o : ν} (fds : proc.fds = s.visited o) :
      s.proc.fds.nodes <+: proc.fds.nodes := by
    rw [fds]
    exact List.prefix_append ..
  have hcount (hlt : s.symlinkCount < guOpenInRootMaxSymlinks) :
      guOpenInRootMaxSymlinks - s.symlinkCount =
        guOpenInRootMaxSymlinks - (s.symlinkCount + 1) + 1 := by omega
  cases hadvance with
  | skip next dots =>
    refine ⟨hlinks, dirs, hdirs.shrink rfl (Nat.le_refl _) (List.prefix_refl _), fun hroot => ?_⟩
    have htop := hdirs.kind_top.mpr hroot
    rw [← hgoal hroot, next.names]
    rcases dots with rfl | ⟨rfl, hzero⟩
    · exact (FileTree.goal_dot htop).symm
    · rw [FileTree.goal_dotDot htop, hzero, hdirs.bottom, FileTree.up, if_pos rfl]
  | up next inner entry =>
    refine ⟨hlinks, dirs, hdirs.shrink rfl (Nat.sub_le _ _) (List.prefix_refl _), fun hroot => ?_⟩
    rw [← hgoal hroot, next.names, FileTree.goal_dotDot (hdirs.kind_top.mpr hroot),
      hdirs.up_top inner]
  | link next visits kind links fits relative fds =>
    obtain ⟨rfl, hroot⟩ := hvisits visits
    refine ⟨links, dirs, hdirs.shrink rfl (Nat.le_refl _) (hgrown fds), fun _ => ?_⟩
    rw [take_target kind] at relative ⊢
    rw [← hgoal hroot, hcount links, next.names, FileTree.goal_link visits.dir visits.dot
      visits.dotDot visits.entry kind, if_neg relative, components_splice]
  | @jump name rest target d o proc proc' next visits kind links fits absolute fds closed =>
    obtain ⟨rfl, hroot⟩ := hvisits visits
    have hnodes : s.proc.fds.nodes <+: proc'.fds.nodes := by
      rw [closeDirs_nodes closed]
      exact hgrown fds
    refine ⟨links, dirs, hdirs.shrink rfl (Nat.zero_le _) hnodes, fun _ => ?_⟩
    rw [take_target kind] at absolute ⊢
    rw [← hgoal hroot, hcount links, next.names, FileTree.goal_link visits.dir visits.dot
      visits.dotDot visits.entry kind, if_pos absolute, components_splice, hdirs.bottom]
  | enter next visits kind room fds =>
    obtain ⟨rfl, hroot⟩ := hvisits visits
    refine ⟨hlinks, _, hdirs.enter visits kind fds, fun _ => ?_⟩
    rw [← hgoal hroot, next.names, FileTree.goal_entry visits.dir visits.dot visits.dotDot
      visits.entry (by simp [kind])]
    exact congrArg (w.tree.goal root _ · _) (Function.update_self ..)
  | refuse fds => trivial
  | reject visits fds => trivial
  | here names entry node dir fds =>
    obtain rfl := hdirs.top entry node
    refine ⟨dirs s.depth, ?_, ?_⟩
    · rw [fds]
      exact List.getElem?_concat_length
    · rw [← hgoal (hdirs.kind_top.mp dir), names, FileTree.goal_nil]
  | @last name d o proc next visits kind fds =>
    obtain ⟨rfl, hroot⟩ := hvisits visits
    refine ⟨o, ?_, ?_⟩
    · have hcount' : (s.visited o).count = s.proc.fds.count + 1 :=
        Descriptors.opened_count s.proc.fds o
      rw [fds, ← hcount']
      exact List.getElem?_concat_length
    · rw [← hgoal hroot, next.names, FileTree.goal_entry visits.dir visits.dot visits.dotDot
        visits.entry kind, components_nil, FileTree.goal_nil]
  | fault hfault => trivial

/-- Nothing is consumed at the start. -/
theorem leads_start {before : Descriptors ν} (hfds : p.fds = before.opened root) :
    Leads w root path (start p before.count path) := by
  refine ⟨Nat.zero_le _, fun _ => root, ⟨fun i hi => ?_, rfl, ?_, ?_, ?_⟩, fun _ => rfl⟩
  · obtain rfl := Nat.le_zero.mp hi
    refine ⟨before.count, rfl, ?_⟩
    rw [start, hfds]
    exact List.getElem?_concat_length
  all_goals exact fun i hi => absurd hi (Nat.not_lt_zero i)

/-- The end of the function leaves the objects as they are. -/
theorem Reaches.finish {left : PathEnd ν} {fd : Nat} (h : Reaches w root path left)
    (hfinish : finish left = .ok (.ok fd, p)) :
    ∃ o, p.fds.nodes[fd]? = some o ∧
      w.tree.goal root guOpenInRootMaxSymlinks root (components path) = some o := by
  match left with
  | .error trap => cases hfinish
  | .ok (result, s) =>
    unfold PathWalk.finish at hfinish
    dsimp only at hfinish
    split at hfinish
    · cases hfinish
    rename_i p' hclosed
    cases hfinish
    obtain ⟨o, hobject, hgoal⟩ := h
    exact ⟨o, by rw [closeDirs_nodes hclosed, hobject], hgoal⟩

end PathWalk

/-! ## The whole call -/

variable [DecidableEq ν]

/-- A path that is opened is short enough for the kernel, and its names lead to the object
opened. -/
theorem guOpenat2InRootCompat_goal {p' : Proc ν} {rootFd : Int} {flags : List OpenFlag}
    {fuel fd : Nat} (hroot : p.fds.node rootFd.toNat = some root)
    (h : guOpenat2InRootCompat w p rootFd (some path) flags fuel = .ok (.ok fd, p')) :
    path ≠ [] ∧ path.length < pathMax ∧ ∃ o, p'.fds.nodes[fd]? = some o ∧
      w.tree.goal root guOpenInRootMaxSymlinks root (components path) = some o := by
  unfold guOpenat2InRootCompat at h
  dsimp only at h
  split at h
  · cases h
  rename_i hvalid
  split at h
  · cases h
  rename_i hlen
  refine ⟨fun hnil => hvalid (.inr hnil), Nat.lt_of_not_le hlen, ?_⟩
  split at h
  · cases h
  rename_i rootCopy p₁ hdup
  obtain ⟨e, herr, -⟩ | ⟨root', hnode, hok, hfds⟩ := Host.dupfd_cases hdup
  · cases herr
  cases hok
  obtain rfl : root' = root := Option.some.inj (hnode.symm.trans hroot)
  have hreaches : PathWalk.Reaches w root' path (loop (PathWalk.turn w flags)
      (fun _ => .error .running) fuel (PathWalk.start p₁ p.fds.count path)) :=
    loop_all (PathWalk.Leads w root' path) _ (fun s hs => PathWalk.turn_leads flags hs)
      (fun _ _ => by trivial) fuel (PathWalk.leads_start hfds)
  exact hreaches.finish h

/-- A path that is opened is resolved to the same object by the kernel if and only if its names lead
to a directory or none is asked for. -/
theorem guOpenat2InRootCompat_agrees_iff (w : Host ν) (p : Proc ν) (rootFd : Int)
    (path : List Char) (flags : List OpenFlag) (fuel : Nat) (root o : ν) (fd : Nat) (p' : Proc ν)
    (hroot : p.fds.node rootFd.toNat = some root)
    (hopen : guOpenat2InRootCompat w p rootFd (some path) flags fuel = .ok (.ok fd, p'))
    (hobject : p'.fds.nodes[fd]? = some o) :
    w.tree.resolveInRoot root path = some o ↔
      (w.tree.wantsDir root path = true →
        ∃ d, w.tree.goal root FileTree.maxSymlinks root (components path) = some d ∧
          w.tree.kind d = .dir) := by
  obtain ⟨hpath, hlen, o', hobject', hgoal⟩ := guOpenat2InRootCompat_goal hroot hopen
  obtain rfl : o' = o := Option.some.inj (hobject'.symm.trans hobject)
  have hgoal : w.tree.goal root FileTree.maxSymlinks root (components path) = some o' := hgoal
  rw [w.tree.resolveInRoot_eq_iff root hpath hlen hgoal, hgoal]
  simp only [Option.some.injEq, exists_eq_left']

/-- The link that climbs above the root is followed as the kernel does. -/
theorem guOpenat2InRootCompat_agrees_climb :
    climbTree.wantsDir 0 ['d', '/', 'l'] = false ∧
    climbTree.resolveInRoot 0 ['d', '/', 'l'] = some 3 :=
  have hslash : climbTree.wantsDir 0 ['d', '/', 'l'] = false := by decide +kernel
  ⟨hslash, (guOpenat2InRootCompat_agrees_iff climbHost ⟨⟨[0], []⟩, 0⟩ 0 ['d', '/', 'l'] [] 20
    0 3 5 ⟨⟨[0, 0, 1, 2, 3, 3], [1, 4, 2, 3]⟩, 9⟩ rfl rfl rfl).mpr fun h =>
      absurd (h.symm.trans hslash) (by decide)⟩

/-- The object behind the descriptor that a call returns. -/
def openedObject : Except PathTrap (Except Errno Nat × Proc ν) → Option ν
  | .ok (.ok fd, p) => p.fds.nodes[fd]?
  | _ => none

/-- `f/` is opened although `f` is no directory. The kernel does not resolve it, and the function
itself does not open `f//`. -/
theorem guOpenat2InRootCompat_drops_slash :
    openedObject (guOpenat2InRootCompat climbHost ⟨⟨[0], []⟩, 0⟩ 0 (some ['f', '/']) [] 20) =
      some 3 ∧
    climbTree.resolveInRoot 0 ['f', '/'] = none ∧
    openedObject (guOpenat2InRootCompat climbHost ⟨⟨[0], []⟩, 0⟩ 0 (some ['f', '/', '/']) [] 20) =
      none := by
  decide +kernel

end Gunwinder
