import Gunwinder.Native.OpenInRoot

/-!
# One turn of the path walk

The calls of the system are taken apart first: each fails and leaves the descriptors as they
were, or answers from the object of a descriptor. A turn of the walk then does one of ten things,
and `Advance` lists them with what they do to the descriptors.
-/

namespace Gunwinder

open Gunwinder.Core

variable {ν : Type} {w : Host ν} {p p' : Proc ν}

/-! ## Calls -/

@[simp] theorem Proc.close_fds (p : Proc ν) (fd : Nat) : (p.close fd).fds = p.fds.close fd := rfl

variable {fd : Nat} {flags : List OpenFlag} {name : List Char}

namespace Host

/-- A call fails, or it is answered from an object that is open. -/
theorem call_cases {α : Type} {answer : Proc ν → ν → Except Errno α × Proc ν}
    {result : Except Errno α} (h : w.call p fd answer = (result, p')) :
    (∃ e, result = .error e ∧ p'.fds = p.fds) ∨
      ∃ o, p.fds.node fd = some o ∧
        answer { p with calls := p.calls + 1 } o = (result, p') := by
  unfold call at h
  dsimp only at h
  split at h
  · cases h
    exact .inl ⟨_, rfl, rfl⟩
  · cases h
    exact .inl ⟨_, rfl, rfl⟩
  · rename_i o _ hnode
    exact .inr ⟨o, hnode, h⟩

variable {result : Except Errno Nat}

/-- An object refuses to be opened, or it gets the next descriptor. -/
theorem openObject_cases {o : ν} (h : w.openObject p o flags = (result, p')) :
    (∃ e, result = .error e ∧ p'.fds = p.fds) ∨
      result = .ok p.fds.count ∧ p'.fds = p.fds.opened o := by
  unfold openObject at h
  split at h
  · cases h
    exact .inl ⟨_, rfl, rfl⟩
  · split at h
    · cases h
      exact .inl ⟨_, rfl, rfl⟩
    · cases h
      exact .inr ⟨rfl, rfl⟩

/-- `openat` fails, or it opens the object that it goes to. -/
theorem openat_cases {dirFd : Nat} (h : w.openat p dirFd name flags = (result, p')) :
    (∃ e, result = .error e ∧ p'.fds = p.fds) ∨
      ∃ d o, p.fds.node dirFd = some d ∧ w.tree.kind d = .dir ∧ w.reach d name flags = some o ∧
        result = .ok p.fds.count ∧ p'.fds = p.fds.opened o := by
  rcases call_cases h with hfail | ⟨d, hnode, h⟩
  · exact .inl hfail
  split at h
  · cases h
    exact .inl ⟨_, rfl, rfl⟩
  · rename_i hkind
    split at h
    · cases h
      exact .inl ⟨_, rfl, rfl⟩
    · rename_i o hreach
      rcases openObject_cases h with hrefused | ⟨hok, hfds⟩
      · exact .inl hrefused
      · exact .inr ⟨d, o, hnode, not_ne_iff.mp hkind, hreach, hok, hfds⟩

/-- A duplicate of a descriptor, or an error. -/
theorem dupfd_cases (h : w.dupfd p fd = (result, p')) :
    (∃ e, result = .error e ∧ p'.fds = p.fds) ∨
      ∃ o, p.fds.node fd = some o ∧ result = .ok p.fds.count ∧ p'.fds = p.fds.opened o := by
  rcases call_cases h with hfail | ⟨o, hnode, h⟩
  · exact .inl hfail
  · cases h
    exact .inr ⟨o, hnode, rfl, rfl⟩

private theorem fstat_cases {result : Except Errno FileKind} (h : w.fstat p fd = (result, p')) :
    p'.fds = p.fds ∧ ((∃ e, result = .error e) ∨
      ∃ o, p.fds.node fd = some o ∧ result = .ok (w.tree.kind o)) := by
  rcases call_cases h with ⟨e, he, hfds⟩ | ⟨o, hnode, h⟩
  · exact ⟨hfds, .inl ⟨e, he⟩⟩
  · cases h
    exact ⟨rfl, .inr ⟨o, hnode, rfl⟩⟩

private theorem readlinkat_cases {size : Nat} {result : Except Errno (List Char)}
    (h : w.readlinkat p fd size = (result, p')) :
    p'.fds = p.fds ∧ ((∃ e, result = .error e) ∨
      ∃ o target, p.fds.node fd = some o ∧ w.tree.kind o = .link target ∧
        result = .ok (target.take size)) := by
  rcases call_cases h with ⟨e, he, hfds⟩ | ⟨o, hnode, h⟩
  · exact ⟨hfds, .inl ⟨e, he⟩⟩
  split at h
  · rename_i target hkind
    cases h
    exact ⟨rfl, .inr ⟨o, target, hnode, hkind, rfl⟩⟩
  · cases h
    exact ⟨rfl, .inl ⟨_, rfl⟩⟩

end Host

namespace PathWalk

variable {flags : List OpenFlag} {s : PathWalk ν}

/-! ## Names -/

/-- The walk looks at an entry of the directory it is in. -/
structure Visits (w : Host ν) (s : PathWalk ν) (name : List Char) (d o : ν) : Prop where
  fd : ∃ fd, dirFd s.dirFds s.depth = some fd ∧ s.proc.fds.node fd = some d
  dir : w.tree.kind d = .dir
  dot : name ≠ ['.']
  dotDot : name ≠ ['.', '.']
  entry : w.tree.entry d name = some o

/-- The descriptors after an object was opened and closed again. -/
def visited (s : PathWalk ν) (o : ν) : Descriptors ν :=
  (s.proc.fds.opened o).close s.proc.fds.count

/-- What a turn can do. -/
inductive Advance (w : Host ν) (s : PathWalk ν) : Turn (PathWalk ν) (PathEnd ν) → Prop where
  | skip {name rest : List Char} (next : NextName s.cursor name rest)
      (dots : name = ['.'] ∨ name = ['.', '.'] ∧ s.depth = 0) :
      Advance w s (.next { s with cursor := rest })
  | up {rest : List Char} {fd : Nat} (next : NextName s.cursor ['.', '.'] rest)
      (inner : 0 < s.depth) (entry : dirFd s.dirFds s.depth = some fd) :
      Advance w s
        (.next { s with proc := s.proc.close fd, cursor := rest, depth := s.depth - 1 })
  | link {name rest target : List Char} {d o : ν} {proc : Proc ν}
      (next : NextName s.cursor name rest) (visits : Visits w s name d o)
      (kind : w.tree.kind o = .link target) (links : s.symlinkCount < guOpenInRootMaxSymlinks)
      (fits : (splice (target.take (pathMax - 1)) rest).length < pathMax)
      (relative : (target.take (pathMax - 1)).head? ≠ some '/') (fds : proc.fds = s.visited o) :
      Advance w s (.next { s with
        proc, cursor := splice (target.take (pathMax - 1)) rest
        symlinkCount := s.symlinkCount + 1 })
  | jump {name rest target : List Char} {d o : ν} {proc proc' : Proc ν}
      (next : NextName s.cursor name rest) (visits : Visits w s name d o)
      (kind : w.tree.kind o = .link target) (links : s.symlinkCount < guOpenInRootMaxSymlinks)
      (fits : (splice (target.take (pathMax - 1)) rest).length < pathMax)
      (absolute : (target.take (pathMax - 1)).head? = some '/') (fds : proc.fds = s.visited o)
      (closed : closeDirs s.dirFds 1 (s.depth + 1) proc = some proc') :
      Advance w s (.next { s with
        proc := proc', cursor := splice (target.take (pathMax - 1)) rest, depth := 0
        symlinkCount := s.symlinkCount + 1 })
  | enter {name rest : List Char} {d o : ν} {proc : Proc ν} (next : NextName s.cursor name rest)
      (visits : Visits w s name d o) (kind : w.tree.kind o = .dir)
      (room : s.depth + 1 < guOpenInRootMaxComponents) (fds : proc.fds = s.proc.fds.opened o) :
      Advance w s (.next { s with
        proc, cursor := rest, depth := s.depth + 1
        dirFds := Function.update s.dirFds (s.depth + 1) (some s.proc.fds.count) })
  | refuse {e : Errno} {proc : Proc ν} (fds : proc.fds = s.proc.fds) :
      Advance w s (.stop (.ok (.error e, { s with proc })))
  | reject {e : Errno} {name : List Char} {d o : ν} {proc : Proc ν}
      (visits : Visits w s name d o) (fds : proc.fds = s.visited o) :
      Advance w s (.stop (.ok (.error e, { s with proc })))
  | here {fd : Nat} {d : ν} {proc : Proc ν} (names : components s.cursor = [])
      (entry : dirFd s.dirFds s.depth = some fd) (node : s.proc.fds.node fd = some d)
      (dir : w.tree.kind d = .dir) (fds : proc.fds = s.proc.fds.opened d) :
      Advance w s (.stop (.ok (.ok s.proc.fds.count, { s with proc })))
  | last {name : List Char} {d o : ν} {proc : Proc ν} (next : NextName s.cursor name [])
      (visits : Visits w s name d o) (kind : ∀ target, w.tree.kind o ≠ .link target)
      (fds : proc.fds = (s.visited o).opened o) :
      Advance w s (.stop (.ok (.ok (s.proc.fds.count + 1), { s with proc })))
  | fault (h : dirFd s.dirFds s.depth = none ∨
      ∃ (proc : Proc ν) (o : ν), proc.fds = s.visited o ∧
        closeDirs s.dirFds 1 (s.depth + 1) proc = none) :
      Advance w s (.stop (.error .outOfBounds))

/-- `.` leads to the directory itself. -/
theorem reach_dot (d : ν) (flags : List OpenFlag) :
    w.reach d ['.'] (flags ++ [.cloexec, .nofollow]) = some d := by
  simp [Host.reach, FileTree.lookup]

/-- Another name than the dots leads to an entry. -/
theorem reach_name {d : ν} (hflags : OpenFlag.nofollow ∈ flags) (hslash : '/' ∉ name)
    (hdot : name ≠ ['.']) (hdots : name ≠ ['.', '.']) :
    w.reach d name flags = w.tree.entry d name := by
  simp [Host.reach, FileTree.lookup, hflags, hslash, hdot, hdots]

/-- The object just opened is behind its descriptor. -/
theorem node_opened {f : Descriptors ν} {o o' : ν} (h : (f.opened o).node f.count = some o') :
    o' = o := by
  have hnode := Descriptors.getElem?_of_node h
  rw [Descriptors.opened_nodes, Descriptors.count, List.getElem?_concat_length] at hnode
  exact (Option.some.inj hnode).symm

variable {rest : List Char}

/-- A link is spliced in. -/
theorem followLink_advance {d o : ν} {proc : Proc ν} (next : NextName s.cursor name rest)
    (visits : Visits w s name d o) (hproc : proc.fds = s.proc.fds.opened o) :
    Advance w s (followLink w s s.proc.fds.count rest proc) := by
  unfold followLink
  split
  · rename_i e proc' hread
    obtain ⟨hfds, -⟩ := Host.readlinkat_cases hread
    exact .reject visits (by rw [Proc.close_fds, hfds, hproc]; rfl)
  · rename_i linkTarget proc' hread
    obtain ⟨hfds, ⟨e, he⟩ | ⟨o', target, hnode, hkind, htext⟩⟩ := Host.readlinkat_cases hread
    · cases he
    obtain rfl : o' = o := node_opened (hproc ▸ hnode)
    cases htext
    have hvisited : (proc'.close s.proc.fds.count).fds = s.visited o' := by
      rw [Proc.close_fds, hfds, hproc]
      rfl
    dsimp only
    split
    · exact .reject visits hvisited
    rename_i hlinks
    have hcount : s.symlinkCount < guOpenInRootMaxSymlinks := by omega
    split
    · exact .reject visits hvisited
    rename_i hlen
    have hfits := Nat.lt_of_not_le hlen
    split
    · rename_i habs
      split
      · rename_i hnone
        exact .fault (.inr ⟨_, _, hvisited, hnone⟩)
      · rename_i proc'' hclosed
        exact .jump next visits hkind hcount hfits habs hvisited hclosed
    · rename_i hrel
      exact .link next visits hkind hcount hfits hrel hvisited

/-- An object that is no link is opened at the end of the path, and entered before. -/
theorem enterComponent_advance {d o : ν} {proc : Proc ν} (next : NextName s.cursor name rest)
    (visits : Visits w s name d o) (hnode : s.proc.fds.node fd = some d)
    (hkind : ∀ target, w.tree.kind o ≠ .link target) (hproc : proc.fds = s.proc.fds.opened o) :
    Advance w s
      (enterComponent w flags s fd name rest s.proc.fds.count (w.tree.kind o) proc) := by
  have hvisited : (proc.close s.proc.fds.count).fds = s.visited o := by
    rw [Proc.close_fds, hproc]
    rfl
  unfold enterComponent
  split
  · rename_i hrest
    subst hrest
    unfold leave
    cases hopen : w.openat (proc.close s.proc.fds.count) fd name (flags ++ [.cloexec, .nofollow])
      with
    | mk result proc' =>
    rcases Host.openat_cases hopen with ⟨e, rfl, hfds⟩ | ⟨d', o', hnode', -, hreach, rfl, hfds⟩
    · exact .reject visits (hfds.trans hvisited)
    rw [hvisited] at hnode' hfds
    have hnodes := Descriptors.getElem?_of_node hnode'
    have hnodes' := Descriptors.getElem?_of_node hnode
    obtain ⟨hlt, -⟩ := List.getElem?_eq_some_iff.mp hnodes'
    rw [visited, Descriptors.close_nodes, Descriptors.opened_nodes,
      List.getElem?_append_left hlt, hnodes'] at hnodes
    cases hnodes
    rw [reach_name (by simp) next.slash visits.dot visits.dotDot, visits.entry] at hreach
    cases hreach
    have hcount : (proc.close s.proc.fds.count).fds.count = s.proc.fds.count + 1 := by
      rw [hvisited, visited, Descriptors.close_count, Descriptors.opened_count]
    rw [hcount]
    exact .last next visits hkind hfds
  · split
    · exact .reject visits hvisited
    · rename_i hdir
      split
      · exact .reject visits hvisited
      rename_i hroom
      have hroom' : s.depth + 1 < guOpenInRootMaxComponents := by omega
      unfold push
      dsimp only
      rw [if_pos hroom']
      exact .enter next visits (not_ne_iff.mp hdir) hroom' hproc

/-- A name other than the dots is looked at. -/
theorem visitComponent_advance (next : NextName s.cursor name rest)
    (hfd : dirFd s.dirFds s.depth = some fd) (hdot : name ≠ ['.']) (hdots : name ≠ ['.', '.']) :
    Advance w s (visitComponent w flags s fd name rest) := by
  unfold visitComponent
  split
  · rename_i e proc hopen
    rcases Host.openat_cases hopen with ⟨-, -, hfds⟩ | ⟨-, -, -, -, -, herr, -⟩
    · exact .refuse hfds
    · cases herr
  · rename_i componentFd proc hopen
    rcases Host.openat_cases hopen with ⟨e, herr, -⟩ | ⟨d, o, hnode, hdir, hreach, hok, hfds⟩
    · cases herr
    cases hok
    rw [reach_name (by simp) next.slash hdot hdots] at hreach
    have visits : Visits w s name d o := ⟨⟨fd, hfd, hnode⟩, hdir, hdot, hdots, hreach⟩
    split
    · rename_i e proc' hstat
      obtain ⟨hsame, -⟩ := Host.fstat_cases hstat
      exact .reject visits (by rw [Proc.close_fds, hsame, hfds]; rfl)
    · rename_i target proc' hstat
      obtain ⟨hsame, -⟩ := Host.fstat_cases hstat
      exact followLink_advance next visits (hsame.trans hfds)
    · rename_i kind proc' hlink hstat
      obtain ⟨hsame, ⟨e, herr⟩ | ⟨o', hnode', hok⟩⟩ := Host.fstat_cases hstat
      · cases herr
      obtain rfl : o' = o := node_opened (hfds ▸ hnode')
      cases hok
      exact enterComponent_advance next visits hnode (fun target => hlink target) (hsame.trans hfds)

/-- What is done at an entry of `dir_fds` is done, or the entry is missing. -/
theorem atDepth_advance {go : Nat → Turn (PathWalk ν) (PathEnd ν)}
    (h : ∀ fd, dirFd s.dirFds s.depth = some fd → Advance w s (go fd)) :
    Advance w s (s.atDepth go) := by
  unfold atDepth
  split
  · rename_i hfault
    exact .fault (.inl hfault)
  · rename_i fd hfd
    exact h fd hfd

/-- A turn does one of the things listed. -/
theorem turn_advance (w : Host ν) (flags : List OpenFlag) (s : PathWalk ν) :
    Advance w s (turn w flags s) := by
  unfold turn
  dsimp only
  split
  · rename_i hcursor
    have hnames : components s.cursor = [] := by
      rw [← components_dropWhile, hcursor, components_nil]
    refine atDepth_advance fun fd hfd => ?_
    unfold leave
    cases hopen : w.openat s.proc fd ['.'] (flags ++ [.cloexec, .nofollow]) with
    | mk result proc =>
    rcases Host.openat_cases hopen with ⟨e, rfl, hfds⟩ | ⟨d, o, hnode, hdir, hreach, rfl, hfds⟩
    · exact .refuse hfds
    · rw [reach_dot] at hreach
      cases hreach
      exact .here hnames hfd hnode hdir hfds
  · rename_i hcursor
    have hnext := nextName_of_dropWhile hcursor
    split
    · rename_i hdot
      exact .skip hnext (.inl hdot)
    · rename_i hdot
      split
      · rename_i hdots
        split
        · rename_i hdepth
          exact atDepth_advance fun fd hfd => .up (hdots ▸ hnext) hdepth hfd
        · rename_i hdepth
          exact .skip hnext (.inr ⟨hdots, by omega⟩)
      · rename_i hdots
        exact atDepth_advance fun fd hfd => visitComponent_advance hnext hfd hdot hdots

end PathWalk

end Gunwinder
