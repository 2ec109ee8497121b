import Gunwinder.Core.Descriptors
import Gunwinder.Core.FileTree
import Gunwinder.Core.Loop

/-!
# Opening a path below a root

`gu_openat2_in_root_compat` resolves a path one name at a time where the kernel has no `openat2`.
It keeps the descriptors of the directories on its way in `dir_fds`. Paths and names are C strings,
so their characters are not NUL. A call of the system may fail at any time. `openat` goes to the
entry of one name if it has `O_NOFOLLOW`; otherwise, or with a slash in the name, anywhere.
-/

namespace Gunwinder

open Gunwinder.Core

/-! ## The system -/

/-- Values of `errno`. -/
inductive Errno where
  | einval
  | enametoolong
  | eloop
  | enotdir
  | enoent
  | ebadf
  | other (code : Nat)
  deriving DecidableEq, Repr

/-- Flags of `openat`. -/
inductive OpenFlag where
  | path
  | directory
  | nofollow
  | cloexec
  | other (bit : Nat)
  deriving DecidableEq, Repr

/-- The file system, and how the system answers. -/
structure Host (ν : Type) where
  tree : FileTree ν
  /-- Where `openat` goes when it resolves a path or follows a link itself. -/
  follow : ν → List Char → Option ν
  /-- Calls that fail, by the number of calls before them. -/
  fail : Nat → Option Errno
  /-- What an object refuses to be opened with. -/
  refuse : List OpenFlag → ν → Option Errno

/-- The process: its descriptors and the number of its calls. -/
structure Proc (ν : Type) where
  fds : Descriptors ν
  calls : Nat

variable {ν : Type}

/-- `close`. -/
def Proc.close (p : Proc ν) (fd : Nat) : Proc ν := { p with fds := p.fds.close fd }

variable (w : Host ν) (p : Proc ν)

namespace Host

/-- Open an object; a link can be opened with `O_PATH` only. -/
def openObject (o : ν) (flags : List OpenFlag) : Except Errno Nat × Proc ν :=
  match w.tree.kind o, decide (OpenFlag.path ∈ flags) with
  | .link _, false => (.error .eloop, p)
  | _, _ =>
    match w.refuse flags o with
    | some e => (.error e, p)
    | none => (.ok p.fds.count, { p with fds := p.fds.opened o })

/-- A call on the object of a descriptor. -/
def call {α : Type} (fd : Nat) (answer : Proc ν → ν → Except Errno α × Proc ν) :
    Except Errno α × Proc ν :=
  let p' := { p with calls := p.calls + 1 }
  match w.fail p.calls, p.fds.node fd with
  | some e, _ => (.error e, p')
  | none, none => (.error .ebadf, p')
  | none, some o => answer p' o

/-- The object that `openat` goes to. -/
def reach (d : ν) (name : List Char) (flags : List OpenFlag) : Option ν :=
  if OpenFlag.nofollow ∈ flags ∧ '/' ∉ name then w.tree.lookup d name else w.follow d name

/-- `openat`. -/
def openat (dirFd : Nat) (name : List Char) (flags : List OpenFlag) : Except Errno Nat × Proc ν :=
  w.call p dirFd fun p d =>
    if w.tree.kind d ≠ .dir then (.error .enotdir, p)
    else
      match w.reach d name flags with
      | none => (.error .enoent, p)
      | some o => w.openObject p o flags

/-- `fcntl` with `F_DUPFD_CLOEXEC`. -/
def dupfd (fd : Nat) : Except Errno Nat × Proc ν :=
  w.call p fd fun p o => (.ok p.fds.count, { p with fds := p.fds.opened o })

/-- `fstat`. -/
def fstat (fd : Nat) : Except Errno FileKind × Proc ν :=
  w.call p fd fun p o => (.ok (w.tree.kind o), p)

/-- `readlinkat` of the object itself, into a buffer of `size` bytes. -/
def readlinkat (fd size : Nat) : Except Errno (List Char) × Proc ν :=
  w.call p fd fun p o =>
    match w.tree.kind o with
    | .link target => (.ok (target.take size), p)
    | _ => (.error .einval, p)

end Host

/-! ## The walk -/

/-- `GU_OPEN_IN_ROOT_MAX_SYMLINKS`. -/
def guOpenInRootMaxSymlinks : Nat := 40

/-- `GU_OPEN_IN_ROOT_MAX_COMPONENTS`. -/
def guOpenInRootMaxComponents : Nat := pathMax / 2 + 1

/-- What the walk may not do: use an entry outside of `dir_fds`, or one that was never written.
A model that runs out of turns has not finished. -/
inductive PathTrap where
  | outOfBounds
  | running
  deriving DecidableEq, Repr

/-- The variables of `gu_openat2_in_root_compat` at the head of its loop. -/
structure PathWalk (ν : Type) where
  proc : Proc ν
  /-- `pending_path` from `cursor` on. -/
  cursor : List Char
  dirFds : Nat → Option Nat
  depth : Nat
  symlinkCount : Nat

/-- How the loop is left: with a descriptor or an error. -/
abbrev PathEnd (ν : Type) := Except PathTrap (Except Errno Nat × PathWalk ν)

namespace PathWalk

/-- Leave the loop with the result of a call. -/
def leave (s : PathWalk ν) (result : Except Errno Nat × Proc ν) :
    Turn (PathWalk ν) (PathEnd ν) :=
  .stop (.ok (result.1, { s with proc := result.2 }))

/-- `dir_fds[i]`. -/
def dirFd (dirFds : Nat → Option Nat) (i : Nat) : Option Nat :=
  if i < guOpenInRootMaxComponents then dirFds i else none

/-- Go on with `dir_fds[depth]`. -/
def atDepth (s : PathWalk ν) (go : Nat → Turn (PathWalk ν) (PathEnd ν)) :
    Turn (PathWalk ν) (PathEnd ν) :=
  match dirFd s.dirFds s.depth with
  | none => .stop (.error .outOfBounds)
  | some fd => go fd

/-- `dir_fds[++depth] = component_fd`. -/
def push (s : PathWalk ν) (componentFd : Nat) : Turn (PathWalk ν) (PathEnd ν) :=
  if s.depth + 1 < guOpenInRootMaxComponents then
    .next { s with
      dirFds := Function.update s.dirFds (s.depth + 1) (some componentFd)
      depth := s.depth + 1 }
  else .stop (.error .outOfBounds)

/-- Close the entries of `dir_fds` below the second bound, down to the first. -/
def closeDirs (dirFds : Nat → Option Nat) (low : Nat) : Nat → Proc ν → Option (Proc ν)
  | 0, p => some p
  | i + 1, p =>
    if i < low then some p
    else
      match dirFd dirFds i with
      | none => none
      | some fd => closeDirs dirFds low i (p.close fd)

/-- The target of a link in front of what is left. -/
def splice (linkTarget remainder : List Char) : List Char :=
  linkTarget ++ (if remainder = [] then [] else ['/']) ++ remainder

/-- Go on at a link. -/
def followLink (s : PathWalk ν) (componentFd : Nat) (remainder : List Char) (proc : Proc ν) :
    Turn (PathWalk ν) (PathEnd ν) :=
  match w.readlinkat proc componentFd (pathMax - 1) with
  | (.error e, proc) => s.leave (.error e, proc.close componentFd)
  | (.ok linkTarget, proc) =>
    let proc := proc.close componentFd
    let symlinkCount := s.symlinkCount + 1
    if guOpenInRootMaxSymlinks < symlinkCount then s.leave (.error .eloop, proc)
    else if pathMax ≤ (splice linkTarget remainder).length then
      s.leave (.error .enametoolong, proc)
    else
      let s := { s with proc, cursor := splice linkTarget remainder, symlinkCount }
      if linkTarget.head? = some '/' then
        match closeDirs s.dirFds 1 (s.depth + 1) proc with
        | none => .stop (.error .outOfBounds)
        | some proc => .next { s with proc, depth := 0 }
      else .next s

/-- Go on at an object that is no link. -/
def enterComponent (flags : List OpenFlag) (s : PathWalk ν) (dirFd : Nat)
    (component remainder : List Char) (componentFd : Nat) (kind : FileKind) (proc : Proc ν) :
    Turn (PathWalk ν) (PathEnd ν) :=
  if remainder = [] then
    s.leave (w.openat (proc.close componentFd) dirFd component (flags ++ [.cloexec, .nofollow]))
  else if kind ≠ .dir then s.leave (.error .enotdir, proc.close componentFd)
  else if guOpenInRootMaxComponents ≤ s.depth + 1 then
    s.leave (.error .enametoolong, proc.close componentFd)
  else push { s with proc, cursor := remainder } componentFd

/-- Go on at a name other than the dots. -/
def visitComponent (flags : List OpenFlag) (s : PathWalk ν) (dirFd : Nat)
    (component remainder : List Char) : Turn (PathWalk ν) (PathEnd ν) :=
  match w.openat s.proc dirFd component [.path, .nofollow, .cloexec] with
  | (.error e, proc) => s.leave (.error e, proc)
  | (.ok componentFd, proc) =>
    match w.fstat proc componentFd with
    | (.error e, proc) => s.leave (.error e, proc.close componentFd)
    | (.ok (.link _), proc) => followLink w s componentFd remainder proc
    | (.ok kind, proc) =>
      enterComponent w flags s dirFd component remainder componentFd kind proc

/-- One turn of the loop. -/
def turn (flags : List OpenFlag) (s : PathWalk ν) : Turn (PathWalk ν) (PathEnd ν) :=
  let cursor := s.cursor.dropWhile (· == '/')
  if cursor = [] then
    s.atDepth fun dirFd => s.leave (w.openat s.proc dirFd ['.'] (flags ++ [.cloexec, .nofollow]))
  else
    let component := firstName cursor
    let remainder := behindName cursor
    if component = ['.'] then .next { s with cursor := remainder }
    else if component = ['.', '.'] then
      if 0 < s.depth then
        s.atDepth fun dirFd =>
          .next { s with proc := s.proc.close dirFd, cursor := remainder, depth := s.depth - 1 }
      else .next { s with cursor := remainder }
    else s.atDepth fun dirFd => visitComponent w flags s dirFd component remainder

/-- The walk in front of its loop. -/
def start (rootFd : Nat) (path : List Char) : PathWalk ν where
  proc := p
  cursor := path
  dirFds := fun i => if i = 0 then some rootFd else none
  depth := 0
  symlinkCount := 0

/-- Behind the loop all of `dir_fds` is closed. -/
def finish : PathEnd ν → Except PathTrap (Except Errno Nat × Proc ν)
  | .error trap => .error trap
  | .ok (result, s) =>
    match closeDirs s.dirFds 0 (s.depth + 1) s.proc with
    | none => .error .outOfBounds
    | some p => .ok (result, p)

end PathWalk

/-- `gu_openat2_in_root_compat`: the descriptor or the error, and what it leaves of the process.
The loop of the source has no bound; here it gets a number of turns. -/
def guOpenat2InRootCompat (rootFd : Int) (path : Option (List Char)) (flags : List OpenFlag)
    (fuel : Nat) : Except PathTrap (Except Errno Nat × Proc ν) :=
  match path with
  | none => .ok (.error .einval, p)
  | some path =>
    if rootFd < 0 ∨ path = [] then .ok (.error .einval, p)
    else if pathMax ≤ path.length then .ok (.error .enametoolong, p)
    else
      match w.dupfd p rootFd.toNat with
      | (.error e, p) => .ok (.error e, p)
      | (.ok fd, p) =>
        PathWalk.finish (loop (PathWalk.turn w flags) (fun _ => .error .running) fuel
          (PathWalk.start p fd path))

/-! ## The root of a process -/

variable [DecidableEq ν]

end Gunwinder
