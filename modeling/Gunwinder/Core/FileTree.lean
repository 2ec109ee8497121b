import Mathlib.Data.List.TakeWhile
import Mathlib.Tactic.Common

/-!
# File trees

Objects are reached from a directory by the names of its entries; symbolic links are texts that
stand for more names. Paths are resolved below a root as `openat2` does with `RESOLVE_IN_ROOT`:
absolute paths and links start at the root, which is its own parent, and at most 40 links are
followed. A slash at the end of a path, or of a link that is followed there, asks for a
directory.
-/

namespace Gunwinder.Core

/-! ## Paths -/

/-- `PATH_MAX`. -/
def pathMax : Nat := 4096

/-- The names in a path. -/
def components (path : List Char) : List (List Char) :=
  (path.splitOnP (· == '/')).filter (· ≠ [])

def endsInSlash (path : List Char) : Bool := path.getLast? == some '/'

@[simp] theorem components_nil : components [] = [] := rfl

/-- A slash separates names. -/
theorem components_append_slash (front back : List Char) :
    components (front ++ '/' :: back) = components front ++ components back := by
  rw [components, List.splitOnP_append_cons front back rfl, List.filter_append]
  rfl

@[simp] theorem components_slash (path : List Char) :
    components ('/' :: path) = components path :=
  components_append_slash [] path

/-- A text without a slash is one name. -/
theorem components_name {name : List Char} (hname : name ≠ []) (hslash : '/' ∉ name) :
    components name = [name] := by
  have hsingle : name.splitOnP (· == '/') = [name] :=
    List.splitOnP_eq_singleton fun c hc => beq_false_of_ne fun h => hslash (h ▸ hc)
  simp [components, hsingle, hname]

/-- Slashes in front of a path are no names. -/
theorem components_dropWhile (path : List Char) :
    components (path.dropWhile (· == '/')) = components path := by
  induction path with
  | nil => rfl
  | cons c path ih =>
    by_cases hc : c = '/'
    · subst hc
      rw [components_slash, ← ih]
      rfl
    · rw [List.dropWhile_cons_of_neg (by simpa using hc)]

/-- The first name of a path that does not start with a slash. -/
def firstName (path : List Char) : List Char := path.takeWhile (· != '/')

/-- What is left of a path behind its first name and one slash. -/
def behindName (path : List Char) : List Char := (path.dropWhile (· != '/')).drop 1

private theorem slash_not_mem_firstName (path : List Char) : '/' ∉ firstName path := fun h => by
  simpa using List.mem_takeWhile_imp h

section FirstName

variable {c : Char} {path : List Char}

private theorem firstName_ne_nil (hc : c ≠ '/') : firstName (c :: path) ≠ [] := by
  simp [firstName, hc]

/-- A path is its first name and the names behind it. -/
theorem components_cons (hc : c ≠ '/') :
    components (c :: path) = firstName (c :: path) :: components (behindName (c :: path)) := by
  have hname : components (firstName (c :: path)) = [firstName (c :: path)] :=
    components_name (firstName_ne_nil hc) (slash_not_mem_firstName _)
  have hsplit : firstName (c :: path) ++ (c :: path).dropWhile (· != '/') = c :: path :=
    List.takeWhile_append_dropWhile
  cases hrest : (c :: path).dropWhile (· != '/') with
  | nil =>
    rw [hrest, List.append_nil] at hsplit
    rw [hsplit] at hname
    rw [behindName, hrest, hsplit, hname]
    rfl
  | cons b back =>
    obtain rfl : b = '/' := by
      have hhead := List.head_dropWhile_not (· != '/') (l := c :: path) (by simp [hrest])
      simpa [hrest] using hhead
    rw [behindName, hrest]
    nth_rewrite 1 [← hsplit]
    rw [hrest, components_append_slash, hname]
    rfl

/-- The path gets shorter. -/
theorem behindName_length_lt (path : List Char) :
    (behindName (c :: path)).length < (c :: path).length := by
  have hle : ((c :: path).dropWhile (· != '/')).length ≤ (c :: path).length :=
    (List.dropWhile_suffix _).length_le
  rw [behindName, List.length_drop, List.length_cons] at *
  omega

end FirstName

/-- A path has a first name and a rest. -/
structure NextName (path name rest : List Char) : Prop where
  ne_nil : name ≠ []
  slash : '/' ∉ name
  names : components path = name :: components rest
  shorter : rest.length < path.length

/-- With the slashes in front skipped, what is left is empty or starts with a name. -/
theorem nextName_of_dropWhile {path : List Char} (h : path.dropWhile (· == '/') ≠ []) :
    NextName path (firstName (path.dropWhile (· == '/')))
      (behindName (path.dropWhile (· == '/'))) := by
  have hle : (path.dropWhile (· == '/')).length ≤ path.length := (List.dropWhile_suffix _).length_le
  have hhead := List.head_dropWhile_not (· == '/') (l := path) h
  cases hpath : path.dropWhile (· == '/') with
  | nil => exact absurd hpath h
  | cons c back =>
    rw [hpath] at hle
    have hc : c ≠ '/' := by simpa [hpath] using hhead
    exact ⟨firstName_ne_nil hc, slash_not_mem_firstName _,
      by rw [← components_dropWhile, hpath, components_cons hc],
      Nat.lt_of_lt_of_le (behindName_length_lt back) hle⟩

/-! ## Trees -/

/-- What an object is; a link has the text that it stands for. -/
inductive FileKind where
  | dir
  | link (target : List Char)
  | other
  deriving DecidableEq, Repr

/-- The objects of a file system. A directory is an entry of its parent alone, at a level below
it; a link has a text that `symlink` takes. -/
structure FileTree (ν : Type*) where
  kind : ν → FileKind
  entry : ν → List Char → Option ν
  parent : ν → ν
  level : ν → Nat
  parent_entry : ∀ {d name o}, entry d name = some o → kind o = .dir → parent o = d
  level_entry : ∀ {d name o}, entry d name = some o → kind o = .dir → level d < level o
  target_lt : ∀ {o target}, kind o = .link target → target.length < pathMax

namespace FileTree

variable {ν : Type*} (t : FileTree ν)

/-- The object that one name leads to, links not followed. -/
def lookup (d : ν) (name : List Char) : Option ν :=
  if name = ['.'] then some d
  else if name = ['.', '.'] then some (t.parent d)
  else t.entry d name

/-- The objects at or below a root: the dots lead to none. -/
inductive Below (root : ν) : ν → Prop where
  | root : Below root root
  | entry {d o : ν} {name : List Char} (above : Below root d) (dot : name ≠ ['.'])
      (dots : name ≠ ['.', '.']) (step : t.entry d name = some o) : Below root o

/-! ## Resolution -/

section Resolution

variable [DecidableEq ν] (root : ν)

/-- The parent of a directory, where the root is its own. -/
def up (d : ν) : ν := if d = root then root else t.parent d

/-- Resolve names from a directory on, with `jump` for what follows a link. The flag says that a
directory is asked for. -/
def walkNames (jump : ν → Bool → List (List Char) → Option (ν × Bool)) (d : ν) (slash : Bool) :
    List (List Char) → Option (ν × Bool)
  | [] => some (d, slash)
  | name :: rest =>
    if t.kind d ≠ .dir then none
    else if name = ['.'] then walkNames jump d slash rest
    else if name = ['.', '.'] then walkNames jump (t.up root d) slash rest
    else
      match t.entry d name with
      | none => none
      | some o =>
        match t.kind o with
        | .link target =>
          jump (if target.head? = some '/' then root else d)
            (slash || (rest.isEmpty && endsInSlash target)) (components target ++ rest)
        | _ => walkNames jump o slash rest

/-- Resolve names with at most `links` links. -/
def walk : Nat → ν → Bool → List (List Char) → Option (ν × Bool)
  | 0 => t.walkNames root fun _ _ _ => none
  | links + 1 => t.walkNames root (walk links)

/-- `MAXSYMLINKS`. -/
def maxSymlinks : Nat := 40

/-- The object of a path, and whether a directory is asked for. -/
def walkInRoot (path : List Char) : Option (ν × Bool) :=
  if path = [] ∨ pathMax ≤ path.length then none
  else t.walk root maxSymlinks root (endsInSlash path) (components path)

/-- Resolve a path below a root. -/
def resolveInRoot (path : List Char) : Option ν :=
  match t.walkInRoot root path with
  | none => none
  | some (o, slash) => if slash = true ∧ t.kind o ≠ .dir then none else some o

/-- Whether a path asks for a directory: it ends in a slash, or a link at its end does. -/
def wantsDir (path : List Char) : Bool := (t.walkInRoot root path).any Prod.snd

/-- The object that names lead to, whether or not a directory is asked for. -/
def goal (links : Nat) (d : ν) (names : List (List Char)) : Option ν :=
  (t.walk root links d false names).map Prod.fst

/-- The object does not depend on what is asked for. -/
theorem walkNames_fst {jump : ν → Bool → List (List Char) → Option (ν × Bool)}
    (hjump : ∀ d slash slash' names, (jump d slash names).map Prod.fst =
      (jump d slash' names).map Prod.fst) (d : ν) (slash slash' : Bool)
    (names : List (List Char)) :
    (t.walkNames root jump d slash names).map Prod.fst =
      (t.walkNames root jump d slash' names).map Prod.fst := by
  induction names generalizing d with
  | nil => rfl
  | cons name rest ih =>
    unfold walkNames
    split
    · rfl
    split
    · exact ih d
    split
    · exact ih _
    split
    · rfl
    · split
      · exact hjump ..
      · exact ih _

private theorem walk_fst (links : Nat) (d : ν) (slash slash' : Bool) (names : List (List Char)) :
    (t.walk root links d slash names).map Prod.fst =
      (t.walk root links d slash' names).map Prod.fst := by
  induction links generalizing d slash slash' names with
  | zero => exact t.walkNames_fst root (fun _ _ _ _ => rfl) d slash slash' names
  | succ links ih => exact t.walkNames_fst root ih d slash slash' names

/-- A path is resolved to the object that its names lead to, if it is a directory where one is
asked for. -/
theorem resolveInRoot_eq_iff {path : List Char} {o : ν} (hpath : path ≠ [])
    (hlen : path.length < pathMax)
    (hgoal : t.goal root maxSymlinks root (components path) = some o) :
    t.resolveInRoot root path = some o ↔ (t.wantsDir root path = true → t.kind o = .dir) := by
  rw [goal, t.walk_fst root _ _ false (endsInSlash path)] at hgoal
  obtain ⟨⟨o', slash⟩, hwalk, rfl⟩ := Option.map_eq_some_iff.mp hgoal
  have hin : t.walkInRoot root path = some (o', slash) := by
    rw [walkInRoot, if_neg (by simp [hpath, hlen]), hwalk]
  rw [resolveInRoot, wantsDir, hin]
  dsimp only [Option.any_some]
  split
  · rename_i hrefused
    exact ⟨fun h => (nomatch h), fun h => absurd (h hrefused.1) hrefused.2⟩
  · rename_i hdir
    exact ⟨fun _ hslash => not_ne_iff.mp fun hkind => hdir ⟨hslash, hkind⟩, fun _ => rfl⟩

section Goal

variable {t root} {links : Nat} {d o : ν} {name : List Char} {rest : List (List Char)}

@[simp] theorem goal_nil : t.goal root links d [] = some d := by
  cases links <;> rfl

variable (hd : t.kind d = .dir)
include hd

/-- `.` stays in the directory. -/
theorem goal_dot : t.goal root links d (['.'] :: rest) = t.goal root links d rest := by
  cases links <;> simp [goal, walk, walkNames, hd]

/-- `..` goes up, but not above the root. -/
theorem goal_dotDot :
    t.goal root links d (['.', '.'] :: rest) = t.goal root links (t.up root d) rest := by
  cases links <;> simp [goal, walk, walkNames, hd]

variable (hdot : name ≠ ['.']) (hdots : name ≠ ['.', '.']) (hentry : t.entry d name = some o)
include hdot hdots hentry

/-- An entry that is no link is gone to. -/
theorem goal_entry (hkind : ∀ target, t.kind o ≠ .link target) :
    t.goal root links d (name :: rest) = t.goal root links o rest := by
  cases hk : t.kind o with
  | link target => exact absurd hk (hkind target)
  | dir | other => cases links <;> simp [goal, walk, walkNames, hd, hdot, hdots, hentry, hk]

/-- The names of a link come in front of those that are left. -/
theorem goal_link {target : List Char} (hkind : t.kind o = .link target) :
    t.goal root (links + 1) d (name :: rest) =
      t.goal root links (if target.head? = some '/' then root else d)
        (components target ++ rest) := by
  simp only [goal, walk, walkNames, hd, hdot, hdots, hentry, hkind, ne_eq, not_true_eq_false,
    if_false]
  exact t.walk_fst root links _ _ false _

end Goal

end Resolution

end FileTree

end Gunwinder.Core
