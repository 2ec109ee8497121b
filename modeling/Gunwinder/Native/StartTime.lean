import Gunwinder.Core.TextScan
import Gunwinder.Native.Lifecycle

/-!
# The start time of a process

`gu_get_pid_unique_id` reads one line of `/proc/<pid>/stat`, looks for the last parenthesis that
closes the name of the process, and counts blanks from there to the field with the start time.
Whatever goes wrong on the way leaves the start time at 0.

Text is a list of characters; no line holds a NUL.
-/

namespace Gunwinder

open Gunwinder.Core

variable {P : Type}

/-- The loop over the fields, with `n` of them to skip before the one that is read. -/
def skipFields : Nat → List Char → Option (List Char)
  | 0, cur =>
    let cur := skipSpace cur
    if cur = [] then none else some cur
  | n + 1, cur =>
    let cur := skipSpace cur
    if cur = [] then none else skipFields n (cur.dropWhile fun c => !isSpace c)

/-- The start time in a line: field 22, where the one behind the name is field 3. -/
def statStartTime (statBuf : List Char) : Word :=
  ((do
    let cur ← strrchr ')' statBuf
    let cur ← skipFields (22 - 3) (cur.drop 1)
    strtoull 64 cur) : Option Word).getD 0#64

/-- Size of `stat_buf`. -/
def statBufSize : Nat := 4096

/-- The part of `gu_get_pid_unique_id` behind the cache; `none` is a file that cannot be opened. -/
def readStartTime (stat : Option (List Char)) : Word :=
  match stat with
  | none => 0#64
  | some file =>
    match fgets statBufSize file with
    | none => 0#64
    | some (statBuf, _) => statStartTime statBuf

/-- A system whose start times are read from its `/proc/<pid>/stat` files. -/
def World.withStat (w : World P) (stat : Nat → Int → Option (List Char)) : World P :=
  { w with startTime := fun t pid => readStartTime (stat t pid) }

end Gunwinder
