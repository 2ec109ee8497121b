import Gunwinder.Core.TextScan
import Gunwinder.Native.Elf

/-!
# Reading the mappings of a process

`gu_get_maps_info` reads `/proc/<pid>/maps` line by line, splits a line with `sscanf`, drops the
lines without a wanted permission and adds the others to a list. A line that goes on where the
last entry ends, in memory and in the file, extends that entry instead.

Text is a list of characters; no line holds a NUL.
-/

namespace Gunwinder

open Gunwinder.Core

/-- `PERMISSION_R`, `PERMISSION_W` and `PERMISSION_X`. -/
def permissionR : Nat := 1
def permissionW : Nat := 2
def permissionX : Nat := 4

/-- `MAX_MAPS_PATH`. -/
def maxMapsPath : Nat := 4096

/-- A line as `sscanf` and `strstr` leave it. -/
structure MapsLine where
  start : Word
  fin : Word
  perm : List Char
  offset : Word
  path : List Char
  deleted : Bool
  deriving DecidableEq, Repr

/-- The word in the marker of an unlinked file. -/
def deletedWord : List Char := ['(', 'd', 'e', 'l', 'e', 't', 'e', 'd', ')']

/-- The text that `strstr` looks for. -/
def deletedMarker : List Char := ' ' :: deletedWord

/-- The last three fields of a line; no path leaves `maps_path` empty. -/
def scanMapsPath (s : List Char) : List Char :=
  (do
    let s ← skipWord (skipSpace s)
    let s ← skipWord (skipSpace s)
    let (path, _) ← scanWord (maxMapsPath - 1) (skipSpace s)
    pure path).getD []

/-- `sscanf` of a line; `none` for less than four fields. -/
def scanMapsLine (line : List Char) : Option MapsLine := do
  let (start, s) ← scanHex 64 line
  let s ← scanChar '-' s
  let (fin, s) ← scanHex 64 s
  let (perm, s) ← scanWord 4 (skipSpace s)
  let (offset, s) ← scanHex 64 (skipSpace s)
  pure {
    start, fin, perm, offset
    path := scanMapsPath s
    deleted := decide (deletedMarker <:+: line) }

/-- `perm[i]`. -/
def MapsLine.permAt (line : MapsLine) (i : Nat) : Char := line.perm.getD i '\x00'

/-- The permission test of the loop. -/
def MapsLine.passes (line : MapsLine) (permissionFlag : Nat) : Bool :=
  ((if line.permAt 0 = 'r' then permissionR else 0) &&& permissionFlag) != 0 ||
  ((if line.permAt 1 = 'w' then permissionW else 0) &&& permissionFlag) != 0 ||
  ((if line.permAt 2 = 'x' then permissionX else 0) &&& permissionFlag) != 0

/-- `perm[0] | perm[1] | perm[2]`. -/
def MapsLine.permission (line : MapsLine) : Nat :=
  (line.permAt 0).toNat ||| (line.permAt 1).toNat ||| (line.permAt 2).toNat

/-- `struct maps_info`. -/
structure MapsEntry where
  path : List Char
  start : Word
  fin : Word
  offset : Word
  permission : Nat
  deleted : Bool
  deriving DecidableEq, Repr

/-- A line as a new entry. -/
def MapsLine.entry (line : MapsLine) : MapsEntry where
  path := line.path
  start := line.start
  fin := line.fin
  offset := line.offset
  permission := line.permission
  deleted := line.deleted

/-- `prev_size`. -/
def MapsEntry.size (prev : MapsEntry) : Word := prev.fin - prev.start

/-- The test for a line that extends the last entry. -/
def MapsEntry.continuedBy (prev : MapsEntry) (line : MapsLine) : Bool :=
  prev.fin = line.start &&
  decide (prev.offset.toNat ≤ 2 ^ 64 - 1 - prev.size.toNat) &&
  prev.offset + prev.size = line.offset &&
  prev.permission = line.permission &&
  prev.path = line.path

/-- A turn of the loop of `gu_get_maps_info`, with the last entry first. -/
def addMapsLine (permissionFlag : Nat) (info : List MapsEntry) (line : MapsLine) :
    List MapsEntry :=
  if line.passes permissionFlag then
    match info with
    | [] => [line.entry]
    | prev :: before =>
      if prev.continuedBy line then { prev with fin := line.fin } :: before
      else line.entry :: prev :: before
  else info

/-- The loop over all lines that were split. -/
def mergeMapsLines (permissionFlag : Nat) (lines : List MapsLine) : List MapsEntry :=
  (lines.foldl (addMapsLine permissionFlag) []).reverse

/-- The lines of a file that have four fields. -/
def scanMaps (file : List Char) : List MapsLine :=
  (fgetsAll maxMapsPath file.length file).filterMap scanMapsLine

/-- `gu_get_maps_info`, for a file that can be opened; no entry is its NULL. -/
def guGetMapsInfo (permissionFlag : Nat) (file : List Char) : List MapsEntry :=
  mergeMapsLines permissionFlag (scanMaps file)

end Gunwinder
