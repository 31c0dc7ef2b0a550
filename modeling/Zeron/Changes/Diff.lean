import Mathlib

/-!
# A parsed patch

The diff of a file as the changes pane keeps it (`ui/src/changes.rs`). Texts are lists of
characters.
-/

namespace Zeron.Changes

inductive LineKind where
  | context
  | add
  | del
  /-- `Meta`: the marker of a missing newline and the like. -/
  | marker
  deriving DecidableEq

structure DiffLine where
  kind : LineKind
  oldNo : Option ℕ
  newNo : Option ℕ
  text : List Char
  deriving DecidableEq

structure Hunk where
  header : List Char
  lines : List DiffLine
  deriving DecidableEq

inductive FileStatus where
  | added
  | deleted
  | modified
  | renamed
  deriving DecidableEq

structure FileDiff where
  path : List Char
  /-- The path before a rename. -/
  oldPath : Option (List Char)
  status : FileStatus
  binary : Bool
  notices : List (List Char)
  hunks : List Hunk
  additions : ℕ
  deletions : ℕ
  /-- The largest line number on either side. -/
  maxLine : ℕ
  deriving DecidableEq

def FileDiff.new (path : List Char) (oldPath : Option (List Char)) : FileDiff :=
  { path, oldPath, status := .modified, binary := false, notices := [], hunks := []
    additions := 0, deletions := 0, maxLine := 0 }

def fileNotices (file : FileDiff) : List (List Char) :=
  (match file.status with
    | .added => ["New file".toList]
    | .deleted => ["Deleted file".toList]
    | .renamed => ["Renamed from ".toList ++ file.oldPath.getD ['?']]
    | .modified => []) ++
  (if file.binary then ["Binary file — contents not shown".toList] else []) ++ file.notices

/-- `as u32`. -/
def asU32 (n : ℕ) : ℕ := n % 2 ^ 32

theorem asU32_of_lt {n : ℕ} (h : n < 2 ^ 32) : asU32 n = n := Nat.mod_eq_of_lt h

end Zeron.Changes
