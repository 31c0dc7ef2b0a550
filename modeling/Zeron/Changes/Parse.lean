import Zeron.Changes.Diff
import Zeron.Session.Queue

/-!
# The patch parser

`parse_patch` reads a unified git patch line by line (`ui/src/changes.rs`). A sum that leaves 32
bits ends the parse: the result is then `none`.
-/

namespace Zeron.Changes

open Session (isWhitespace)

/-! ## Texts -/

def stripCr (line : List Char) : List Char :=
  if line.getLast? = some '\r' then line.dropLast else line

/-- Lines, behind the start of one. -/
def linesFrom (start : List Char) : List Char → List (List Char)
  | [] => if start = [] then [] else [start]
  | c :: text =>
    if c = '\n' then stripCr start :: linesFrom [] text else linesFrom (start ++ [c]) text

/-- `str::lines`. -/
def textLines (text : List Char) : List (List Char) := linesFrom [] text

def trimStart (text : List Char) : List Char := text.dropWhile isWhitespace

def trimText (text : List Char) : List Char := (trimStart text).rdropWhile isWhitespace

/-- `str::strip_prefix`. -/
def stripPrefix (pre : String) (text : List Char) : Option (List Char) :=
  if pre.toList <+: text then some (text.drop pre.toList.length) else none

/-- `str::starts_with`. -/
def startsWith (pre : String) (text : List Char) : Bool := decide (pre.toList <+: text)

/-- `str::rfind`, in characters. -/
def rfind (part : List Char) : List Char → Option ℕ
  | [] => if part = [] then some 0 else none
  | c :: text =>
    match rfind part text with
    | some i => some (i + 1)
    | none => if part <+: c :: text then some 0 else none

/-- `str::replace` of a pair of characters by one. -/
def replacePair (a b by' : Char) : List Char → List Char
  | x :: y :: text =>
    if x = a ∧ y = b then by' :: replacePair a b by' text else x :: replacePair a b by' (y :: text)
  | text => text

/-- `parse::<u32>`. -/
def parseU32 (text : List Char) : Option ℕ :=
  let digits := if text.head? = some '+' then text.tail else text
  if digits ≠ [] ∧ digits.all Char.isDigit ∧ Nat.ofDigitChars 10 digits 0 < 2 ^ 32 then
    some (Nat.ofDigitChars 10 digits 0)
  else none

/-! ## Headers -/

def stripGitPrefix (path : List Char) : List Char :=
  ((stripPrefix "a/" path).orElse fun _ => stripPrefix "b/" path).getD path

def unquote (text : List Char) : List Char :=
  let trimmed := trimText text
  if 2 ≤ trimmed.length ∧ trimmed.head? = some '"' ∧ trimmed.getLast? = some '"' then
    replacePair '\\' '\\' '\\' (replacePair '\\' '"' '"' (trimmed.drop 1).dropLast)
  else trimmed

/-- The old and the new path of a `diff --git` line. -/
def parseGitPaths (rest : List Char) : List Char × List Char :=
  match (rfind " b/".toList rest).orElse fun _ => rfind " \"b/".toList rest with
  | some pos =>
    (stripGitPrefix (unquote (rest.take pos)), stripGitPrefix (unquote (rest.drop (pos + 1))))
  | none => (stripGitPrefix (unquote rest), stripGitPrefix (unquote rest))

/-- The number behind the first `sign`. -/
def signedNumber (sign : Char) (text : List Char) : Option ℕ :=
  match text.dropWhile (· ≠ sign) with
  | [] => none
  | _ :: behind => parseU32 (behind.takeWhile fun c => c ≠ ',' ∧ !isWhitespace c)

def parseHunkHeader (line : List Char) : Option (ℕ × ℕ) := do
  let rest ← stripPrefix "@@" line
  let old ← signedNumber '-' rest
  let new ← signedNumber '+' rest
  return (old, new)

/-- A line of the territory before the hunks. -/
def readHeader (file : FileDiff) (raw : List Char) : FileDiff :=
  if startsWith "new file mode" raw then { file with status := .added }
  else if startsWith "deleted file mode" raw then { file with status := .deleted }
  else if startsWith "rename from " raw then
    { file with
      status := .renamed
      oldPath := some (trimText (raw.drop "rename from ".length)) }
  else if startsWith "rename to " raw then
    { file with status := .renamed, path := trimText (raw.drop "rename to ".length) }
  else if startsWith "Binary files" raw || startsWith "GIT binary patch" raw then
    { file with binary := true }
  else if startsWith "new mode " raw then
    { file with
      notices := file.notices ++
        ["Mode changed to ".toList ++ trimText (raw.drop "new mode ".length)] }
  else if startsWith "+++ " raw then
    if trimText (raw.drop "+++ ".length) = "/dev/null".toList then { file with status := .deleted }
    else if file.oldPath.isNone then
      { file with path := stripGitPrefix (trimText (raw.drop "+++ ".length)) }
    else file
  else if startsWith "--- " raw && trimText (raw.drop "--- ".length) = "/dev/null".toList then
    { file with status := .added }
  else file

/-! ## Hunks -/

/-- A sum in 32 bits. -/
def addOne (n : ℕ) : Option ℕ := if n + 1 < 2 ^ 32 then some (n + 1) else none

/-- A line at the end of the last hunk. -/
def pushLine (line : DiffLine) : List Hunk → List Hunk
  | [] => []
  | [hunk] => [{ hunk with lines := hunk.lines ++ [line] }]
  | hunk :: hunks => hunk :: pushLine line hunks

/-- The parser between two lines; the files from the newest. -/
structure ParseState where
  files : List FileDiff
  inHunk : Bool
  oldNo : ℕ
  newNo : ℕ

/-- `line` in the file, if it has a hunk. -/
def FileDiff.push (file : FileDiff) (line : DiffLine) : FileDiff :=
  if file.hunks = [] then file
  else
    { file with
      hunks := pushLine line file.hunks
      maxLine := max (max file.maxLine (line.oldNo.getD 0)) (line.newNo.getD 0) }

/-- A line while `in_hunk`. -/
def hunkLine (s : ParseState) (file : FileDiff) (files : List FileDiff) (raw : List Char) :
    Option ParseState :=
  match raw with
  | '+' :: body => do
    let additions ← addOne file.additions
    let newNo ← addOne s.newNo
    let line := { kind := .add, oldNo := none, newNo := some s.newNo, text := body }
    return { s with files := { file with additions }.push line :: files, newNo }
  | '-' :: body => do
    let deletions ← addOne file.deletions
    let oldNo ← addOne s.oldNo
    let line := { kind := .del, oldNo := some s.oldNo, newNo := none, text := body }
    return { s with files := { file with deletions }.push line :: files, oldNo }
  | [] | ' ' :: _ => do
    let oldNo ← addOne s.oldNo
    let newNo ← addOne s.newNo
    let line :=
      { kind := .context, oldNo := some s.oldNo, newNo := some s.newNo, text := raw.drop 1 }
    return { s with files := file.push line :: files, oldNo, newNo }
  | '\\' :: _ =>
    let line := { kind := .marker, oldNo := none, newNo := none
                  text := trimText (raw.dropWhile (· = '\\')) }
    some { s with files := file.push line :: files }
  | _ => some { s with files := readHeader file raw :: files, inHunk := false }

/-- The body of the loop. -/
def parseLine (s : ParseState) (raw : List Char) : Option ParseState :=
  if startsWith "diff --git " raw then
    let (old, new) := parseGitPaths (raw.drop "diff --git ".length)
    some { s with
      files := .new new (if old = new then none else some old) :: s.files
      inHunk := false }
  else
    match s.files with
    | [] => some s
    | file :: files =>
      if startsWith "@@" raw then
        match parseHunkHeader raw with
        | some (old, new) =>
          some { files := { file with hunks := file.hunks ++ [⟨raw, []⟩] } :: files
                 inHunk := true, oldNo := old, newNo := new }
        | none => some s
      else if s.inHunk then hunkLine s file files raw
      else some { s with files := readHeader file raw :: files }

def parsePatch (patch : List Char) : Option (List FileDiff) :=
  ((textLines patch).foldlM parseLine ⟨[], false, 0, 0⟩).map fun s => s.files.reverse

end Zeron.Changes
