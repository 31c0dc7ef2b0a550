import Mathlib

/-!
# The text of a workspace file

What an editor's save becomes on disk, and which files it may replace
(`engine/src/workspace_files.rs`).

* `encodeWriteText`: the bytes of a request's text;
* `detectLineEnding`, `validateWritableSource`: the check of the file that is there.
-/

namespace Zeron.Files

abbrev Bytes : Type := List UInt8

/-- `WorkspaceFilesError`. -/
inductive Error where
  | badParams (message : String)
  | notFound (message : String)
  | unsupported (message : String)
  | authorization (message : String)
  | io (message : String)
  deriving DecidableEq

/-- `MAX_EDITABLE_FILE_BYTES`. -/
def maxEditableFileBytes : ℕ := 1024 * 1024

/-! ## Requests -/

inductive WritableEncoding where
  | utf8
  | utf8Bom
  deriving DecidableEq

inductive WritableLineEnding where
  | lf
  | crlf
  deriving DecidableEq

/-- `WriteWorkspaceFileRequest`, its target and path apart. -/
structure WriteRequest where
  text : String
  encoding : WritableEncoding
  lineEnding : WritableLineEnding
  expectedContentHash : String
  expectedCheckoutId : String
  deriving DecidableEq

/-- The byte order mark of UTF-8. -/
def bom : Bytes := [0xef, 0xbb, 0xbf]

def encodeWriteText (request : WriteRequest) : Except Error Bytes :=
  let text := request.text.toList
  if text.contains '\x00' then .error (.badParams "write text must not contain NUL bytes")
  else if text.contains '\r' then
    .error (.badParams "write text must use normalized LF line endings")
  else if request.expectedContentHash = "" then
    .error (.badParams "expectedContentHash must not be empty")
  else
    let source := match request.lineEnding with
      | .lf => text
      | .crlf => text.flatMap fun c => if c = '\n' then ['\r', '\n'] else [c]
    let bytes := (if request.encoding = .utf8Bom then bom else []) ++
      source.flatMap String.utf8EncodeChar
    if maxEditableFileBytes < bytes.length then
      .error (.unsupported "write exceeds the 1048576-byte editable limit")
    else .ok bytes

/-! ## The file that is there -/

inductive LineEnding where
  | none
  | lf
  | crlf
  | mixed
  deriving DecidableEq

/-- The counters of `detect_line_ending`. -/
structure Endings where
  crlf : ℕ
  lf : ℕ
  loneCr : ℕ
  deriving DecidableEq

def countEndings : Bytes → Endings
  | [] => ⟨0, 0, 0⟩
  | [byte] =>
    if byte = 13 then ⟨0, 0, 1⟩ else if byte = 10 then ⟨0, 1, 0⟩ else ⟨0, 0, 0⟩
  | byte :: next :: rest =>
    if byte = 13 ∧ next = 10 then
      let n := countEndings rest
      { n with crlf := n.crlf + 1 }
    else
      let n := countEndings (next :: rest)
      if byte = 13 then { n with loneCr := n.loneCr + 1 }
      else if byte = 10 then { n with lf := n.lf + 1 }
      else n

def detectLineEnding (bytes : Bytes) : LineEnding :=
  match countEndings bytes with
  | ⟨0, 0, 0⟩ => .none
  | ⟨0, _, 0⟩ => .lf
  | ⟨_, 0, 0⟩ => .crlf
  | _ => .mixed

/-- `std::str::from_utf8`. -/
def validUtf8 (bytes : Bytes) : Bool := decide (ByteArray.IsValidUTF8 ⟨bytes.toArray⟩)

def validateWritableSource (bytes : Bytes) : Except Error Unit :=
  if bytes.contains 0 then .error (.unsupported "binary files are not writable")
  else
    let source := if bytes.take 3 = bom then bytes.drop 3 else bytes
    if !validUtf8 source then .error (.unsupported "unsupported text encoding is not writable")
    else if detectLineEnding source = .mixed then
      .error (.unsupported "mixed line endings are not writable")
    else .ok ()

end Zeron.Files
