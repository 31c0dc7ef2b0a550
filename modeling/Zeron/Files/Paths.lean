import Zeron.Files.Text
import Zeron.Lib.Utf8

/-!
# Paths on the wire

The path of a file under a checkout as a client has it (`engine/src/workspace_files.rs`).

* `OsName`, `toStr`: a name as the system has it, which need not be UTF-8;
* `pathToWire`, `containsGitComponent`, `isInternalTempWirePath`: the source;
* **`pathToWire_inj`**: different files have different paths.
-/

namespace Zeron.Files

/-- The name of an entry, in bytes. -/
abbrev OsName := List UInt8

/-- `OsStr::to_str`. -/
def toStr (name : OsName) : Option (List Char) := fromUtf8 name

/-- `OsStr::to_string_lossy`, where `lossy` reads what is not UTF-8. -/
def toStringLossy (lossy : OsName → String) (name : OsName) : String :=
  (toStr name).elim (lossy name) .ofList

/-- `contains_git_component`. -/
def containsGitComponent (lossy : OsName → String) (path : List OsName) : Bool :=
  path.any fun name => (toStringLossy lossy name).toList.map Char.toLower = ".git".toList

/-- `path_to_wire`, of a path of plain names. -/
def pathToWire (path : List OsName) : Except Error String :=
  match path.mapM toStr with
  | some names => .ok (.ofList (['/'].intercalate names))
  | none => .error (.unsupported "path is not UTF-8")

/-- What is behind the last slash. -/
def wireName (path : String) : List Char :=
  (path.toList.reverse.takeWhile (· ≠ '/')).reverse

/-- `is_internal_temp_wire_path`: the files that a save writes first. -/
def isInternalTempWirePath (path : String) : Bool :=
  ".zeron-save-".toList.isPrefixOf (wireName path) && ".tmp".toList.isSuffixOf (wireName path)

/-- A path of the file system: at least one name, and none with a slash. -/
def IsPath (path : List OsName) : Prop := path ≠ [] ∧ ∀ name ∈ path, (47 : UInt8) ∉ name

section

variable {path path' : List OsName} {wire : String}

theorem mapM_toStr {names : List (List Char)} (h : path.mapM toStr = some names) :
    path = names.map utf8 := by
  induction path generalizing names with
  | nil =>
    obtain rfl := Option.some.inj h
    rfl
  | cons name path ih =>
    rw [List.mapM_cons] at h
    obtain ⟨text, htext, h⟩ := Option.bind_eq_some_iff.mp h
    obtain ⟨texts, htexts, h⟩ := Option.bind_eq_some_iff.mp h
    obtain rfl := Option.some.inj h
    rw [List.map_cons, utf8_of_fromUtf8 htext, ← ih htexts]

theorem slash_mem_utf8 {text : List Char} (h : '/' ∈ text) : (47 : UInt8) ∈ utf8 text :=
  List.mem_flatMap.mpr ⟨'/', h, by decide⟩

theorem path_of_wire (h : IsPath path) (hw : pathToWire path = .ok wire) :
    path = (wire.toList.splitOn '/').map utf8 := by
  rw [pathToWire] at hw
  cases hnames : path.mapM toStr with
  | none =>
    rw [hnames] at hw
    cases hw
  | some names =>
    rw [hnames] at hw
    have hpath := mapM_toStr hnames
    have hne : names ≠ [] := fun hnil => h.1 (by rw [hpath, hnil]; rfl)
    have hslash : ∀ name ∈ names, '/' ∉ name := fun name hmem hs =>
      h.2 (utf8 name) (by rw [hpath]; exact List.mem_map_of_mem hmem) (slash_mem_utf8 hs)
    rw [← Except.ok.inj hw, String.toList_ofList, List.splitOn_intercalate '/' hslash hne]
    exact hpath

/-- **Different files have different paths.** -/
theorem pathToWire_inj (h : IsPath path) (h' : IsPath path') (hw : pathToWire path = .ok wire)
    (hw' : pathToWire path' = .ok wire) : path = path' :=
  (path_of_wire h hw).trans (path_of_wire h' hw').symm

end

end Zeron.Files
