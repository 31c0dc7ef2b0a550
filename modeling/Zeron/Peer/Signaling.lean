import Zeron.Lib.Json

/-!
# What a device tells its previews' room

`preview-room.ts`: the checks on the catalogs and signals that arrive.

* `previewCatalog`, `previewSignal`;
* **`previewCatalog_valid`**: the services of a catalog are the device's own, with distinct ids.
-/

namespace Zeron.Peer.Preview

/-- `ID`. -/
def idRe (s : String) : Bool :=
  let l := s.toList
  1 ≤ l.length && l.length ≤ 128 && l.all fun c => c.isAlphanum || c = '_' || c = '-'

/-- A label of a host name. -/
def labelRe (l : List Char) : Bool :=
  1 ≤ l.length && l.length ≤ 63 && l.head?.any (· ≠ '-') && l.getLast?.any (· ≠ '-') &&
    l.all fun c => c.isLower || c.isDigit || c = '-'

/-- `HOST`. -/
def hostRe (s : String) : Bool :=
  match s.toList.splitOn '.' with
  | [service, project, localhost] =>
    labelRe service && labelRe project && localhost = "localhost".toList
  | _ => false

/-- `.length` of a string. -/
def jsLength (s : String) : ℕ := (s.toList.map Json.utf16).sum

/-- A field of an object; of members of one name the last counts. -/
def field (members : List (String × Json)) (key : String) : Option Json :=
  members.reverse.lookup key

/-- A text field of an object. -/
def text (members : List (String × Json)) (key : String) : Option String :=
  (field members key).bind Json.asStr

/-- A text field of a service, if it is not too long. -/
def serviceText (members : List (String × Json)) (key : String) : Option String :=
  (text members key).filter fun s =>
    jsLength s ≤ if key = "cwd" ∨ key = "projectCwd" then 4096 else 128

/-- An integer field that is in the range. -/
def integer (members : List (String × Json)) (key : String) (lo hi : ℤ) : Option ℤ :=
  ((field members key).bind Json.asI64).filter fun n => lo ≤ n ∧ n ≤ hi

/-- `Number.MAX_SAFE_INTEGER`. -/
def maxSafeInteger : ℤ := 2 ^ 53 - 1

/-- `Service`. -/
structure Service where
  id : String
  projectId : String
  projectName : String
  projectCwd : String
  deviceId : String
  deviceName : String
  hostname : String
  name : String
  cwd : String
  port : ℤ
  pid : ℤ
  startedAt : ℤ
  zeronOwned : Bool
  deriving DecidableEq, Repr

/-- A service of a catalog, if it is well formed. -/
def parseService (item : Json) : Option Service :=
  match item with
  | .obj s => do
    let id ← serviceText s "id"
    let projectId ← serviceText s "projectId"
    let projectName ← serviceText s "projectName"
    let projectCwd ← serviceText s "projectCwd"
    let deviceId ← serviceText s "deviceId"
    let deviceName ← serviceText s "deviceName"
    let hostname ← serviceText s "hostname"
    let name ← serviceText s "name"
    let cwd ← serviceText s "cwd"
    let port ← integer s "port" 1 65535
    let pid ← integer s "pid" 1 maxSafeInteger
    let startedAt ← integer s "startedAt" 0 maxSafeInteger
    let zeronOwned ← (field s "zeronOwned").bind Json.asBool
    some { id, projectId, projectName, projectCwd, deviceId, deviceName, hostname, name, cwd, port,
           pid, startedAt, zeronOwned }
  | _ => none

/-- A service goes to the output if it is the device's own and its id is new. -/
def addService (device : String) (output : List Service) (item : Json) : Option (List Service) :=
  (parseService item).bind fun s =>
    if s.deviceId ≠ device ∨ !idRe s.id ∨ s.id ∈ output.map (·.id) ∨ !hostRe s.hostname then none
    else some (output ++ [s])

/-- `previewCatalog`. -/
def previewCatalog (value : Json) (device : String) : Option (List Service) :=
  match value with
  | .arr items => if items.length > 256 then none else items.foldlM (addService device) []
  | _ => none

/-- What `previewSignal` lets through. -/
inductive PreviewSignal where
  | connect (session : String)
  | description (kind session sdp : String)
  deriving DecidableEq, Repr

/-- `previewSignal`. -/
def previewSignal (value : Json) : Option PreviewSignal :=
  match value with
  | .obj s => do
    let session ← (text s "session").filter idRe
    if text s "kind" = some "connect" ∧ field s "sdp" = none then some (.connect session)
    else
      let kind ← (text s "kind").filter fun k => k = "offer" ∨ k = "answer"
      match field s "sdp" with
      | some (.obj desc) =>
        let sdp ← text desc "sdp"
        if text desc "type" = some kind ∧ jsLength sdp ≤ 65536 ∧
            "v=0\r\n".toList <+: sdp.toList ∧ "a=fingerprint:sha-256 ".toList <:+: sdp.toList then
          some (.description kind session sdp)
        else none
      | _ => none
  | _ => none

/-- What a catalog satisfies that was let through. -/
structure Valid (device : String) (services : List Service) : Prop where
  own : ∀ s ∈ services, s.deviceId = device
  ids : ∀ s ∈ services, idRe s.id
  hosts : ∀ s ∈ services, hostRe s.hostname
  nodup : (services.map (·.id)).Nodup

theorem Valid.add {device : String} {output output' : List Service} {item : Json}
    (h : Valid device output) (hadd : addService device output item = some output') :
    Valid device output' := by
  unfold addService at hadd
  obtain ⟨s, -, hs⟩ := Option.bind_eq_some_iff.mp hadd
  split_ifs at hs with hbad
  cases hs
  simp only [not_or, Bool.not_eq_true', Bool.not_eq_false, not_not] at hbad
  obtain ⟨hdevice, hid, hnew, hhost⟩ := hbad
  have hall : ∀ P : Service → Prop, (∀ t ∈ output, P t) → P s → ∀ t ∈ output ++ [s], P t := by
    intro P ho hs t ht
    rcases List.mem_append.mp ht with ht | ht
    · exact ho t ht
    · rwa [List.mem_singleton.mp ht]
  refine ⟨hall _ h.own hdevice, hall _ h.ids hid, hall _ h.hosts hhost, ?_⟩
  rw [List.map_append, List.map_singleton, List.nodup_append]
  refine ⟨h.nodup, List.nodup_singleton _, fun a ha b hb => ?_⟩
  rw [List.mem_singleton.mp hb]
  rintro rfl
  exact hnew ha

/-- **The services of a catalog are the device's own, with distinct ids.** -/
theorem previewCatalog_valid {value : Json} {device : String} {services : List Service}
    (h : previewCatalog value device = some services) : Valid device services := by
  unfold previewCatalog at h
  split at h
  · rename_i items
    split_ifs at h
    have hrun : ∀ (items : List Json) (output : List Service), Valid device output →
        items.foldlM (addService device) output = some services → Valid device services := by
      intro items
      induction items with
      | nil =>
        intro output ho hfold
        cases hfold
        exact ho
      | cons item items ih =>
        intro output ho hfold
        rw [List.foldlM_cons] at hfold
        obtain ⟨output', hadd, hrest⟩ := Option.bind_eq_some_iff.mp hfold
        exact ih output' (ho.add hadd) hrest
    exact hrun items [] ⟨fun _ h => absurd h List.not_mem_nil, fun _ h => absurd h List.not_mem_nil,
      fun _ h => absurd h List.not_mem_nil, List.nodup_nil⟩ h
  · cases h

end Zeron.Peer.Preview
