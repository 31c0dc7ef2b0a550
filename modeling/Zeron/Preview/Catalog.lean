import Zeron.Lib.Run
import Zeron.Preview.Label

/-!
# The catalog of previews

A device gives its previews names, keeps them in a registry file and publishes them with those of
the other devices (`preview/src/catalog.rs`). Names are changed in memory first and then written,
which may fail.

* `Listener`, `commandIdentity`, `Host`: what is observed, and what the catalog is not about;
* `Names`: what the file has; `Catalog`: the state behind the lock, the file and the snapshot;
* `observe`, `replaceLocal`, `setRemote`, `persist`, `publish`, `Act`, `step`.
-/

namespace Zeron.Preview

/-! ## Observations -/

structure Listener where
  pid : ℕ
  cwd : String
  args : List String
  startedAt : ℕ
  port : ℕ
  deriving DecidableEq

/-- `parse::<u16>`. -/
def parseU16 (arg : String) : Option ℕ :=
  let digits := match arg.toList with
    | '+' :: rest => rest
    | rest => rest
  if digits ≠ [] ∧ digits.all Char.isDigit then
    let n := digits.foldl (fun n c => 10 * n + (c.toNat - '0'.toNat)) 0
    if n < 2 ^ 16 then some n else none
  else none

/-- The options of a port take the next argument with them. -/
def withoutPorts (pythonHttp : Bool) : List String → List String
  | [] => []
  | arg :: rest =>
    if arg = "--port" ∨ arg = "-p" ∨ arg = "--inspect-port" then
      match rest with
      | [] => []
      | _ :: rest => withoutPorts pythonHttp rest
    else if "--port=".toList.isPrefixOf arg.toList ∨ "PORT=".toList.isPrefixOf arg.toList ∨
        "--inspect-port=".toList.isPrefixOf arg.toList ∨
        pythonHttp = true ∧ (parseU16 arg).isSome then
      withoutPorts pythonHttp rest
    else arg :: withoutPorts pythonHttp rest

/-- `command_identity`. -/
def commandIdentity (args : List String) : String :=
  "\x00".intercalate (withoutPorts (args.contains "http.server") args)

/-- The device; SHA-256; the role a listener plays, after its framework; and the ids that are
drawn. -/
structure Host where
  deviceId : String
  digest : String → String
  role : Listener → String
  uuid : ℕ → String

/-- The fingerprint of a command: where it runs, and what, but for its port. -/
def Host.fingerprint (h : Host) (l : Listener) : String :=
  h.digest (l.cwd ++ "\x00" ++
    commandIdentity (l.args.filter fun arg => parseU16 arg ≠ some l.port))

/-- `Path::file_name`. -/
def fileName (path : List Char) : Option (List Char) :=
  match ((path.splitOn '/').filter fun part => part ≠ [] ∧ part ≠ ['.']).getLast? with
  | some ['.', '.'] | none => none
  | some name => some name

/-! ## Names -/

structure ServiceName where
  id : String
  fingerprint : String
  label : Label
  deriving DecidableEq

structure ProjectName where
  id : String
  label : Label
  services : List ServiceName
  deriving DecidableEq

/-- What the registry file has: the maps of the peers' labels and of the projects. -/
structure Names where
  deviceLabel : Label
  peerLabels : List (String × Label)
  projects : List (String × ProjectName)
  deriving DecidableEq

structure PreviewService where
  id : String
  projectId : String
  projectCwd : String
  deviceId : String
  hostname : Label
  name : String
  port : ℕ
  pid : ℕ
  startedAt : ℕ
  deriving DecidableEq

structure LocalRoute where
  service : PreviewService
  listener : Listener
  deriving DecidableEq

namespace Names

variable (names : Names)

def project (cwd : String) : Option ProjectName :=
  (names.projects.find? (·.1 = cwd)).map Prod.snd

def peerLabel (device : String) : Option Label :=
  (names.peerLabels.find? (·.1 = device)).map Prod.snd

/-- `used_labels`. -/
def used : List Label :=
  names.projects.flatMap fun p => p.2.label :: p.2.services.map (·.label)

def addProject (cwd : String) (project : ProjectName) : Names :=
  { names with projects := names.projects ++ [(cwd, project)] }

def addService (cwd : String) (service : ServiceName) : Names :=
  { names with
      projects := names.projects.map fun p =>
        if p.1 = cwd then (p.1, { p.2 with services := p.2.services ++ [service] }) else p }

end Names

/-! ## Observed services -/

/-- The loop of `replace_local`. -/
structure Scan where
  names : Names
  used : List Label
  next : List LocalRoute
  seen : List (String × ℕ)
  drawn : ℕ
  changed : Bool

/-- The service of a command that is not routed yet, the one it had before if it can be. -/
def ProjectName.existing (project : ProjectName) (fingerprint : String) (previous : Option String)
    (next : List LocalRoute) : Option ServiceName :=
  let free := project.services.filter fun s =>
    s.fingerprint = fingerprint ∧ ∀ r ∈ next, r.service.id ≠ s.id
  (free.find? fun s => previous = some s.id) <|> free.head?

/-- The first service of a project goes under the project's label. -/
def ProjectName.newLabel (project : ProjectName) (role : String) (used : List Label) :
    Option Label :=
  if project.services = [] then some project.label
  else allocate (project.label ++ '-' :: slug role.toList) used

namespace Scan

variable (h : Host) (s : Scan)

/-- A root that is not known becomes a project. -/
def ensureProject (cwd : String) : Option Scan :=
  match s.names.project cwd with
  | some _ => some s
  | none =>
    (allocate (slug ((fileName cwd.toList).getD "project".toList)) s.used).map fun label =>
      { s with
          names := s.names.addProject cwd { id := h.uuid s.drawn, label, services := [] }
          used := label :: s.used
          drawn := s.drawn + 1
          changed := true }

/-- The service of a listener, which may be new. -/
def ensureService (cwd : String) (project : ProjectName) (previous : Option String)
    (l : Listener) : Option (Scan × ServiceName) :=
  match project.existing (h.fingerprint l) previous s.next with
  | some service => some (s, service)
  | none =>
    (project.newLabel (h.role l) s.used).map fun label =>
      let service := { id := h.uuid s.drawn, fingerprint := h.fingerprint l, label }
      ({ s with
          names := s.names.addService cwd service
          used := label :: s.used
          drawn := s.drawn + 1
          changed := true },
        service)

/-- A listener in a root. -/
def observe (routes : List LocalRoute) (cwd : String) (l : Listener) : Option Scan :=
  if (cwd, l.port) ∈ s.seen then some s
  else do
    let s ← { s with seen := (cwd, l.port) :: s.seen }.ensureProject h cwd
    let project ← s.names.project cwd
    let previous := (routes.find? fun r => r.listener.pid = l.pid ∧
      r.listener.startedAt = l.startedAt ∧ r.listener.port = l.port).map (·.service.id)
    let (s, service) ← s.ensureService h cwd project previous l
    let service : PreviewService :=
      { id := service.id, projectId := project.id, projectCwd := cwd, deviceId := h.deviceId
        hostname := hostname s.names.deviceLabel service.label, name := h.role l
        port := l.port, pid := l.pid, startedAt := l.startedAt }
    some { s with next := s.next ++ [{ service, listener := l }] }

def observeAll (routes : List LocalRoute) (s : Scan) : List (String × Listener) → Option Scan
  | [] => some s
  | (cwd, l) :: rest => (s.observe h routes cwd l).bind fun s => observeAll routes s rest

end Scan

/-! ## The catalog -/

/-- The state, the registry file and the snapshot. `drawn` counts the ids, `published` has every
service that was in a snapshot, a local one with its fingerprint. -/
structure Catalog where
  file : Option Names
  names : Names
  routes : List LocalRoute
  remote : List (String × List PreviewService)
  snapshot : List PreviewService
  drawn : ℕ
  published : List (PreviewService × String)
  deriving DecidableEq

namespace Catalog

variable (h : Host) (c : Catalog)

/-- `publish`. -/
def publish : Catalog :=
  { c with
      snapshot := c.routes.map (·.service) ++ c.remote.flatMap Prod.snd
      published := c.published ++ c.routes.map (fun r => (r.service, h.fingerprint r.listener)) ++
        (c.remote.flatMap Prod.snd).map fun service => (service, "") }

/-- `persist`. -/
def persist (ok : Bool) : Catalog := if ok then { c with file := some c.names } else c

/-- `Catalog::open`: the names of the file. -/
def openNames (deviceName : String) : Names :=
  let names := c.file.getD { deviceLabel := [], peerLabels := [], projects := [] }
  if names.deviceLabel = [] then { names with deviceLabel := slug deviceName.toList } else names

def reopen (deviceName : String) : Catalog :=
  { c with names := c.openNames deviceName, routes := [], remote := [], snapshot := [] }

/-- `replace_local`, with the observations in their order. The routes stay when the names cannot be
written. -/
def replaceLocal (observations : List (String × Listener)) (ok : Bool) : Option Catalog :=
  let scan : Scan :=
    { names := c.names, used := c.names.used, next := [], seen := [], drawn := c.drawn
      changed := false }
  (scan.observeAll h c.routes (observations.take 256)).map fun scan =>
    let c := { c with names := scan.names, drawn := scan.drawn }
    if scan.changed = true ∧ ok = false then c
    else { (if scan.changed then c.persist ok else c) with routes := scan.next }.publish h

/-- What is taken of a peer. -/
def acceptable (device : String) (services : List PreviewService) : Bool :=
  device ≠ h.deviceId && services.length ≤ 256 && services.all fun s =>
    s.deviceId = device && validHostname s.hostname && s.id.utf8ByteSize ≤ 128 && s.id ≠ "" &&
      s.projectCwd.utf8ByteSize ≤ 4096 && s.name.utf8ByteSize ≤ 128

/-- The advertised services go under the label that the peer has here. -/
def relabel (label : Label) (services : List PreviewService) : List PreviewService :=
  services.map fun s => { s with hostname := label ++ '.' :: afterFirst s.hostname }

def insertRemote (device : String) (services : List PreviewService) : Catalog :=
  { c with remote := c.remote.filter (·.1 ≠ device) ++ [(device, services)] }

/-- `set_remote`. -/
def setRemote (device : String) (services : List PreviewService) (ok : Bool) : Option Catalog :=
  if acceptable h device services = false ∨ ¬ (services.map (·.id)).Nodup then some c
  else
    match services with
    | [] => some ((c.insertRemote device []).publish h)
    | first :: _ =>
      match c.names.peerLabel device with
      | some label => some ((c.insertRemote device (relabel label services)).publish h)
      | none =>
        (allocate (firstLabel first.hostname)
            (c.names.peerLabels.map Prod.snd ++ [c.names.deviceLabel])).map fun label =>
          let c := { c with
            names := { c.names with peerLabels := c.names.peerLabels ++ [(device, label)] } }
          if ok = false then c
          else ((c.persist ok).insertRemote device (relabel label services)).publish h

def removeRemote (device : String) : Catalog :=
  { c with remote := c.remote.filter (·.1 ≠ device) }.publish h

def clearRemote : Catalog := { c with remote := [] }.publish h

end Catalog

/-! ## Runs -/

/-- `ok`: the file can be written. -/
inductive Act where
  | replaceLocal (observations : List (String × Listener)) (ok : Bool)
  | setRemote (device : String) (services : List PreviewService) (ok : Bool)
  | removeRemote (device : String)
  | clearRemote
  | reopen (deviceName : String)

namespace Catalog

variable (h : Host) (c : Catalog)

def step : Act → Option Catalog
  | .replaceLocal observations ok => c.replaceLocal h observations ok
  | .setRemote device services ok => c.setRemote h device services ok
  | .removeRemote device => some (c.removeRemote h device)
  | .clearRemote => some (c.clearRemote h)
  | .reopen deviceName => some (c.reopen deviceName)

/-- The catalog of a device that has no registry file yet. -/
def start (deviceName : String) : Catalog where
  file := none
  names := { deviceLabel := slug deviceName.toList, peerLabels := [], projects := [] }
  routes := []
  remote := []
  snapshot := []
  drawn := 0
  published := []

end Catalog

end Zeron.Preview
