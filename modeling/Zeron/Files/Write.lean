import Zeron.Lib.Run
import Zeron.Files.Text

/-!
# Saving a workspace file

The requests for one file (`WorkspaceFiles::write_file` and `write_file_blocking` of
`engine/src/workspace_files.rs`), next to whatever else changes the file. A step is one lock or one
system call; any of them may fail, and a caller may give up at any point.

* `Place`, `checkedFileMetadata`: what the path leads to, and the check of it;
* `Phase`, `Job`: how far a request is;
* `World`, `Act`, `step`: who moves, and how;
* `placeAt`: the file after a list of events.
-/

namespace Zeron.Files

/-! ## The path -/

/-- `std::fs::Metadata`, as far as it is compared or returned. -/
structure Meta where
  len : ℕ
  modified : Option ℕ
  dev : ℕ
  ino : ℕ
  permissions : ℕ
  deriving DecidableEq

/-- What a directory on the way is. -/
inductive Parent where
  | missing
  | directory
  | symlink
  | other
  deriving DecidableEq

/-- What the path names. -/
inductive Leaf where
  | missing
  | directory
  /-- With the content that opening it yields. -/
  | symlink (through : Option Bytes)
  | file (metadata : Meta) (content : Bytes)
  | other
  deriving DecidableEq

structure Place where
  parents : List Parent
  leaf : Leaf
  /-- The canonical path is not under the root. -/
  escaped : Bool
  deriving DecidableEq

/-- The loop of `checked_file_metadata` over the directories. -/
def checkedParents : List Parent → Except Error Unit
  | [] => .ok ()
  | .missing :: _ => .error (.notFound "file not found")
  | .symlink :: _ => .error (.unsupported "path traverses a symlink")
  | .other :: _ => .error (.unsupported "file parent is not a directory")
  | .directory :: parents => checkedParents parents

/-- The last component of it. -/
def checkedLeaf : Leaf → Except Error Meta
  | .missing => .error (.notFound "file not found")
  | .symlink _ => .error (.unsupported "path is a symlink")
  | .directory | .other => .error (.unsupported "path is not a regular file")
  | .file metadata _ => .ok metadata

/-- `checked_file_metadata`, with the failure of a system call. -/
def Place.checkedFileMetadata (place : Place) (fault : Option String) : Except Error Meta :=
  match fault with
  | some message => .error (.io message)
  | none => do
    checkedParents place.parents
    let metadata ← checkedLeaf place.leaf
    if place.escaped then .error (.authorization "file escaped workspace") else .ok metadata

/-- What `std::fs::read` finds. -/
def Place.content (place : Place) : Option Bytes :=
  match place.leaf with
  | .file _ content => some content
  | .symlink through => through
  | _ => none

def Place.read (place : Place) (fault : Option String) : Except Error Bytes :=
  match fault, place.content with
  | none, some bytes => .ok bytes
  | some message, _ => .error (.io message)
  | none, none => .error (.io "No such file or directory (os error 2)")

/-- Whether a file can be renamed to the path. -/
def Place.replaceable (place : Place) : Bool :=
  place.parents.all (fun parent => parent = .directory || parent = .symlink) &&
    decide (place.leaf ≠ .directory)

def sameFileRevision (before after : Meta) : Bool :=
  before.len = after.len && before.modified = after.modified && before.dev = after.dev &&
    before.ino = after.ino

/-! ## The revision of a file -/

/-- How far `current_write_revision` is. -/
inductive Probe where
  | start
  | opened (metadata : Meta)
  | read (metadata : Meta) (bytes : Bytes)
  deriving DecidableEq

/-- A system call of it: how it goes on, or what it returns. -/
def Probe.next (place : Place) (fault : Option String) :
    Probe → Except Error (Probe ⊕ Meta × Bytes)
  | .start => do
    let metadata ← place.checkedFileMetadata fault
    if maxEditableFileBytes < metadata.len then
      .error (.unsupported "file exceeds the editable limit")
    else .ok (.inl (.opened metadata))
  | .opened metadata => do
    let bytes ← place.read fault
    .ok (.inl (.read metadata bytes))
  | .read metadata bytes => do
    let after ← place.checkedFileMetadata fault
    if !sameFileRevision metadata after || decide (bytes.length ≠ after.len) then
      .error (.io "file changed while preparing write; retry")
    else .ok (.inr (after, bytes))

inductive ConflictReason where
  | deleted
  | replaced
  | changed
  | notRegularFile
  deriving DecidableEq

inductive Outcome where
  | written (contentHash : String) (size : ℕ) (modifiedAt : Option ℕ)
  | conflict (reason : ConflictReason) (currentContentHash : Option String)
      (currentModifiedAt : Option ℕ)
  deriving DecidableEq

abbrev Result : Type := Except Error Outcome

/-- `str::contains`. -/
def contains (message part : String) : Bool := decide (part.toList <:+: message.toList)

/-- Which errors of `current_write_revision` are conflicts. -/
def revisionResult : Error → Result
  | .notFound _ => .ok (.conflict .deleted none none)
  | .unsupported message =>
    if contains message "symlink" then .ok (.conflict .replaced none none)
    else if contains message "editable limit" then .ok (.conflict .changed none none)
    else .ok (.conflict .notRegularFile none none)
  | error => .error error

/-! ## Requests -/

/-- How far a request is. -/
inductive Phase where
  | idle
  /-- For the lock of the file. -/
  | waiting
  | first (probe : Probe)
  | create (metadata : Meta)
  | prepare (metadata : Meta)
  | second (metadata : Meta) (probe : Probe)
  | replace (metadata : Meta)
  | verify
  | reread (published : Meta)
  | done (result : Result)
  /-- Given up before it had the lock. -/
  | dropped
  deriving DecidableEq

/-- It has the lock. -/
def Phase.running : Phase → Bool
  | .first _ | .create _ | .prepare _ | .second _ _ | .replace _ | .verify | .reread _ => true
  | .idle | .waiting | .done _ | .dropped => false

structure Job where
  phase : Phase
  bytes : Bytes
  /-- Its `Arc` of the lock. -/
  lock : ℕ
  cancelled : Bool
  deriving DecidableEq

/-- The temporary file of a request. -/
structure Temp where
  permissions : Option ℕ
  content : Bytes
  deriving DecidableEq

/-! ## The world -/

inductive Event where
  | external (place : Place)
  /-- The final check of a request reads the file. -/
  | checked (id : ℕ)
  | published (id : ℕ) (place : Place)
  /-- A system call of the verification fails. -/
  | unverified (id : ℕ)
  /-- The temporary file cannot be removed. -/
  | leftover (id : ℕ)
  deriving DecidableEq

/-- What an event makes of the file. -/
def Event.place : Event → Option Place
  | .external place => some place
  | .published _ place => some place
  | .checked _ | .unverified _ | .leftover _ => none

/-- The file after some events. -/
def placeAt (initial : Place) (history : List Event) : Place :=
  history.foldl (fun place event => event.place.getD place) initial

structure World where
  place : Place
  /-- The entry of the file in `write_locks`. -/
  slot : Option ℕ
  nextLock : ℕ
  /-- The requests with an `Arc` of a lock. -/
  live : List ℕ
  jobs : ℕ → Job
  temps : ℕ → Option Temp
  history : List Event

inductive Act where
  | external (place : Place)
  | enter (id : ℕ)
  /-- The caller drops the future. -/
  | cancel (id : ℕ)
  | acquire (id : ℕ)
  /-- The next system call; `stamp` is the metadata a new file gets, and `removed` tells whether a
  temporary file that is no longer needed goes. -/
  | move (id : ℕ) (fault : Option String) (stamp : Meta) (removed : Bool)
  deriving DecidableEq

namespace World

variable (hash : Bytes → String) (req : ℕ → WriteRequest) (checkoutId : String) (w : World)

def start (place : Place) : World :=
  { place, slot := none, nextLock := 0, live := []
    jobs := fun _ => { phase := .idle, bytes := [], lock := 0, cancelled := false }
    temps := fun _ => none, history := [] }

def setJob (id : ℕ) (job : Job) : World := { w with jobs := Function.update w.jobs id job }

def setPhase (id : ℕ) (phase : Phase) : World := w.setJob id { w.jobs id with phase }

def emit (events : List Event) : World := { w with history := w.history ++ events }

/-- The checks before the lock, and the lock: the one of the table while somebody has it. -/
def enter (id : ℕ) : World :=
  match encodeWriteText (req id) with
  | .error error => w.setPhase id (.done (.error error))
  | .ok bytes =>
    if (req id).expectedCheckoutId = "" ∨ (req id).expectedCheckoutId ≠ checkoutId then
      w.setPhase id (.done (.error (.authorization
        "Workspace changed since this file was opened. Switch back to save your edits.")))
    else
      match w.slot.filter fun lock => w.live.any fun other => (w.jobs other).lock = lock with
      | some lock =>
        { w with live := id :: w.live }.setJob id { w.jobs id with phase := .waiting, bytes, lock }
      | none =>
        { w with slot := some w.nextLock, nextLock := w.nextLock + 1, live := id :: w.live }.setJob
          id { w.jobs id with phase := .waiting, bytes, lock := w.nextLock }

/-- Nobody has the lock of a request. -/
def lockFree (id : ℕ) : Bool :=
  w.live.all fun other =>
    !((w.jobs other).lock = (w.jobs id).lock && (w.jobs other).phase.running)

/-- The end of `write_file_blocking`: the guard removes the temporary file, the lock is free. -/
def finish (id : ℕ) (result : Result) (removed : Bool) : World :=
  let leftover := (w.temps id).isSome && !removed
  ({ w with
      live := w.live.erase id
      temps := if leftover then w.temps else Function.update w.temps id none }.emit
    (if leftover then [.leftover id] else [])).setPhase id (.done result)

def cancelledResult : Result := .error (.io "file write cancelled")

/-- After the first revision. -/
def compare (id : ℕ) (metadata : Meta) (bytes : Bytes) (removed : Bool) : World :=
  match validateWritableSource bytes with
  | .error error => w.finish id (.error error) removed
  | .ok () =>
    if hash bytes ≠ (req id).expectedContentHash then
      w.finish id (.ok (.conflict .changed (some (hash bytes)) metadata.modified)) removed
    else if (w.jobs id).cancelled then w.finish id cancelledResult removed
    else w.setPhase id (.create metadata)

/-- After the second. -/
def recompare (id : ℕ) (metadata latest : Meta) (bytes : Bytes) (removed : Bool) : World :=
  match validateWritableSource bytes with
  | .error error => w.finish id (.error error) removed
  | .ok () =>
    if hash bytes ≠ (req id).expectedContentHash ∨ sameFileRevision metadata latest = false then
      w.finish id (.ok (.conflict .changed (some (hash bytes)) latest.modified)) removed
    else w.setPhase id (.replace metadata)

/-- `atomic_replace`. -/
def replace (id : ℕ) (metadata stamp : Meta) : World :=
  let metadata :=
    { stamp with len := (w.jobs id).bytes.length, permissions := metadata.permissions }
  let place := { w.place with leaf := .file metadata (w.jobs id).bytes }
  ({ w with place, temps := Function.update w.temps id none }.emit [.published id place]).setPhase
    id .verify

/-- The next system call of a request. -/
def move (id : ℕ) (fault : Option String) (stamp : Meta) (removed : Bool) : Option World :=
  match (w.jobs id).phase with
  | .first probe =>
    match probe.next w.place fault with
    | .error error => some (w.finish id (revisionResult error) removed)
    | .ok (.inl probe) => some (w.setPhase id (.first probe))
    | .ok (.inr (metadata, bytes)) => some (w.compare hash req id metadata bytes removed)
  | .create metadata =>
    match fault with
    | some message => some (w.finish id (.error (.io message)) removed)
    | none =>
      some ({ w with
        temps := Function.update w.temps id (some ⟨none, []⟩) }.setPhase id (.prepare metadata))
  | .prepare metadata =>
    match fault with
    | some message => some (w.finish id (.error (.io message)) removed)
    | none =>
      let temp : Temp := ⟨some metadata.permissions, (w.jobs id).bytes⟩
      let w := { w with temps := Function.update w.temps id (some temp) }
      if (w.jobs id).cancelled then some (w.finish id cancelledResult removed)
      else some (w.setPhase id (.second metadata .start))
  | .second metadata probe =>
    match probe.next w.place fault with
    | .error error => some (w.finish id (revisionResult error) removed)
    | .ok (.inl (.read before bytes)) =>
      some ((w.emit [.checked id]).setPhase id (.second metadata (.read before bytes)))
    | .ok (.inl probe) => some (w.setPhase id (.second metadata probe))
    | .ok (.inr (latest, bytes)) =>
      some (w.recompare hash req id metadata latest bytes removed)
  | .replace metadata =>
    match fault, w.place.replaceable with
    | none, true => some (w.replace id metadata stamp)
    | some message, _ => some (w.finish id (.error (.io message)) removed)
    | none, false => some (w.finish id (.error (.io "Is a directory (os error 21)")) removed)
  | .verify =>
    let w := w.emit (if fault.isSome then [.unverified id] else [])
    match w.place.checkedFileMetadata fault with
    | .error error => some (w.finish id (.error error) removed)
    | .ok published => some (w.setPhase id (.reread published))
  | .reread published =>
    let w := w.emit (if fault.isSome then [.unverified id] else [])
    match w.place.read fault with
    | .error error => some (w.finish id (.error error) removed)
    | .ok bytes =>
      if hash bytes ≠ hash (w.jobs id).bytes then
        some (w.finish id (.error (.io "published file verification failed")) removed)
      else some (w.finish id (.ok (.written (hash bytes) published.len published.modified)) removed)
  | .idle | .waiting | .done _ | .dropped => none

def step (w : World) : Act → Option World
  | .external place => some ({ w with place }.emit [.external place])
  | .enter id =>
    match (w.jobs id).phase with
    | .idle => some (w.enter req checkoutId id)
    | _ => none
  | .cancel id =>
    match (w.jobs id).phase with
    | .waiting => some ({ w with live := w.live.erase id }.setPhase id .dropped)
    | phase =>
      if phase.running then some (w.setJob id { w.jobs id with cancelled := true }) else none
  | .acquire id =>
    match (w.jobs id).phase with
    | .waiting => if w.lockFree id then some (w.setPhase id (.first .start)) else none
    | _ => none
  | .move id fault stamp removed => w.move hash req id fault stamp removed

end World

/-- The result of a request. -/
def World.result (w : World) (id : ℕ) : Option Result :=
  match (w.jobs id).phase with
  | .done result => some result
  | _ => none

end Zeron.Files
