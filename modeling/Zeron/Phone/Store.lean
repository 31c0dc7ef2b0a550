import Zeron.Lib.Run

/-!
# The session store of the phone

The document of a chat, its outbox and the file that has both (`Zeron/Sync/SessionStore.swift`,
`Zeron/Sync/DocDisk.swift`). A commit is in the document at once; its batch enters the outbox in a
task that the update callback queues.

* `Push`, `Disk`, `Save`: a batch, the file, a save whose export runs off the main actor;
* `Store`: a started store, its saver and its room client; `App`: the store, the file and what
  the room has answered;
* `commitNow`, `admitDurableBatches`, `Act`, `step`.

Operations are numbered as they are made, batches as they are minted.
-/

namespace Zeron.Phone

/-- `maxPushBytes`. -/
def maxPushBytes : ℕ := 1024 * 1024 - 4096

structure Push where
  batchId : ℕ
  ops : List ℕ
  size : ℕ
  deriving DecidableEq

/-- The update of a commit, on its way to the outbox. -/
structure Update where
  op : ℕ
  size : ℕ
  deriving DecidableEq

/-- What a file has: the local operations of the snapshot, the cursor and the outbox. -/
structure Disk where
  doc : List ℕ
  cursor : ℕ
  firstContactQueued : Bool
  outbox : List Push
  deriving DecidableEq

/-- A `commitAsync`, with what was captured for it. `begun` has the generation and the commits that
it found; a save of `stop` begins in a task of its own. -/
structure Save where
  cursor : ℕ
  firstContactQueued : Bool
  outbox : List Push
  begun : Option (ℕ × ℕ)
  snapshot : Option (Option (List ℕ))
  deriving DecidableEq

/-- A store that was started. `updates`, `admissions` and `retired` are queued calls: of the update
callback, of `enqueue` and of `retirePush`. -/
structure Store where
  doc : List ℕ
  cursor : ℕ
  firstContactQueued : Bool
  outbox : List Push
  admitted : List ℕ
  chatRoom : Bool
  stopped : Bool
  updates : List Update
  admissions : List Push
  retired : List ℕ
  dirty : Bool
  generation : ℕ
  syncCommits : ℕ
  saves : List Save
  pending : List Push
  deriving DecidableEq

/-- `batches` has every batch that was minted, `written` the ids that some file had, `handed` those
that the room client was given. `givenUp`: the operations of batches that the room rejects for
good, and of a first contact that is too large; the code logs both. -/
structure App where
  store : Option Store
  file : Option Disk
  made : ℕ
  batches : List Push
  written : List ℕ
  handed : List ℕ
  acked : List ℕ
  givenUp : List ℕ
  deriving DecidableEq

namespace Store

variable (s : Store)

def disk : Disk where
  doc := s.doc
  cursor := s.cursor
  firstContactQueued := s.firstContactQueued
  outbox := s.outbox

def capture (begun : Option (ℕ × ℕ)) : Save where
  cursor := s.cursor
  firstContactQueued := s.firstContactQueued
  outbox := s.outbox
  begun
  snapshot := none

/-- `poke`; a failed save does the same to arm its retry. -/
def poke : Store := { s with dirty := true, generation := s.generation + 1 }

def admitDurableBatches : Store :=
  if s.stopped = false ∧ s.dirty = false ∧ s.chatRoom = true then
    let fresh := s.outbox.filter fun push => push.batchId ∉ s.admitted
    { s with
        admissions := s.admissions ++ fresh
        admitted := s.admitted ++ fresh.map (·.batchId) }
  else s

end Store

namespace App

variable (p : App)

/-- The file is replaced. -/
def write (disk : Disk) : App :=
  { p with file := some disk, written := p.written ++ disk.outbox.map (·.batchId) }

/-- `commitNow`, of the store as it is now. -/
def commitNow (s : Store) (ok : Bool) : App :=
  let s := { s with syncCommits := s.syncCommits + 1 }
  if ok then
    let s := { s with dirty := false, generation := s.generation + 1 }
    { p.write s.disk with store := some s.admitDurableBatches }
  else { p with store := some s.poke }

/-- `start`: the file, or the operations that are carried over from the retired lineage. -/
def start (adopted : ℕ) : App :=
  let disk := p.file.getD
    { doc := List.range' p.made adopted, cursor := 0, firstContactQueued := false, outbox := [] }
  { p with
      made := if p.file.isNone then p.made + adopted else p.made
      store := some
        { doc := disk.doc, cursor := disk.cursor, firstContactQueued := disk.firstContactQueued
          outbox := disk.outbox, admitted := [], chatRoom := false, stopped := false, updates := []
          admissions := [], retired := [], dirty := false, generation := 0, syncCommits := 0
          saves := [], pending := [] } }

/-- `doc.commit()`. A stopped store has no subscription. -/
def commit (s : Store) (size : ℕ) : App :=
  { p with
      made := p.made + 1
      store := some
        { s with
            doc := s.doc ++ [p.made]
            updates := if s.stopped then s.updates else s.updates ++ [{ op := p.made, size }] } }

/-- The task of the update callback. A stopped store has no saver. Where the commit succeeds its
`onSaved` has admitted what the call after it would. -/
def update (s : Store) (i : ℕ) (u : Update) (ok : Bool) : App :=
  let push : Push := { batchId := p.batches.length, ops := [u.op], size := u.size }
  let s := { s with updates := s.updates.eraseIdx i, outbox := s.outbox ++ [push] }
  let p := { p with batches := p.batches ++ [push] }
  if s.stopped then { p with store := some s } else p.commitNow s ok

/-- `connectIfReady`, once its guards hold; `exported` is the size of the full update log, if it
can be exported. -/
def connect (s : Store) (exported : Option ℕ) (ok : Bool) : App :=
  let s := { s with chatRoom := true }.admitDurableBatches
  if s.cursor = 0 ∧ s.firstContactQueued = false then
    match exported with
    | some size =>
      if size ≤ maxPushBytes then
        let push : Push := { batchId := p.batches.length, ops := s.doc, size }
        { p with batches := p.batches ++ [push] }.commitNow
          { s with outbox := s.outbox ++ [push], firstContactQueued := true } ok
      else
        { p with givenUp := p.givenUp ++ s.doc }.commitNow { s with firstContactQueued := true } ok
    | none => p.commitNow { s with firstContactQueued := true } ok
  else { p with store := some s }

/-- The end of a `commitAsync`: a stale snapshot is written too, unless there was a `commitNow`. -/
def finish (s : Store) (i : ℕ) (save : Save) (begun : ℕ × ℕ) (snapshot : Option (List ℕ))
    (ok : Bool) : App :=
  let s := { s with saves := s.saves.eraseIdx i }
  let disk (doc : List ℕ) : Disk :=
    { doc, cursor := save.cursor, firstContactQueued := save.firstContactQueued
      outbox := save.outbox }
  if s.generation ≠ begun.1 then
    match snapshot, ok with
    | some doc, true =>
      if s.syncCommits = begun.2 then { p.write (disk doc) with store := some s }
      else { p with store := some s }
    | _, _ => { p with store := some s }
  else
    match snapshot, ok with
    | some doc, true =>
      let s := { s with dirty := false, generation := s.generation + 1 }
      { p.write (disk doc) with store := some s.admitDurableBatches }
    | _, _ => { p with store := some s.poke }

/-- `enqueue` of the room client refuses what is too large. -/
def enqueue (s : Store) (i : ℕ) (push : Push) : App :=
  let s := { s with admissions := s.admissions.eraseIdx i }
  if s.stopped = true ∨ s.chatRoom = false then { p with store := some s }
  else
    { p with
        handed := p.handed ++ [push.batchId]
        store := some
          { s with
              pending := if push.size ≤ maxPushBytes then s.pending ++ [push] else s.pending } }

def retirePush (s : Store) (i : ℕ) (batchId : ℕ) : App :=
  let s := { s with retired := s.retired.eraseIdx i }
  if s.stopped then { p with store := some s }
  else
    let s' :=
      { s with
          outbox := s.outbox.filter (·.batchId ≠ batchId)
          admitted := s.admitted.filter (· ≠ batchId) }
    { p with store := some (if s'.outbox.length ≠ s.outbox.length then s'.poke else s') }

def stop (s : Store) : App :=
  { p with
      store := some
        { s with
            stopped := true
            chatRoom := false
            saves := if s.dirty then s.saves ++ [s.capture none] else s.saves } }

end App

/-! ## Runs -/

/-- `ok`: the file can be written. `remote`: a closure of the room client moves the cursor.
`flushAsync`, `begin`, `snapshot`, `finish`: the steps of a `commitAsync`. `answer`: the room
acknowledges a batch that it was given, or rejects it for good. A redial keeps the client's
batches and is no step. -/
inductive Act where
  | start (adopted : ℕ)
  | kill
  | commit (size : ℕ)
  | update (i : ℕ) (ok : Bool)
  | connect (exported : Option ℕ) (ok : Bool)
  | remote (cursor : ℕ)
  | flush (ok : Bool)
  | flushAsync
  | begin (i : ℕ)
  | snapshot (i : ℕ) (ok : Bool)
  | finish (i : ℕ) (ok : Bool)
  | enqueue (i : ℕ)
  | answer (batchId : ℕ) (accepted : Bool)
  | retire (i : ℕ)
  | stop
  deriving DecidableEq

namespace App

variable (p : App)

def step : Act → Option App
  | .start adopted =>
    match p.store with
    | some s => if s.stopped then some (p.start adopted) else none
    | none => some (p.start adopted)
  | .kill => p.store.map fun _ => { p with store := none }
  | .commit size => p.store.map fun s => p.commit s size
  | .update i ok => do
    let s ← p.store
    let u ← s.updates[i]?
    some (p.update s i u ok)
  | .connect exported ok => do
    let s ← p.store
    if s.stopped = true ∨ s.chatRoom = true then none else some (p.connect s exported ok)
  | .remote cursor => do
    let s ← p.store
    if s.chatRoom = true then some { p with store := some { s with cursor }.poke } else none
  | .flush ok => do
    let s ← p.store
    if s.stopped = false ∧ s.dirty = true then some (p.commitNow s ok) else none
  | .flushAsync => do
    let s ← p.store
    if s.stopped = false ∧ s.dirty = true then
      let save := s.capture (some (s.generation + 1, s.syncCommits))
      some { p with
        store := some { s with generation := s.generation + 1, saves := s.saves ++ [save] } }
    else none
  | .begin i => do
    let s ← p.store
    let save ← s.saves[i]?
    if save.begun.isSome then none
    else if s.dirty then
      let save := { save with begun := some (s.generation + 1, s.syncCommits) }
      some { p with
        store := some { s with generation := s.generation + 1, saves := s.saves.set i save } }
    else some { p with store := some { s with saves := s.saves.eraseIdx i } }
  | .snapshot i ok => do
    let s ← p.store
    let save ← s.saves[i]?
    if save.begun.isNone ∨ save.snapshot.isSome then none
    else
      let save := { save with snapshot := some (if ok then some s.doc else none) }
      some { p with store := some { s with saves := s.saves.set i save } }
  | .finish i ok => do
    let s ← p.store
    let save ← s.saves[i]?
    let begun ← save.begun
    let snapshot ← save.snapshot
    some (p.finish s i save begun snapshot ok)
  | .enqueue i => do
    let s ← p.store
    let push ← s.admissions[i]?
    some (p.enqueue s i push)
  | .answer batchId accepted => do
    let s ← p.store
    let push ← p.batches[batchId]?
    if batchId ∉ p.handed ∨ maxPushBytes < push.size then none
    else
      let s := { s with
        pending := s.pending.filter (·.batchId ≠ batchId), retired := s.retired ++ [batchId] }
      some { p with
        acked := if accepted then p.acked ++ push.ops else p.acked
        givenUp := if accepted then p.givenUp else p.givenUp ++ push.ops
        store := some s }
  | .retire i => do
    let s ← p.store
    let batchId ← s.retired[i]?
    some (p.retirePush s i batchId)
  | .stop => do
    let s ← p.store
    if s.stopped then none else some (p.stop s)

/-- A phone that has never opened the chat. -/
def new : App where
  store := none
  file := none
  made := 0
  batches := []
  written := []
  handed := []
  acked := []
  givenUp := []

end App

end Zeron.Phone
