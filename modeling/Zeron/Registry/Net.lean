import Zeron.Lib.Run
import Zeron.Registry.Doc

/-!
# One client of the room

A replica, its two transports and the room (`crates/sync/src/registry.rs`, `registry-room.ts`). The
socket actor and the HTTPS task interleave freely, one lock or one message a step; other clients
are their pushes. Presence and probes carry no rows and are left out.

* `Link`: the socket session; `Http`: the HTTPS task; `Net`: the whole;
* `Act`, `step`: who moves, and how; `Step`, **`step_iff`**: the moves as cases;
* `Room.advances_push`, `Room.Read`, `Room.Sent`: the room's side of a replica's bookkeeping;
* `Net.queue`, **`queue_step`**: the batches that may still reach the room, and where they are from.
-/

namespace Zeron.Registry

/-- A frame of a session, after its `state`. -/
inductive Frame where
  | rows (frame : RowsFrame)
  | ack (batch : String) (seq : ℕ)
  | error (code message : String)
  deriving DecidableEq

/-- The socket session. -/
inductive Link where
  /-- Backing off, or dialing. -/
  | down
  /-- The hello is on its way. -/
  | hello (cursor : Option ℕ)
  /-- The room has answered; its broadcasts queue up behind the state. -/
  | greeted (cursor : Option ℕ) (state : StateReply) (inbox : List Frame)
  /-- In session: `push_pending` may be due, pushes and frames are on their way. -/
  | joined (pushDue : Bool) (outbox : List PendingBatch) (inbox : List Frame)
  /-- `run_session` has returned; the batches are still marked. -/
  | closing
  deriving DecidableEq

/-- The task of `spawn_offline_sync`. -/
inductive Http where
  | idle
  | spawned
  | pushing (batches : List PendingBatch)
  | posted (answer : PushReply) (rest : List PendingBatch)
  | pulling
  | asked (since : ℕ)
  | answered (since : ℕ) (state : StateReply)
  deriving DecidableEq

structure Net where
  room : Room
  doc : RegistryDoc
  link : Link
  http : Http
  /-- A nudge waits in the actor's channel. -/
  nudge : Bool
  /-- A writer has the doc's lock behind it and its `nudge` call ahead. -/
  owed : Bool
  deriving DecidableEq

/-- A replica that starts, next to a room. -/
def Net.start (room : Room) (doc : RegistryDoc) : Net :=
  { room, doc, link := .down, http := .idle, nudge := false, owed := false }

inductive Act where
  /-- A typed write: clocks are observed and ticked, ops enqueued. -/
  | enqueue (clock : HlcClock) (now : ℕ → ℤ) (ops : List RowOp)
  | hostNudge
  | peerPush (batch : String) (ops : List RowOp)
  | alarm (nowMs : ℕ)
  | dial
  | serveHello
  | recvState (now : ℕ → ℤ)
  | takeNudge
  | pushPending
  | servePush
  | recvFrame
  | drop
  | markDown
  | httpSpawn
  | httpTake
  | httpServe
  | httpAck
  | httpFail
  | httpPull
  | httpAnswer
  | httpApply (now : ℕ → ℤ)
  | httpPullFail

/-! ## The room's part -/

namespace Room

theorem advances_push (room : Room) (batch : String) (ops : List RowOp) :
    Cover.Advances RegistryRow.seq room.row (room.push batch ops).row room.storage.seq := by
  intro key r hr
  rcases h : checkBatch batch ops with _ | error
  · rcases (applyPushBatch_spec room.wf h).row_cases key with he | ⟨r', he, hseq, hsucc⟩
    · exact Or.inl (he.symm.trans hr)
    · have hr' : some r' = some r := he.symm.trans hr
      cases hr'
      exact Or.inr (by omega)
  · rw [Room.push, Room.row] at hr
    simp only [applyPushBatch_refused h] at hr
    exact Or.inl hr

theorem seq_le_push (room : Room) (batch : String) (ops : List RowOp) :
    room.storage.seq ≤ (room.push batch ops).storage.seq := by
  rcases h : checkBatch batch ops with _ | error
  · exact (applyPushBatch_spec room.wf h).seq_le
  · simp [Room.push, applyPushBatch_refused h]

theorem row_alarm (room : Room) (nowMs : ℕ) {key : RowKey} {r : RegistryRow}
    (h : (room.alarm nowMs).row key = some r) : room.row key = some r := by
  rcases alarm_spec room.wf nowMs with he | hc
  · rw [← h]
    exact congrArg (·.row key) he.symm
  · have hrow := (hc.row key).symm.trans h
    rw [Option.filter_eq_some_iff] at hrow
    exact hrow.1

theorem seq_alarm (room : Room) (nowMs : ℕ) : (room.alarm nowMs).storage.seq = room.storage.seq := by
  rcases alarm_spec room.wf nowMs with he | hc
  · exact congrArg Storage.seq he
  · exact hc.seq

/-- A state read from the room for a cursor, however long ago. -/
structure Read (room : Room) (since : ℕ) (reply : StateReply) : Prop where
  seq_le : reply.seq ≤ room.storage.seq
  snapshot : Cover.Snapshot RegistryRow.key RegistryRow.seq room.row reply.seq reply.rows
  complete : Cover.Complete RegistryRow.seq room.row (if reply.full then 0 else since) reply.seq
    reply.rows

theorem mem_stateSince (room : Room) (cursor : Option ℕ) {r : RegistryRow} :
    r ∈ (room.storage.stateSince cursor).rows ↔ room.row r.key = some r ∧
      (if (room.storage.stateSince cursor).full then 0 else cursor.getD 0) < r.seq := by
  have hsince : (room.storage.stateSince cursor).rows = room.storage.rowsSince
      (if (room.storage.stateSince cursor).full then 0 else cursor.getD 0) := by
    rw [apply_ite room.storage.rowsSince]
    rfl
  rw [hsince]
  exact mem_rowsSince room.wf

theorem read_stateSince (room : Room) (cursor : Option ℕ) :
    room.Read (cursor.getD 0) (room.storage.stateSince cursor) := by
  refine ⟨le_rfl, fun r hr r' hr' _ => ?_, fun key r hr hlt _ => ?_⟩
  · rw [((mem_stateSince room cursor).mp hr).1] at hr'
    exact (Option.some.inj hr').symm
  · obtain rfl := room.wf.keyed key r hr
    exact (mem_stateSince room cursor).mpr ⟨hr, hlt⟩

/-- A broadcast of the room, however long ago. -/
structure Sent (room : Room) (frame : RowsFrame) : Prop where
  seq_le : frame.seq ≤ room.storage.seq
  snapshot : Cover.Snapshot RegistryRow.key RegistryRow.seq room.row frame.seq frame.rows
  complete : Cover.Complete RegistryRow.seq room.row (frame.seq - 1) frame.seq frame.rows

theorem sent_push (room : Room) {batch : String} {ops : List RowOp} {frame : RowsFrame}
    (hf : (applyPushBatch room.storage batch ops).2.2 = some frame) :
    (room.push batch ops).Sent frame ∧ frame.seq = room.storage.seq + 1 ∧
      (room.push batch ops).storage.seq = room.storage.seq + 1 := by
  rcases h : checkBatch batch ops with _ | error
  · obtain ⟨hseq, hfseq, -, hrows⟩ := (applyPushBatch_spec room.wf h).frame frame hf
    refine ⟨⟨by rw [hfseq]; exact hseq.ge, fun r hr r' hr' _ => ?_, fun key r hr hlt hle => ?_⟩,
      hfseq, hseq⟩
    · exact Option.some.inj (hr'.symm.trans ((hrows r).mp hr).1)
    · obtain rfl := (room.push batch ops).wf.keyed key r hr
      exact (hrows r).mpr ⟨hr, by omega⟩
  · rw [applyPushBatch_refused h] at hf
    cases hf

theorem row_of_sent (room : Room) {batch : String} {ops : List RowOp} {frame : RowsFrame}
    (hf : (applyPushBatch room.storage batch ops).2.2 = some frame) {r : RegistryRow}
    (hr : r ∈ frame.rows) : (room.push batch ops).row r.key = some r := by
  rcases h : checkBatch batch ops with _ | error
  · exact (((applyPushBatch_spec room.wf h).frame frame hf).2.2.2 r).mp hr |>.1
  · rw [applyPushBatch_refused h] at hf
    cases hf

theorem push_idle (room : Room) {batch : String} {ops : List RowOp}
    (hf : (applyPushBatch room.storage batch ops).2.2 = none) : room.push batch ops = room := by
  rcases h : checkBatch batch ops with _ | error
  · exact Room.ext ((applyPushBatch_spec room.wf h).idle hf)
  · apply Room.ext
    simp [Room.push, applyPushBatch_refused h]

section Advance

variable {room room' : Room} {since : ℕ}

theorem Read.advance {reply : StateReply} (h : room.Read since reply)
    (ha : Cover.Advances RegistryRow.seq room.row room'.row room.storage.seq)
    (hle : room.storage.seq ≤ room'.storage.seq) : room'.Read since reply :=
  ⟨h.seq_le.trans hle, h.snapshot.advance ha h.seq_le, h.complete.advance ha h.seq_le⟩

theorem Sent.advance {frame : RowsFrame} (h : room.Sent frame)
    (ha : Cover.Advances RegistryRow.seq room.row room'.row room.storage.seq)
    (hle : room.storage.seq ≤ room'.storage.seq) : room'.Sent frame :=
  ⟨h.seq_le.trans hle, h.snapshot.advance ha h.seq_le, h.complete.advance ha h.seq_le⟩

end Advance

end Room

/-! ## Steps -/

/-- A frame to a socket that has said hello. -/
def Link.send (frame : Frame) : Link → Link
  | .greeted cursor state inbox => .greeted cursor state (inbox ++ [frame])
  | .joined pushDue outbox inbox => .joined pushDue outbox (inbox ++ [frame])
  | link => link

/-- A batch's broadcast, if it changed a row. -/
def Link.broadcast (link : Link) : Option RowsFrame → Link
  | none => link
  | some frame => link.send (.rows frame)

/-- The answer to a push, as a frame. -/
def PushReply.frame : PushReply → Frame
  | .error code message => .error code message
  | .ack batch seq _ => .ack batch seq

namespace Net

/-- A batch reaches the room. -/
def push (s : Net) (batch : String) (ops : List RowOp) : Net :=
  { s with
    room := s.room.push batch ops
    link := s.link.broadcast (applyPushBatch s.room.storage batch ops).2.2 }

/-- What the room answers to a batch. -/
def answer (s : Net) (b : PendingBatch) : PushReply :=
  (applyPushBatch s.room.storage b.batch b.ops).2.1

/-- `handle_frame`: the replica, and whether the session goes on. -/
def handleFrame (doc : RegistryDoc) : Frame → RegistryDoc × Bool
  | .rows frame => doc.applyRows frame
  | .ack batch _ => ((doc.ackBatch batch).1, true)
  | .error _ _ => (doc, true)

/-- One step; `none` where the act is not possible. -/
def step (s : Net) (a : Act) : Option Net :=
  match a, s.link, s.http with
  | .enqueue clock now ops, _, _ =>
    if s.doc.clock.ticks ≤ clock.ticks then
      some { s with doc := { s.doc with clock }.enqueueOps now ops, owed := true }
    else none
  | .hostNudge, _, _ => some { s with owed := false, nudge := true }
  | .peerPush batch ops, _, _ => some (s.push batch ops)
  | .alarm nowMs, _, _ => some { s with room := s.room.alarm nowMs }
  | .dial, .down, _ => some { s with link := .hello s.doc.helloCursor }
  | .serveHello, .hello cursor, _ =>
    some { s with link := .greeted cursor (s.room.storage.stateSince cursor) [] }
  | .recvState now, .greeted _ state inbox, _ =>
    some { s with doc := (s.doc.applyState now state).1, link := .joined true [] inbox }
  | .takeNudge, .joined false outbox inbox, _ =>
    if s.nudge then some { s with nudge := false, link := .joined true outbox inbox } else none
  | .pushPending, .joined true outbox inbox, _ =>
    some { s with doc := s.doc.takePushable.1
                  link := .joined false (outbox ++ s.doc.takePushable.2) inbox }
  | .servePush, .joined pushDue (b :: outbox) inbox, _ =>
    let served := { s with link := .joined pushDue outbox inbox }.push b.batch b.ops
    some { served with link := served.link.send (s.answer b).frame }
  | .recvFrame, .joined false outbox (frame :: inbox), _ =>
    if (handleFrame s.doc frame).2 then
      some { s with doc := (handleFrame s.doc frame).1, link := .joined false outbox inbox }
    else some { s with doc := (handleFrame s.doc frame).1, link := .closing }
  | .drop, .hello _, _ => some { s with link := .closing }
  | .drop, .greeted _ _ _, _ => some { s with link := .closing }
  | .drop, .joined _ _ _, _ => some { s with link := .closing }
  | .markDown, .closing, _ => some { s with doc := s.doc.markDisconnected, link := .down }
  | .httpSpawn, .down, .idle => some { s with http := .spawned }
  | .httpTake, _, .spawned =>
    some { s with doc := s.doc.takePushable.1, http := .pushing s.doc.takePushable.2 }
  | .httpServe, _, .pushing (b :: rest) =>
    some { s.push b.batch b.ops with http := .posted (s.answer b) rest }
  | .httpAck, _, .posted (.ack batch _ _) rest =>
    some { s with doc := (s.doc.ackBatch batch).1, http := .pushing rest }
  | .httpFail, _, .pushing (_ :: _) =>
    some { s with doc := s.doc.markDisconnected, http := .pulling }
  | .httpFail, _, .posted _ _ =>
    some { s with doc := s.doc.markDisconnected, http := .pulling }
  | .httpPull, _, .pushing [] => some { s with http := .asked s.doc.serverSeq }
  | .httpPull, _, .pulling => some { s with http := .asked s.doc.serverSeq }
  | .httpAnswer, _, .asked since =>
    some { s with http := .answered since (s.room.storage.stateSince (some since)) }
  | .httpApply now, _, .answered _ state =>
    some { s with doc := (s.doc.applyState now state).1, http := .idle }
  | .httpPullFail, _, .asked _ => some { s with http := .idle }
  | .httpPullFail, _, .answered _ _ => some { s with http := .idle }
  | _, _, _ => none

end Net

section Push

variable (s : Net) (batch : String) (ops : List RowOp)

@[simp] theorem push_room : (s.push batch ops).room = s.room.push batch ops := rfl

@[simp] theorem push_doc : (s.push batch ops).doc = s.doc := rfl

@[simp] theorem push_http : (s.push batch ops).http = s.http := rfl

@[simp] theorem push_nudge : (s.push batch ops).nudge = s.nudge := rfl

@[simp] theorem push_owed : (s.push batch ops).owed = s.owed := rfl

end Push

/-- A session that is open: hello sent, answered or joined. -/
def Link.Open : Link → Prop
  | .down => False
  | .closing => False
  | _ => True

/-- A task with pushes to do or in hand. -/
def Http.Pushing : Http → Prop
  | .pushing (_ :: _) => True
  | .posted _ _ => True
  | _ => False

/-- The pushes are done. -/
def Http.Pushed : Http → Prop
  | .pushing [] => True
  | .pulling => True
  | _ => False

/-- A pull is out. -/
def Http.Pulling : Http → Prop
  | .asked _ => True
  | .answered _ _ => True
  | _ => False

/-- The possible steps. -/
inductive Step (s : Net) : Act → Net → Prop where
  | enqueue {clock now ops} (h : s.doc.clock.ticks ≤ clock.ticks) :
    Step s (.enqueue clock now ops)
      { s with doc := { s.doc with clock }.enqueueOps now ops, owed := true }
  | hostNudge : Step s .hostNudge { s with owed := false, nudge := true }
  | peerPush {batch ops} : Step s (.peerPush batch ops) (s.push batch ops)
  | alarm {nowMs} : Step s (.alarm nowMs) { s with room := s.room.alarm nowMs }
  | dial (h : s.link = .down) : Step s .dial { s with link := .hello s.doc.helloCursor }
  | serveHello {cursor} (h : s.link = .hello cursor) : Step s .serveHello
      { s with link := .greeted cursor (s.room.storage.stateSince cursor) [] }
  | recvState {now cursor state inbox} (h : s.link = .greeted cursor state inbox) :
    Step s (.recvState now)
      { s with doc := (s.doc.applyState now state).1, link := .joined true [] inbox }
  | takeNudge {outbox inbox} (h : s.link = .joined false outbox inbox) (hn : s.nudge = true) :
    Step s .takeNudge { s with nudge := false, link := .joined true outbox inbox }
  | pushPending {outbox inbox} (h : s.link = .joined true outbox inbox) : Step s .pushPending
      { s with doc := s.doc.takePushable.1
               link := .joined false (outbox ++ s.doc.takePushable.2) inbox }
  | servePush {pushDue b outbox inbox} (h : s.link = .joined pushDue (b :: outbox) inbox) :
    Step s .servePush { { s with link := .joined pushDue outbox inbox }.push b.batch b.ops with
      link := ({ s with link := .joined pushDue outbox inbox }.push b.batch b.ops).link.send
        (s.answer b).frame }
  | recvFrame {outbox frame inbox} (h : s.link = .joined false outbox (frame :: inbox))
      (hgo : (Net.handleFrame s.doc frame).2 = true) : Step s .recvFrame
      { s with doc := (Net.handleFrame s.doc frame).1, link := .joined false outbox inbox }
  | recvGap {outbox frame inbox} (h : s.link = .joined false outbox (frame :: inbox))
      (hgap : (Net.handleFrame s.doc frame).2 = false) : Step s .recvFrame
      { s with doc := (Net.handleFrame s.doc frame).1, link := .closing }
  | drop (h : s.link.Open) : Step s .drop { s with link := .closing }
  | markDown (h : s.link = .closing) : Step s .markDown
      { s with doc := s.doc.markDisconnected, link := .down }
  | httpSpawn (hl : s.link = .down) (h : s.http = .idle) : Step s .httpSpawn
      { s with http := .spawned }
  | httpTake (h : s.http = .spawned) : Step s .httpTake
      { s with doc := s.doc.takePushable.1, http := .pushing s.doc.takePushable.2 }
  | httpServe {b rest} (h : s.http = .pushing (b :: rest)) : Step s .httpServe
      { s.push b.batch b.ops with http := .posted (s.answer b) rest }
  | httpAck {batch seq applied rest} (h : s.http = .posted (.ack batch seq applied) rest) :
    Step s .httpAck { s with doc := (s.doc.ackBatch batch).1, http := .pushing rest }
  | httpFail (h : s.http.Pushing) : Step s .httpFail
      { s with doc := s.doc.markDisconnected, http := .pulling }
  | httpPull (h : s.http.Pushed) : Step s .httpPull { s with http := .asked s.doc.serverSeq }
  | httpAnswer {since} (h : s.http = .asked since) : Step s .httpAnswer
      { s with http := .answered since (s.room.storage.stateSince (some since)) }
  | httpApply {now since state} (h : s.http = .answered since state) : Step s (.httpApply now)
      { s with doc := (s.doc.applyState now state).1, http := .idle }
  | httpPullFail (h : s.http.Pulling) : Step s .httpPullFail { s with http := .idle }

/-- **The step function makes exactly the possible steps.** -/
theorem step_iff {s s' : Net} {a : Act} : s.step a = some s' ↔ Step s a s' := by
  constructor
  · intro h
    unfold Net.step at h
    split at h
    case h_1 =>
      split_ifs at h with hc
      cases h
      exact .enqueue hc
    case h_8 hl =>
      split_ifs at h with hc
      cases h
      exact .takeNudge hl hc
    case h_11 hl =>
      split_ifs at h with hc
      · cases h
        exact .recvFrame hl hc
      · cases h
        exact .recvGap hl (by simpa using hc)
    all_goals cases h
    case h_2 => exact .hostNudge
    case h_3 => exact .peerPush
    case h_4 => exact .alarm
    case h_5 hl => exact .dial hl
    case h_6 hl => exact .serveHello hl
    case h_7 hl => exact .recvState hl
    case h_9 hl => exact .pushPending hl
    case h_10 hl => exact .servePush hl
    case h_12 hl => exact .drop (by rw [hl]; trivial)
    case h_13 hl => exact .drop (by rw [hl]; trivial)
    case h_14 hl => exact .drop (by rw [hl]; trivial)
    case h_15 hl => exact .markDown hl
    case h_16 hl hh => exact .httpSpawn hl hh
    case h_17 hh => exact .httpTake hh
    case h_18 hh => exact .httpServe hh
    case h_19 hh => exact .httpAck hh
    case h_20 hh => exact .httpFail (by rw [hh]; trivial)
    case h_21 hh => exact .httpFail (by rw [hh]; trivial)
    case h_22 hh => exact .httpPull (by rw [hh]; trivial)
    case h_23 hh => exact .httpPull (by rw [hh]; trivial)
    case h_24 hh => exact .httpAnswer hh
    case h_25 hh => exact .httpApply hh
    case h_26 hh => exact .httpPullFail (by rw [hh]; trivial)
    case h_27 hh => exact .httpPullFail (by rw [hh]; trivial)
  · intro h
    cases h with
    | drop h =>
      rcases hl : s.link with _ | _ | _ | _ | _ <;> simp_all [Net.step, Link.Open]
    | httpFail h =>
      rcases hh : s.http with _ | _ | (_ | _) | _ | _ | _ | _ <;> simp_all [Net.step, Http.Pushing]
    | httpPull h =>
      rcases hh : s.http with _ | _ | (_ | _) | _ | _ | _ | _ <;> simp_all [Net.step, Http.Pushed]
    | httpPullFail h =>
      rcases hh : s.http with _ | _ | _ | _ | _ | _ | _ <;> simp_all [Net.step, Http.Pulling]
    | _ => simp_all [Net.step]

/-! ## What the replica has to send -/

def Link.outbox : Link → List PendingBatch
  | .joined _ outbox _ => outbox
  | _ => []

def Http.outbox : Http → List PendingBatch
  | .pushing batches => batches
  | .posted _ rest => rest
  | _ => []

/-- Every batch of the replica that may still reach the room. -/
def Net.queue (s : Net) : List PendingBatch := s.doc.pending ++ s.link.outbox ++ s.http.outbox

/-- The state a step applies. -/
def Net.applied (s : Net) (a : Act) : Option StateReply :=
  match a, s.link, s.http with
  | .recvState _, .greeted _ state _, _ => some state
  | .httpApply _, _, .answered _ state => some state
  | _, _, _ => none

/-- The ops a step enqueues: a local write's, or the re-seeds. -/
def Net.enqueued (s : Net) (a : Act) : List RowOp :=
  match a with
  | .enqueue _ _ ops => ops
  | a => match s.applied a with
    | some state => (s.doc.seedRows state).map rowToSeedOp
    | none => []

@[simp] theorem outbox_send (link : Link) (frame : Frame) :
    (link.send frame).outbox = link.outbox := by
  cases link <;> rfl

@[simp] theorem outbox_broadcast (link : Link) (frame : Option RowsFrame) :
    (link.broadcast frame).outbox = link.outbox := by
  cases frame
  · rfl
  · exact outbox_send _ _

theorem joined_send {link : Link} {frame : Frame} {pushDue : Bool} {outbox : List PendingBatch}
    {inbox : List Frame} (h : link.send frame = .joined pushDue outbox inbox) :
    ∃ inbox₀, link = .joined pushDue outbox inbox₀ ∧ inbox = inbox₀ ++ [frame] := by
  cases link <;> simp_all [Link.send]

theorem joined_broadcast {link : Link} {frame : Option RowsFrame} {pushDue : Bool}
    {outbox : List PendingBatch} {inbox : List Frame}
    (h : link.broadcast frame = .joined pushDue outbox inbox) :
    ∃ inbox₀, link = .joined pushDue outbox inbox₀ := by
  cases frame
  · exact ⟨inbox, h⟩
  · obtain ⟨inbox₀, he, -⟩ := joined_send h
    exact ⟨inbox₀, he⟩

theorem greeted_broadcast {link : Link} {frame : Option RowsFrame} {cursor : Option ℕ}
    {state : StateReply} {inbox : List Frame}
    (h : link.broadcast frame = .greeted cursor state inbox) :
    ∃ inbox₀, link = .greeted cursor state inbox₀ := by
  rcases frame with _ | frame
  · exact ⟨inbox, h⟩
  · rcases link with _ | _ | ⟨c, st, i⟩ | _ | _
    case greeted =>
      cases h
      exact ⟨i, rfl⟩
    all_goals cases h

theorem doc_of_applied {s s' : Net} {a : Act} (h : Step s a s') {state : StateReply}
    (hstate : s.applied a = some state) : ∃ now, s'.doc = (s.doc.applyState now state).1 := by
  cases h with
  | recvState hl =>
    simp only [Net.applied, hl, Option.some.injEq] at hstate
    rw [hstate]
    exact ⟨_, rfl⟩
  | httpApply hh =>
    simp only [Net.applied, hh, Option.some.injEq] at hstate
    rw [hstate]
    exact ⟨_, rfl⟩
  | _ => cases hstate

/-- The batch is another's copy, up to the mark. -/
def PendingBatch.Copies (b b' : PendingBatch) : Prop := b.batch = b'.batch ∧ b.ops = b'.ops

theorem PendingBatch.Copies.refl (b : PendingBatch) : b.Copies b := ⟨rfl, rfl⟩

section Pending

variable {doc doc' : RegistryDoc} {b : PendingBatch}

theorem mem_pending_takePushable (h : b ∈ doc.takePushable.1.pending) :
    ∃ b₀ ∈ doc.pending, b₀.Copies b := by
  obtain ⟨b₀, hb₀, rfl⟩ := List.mem_map.mp h
  exact ⟨b₀, hb₀, rfl, rfl⟩

theorem mem_takePushable (h : b ∈ doc.takePushable.2) : ∃ b₀ ∈ doc.pending, b₀.Copies b := by
  obtain ⟨b₀, hb₀, rfl⟩ := List.mem_map.mp h
  exact ⟨b₀, (List.mem_filter.mp hb₀).1, rfl, rfl⟩

theorem mem_pending_markDisconnected (h : b ∈ doc.markDisconnected.pending) :
    ∃ b₀ ∈ doc.pending, b₀.Copies b := by
  obtain ⟨b₀, hb₀, rfl⟩ := List.mem_map.mp h
  exact ⟨b₀, hb₀, rfl, rfl⟩

theorem mem_pending_ackBatch {batch : String} (h : b ∈ (doc.ackBatch batch).1.pending) :
    b ∈ doc.pending := by
  rw [ackBatch_fst] at h
  exact (List.mem_filter.mp h).1

theorem Enqueued.mem {batches : List PendingBatch} {ops : List RowOp}
    (h : Enqueued doc doc' batches ops) (hb : b ∈ doc'.pending) :
    b ∈ doc.pending ∨ b ∈ batches := by
  rwa [h.pending, List.mem_append] at hb

end Pending

theorem mem_queue {s : Net} {b : PendingBatch} :
    b ∈ s.queue ↔ b ∈ s.doc.pending ∨ b ∈ s.link.outbox ∨ b ∈ s.http.outbox := by
  rw [Net.queue, List.mem_append, List.mem_append, or_assoc]

theorem mem_pending_handleFrame {doc : RegistryDoc} {frame : Frame} {b : PendingBatch}
    (h : b ∈ (Net.handleFrame doc frame).1.pending) : b ∈ doc.pending := by
  rcases frame with frame | ⟨batch, seq⟩ | ⟨code, message⟩
  · rw [Net.handleFrame, (applyRows_spec doc frame).1] at h
    exact h
  · exact mem_pending_ackBatch h
  · exact h

theorem clock_handleFrame (doc : RegistryDoc) (frame : Frame) :
    (Net.handleFrame doc frame).1.clock = doc.clock := by
  rcases frame with frame | ⟨batch, seq⟩ | ⟨code, message⟩
  · rw [Net.handleFrame, (applyRows_spec doc frame).1]
  · rw [Net.handleFrame, ackBatch_fst]
  · rfl

theorem deviceId_handleFrame (doc : RegistryDoc) (frame : Frame) :
    (Net.handleFrame doc frame).1.deviceId = doc.deviceId := by
  rcases frame with frame | ⟨batch, seq⟩ | ⟨code, message⟩
  · rw [Net.handleFrame, (applyRows_spec doc frame).1]
  · rw [Net.handleFrame, ackBatch_fst]
  · rfl

/-- What a step adds to the queue: batches of its ops, under new names. -/
structure Adds (s s' : Net) (ops : List RowOp) (batches : List PendingBatch) : Prop where
  ops : ∀ b ∈ batches, ∀ op ∈ b.ops, op ∈ ops
  fresh : ∀ b ∈ batches, MintedBy s.doc.deviceId s'.doc.clock b.batch ∧
    ¬ MintedBy s.doc.deviceId s.doc.clock b.batch
  distinct : (batches.map (·.batch)).Nodup
  ticks : s.doc.clock.ticks ≤ s'.doc.clock.ticks
  device : s'.doc.deviceId = s.doc.deviceId
  queue : ∀ b ∈ s'.queue, (∃ b₀ ∈ s.queue, b₀.Copies b) ∨ b ∈ batches

theorem adds_of_enqueued {s s' : Net} {doc : RegistryDoc} {batches : List PendingBatch}
    {ops : List RowOp} (h : Enqueued doc s'.doc batches ops)
    (hpending : doc.pending = s.doc.pending) (hdevice : doc.deviceId = s.doc.deviceId)
    (hclock : s.doc.clock.ticks ≤ doc.clock.ticks) (hlink : s'.link.outbox ⊆ s.link.outbox)
    (hhttp : s'.http.outbox ⊆ s.http.outbox) : Adds s s' ops batches := by
  refine ⟨fun b hb op hop => ?_, fun b hb => ?_, h.distinct, hclock.trans h.ticks, ?_,
    fun b hb => ?_⟩
  · rw [← h.ops]
    exact List.mem_flatMap.mpr ⟨b, hb, hop⟩
  · rw [← hdevice]
    exact ⟨(h.fresh b hb).1, fun hm => (h.fresh b hb).2 (hm.mono hclock)⟩
  · rw [h.frame]
    exact hdevice
  · rcases mem_queue.mp hb with hb | hb | hb
    · refine (h.mem hb).imp_left fun hb => ⟨b, ?_, .refl b⟩
      rw [hpending] at hb
      exact mem_queue.mpr (Or.inl hb)
    · exact Or.inl ⟨b, mem_queue.mpr (Or.inr (Or.inl (hlink hb))), .refl b⟩
    · exact Or.inl ⟨b, mem_queue.mpr (Or.inr (Or.inr (hhttp hb))), .refl b⟩

theorem adds_nothing {s s' : Net} {ops : List RowOp} (hclock : s'.doc.clock = s.doc.clock)
    (hdevice : s'.doc.deviceId = s.doc.deviceId)
    (hpending : ∀ b ∈ s'.doc.pending, ∃ b₀ ∈ s.queue, b₀.Copies b)
    (hlink : ∀ b ∈ s'.link.outbox, ∃ b₀ ∈ s.queue, b₀.Copies b)
    (hhttp : ∀ b ∈ s'.http.outbox, ∃ b₀ ∈ s.queue, b₀.Copies b) : Adds s s' ops [] := by
  refine ⟨by simp, by simp, by simp, by rw [hclock], hdevice, fun b hb => Or.inl ?_⟩
  rcases mem_queue.mp hb with hb | hb | hb
  · exact hpending b hb
  · exact hlink b hb
  · exact hhttp b hb

/-- **A queued batch was queued before the step, or holds ops that it enqueued.** -/
theorem queue_step {s s' : Net} {a : Act} (h : Step s a s') :
    ∃ batches, Adds s s' (s.enqueued a) batches := by
  have hpending : ∀ b ∈ s.doc.pending, ∃ b₀ ∈ s.queue, b₀.Copies b :=
    fun b hb => ⟨b, mem_queue.mpr (Or.inl hb), .refl b⟩
  have hlink : ∀ b ∈ s.link.outbox, ∃ b₀ ∈ s.queue, b₀.Copies b :=
    fun b hb => ⟨b, mem_queue.mpr (Or.inr (Or.inl hb)), .refl b⟩
  have hhttp : ∀ b ∈ s.http.outbox, ∃ b₀ ∈ s.queue, b₀.Copies b :=
    fun b hb => ⟨b, mem_queue.mpr (Or.inr (Or.inr hb)), .refl b⟩
  have hcopy : ∀ {b : PendingBatch}, (∃ b₀ ∈ s.doc.pending, b₀.Copies b) →
      ∃ b₀ ∈ s.queue, b₀.Copies b :=
    fun ⟨b₀, hb₀, hc⟩ => ⟨b₀, mem_queue.mpr (Or.inl hb₀), hc⟩
  have hnone : ∀ b ∈ ([] : List PendingBatch), ∃ b₀ ∈ s.queue, b₀.Copies b := by simp
  cases h with
  | enqueue hclock =>
    obtain ⟨batches, henq⟩ := enqueueOps_spec { s.doc with clock := _ } _ _
    exact ⟨batches, adds_of_enqueued henq rfl rfl hclock (List.Subset.refl _) (List.Subset.refl _)⟩
  | recvState hl =>
    obtain ⟨batches, happ⟩ := applyState_spec s.doc _ _
    simp only [Net.enqueued, Net.applied, hl]
    exact ⟨batches, adds_of_enqueued happ.seeds rfl rfl le_rfl (List.nil_subset _)
      (List.Subset.refl _)⟩
  | httpApply hh =>
    obtain ⟨batches, happ⟩ := applyState_spec s.doc _ _
    simp only [Net.enqueued, Net.applied, hh]
    exact ⟨batches, adds_of_enqueued happ.seeds rfl rfl le_rfl (List.Subset.refl _)
      (List.nil_subset _)⟩
  | hostNudge => exact ⟨[], adds_nothing rfl rfl hpending hlink hhttp⟩
  | alarm => exact ⟨[], adds_nothing rfl rfl hpending hlink hhttp⟩
  | peerPush =>
    refine ⟨[], adds_nothing rfl rfl hpending ?_ hhttp⟩
    rw [Net.push, outbox_broadcast]
    exact hlink
  | dial => exact ⟨[], adds_nothing rfl rfl hpending hnone hhttp⟩
  | serveHello => exact ⟨[], adds_nothing rfl rfl hpending hnone hhttp⟩
  | takeNudge hl =>
    rw [hl] at hlink
    exact ⟨[], adds_nothing rfl rfl hpending hlink hhttp⟩
  | pushPending hl =>
    rw [hl] at hlink
    refine ⟨[], adds_nothing rfl rfl (fun b hb => hcopy (mem_pending_takePushable hb))
      (fun b hb => ?_) hhttp⟩
    exact (List.mem_append.mp hb).elim (hlink b) fun hb => hcopy (mem_takePushable hb)
  | servePush hl =>
    rw [hl] at hlink
    refine ⟨[], adds_nothing rfl rfl hpending ?_ hhttp⟩
    rw [outbox_send, Net.push, outbox_broadcast]
    exact fun b hb => hlink b (List.mem_cons_of_mem _ hb)
  | recvFrame hl =>
    rw [hl] at hlink
    exact ⟨[], adds_nothing (clock_handleFrame _ _) (deviceId_handleFrame _ _)
      (fun b hb => hpending b (mem_pending_handleFrame hb)) hlink hhttp⟩
  | recvGap =>
    exact ⟨[], adds_nothing (clock_handleFrame _ _) (deviceId_handleFrame _ _)
      (fun b hb => hpending b (mem_pending_handleFrame hb)) hnone hhttp⟩
  | drop => exact ⟨[], adds_nothing rfl rfl hpending hnone hhttp⟩
  | markDown =>
    exact ⟨[], adds_nothing rfl rfl (fun b hb => hcopy (mem_pending_markDisconnected hb)) hnone
      hhttp⟩
  | httpSpawn => exact ⟨[], adds_nothing rfl rfl hpending hlink hnone⟩
  | httpTake =>
    exact ⟨[], adds_nothing rfl rfl (fun b hb => hcopy (mem_pending_takePushable hb)) hlink
      (fun b hb => hcopy (mem_takePushable hb))⟩
  | httpServe hh =>
    rw [hh] at hhttp
    refine ⟨[], adds_nothing rfl rfl hpending ?_ (fun b hb => hhttp b (List.mem_cons_of_mem _ hb))⟩
    change ∀ b ∈ (s.link.broadcast _).outbox, _
    rw [outbox_broadcast]
    exact hlink
  | httpAck hh =>
    rw [hh] at hhttp
    exact ⟨[], adds_nothing (by rw [ackBatch_fst]) (by rw [ackBatch_fst])
      (fun b hb => hpending b (mem_pending_ackBatch hb)) hlink hhttp⟩
  | httpFail =>
    exact ⟨[], adds_nothing rfl rfl (fun b hb => hcopy (mem_pending_markDisconnected hb)) hlink
      hnone⟩
  | httpPull => exact ⟨[], adds_nothing rfl rfl hpending hlink hnone⟩
  | httpAnswer => exact ⟨[], adds_nothing rfl rfl hpending hlink hnone⟩
  | httpPullFail => exact ⟨[], adds_nothing rfl rfl hpending hlink hnone⟩

theorem keyed_handleFrame {doc : RegistryDoc} (h : doc.Keyed) (frame : Frame) :
    (Net.handleFrame doc frame).1.Keyed := by
  rcases frame with frame | ⟨batch, seq⟩ | ⟨code, message⟩
  · exact keyed_applyRows h frame
  · rw [Net.handleFrame, RegistryDoc.Keyed, row_ackBatch]
    exact h
  · exact h

/-- **The replica's rows stay under their keys.** -/
theorem keyed_step {s s' : Net} {a : Act} (h : Step s a s') (hk : s.doc.Keyed) :
    s'.doc.Keyed := by
  cases h with
  | enqueue =>
    rw [RegistryDoc.Keyed, row_enqueueOps]
    exact hk
  | recvState => exact keyed_applyState hk _ _
  | httpApply => exact keyed_applyState hk _ _
  | recvFrame => exact keyed_handleFrame hk _
  | recvGap => exact keyed_handleFrame hk _
  | httpAck =>
    rw [RegistryDoc.Keyed, row_ackBatch]
    exact hk
  | _ => exact hk

end Zeron.Registry
