import Zeron.Session.Tidy

/-!
# The queue of a hosted chat

Delivery, editing and cancelling of queued messages (`crates/engine/src/doc_host.rs`). Every call
that takes from the queue, removes a row or touches an edit lease runs under the `drain_lock` of the
chat; queueing, retyping, moving, and the flag a successful command clears, do not.

* `Section`: a call that holds the lock, and how far it has come; `Section.step`: its next step, with
  what it does to the host and where it goes, or what it answers;
* `Host`, `Host.apply`: the document, its durable copy, the pause flag and the armed wakes;
* `World`, `World.step`: the calls, the edits beside them, the saves and the restarts.

A document method is one step, and a call is cut between them. What the clock, the store and the
sessions engine answer is a parameter of the step.
-/

namespace Zeron.Session

/-- The generation a gate belongs to: its lease, or the one that expired into it. -/
def QueueDeliveryGate.lease : QueueDeliveryGate → String
  | .editing lease _ _ _ _ _ => lease
  | .reviewRequired lease _ _ _ => lease

def QueueDeliveryGate.baseTextHash : QueueDeliveryGate → String
  | .editing _ _ _ _ _ hash => hash
  | .reviewRequired _ _ _ hash => hash

end Zeron.Session

namespace Zeron.Delivery

open Session

/-- `QUEUE_EDIT_LEASE_MS`. -/
def queueEditLeaseMs : ℤ := 60000

/-- Who hands a row to the agent. -/
inductive Road where
  | drain
  | sendNow
  | steerNow
  deriving DecidableEq, Repr

inductive FinishQueueEditAction where
  | commit
  | cancel
  | discard
  | releaseUnchanged
  deriving DecidableEq, Repr

/-- A scheduled call of `expire_queued_message_edit`. -/
structure Timer where
  id : String
  leaseId : String
  expiresAtMs : ℤ
  deriving DecidableEq, Repr

/-- What happened, in order. -/
inductive Event where
  /-- The handle was opened; `recovered` if it found rows. -/
  | opened (recovered : Bool)
  | queued (id text : String) (attachments : List String)
  | retyped (id text : String)
  /-- An edit was resolved, with what it replaces. -/
  | resolved (id : String) (text : Option String) (attachments : Option (List String))
  | removed (id : String)
  /-- The gate of a new lease was written, over this text. -/
  | granted (id lease text : String)
  /-- The client was told `Acquired`. -/
  | acquired (id lease : String)
  | ended (id lease : String)
  | taken (id : String) (road : Road)
  /-- The agent has the message. -/
  | handed (id : String) (road : Road)
  /-- `dispatch_queued` returned. -/
  | accepted (id : String) (road : Road)
  /-- `interrupt_and_pause_queue` stopped a turn. -/
  | interrupted
  /-- The prompt of a Run or Steer command was accepted. -/
  | sent
  deriving DecidableEq, Repr

structure Host where
  deviceId : String
  /-- `queue_text_hash`. -/
  queueTextHash : String → String
  doc : Queue
  /-- The document as a restart finds it. -/
  saved : Queue
  nextCid : ℕ
  queuePaused : Bool
  timers : List Timer
  /-- The ids in use, of rows and of leases: a minted id is none of them. -/
  known : Finset String
  log : List Event

/-- How a call into the sessions engine ends. -/
inductive Reply where
  | accepted
  /-- The mailbox took the message, and what came after failed. -/
  | halfway (error : String)
  | notSteerable
  | noRun
  | noConfig
  | failed (error : String)
  deriving DecidableEq, Repr

/-- What a step learns from outside the host. -/
structure Answer where
  nowMs : ℤ
  newId : String
  /-- The snapshot is written. -/
  saved : Bool
  /-- The sessions engine is wired. -/
  wired : Bool
  steersMidTurn : Bool
  turnInFlight : Bool
  reply : Reply
  deriving DecidableEq, Repr

/-- What a call answers. -/
inductive Outcome where
  | done (changed : Bool)
  | error (message : String)
  | missing
  | locked (ownerDeviceId : String) (expiresAtMs : ℤ)
  | acquired (leaseId text : String) (attachments : List String) (baseTextHash : String)
      (expiresAtMs : ℤ)
  | renewed (expiresAtMs : ℤ)
  | lost
  | finished (action : FinishQueueEditAction)
  | conflict (currentText : String)
  deriving DecidableEq, Repr

/-! ## What a step does to the host -/

inductive Effect where
  | none
  | remove (id : String)
  /-- The gate of a new lease. -/
  | grant (id lease : String) (text : String) (gate : QueueDeliveryGate)
  /-- The gate of the lease that is there: renewed, or expired. -/
  | regate (id : String) (gate : QueueDeliveryGate)
  | finish (id lease : String) (replacement : Option String) (attachments : Option (List String))
      (nowMs : ℤ)
  | acquire (t : Timer)
  | arm (t : Timer)
  | save (ok : Bool)
  | take (id : String) (road : Road)
  | pause (paused : Bool)
  | hand (id : String) (road : Road)
  | accept (id : String) (road : Road)
  | putBack (m : QueuedMessage)
  | interrupted

namespace Host

def note (h : Host) (e : Event) : Host := { h with log := h.log ++ [e] }

/-- `push_queued`; nothing where it refuses the row. -/
def push (h : Host) (m : QueuedMessage) : Host :=
  match pushQueued h.doc h.nextCid m with
  | .ok doc =>
    { h with
      doc
      nextCid := h.nextCid + 1
      known := insert m.id h.known
      log := h.log ++ [.queued m.id m.text m.attachments] }
  | .error _ => h

/-- `update_queued_message`. -/
def retype (h : Host) (id text : String) (nowMs : ℤ) : Host :=
  match setQueuedText h.doc id text nowMs with
  | (true, doc) =>
    { h with doc, log := h.log ++ [if isBlank text then .removed id else .retyped id text] }
  | (false, _) => h

def apply (h : Host) : Effect → Host
  | .none => h
  | .remove id =>
    match removeQueued h.doc id with
    | (true, doc) => { h with doc, log := h.log ++ [.removed id] }
    | (false, _) => h
  | .grant id lease text gate =>
    match setQueuedDeliveryGate h.doc id (some gate) with
    | (true, doc) =>
      { h with doc, known := insert lease h.known, log := h.log ++ [.granted id lease text] }
    | (false, _) => h
  | .regate id gate => { h with doc := (setQueuedDeliveryGate h.doc id (some gate)).2 }
  | .finish id lease replacement attachments nowMs =>
    match finishQueuedEdit h.doc id replacement attachments nowMs with
    | (true, doc) =>
      { h with
        doc
        log := h.log ++ [.ended id lease] ++
          [if replacement.any isBlank then .removed id else .resolved id replacement attachments] }
    | (false, _) => h
  | .acquire t => { h with timers := t :: h.timers, log := h.log ++ [.acquired t.id t.leaseId] }
  | .arm t => { h with timers := t :: h.timers }
  | .save ok => if ok then { h with saved := h.doc } else h
  | .take id road =>
    match takeQueued h.doc id with
    | (some _, doc) => { h with doc, log := h.log ++ [.taken id road] }
    | (none, _) => h
  | .pause paused => { h with queuePaused := paused }
  | .hand id road => h.note (.handed id road)
  | .accept id road => h.note (.accepted id road)
  | .putBack m =>
    match insertQueued h.doc h.nextCid 0 m with
    | .ok doc => { h with doc, nextCid := h.nextCid + 1 }
    | .error _ => h
  | .interrupted => h.note .interrupted

end Host

/-! ## The calls under the lock -/

inductive Section where
  /-- `remove_queued_message`. -/
  | remove (id : String)
  /-- `begin_queued_message_edit`: before the row is read, before the gate is written, before the
  snapshot, before the answer. -/
  | begin (id ownerDeviceId ownerInstanceId : String)
  | grant (item : QueuedMessage) (lease : String) (gate : QueueDeliveryGate) (expiresAtMs : ℤ)
  | keep (item : QueuedMessage) (lease hash : String) (expiresAtMs : ℤ)
  | acquired (item : QueuedMessage) (lease hash : String) (expiresAtMs : ℤ)
  /-- `renew_queued_message_edit`. -/
  | renew (id lease : String)
  | extend (id lease : String) (gate : QueueDeliveryGate) (expiresAtMs : ℤ)
  | extended (t : Timer)
  /-- `finish_queued_message_edit_with_attachments`. -/
  | finish (id lease : String) (action : FinishQueueEditAction)
      (text expectedTextHash : Option String) (attachments : Option (List String))
  | resolve (id lease : String) (action : FinishQueueEditAction) (replacement : Option String)
      (attachments : Option (List String))
  /-- `expire_queued_message_edit`. -/
  | expire (t : Timer)
  /-- An expired lease becomes a review; then the snapshot is saved. -/
  | lapse (id : String) (review : QueueDeliveryGate) (outcome : Outcome)
  | saving (outcome : Outcome)
  /-- `drain_queue`: before the flag, before the head is read, before the turn is looked at. -/
  | drain
  | head
  | check (id : String)
  | sendNow (id : String)
  | steerNow (id : String)
  | take (id : String) (road : Road)
  /-- The flag is swapped for `false`. -/
  | thaw (m : QueuedMessage) (road : Road)
  /-- `dispatch_queued`; `was` is the flag as it was swapped out. -/
  | steer (m : QueuedMessage) (was : Bool)
  | interrupt (m : QueuedMessage) (was : Bool)
  | start (m : QueuedMessage) (road : Road) (was : Bool)
  | sent (m : QueuedMessage) (road : Road) (was : Bool)
  | fail (m : QueuedMessage) (road : Road) (was : Bool) (error : String)
  | putBack (m : QueuedMessage) (road : Road) (error : String)
  /-- `interrupt_and_pause_queue`. -/
  | cancel
  | cancelPause
  | cancelRun
  | cancelUndo (outcome : Outcome)
  deriving DecidableEq

/-- The calls that take the lock. -/
def Section.entry : Section → Bool
  | .remove _ | .begin _ _ _ | .renew _ _ | .finish _ _ _ _ _ _ | .drain | .sendNow _ | .steerNow _
  | .cancel => true
  | _ => false

/-- The review an expired lease becomes. -/
def review (lease ownerDeviceId : String) (sinceMs : ℤ) (baseTextHash : String) :
    QueueDeliveryGate := .reviewRequired lease ownerDeviceId sinceMs baseTextHash

/-- The failures of `sessions.steer` and of the dispatch of a fresh turn. -/
def Reply.error : Reply → String
  | .failed error | .halfway error => error
  | .noConfig => "no live run and no prior run config"
  | _ => ""

namespace Section

/-- Where a row goes once it is taken. -/
def dispatch (m : QueuedMessage) : Road → Section
  | .drain => .start m .drain false
  | road => .thaw m road

/-- The next step of a call. -/
def step (h : Host) (a : Answer) : Section → Effect × (Section ⊕ Outcome)
  | .remove id => (.remove id, .inr (.done (removeQueued h.doc id).1))
  | .begin id ownerDeviceId ownerInstanceId =>
    match rowAt h.doc id with
    | none => (.none, .inr .missing)
    | some item =>
      let gate := .editing a.newId ownerDeviceId ownerInstanceId a.nowMs (a.nowMs + queueEditLeaseMs)
        (h.queueTextHash item.text)
      let next := .grant item a.newId gate (a.nowMs + queueEditLeaseMs)
      match item.deliveryGate with
      | some (.editing _ owner _ _ expiresAtMs _) =>
        if expiresAtMs > a.nowMs then (.none, .inr (.locked owner expiresAtMs))
        else (.none, .inl next)
      | _ => (.none, .inl next)
  | .grant item lease gate expiresAtMs =>
    if (setQueuedDeliveryGate h.doc item.id (some gate)).1 then
      (.grant item.id lease item.text gate, .inl (.keep item lease gate.baseTextHash expiresAtMs))
    else (.none, .inr .missing)
  | .keep item lease hash expiresAtMs => (.save a.saved, .inl (.acquired item lease hash expiresAtMs))
  | .acquired item lease hash expiresAtMs =>
    (.acquire ⟨item.id, lease, expiresAtMs⟩,
      .inr (.acquired lease item.text item.attachments hash expiresAtMs))
  | .renew id lease =>
    match rowAt h.doc id with
    | none => (.none, .inr .missing)
    | some item =>
      match item.deliveryGate with
      | some (.editing current owner inst acquiredAtMs expiresAtMs hash) =>
        if current ≠ lease then (.none, .inr .lost)
        else if expiresAtMs ≤ a.nowMs then
          (.none, .inl (.lapse id (review current owner a.nowMs hash) .lost))
        else
          (.none, .inl (.extend id lease (.editing current owner inst acquiredAtMs
            (a.nowMs + queueEditLeaseMs) hash) (a.nowMs + queueEditLeaseMs)))
      | _ => (.none, .inr .lost)
  | .extend id lease gate expiresAtMs =>
    if (setQueuedDeliveryGate h.doc id (some gate)).1 then
      (.regate id gate, .inl (.extended ⟨id, lease, expiresAtMs⟩))
    else (.none, .inr .missing)
  | .extended t => (.arm t, .inr (.renewed t.expiresAtMs))
  | .finish id lease action text expectedTextHash attachments =>
    if action = .commit ∧ (text = none ∨ expectedTextHash = none) then
      (.none, .inr (.error "commit requires text and expectedTextHash"))
    else
      match rowAt h.doc id with
      | none => (.none, .inr .missing)
      | some item =>
        match item.deliveryGate with
        | none => (.none, .inr .lost)
        | some gate =>
          if gate.lease ≠ lease then (.none, .inr .lost)
          else if action = .commit ∧ (expectedTextHash ≠ some gate.baseTextHash ∨
              h.queueTextHash item.text ≠ gate.baseTextHash) then
            (.none, .inr (.conflict item.text))
          else
            match action with
            | .commit => (.none, .inl (.resolve id lease action (some (text.getD "")) attachments))
            | .discard => (.none, .inl (.resolve id lease action (some "") none))
            | .cancel | .releaseUnchanged => (.none, .inl (.resolve id lease action none none))
  | .resolve id lease action replacement attachments =>
    if (finishQueuedEdit h.doc id replacement attachments a.nowMs).1 then
      (.finish id lease replacement attachments a.nowMs, .inl (.saving (.finished action)))
    else (.none, .inr .missing)
  | .expire t =>
    match (rowAt h.doc t.id).bind (·.deliveryGate) with
    | some (.editing current owner _ _ expiresAtMs hash) =>
      if current ≠ t.leaseId ∨ expiresAtMs ≠ t.expiresAtMs ∨ expiresAtMs > a.nowMs then
        (.none, .inr (.done false))
      else (.none, .inl (.lapse t.id (review current owner a.nowMs hash) (.done true)))
    | _ => (.none, .inr (.done false))
  | .lapse id review outcome => (.regate id review, .inl (.saving outcome))
  | .saving outcome => (.save a.saved, .inr outcome)
  | .drain =>
    if !a.wired || h.queuePaused then (.none, .inr (.done false)) else (.none, .inl .head)
  | .head =>
    match (readQueue h.doc).head? with
    | none => (.none, .inr (.done true))
    | some row =>
      match row.deliveryGate with
      | some (.editing lease owner _ _ expiresAtMs hash) =>
        if expiresAtMs ≤ a.nowMs then
          (.none, .inl (.lapse row.id (review lease owner a.nowMs hash) (.done true)))
        else (.arm ⟨row.id, lease, expiresAtMs⟩, .inr (.done true))
      | some (.reviewRequired _ _ _ _) => (.none, .inr (.done true))
      | none => (.none, .inl (.check row.id))
  | .check id =>
    if a.turnInFlight then (.none, .inr (.done true)) else (.none, .inl (.take id .drain))
  | .sendNow id =>
    match rowAt h.doc id with
    | none => (.none, .inr (.done false))
    | some candidate =>
      if candidate.deliveryGate.isSome then
        (.none, .inr (.error "queued message is blocked for editing or review"))
      else (.none, .inl (.take id .sendNow))
  | .steerNow id =>
    if !a.wired then (.none, .inr (.error "sessions engine not wired"))
    else if !a.steersMidTurn then
      (.none, .inr (.error "the selected agent cannot accept mid-turn steering"))
    else
      match rowAt h.doc id with
      | none => (.none, .inr (.done false))
      | some candidate =>
        if candidate.attachments ≠ [] then
          (.none, .inr (.error "messages with attachments cannot be steered mid-turn"))
        else if candidate.deliveryGate.isSome then
          (.none, .inr (.error "queued message is blocked for editing or review"))
        else (.none, .inl (.take id .steerNow))
  | .take id road =>
    match (takeQueued h.doc id).1 with
    | none => (.none, .inr (.done false))
    | some m => (.take id road, .inl (dispatch m road))
  | .thaw m road =>
    (.pause false, .inl (match road with
      | .steerNow => .steer m h.queuePaused
      | _ => .interrupt m h.queuePaused))
  | .steer m was =>
    if !a.wired then (.none, .inl (.fail m .steerNow was "sessions engine not wired"))
    else match a.reply with
      | .accepted => (.hand m.id .steerNow, .inl (.sent m .steerNow was))
      | .halfway error => (.hand m.id .steerNow, .inl (.fail m .steerNow was error))
      | .notSteerable => (.none, .inl (.start m .steerNow was))
      | reply => (.none, .inl (.fail m .steerNow was reply.error))
  | .interrupt m was =>
    if !a.wired then (.none, .inl (.fail m .sendNow was "sessions engine not wired"))
    else match a.turnInFlight, a.reply with
      | true, .failed error => (.none, .inl (.fail m .sendNow was error))
      | _, _ => (.none, .inl (.start m .sendNow was))
  | .start m road was =>
    if road = .drain ∧ a.wired = false then
      (.none, .inl (.fail m road was "sessions engine not wired"))
    else match a.reply with
      | .accepted => (.hand m.id road, .inl (.sent m road was))
      | .halfway error => (.hand m.id road, .inl (.fail m road was error))
      | reply => (.none, .inl (.fail m road was reply.error))
  | .sent m road _ =>
    (.accept m.id road, match road with
      | .drain => .inl .head
      | _ => .inr (.done true))
  | .fail m road was error =>
    (match road with
      | .drain => .pause true
      | _ => if was then .pause true else .none, .inl (.putBack m road error))
  | .putBack m road error =>
    (.putBack m, .inr (match road with
      | .drain => .done true
      | _ => .error error))
  | .cancel => if a.turnInFlight then (.none, .inl .cancelPause) else (.none, .inr (.done false))
  | .cancelPause => (.pause true, .inl .cancelRun)
  | .cancelRun =>
    match a.reply with
    | .accepted => (.interrupted, .inr (.done true))
    | .failed error => (.none, .inl (.cancelUndo (.error error)))
    | _ => (.none, .inl (.cancelUndo (.done false)))
  | .cancelUndo outcome => (.pause false, .inr outcome)

end Section

/-! ## The host and its calls -/

structure World where
  host : Host
  /-- The call that holds the lock. -/
  holder : Option Section
  /-- The commands whose prompt was accepted and that have not cleared the flag yet. -/
  thaws : ℕ

inductive Act where
  | queueMessage (id text : String) (attachments : List String) (holdForTurnEnd : Bool) (nowMs : ℤ)
  /-- `held_until_turn_end` queues the prompt of a Steer command under its message id. -/
  | holdSteer (messageId prompt : String) (nowMs : ℤ)
  | updateText (id text : String) (nowMs : ℤ)
  | move (id : String) (target : ℕ)
  /-- A call takes the lock. -/
  | call (s : Section)
  | fire (t : Timer)
  /-- The call that holds the lock goes on. -/
  | turn (a : Answer)
  /-- A Run or Steer command is accepted; then it clears the flag. -/
  | sent
  | thaw
  | pauseAll
  | save
  | restart
  deriving DecidableEq

/-- The wakes of the leases a queue holds. -/
def armed (D : Queue) : List Timer :=
  (readQueue D).filterMap fun m =>
    match m.deliveryGate with
    | some (.editing lease _ _ _ expiresAtMs _) => some ⟨m.id, lease, expiresAtMs⟩
    | _ => none

/-- A minted id is fresh. -/
def Effect.Fresh (h : Host) : Effect → Prop
  | .grant _ lease _ _ => lease ∉ h.known
  | _ => True

instance (h : Host) (e : Effect) : Decidable (e.Fresh h) := by
  cases e <;> unfold Effect.Fresh <;> infer_instance

/-- The row of a message as this device queues it. -/
def Host.newRow (h : Host) (id text : String) (attachments : List String) (holdForTurnEnd : Bool)
    (nowMs : ℤ) : QueuedMessage where
  id := id
  text := text
  attachments := attachments
  holdForTurnEnd := holdForTurnEnd
  issuedBy := h.deviceId
  issuedAt := nowMs
  editedAt := none
  deliveryGate := none

/-- The handle of a chat, opened over what is durable. -/
def Host.reopen (h : Host) : Host :=
  let recovered := !(readQueue h.saved).isEmpty
  { h with
    doc := h.saved
    queuePaused := recovered
    timers := armed h.saved
    log := h.log ++ [.opened recovered] }

namespace World

/-- The host starts over a durable document. -/
def boot (deviceId : String) (queueTextHash : String → String) (saved : Queue) : World where
  host := Host.reopen {
    deviceId, queueTextHash, saved
    doc := []
    nextCid := (cids saved).foldr max 0 + 1
    queuePaused := false
    timers := []
    known := ((readQueue saved).map (·.id) ++
      (readQueue saved).filterMap (·.deliveryGate.map (·.lease))).toFinset
    log := [] }
  holder := none
  thaws := 0

/-- The world after the call that holds the lock has gone on. -/
def turned (w : World) (s : Section) (a : Answer) : World :=
  { w with
    host := w.host.apply (s.step w.host a).1
    holder := (s.step w.host a).2.getLeft? }

def step (w : World) : Act → Option World
  | .queueMessage id text attachments holdForTurnEnd nowMs =>
    if trim id = id ∧ id ∉ w.host.known then
      some { w with host := w.host.push (w.host.newRow id text attachments holdForTurnEnd nowMs) }
    else none
  | .holdSteer messageId prompt nowMs =>
    some { w with host := w.host.push (w.host.newRow messageId prompt [] false nowMs) }
  | .updateText id text nowMs => some { w with host := w.host.retype id text nowMs }
  | .move id target => some { w with host.doc := (moveQueued w.host.doc id target).2 }
  | .call s => if w.holder = none ∧ s.entry = true then some { w with holder := some s } else none
  | .fire t =>
    if w.holder = none ∧ t ∈ w.host.timers then
      some { w with holder := some (.expire t), host.timers := w.host.timers.erase t }
    else none
  | .turn a =>
    match w.holder with
    | some s => if (s.step w.host a).1.Fresh w.host then some (w.turned s a) else none
    | none => none
  | .sent => some { w with host := w.host.note .sent, thaws := w.thaws + 1 }
  | .thaw =>
    if w.thaws = 0 then none
    else some { w with host.queuePaused := false, thaws := w.thaws - 1 }
  | .pauseAll => some { w with host.queuePaused := true }
  | .save => some { w with host.saved := w.host.doc }
  | .restart => some { host := w.host.reopen, holder := none, thaws := 0 }

end World

end Zeron.Delivery
