import Zeron.Chat.Outbox

/-!
# Publishing local updates

What a device does with the updates of its document (`engine/src/doc_host.rs`), from the callback
that writes them to the store to the answers of the room and the checkpoints that cover what the
room refused: the callback, the buffer before the join, the client, a socket session and an HTTPS
cycle that run side by side, a leave and a restart. Every await is a point where the others go on.

* `Host`: the device; `History`: what happened to it;
* `Act`, `step`: the source, an await at a time.
-/

namespace Zeron.Chat

/-- A device, for one chat. -/
structure Host where
  outbox : Outbox
  /-- What the client's tasks share, while there is a client. -/
  client : Option Shared
  /-- The join is taking the buffer over; it holds the client's lock. -/
  installing : Bool
  /-- The callback finds the client. -/
  joined : Bool
  /-- The update the callback has written and not yet handed on. -/
  handing : Option (String × Bytes)
  /-- `chat2_pending_local`. -/
  buffer : List (String × Bytes)
  inFlight : List String
  /-- What the loop of `push_pending` has still to send. -/
  socket : List PendingPush
  /-- What the loop of the HTTPS cycle has still to send. -/
  https : List PendingPush
  /-- The request of the HTTPS cycle that waits for its answer. -/
  posted : Option String
  /-- The rejected batches that the checkpoint being posted contains. -/
  checkpoint : Option (List String)
  deriving DecidableEq

/-- What happened so far. -/
structure History where
  /-- Every batch there was. -/
  enqueued : List (String × Bytes)
  /-- The batches that were written to the store. -/
  persisted : List String
  /-- The batches this process took up: its own, and what its client found in the store. -/
  kept : List String
  sent : List String
  /-- What the room took. -/
  accepted : List String
  /-- What a posted checkpoint covers. -/
  checkpointed : List String
  /-- The client's queue in the order it was filled. -/
  arrivals : List String
  /-- What `push_pending` sent on this socket. -/
  socketSent : List String
  /-- What this HTTPS cycle sent. -/
  httpsSent : List String
  deriving DecidableEq

structure System extends Host, History
  deriving DecidableEq

inductive Act where
  /-- The callback writes an update. -/
  | commit (batchId : String) (bytes : Bytes) (stored : Bool)
  /-- The callback hands it to the client or the buffer. -/
  | handOver (stored rejected : Bool)
  /-- `initialize_chat_outbox` writes an update of the whole history. -/
  | initOutbox (batchId : String) (bytes : Bytes)
  | connect (cursor : ℕ)
  /-- The join takes the client's lock. -/
  | install
  /-- The join hands the client an update of the buffer, or is done. -/
  | drain (stored rejected : Bool)
  /-- The client is dropped. -/
  | leave
  | restart
  /-- A socket session begins. -/
  | dial
  | pushPending
  | pushNext (stored sends : Bool)
  | pushHead (stored sends : Bool)
  | ack (stored : Bool) (batchId : String) (seq : ℕ)
  | error (stored : Bool) (code batchId : String)
  /-- An HTTPS cycle begins. -/
  | cycle
  | post (stored : Bool)
  | postOk (stored : Bool) (seq : ℕ)
  | postFailed
  /-- The room takes a batch that was sent. -/
  | take (batchId : String)
  /-- A checkpoint is captured, with the rejected batches it contains. -/
  | capture (covers : String → Bool)
  /-- It is posted; `stored` says which of them the store forgets. -/
  | covered (stored : String → Bool)
  | uncovered

namespace System

def init : System :=
  { outbox := [], client := none, installing := false, joined := false, handing := none
    buffer := [], inFlight := [], socket := [], https := [], posted := none, checkpoint := none
    enqueued := [], persisted := [], kept := [], sent := [], accepted := [], checkpointed := []
    arrivals := [], socketSent := [], httpsSent := [] }

/-- The queue of pending batches. -/
def pending (s : System) : List PendingPush := (s.client.map (·.pending)).getD []

/-- The ids that are new in a list. -/
def added (old new : List String) : List String := new.filter fun id => !old.contains id

/-- The client and its store after some of the client's work. -/
def put (s : System) (c : Client) : System :=
  { s with
      client := some c.shared
      outbox := c.outbox
      persisted := s.persisted ++
        added (s.outbox.map (·.batchId)) (c.outbox.map (·.batchId))
      arrivals := s.arrivals ++
        added (s.pending.map (·.batchId)) (c.shared.pending.map (·.batchId)) }

/-- Let the client do something, if there is one. -/
def withClient (s : System) (f : Client → Client) : System :=
  match s.client with
  | none => s
  | some shared => s.put (f { shared, outbox := s.outbox })

/-- The callback's write. -/
def write (s : System) (stored : Bool) (batchId : String) (bytes : Bytes) : System :=
  if stored then
    { s with
        outbox := s.outbox.enqueueChatUpdate batchId bytes
        persisted := s.persisted ++ [batchId] }
  else s

/-- The socket session is over. -/
def hangUp (s : System) : System := { s with inFlight := [], socket := [], socketSent := [] }

/-- The client is dropped, with all its tasks. -/
def dropClient (s : System) : System :=
  { s with
      client := none, installing := false, joined := false, inFlight := [], socket := []
      https := [], posted := none
      kept := s.buffer.map Prod.fst ++ (s.handing.map Prod.fst).toList
      arrivals := [], socketSent := [], httpsSent := [] }

/-- A new batch gets an id that was not used before. -/
def Fresh (s : System) (batchId : String) : Prop := batchId ∉ s.enqueued.map Prod.fst

instance (s : System) (batchId : String) : Decidable (s.Fresh batchId) :=
  inferInstanceAs (Decidable (_ ∉ _))

/-- A turn of `push_pending`'s loop. -/
def pushTurn (s : System) (stored sends : Bool) (c : Client) (push : PendingPush)
    (rest : List PendingPush) : System :=
  match c.ensureDurable stored push with
  | (c, false) => (s.put c).hangUp
  | (c, true) =>
    if sends then
      { s.put c with
          socket := rest
          inFlight := push.batchId :: s.inFlight
          sent := s.sent ++ [push.batchId]
          socketSent := s.socketSent ++ [push.batchId] }
    else (s.put c).hangUp

/-- A tick of the retry clock. -/
def headTurn (s : System) (stored sends : Bool) (c : Client) : System :=
  match c.pushHead (fun _ => stored) (fun _ => sends) with
  | (c, some push, _) => { s.put c with sent := s.sent ++ [push.batchId] }
  | (c, none, true) => s.put c
  | (c, none, false) => (s.put c).hangUp

/-- A request of the HTTPS cycle. -/
def postTurn (s : System) (stored : Bool) (c : Client) (push : PendingPush)
    (rest : List PendingPush) : System :=
  match c.ensureDurable stored push with
  | (c, false) => { s.put c with https := [] }
  | (c, true) =>
    { s.put c with
        https := rest
        posted := some push.batchId
        sent := s.sent ++ [push.batchId]
        httpsSent := s.httpsSent ++ [push.batchId] }

/-- One step; an act that is not due changes nothing. -/
def step (s : System) : Act → System
  | .commit batchId bytes stored =>
    if s.handing = none ∧ s.Fresh batchId then
      { s.write stored batchId bytes with
          handing := some (batchId, bytes)
          enqueued := s.enqueued ++ [(batchId, bytes)]
          kept := s.kept ++ [batchId] }
    else s
  | .handOver stored rejected =>
    match s.handing with
    | none => s
    | some (batchId, bytes) =>
      if s.installing then s
      else if s.client.isSome ∧ s.joined then
        { s.withClient (·.enqueueBatch stored rejected batchId bytes) with handing := none }
      else { s with handing := none, buffer := s.buffer ++ [(batchId, bytes)] }
  | .initOutbox batchId bytes =>
    if s.client = none ∧ s.Fresh batchId then
      { s with
          outbox := s.outbox ++ [{ batchId, bytes, needsCheckpoint := false }]
          enqueued := s.enqueued ++ [(batchId, bytes)]
          persisted := s.persisted ++ [batchId] }
    else s
  | .connect cursor =>
    if s.client = none then
      let c := Client.connect s.outbox cursor
      { s with
          client := some c.shared
          outbox := c.outbox
          kept := s.kept ++ c.outbox.map (·.batchId)
          arrivals := c.shared.pending.map (·.batchId) }
    else s
  | .install => if s.client.isSome ∧ !s.joined then { s with installing := true } else s
  | .drain stored rejected =>
    if s.client.isSome ∧ s.installing then
      match s.buffer with
      | [] => { s with installing := false, joined := true }
      | (batchId, bytes) :: buffer =>
        { s.withClient (·.enqueueBatch stored rejected batchId bytes) with buffer }
    else s
  | .leave => s.dropClient
  | .restart => { s.dropClient with handing := none, buffer := [], checkpoint := none, kept := [] }
  | .dial => s.hangUp
  | .pushPending =>
    if s.socket = [] then
      match s.client with
      | none => s
      | some shared =>
        let inFlight := s.inFlight.filter fun id => shared.pending.any (·.batchId = id)
        if shared.quotaBlocked then { s with inFlight }
        else
          { s with
              inFlight
              socket := shared.pending.filter fun push => !inFlight.contains push.batchId }
    else s
  | .pushNext stored sends =>
    match s.client, s.socket with
    | some shared, push :: rest =>
      s.pushTurn stored sends { shared, outbox := s.outbox } push rest
    | _, _ => s
  | .pushHead stored sends =>
    match s.client with
    | none => s
    | some shared =>
      if s.socket = [] ∧ shared.retryAt then
        s.headTurn stored sends { shared, outbox := s.outbox }
      else s
  | .ack stored batchId seq =>
    if batchId ∈ s.accepted then s.withClient (·.handleAck stored batchId seq) else s
  | .error stored code batchId =>
    match s.client with
    | none => s
    | some shared =>
      if Client.permanent code ∧ batchId ∉ s.sent then s
      else
        match Client.handleError { shared, outbox := s.outbox } stored code batchId with
        | (c, true) => s.put c
        | (c, false) => (s.put c).hangUp
  | .cycle =>
    if s.https = [] ∧ s.posted = none then { s with https := s.pending, httpsSent := [] } else s
  | .post stored =>
    match s.client, s.posted, s.https with
    | some shared, none, push :: rest =>
      s.postTurn stored { shared, outbox := s.outbox } push rest
    | _, _, _ => s
  | .postOk stored seq =>
    match s.posted with
    | none => s
    | some batchId =>
      if batchId ∈ s.accepted then
        { s.withClient (·.httpAck stored batchId seq) with posted := none }
      else s
  | .postFailed => { s with https := [], posted := none }
  | .take batchId =>
    if batchId ∈ s.sent then { s with accepted := s.accepted ++ [batchId] } else s
  | .capture covers =>
    if s.checkpoint = none then
      { s with
          checkpoint := some ((s.outbox.rejectedChatUpdates.map Prod.fst).filter covers) }
    else s
  | .covered stored =>
    match s.checkpoint with
    | none => s
    | some ids =>
      { s with
          outbox := (ids.filter stored).foldl Outbox.acknowledgeChatUpdate s.outbox
          checkpointed := s.checkpointed ++ ids
          checkpoint := none }
  | .uncovered => { s with checkpoint := none }

/-- The system after a run. -/
def run (acts : List Act) : System := acts.foldl step init

end System

end Zeron.Chat
