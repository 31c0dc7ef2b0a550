import Zeron.Chat.Room

/-!
# The chat outbox

A client's side of its pushes: the table `chat_outbox` (`sync/src/store.rs`), the queue of pending
batches and what both transports do with it (`sync/src/chat_client.rs`), and what the engine's sink
makes of the table (`engine/src/chat2_host.rs`). A statement on the store may fail; whether it does
is an argument.

* `OutboxRow`, `Outbox`: the table and its statements;
* `PendingPush`, `Shared`, `Client`: the client, with the table it writes to;
* `enqueueBatch`, `ensureDurable`, `handleAck`, `handleError`, `pushPending`, `pushHead`,
  `httpCycle`: the source.
-/

namespace Zeron.Chat

/-! ## The store -/

/-- A row of `chat_outbox`. -/
structure OutboxRow where
  batchId : String
  bytes : Bytes
  needsCheckpoint : Bool
  deriving DecidableEq

/-- The rows of one chat, in the order of `ordinal`. -/
abbrev Outbox := List OutboxRow

namespace Outbox

/-- `enqueue_chat_update`. -/
def enqueueChatUpdate (outbox : Outbox) (batchId : String) (bytes : Bytes) : Outbox :=
  if outbox.any (·.batchId = batchId) then outbox
  else outbox ++ [{ batchId, bytes, needsCheckpoint := false }]

/-- `pending_chat_updates`. -/
def pendingChatUpdates (outbox : Outbox) : List (String × Bytes) :=
  outbox.map fun row => (row.batchId, row.bytes)

/-- `reject_chat_update`. -/
def rejectChatUpdate (outbox : Outbox) (batchId : String) : Outbox :=
  outbox.map fun row =>
    if row.batchId = batchId then { row with needsCheckpoint := true } else row

/-- `rejected_chat_updates`. -/
def rejectedChatUpdates (outbox : Outbox) : List (String × Bytes) :=
  (outbox.filter (·.needsCheckpoint)).map fun row => (row.batchId, row.bytes)

/-- `acknowledge_chat_update`. -/
def acknowledgeChatUpdate (outbox : Outbox) (batchId : String) : Outbox :=
  outbox.filter (·.batchId ≠ batchId)

end Outbox

/-- `MAX_PUSH_BYTES`: below the row cap, with room for the frame's header. -/
def maxPushBytes : ℕ := 1024 * 1024 - 4096

/-- One turn of the loop of `pending_updates`: an update over the cap is rejected, one that was
rejected before is passed over. -/
def Outbox.pendingUpdate (rejected : List (String × Bytes)) (acc : Outbox × List (String × Bytes))
    (update : String × Bytes) : Outbox × List (String × Bytes) :=
  if maxPushBytes < update.2.length then (acc.1.rejectChatUpdate update.1, acc.2)
  else if rejected.any (·.1 = update.1) then acc
  else (acc.1, acc.2 ++ [update])

/-- `pending_updates` of the engine's sink. -/
def Outbox.pendingUpdates (outbox : Outbox) : Outbox × List (String × Bytes) :=
  outbox.pendingChatUpdates.foldl (pendingUpdate outbox.rejectedChatUpdates) (outbox, [])

/-! ## The client -/

structure PendingPush where
  batchId : String
  bytes : Bytes
  durable : Bool
  deriving DecidableEq

/-- A batch, whether durable or not. -/
def PendingPush.batch (push : PendingPush) : String × Bytes := (push.batchId, push.bytes)

/-- What the client's tasks share, as far as the pushes and the cursor go. -/
structure Shared where
  cursor : ℕ
  pending : List PendingPush
  /-- Whether the retry clock is armed. -/
  retryAt : Bool
  quotaBlocked : Bool
  gapRepair : Bool
  needsCheckpoint : Bool
  causalGapGeneration : ℕ
  deriving DecidableEq

/-- A client and the table its sink writes to. -/
structure Client where
  shared : Shared
  outbox : Outbox
  deriving DecidableEq

namespace Client

/-- `ChatClient::connect_with_transport`: the queue is what the store holds. -/
def connect (outbox : Outbox) (initialCursor : ℕ) : Client :=
  { shared :=
      { cursor := initialCursor
        pending := outbox.pendingUpdates.2.map fun (batchId, bytes) =>
          { batchId, bytes, durable := true }
        retryAt := false, quotaBlocked := false, gapRepair := false, needsCheckpoint := false
        causalGapGeneration := 0 }
    outbox := outbox.pendingUpdates.1 }

/-- Take a batch from the queue. -/
def retain (client : Client) (batchId : String) : Client :=
  { client with
      shared.pending := client.shared.pending.filter (·.batchId ≠ batchId) }

/-- `persist_update` of the sink. -/
def persistUpdate (client : Client) (stored : Bool) (batchId : String) (bytes : Bytes) : Client :=
  if stored then { client with outbox := client.outbox.enqueueChatUpdate batchId bytes } else client

/-- `reject_update` of the sink. -/
def rejectUpdate (client : Client) (stored : Bool) (batchId : String) : Client :=
  if stored then { client with outbox := client.outbox.rejectChatUpdate batchId } else client

/-- `acknowledge_update` of the sink. -/
def acknowledgeUpdate (client : Client) (stored : Bool) (batchId : String) : Client :=
  if stored then { client with outbox := client.outbox.acknowledgeChatUpdate batchId } else client

/-- `enqueue_batch`. -/
def enqueueBatch (client : Client) (stored rejected : Bool) (batchId : String) (bytes : Bytes) :
    Client :=
  let client := client.persistUpdate stored batchId bytes
  if maxPushBytes < bytes.length then client.rejectUpdate rejected batchId
  else if client.shared.pending.any (·.batchId = batchId) then client
  else
    { client with
        shared.pending := client.shared.pending ++ [{ batchId, bytes, durable := stored }] }

/-- Note that a batch of the queue is in the store. -/
def markDurable (client : Client) (batchId : String) : Client :=
  { client with
      shared.pending := client.shared.pending.map fun push =>
        if push.batchId = batchId then { push with durable := true } else push }

/-- `ensure_durable`: the client, and whether the batch may be sent. -/
def ensureDurable (client : Client) (stored : Bool) (push : PendingPush) : Client × Bool :=
  if push.durable then (client, true)
  else
    match client.shared.pending.find? (·.batchId = push.batchId) with
    | none => (client, true)
    | some pending =>
      if pending.durable then (client, true)
      else if stored then
        ((client.persistUpdate true pending.batchId pending.bytes).markDurable pending.batchId, true)
      else (client, false)

/-! ### The socket -/

/-- What a socket session sent: the client, the batches that are under way, those that were sent
now, and whether the session lives on. -/
structure Sent where
  client : Client
  inFlight : List String
  batches : List PendingPush
  alive : Bool
  deriving DecidableEq

/-- The loop of `push_pending`: `stored` and `sends` say for which batches the store and the socket
take the write. -/
def pushEach (client : Client) (stored sends : String → Bool) (inFlight : List String) :
    List PendingPush → Sent
  | [] => { client, inFlight, batches := [], alive := true }
  | push :: batches =>
    match client.ensureDurable (stored push.batchId) push with
    | (client, false) => { client, inFlight, batches := [], alive := false }
    | (client, true) =>
      if sends push.batchId then
        let sent := client.pushEach stored sends (push.batchId :: inFlight) batches
        { sent with batches := push :: sent.batches }
      else { client, inFlight, batches := [], alive := false }

/-- `push_pending`. -/
def pushPending (client : Client) (stored sends : String → Bool) (inFlight : List String) : Sent :=
  let inFlight := inFlight.filter fun id => client.shared.pending.any (·.batchId = id)
  if client.shared.quotaBlocked then { client, inFlight, batches := [], alive := true }
  else
    client.pushEach stored sends inFlight
      (client.shared.pending.filter fun push => !inFlight.contains push.batchId)

/-- The tick clears the clock. -/
def clearRetry (client : Client) : Client := { client with shared.retryAt := false }

/-- A tick of the retry clock and `push_head`: the client, what was sent, and whether the session
lives on. -/
def pushHead (client : Client) (stored sends : String → Bool) :
    Client × Option PendingPush × Bool :=
  let client := client.clearRetry
  match client.shared.pending.head? with
  | none => (client, none, true)
  | some push =>
    match client.ensureDurable (stored push.batchId) push with
    | (client, false) => (client, none, false)
    | (client, true) =>
      if sends push.batchId then (client, some push, true) else (client, none, false)

/-- `handle_frame` on an ack. -/
def handleAck (client : Client) (stored : Bool) (batchId : String) (seq : ℕ) : Client :=
  let client :=
    if stored then (client.acknowledgeUpdate true batchId).retain batchId
    else { client with shared.retryAt := true }
  let client :=
    if client.shared.cursor + 1 < seq then { client with shared.gapRepair := true }
    else { client with shared.cursor := max client.shared.cursor seq }
  if client.shared.quotaBlocked then
    if client.shared.pending.isEmpty then { client with shared.quotaBlocked := false }
    else { client with shared.retryAt := true }
  else client

/-- The codes that retire a batch. -/
def permanent (code : String) : Bool :=
  code = "too_large" || code = "empty" || code = "bad_push"

/-- `handle_frame` on an error: the client, and whether the session lives on. -/
def handleError (client : Client) (stored : Bool) (code batchId : String) : Client × Bool :=
  if permanent code ∧ batchId ≠ "" then
    if stored then ((client.rejectUpdate true batchId).retain batchId, true) else (client, false)
  else if code = "quota" then
    ({ client with shared.quotaBlocked := true, shared.retryAt := true }, true)
  else (client, true)

/-- `handle_frame` on what the room answers a push with. -/
def handleAnswer (client : Client) (stored : Bool) : Frame → Client × Bool
  | .ack batchId seq _ => (client.handleAck stored batchId seq, true)
  | .error code _ batchId => client.handleError stored code batchId
  | _ => (client, true)

/-! ### HTTPS -/

/-- What the push loop of `spawn_offline_sync` does with an acknowledgement. -/
def httpAck (client : Client) (stored : Bool) (batchId : String) (seq : ℕ) : Client :=
  let client :=
    if stored then (client.acknowledgeUpdate true batchId).retain batchId else client
  if seq ≤ client.shared.cursor + 1 then
    { client with shared.cursor := max client.shared.cursor seq }
  else client

/-- How the push of a batch goes: the room as the request finds it and its clock, whether the
request arrives and the answer comes back, and whether the store takes the writes. -/
structure Delivery where
  room : Room
  now : ℕ
  arrives : Bool
  returns : Bool
  stored : Bool
  acked : Bool
  deriving DecidableEq

/-- What the room answers the request with. -/
def Delivery.answer (d : Delivery) (device batchId : String) (bytes : Bytes) : PushResponse :=
  (d.room.postRows d.now device batchId bytes.length bytes).2.1

/-- What the client reads: nothing where the request or the answer is lost. -/
def Delivery.read (d : Delivery) (device batchId : String) (bytes : Bytes) : Option PushResponse :=
  if d.arrives && d.returns then some (d.answer device batchId bytes) else none

/-- The push loop of `spawn_offline_sync` over the batches it took: the client and the batches it
sent. -/
def httpPush (client : Client) (device : String) (deliver : String → Delivery) :
    List PendingPush → Client × List PendingPush
  | [] => (client, [])
  | push :: batches =>
    match client.ensureDurable (deliver push.batchId).stored push with
    | (client, false) => (client, [])
    | (client, true) =>
      match (deliver push.batchId).read device push.batchId push.bytes with
      | some (.ok batchId seq _) =>
        let rest := (client.httpAck (deliver push.batchId).acked batchId seq).httpPush device
          deliver batches
        (rest.1, push :: rest.2)
      | _ => (client, [push])

/-- The pushes of one HTTPS cycle. -/
def httpCycle (client : Client) (device : String) (deliver : String → Delivery) :
    Client × List PendingPush :=
  client.httpPush device deliver client.shared.pending

/-! ### What the operations leave alone -/

theorem enqueueBatch_shared (client : Client) (stored rejected : Bool) (batchId : String)
    (bytes : Bytes) :
    (client.enqueueBatch stored rejected batchId bytes).shared = client.shared ∨
      (∀ push ∈ client.shared.pending, push.batchId ≠ batchId) ∧
        (client.enqueueBatch stored rejected batchId bytes).shared =
          { client.shared with
            pending := client.shared.pending ++ [{ batchId, bytes, durable := stored }] } := by
  have hpersist : (client.persistUpdate stored batchId bytes).shared = client.shared := by
    rw [persistUpdate]
    split_ifs <;> rfl
  rw [enqueueBatch]
  dsimp only
  split_ifs with hlarge hany
  · left
    rw [rejectUpdate]
    split_ifs <;> rw [← hpersist]
  · exact .inl hpersist
  · rw [hpersist, Bool.not_eq_true, List.any_eq_false] at hany
    exact .inr ⟨fun push hp => by simpa using hany push hp, by rw [hpersist]⟩

theorem ensureDurable_shared (client : Client) (stored : Bool) (push : PendingPush) :
    (client.ensureDurable stored push).1.shared = { client.shared with
      pending := (client.ensureDurable stored push).1.shared.pending } := by
  rw [ensureDurable]
  by_cases hd : push.durable = true
  · rw [if_pos hd]
  · rw [if_neg hd]
    cases client.shared.pending.find? (·.batchId = push.batchId) with
    | none => rfl
    | some found =>
      dsimp only
      split_ifs
      · rfl
      · rfl
      · rfl

theorem pending_httpAck (client : Client) (stored : Bool) (batchId : String) (seq : ℕ) :
    (client.httpAck stored batchId seq).shared.pending =
      if stored then client.shared.pending.filter (·.batchId ≠ batchId)
      else client.shared.pending := by
  cases stored with
  | false => rw [httpAck]; split_ifs <;> rfl
  | true => rw [httpAck]; split_ifs <;> rfl

end Client

end Zeron.Chat
