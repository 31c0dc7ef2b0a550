import Zeron.Chat.Outbox

/-!
# The document behind a client

What a chat client does with the rows and checkpoints it gets: the sink and the snapshots of the
engine (`engine/src/chat2_host.rs`, `engine/src/chat_persistence.rs`), over a CRDT library that is
a parameter, and the cursor rules of `sync/src/chat_client.rs`.

* `Crdt`, `Crdt.Lawful`: the library, and what is relied on;
* `Sink` and its methods;
* `planCatchUp`, `applyCursorAmnesty`: the cursor rules;
* `Docs.crdt`: documents of one-byte operations.
-/

namespace Zeron.Chat

/-! ## The library -/

/-- How an import ended: everything is in, some of it waits for what it depends on, or the bytes
are no update. -/
inductive ImportStatus where
  | success
  | pending
  | error
  deriving DecidableEq

/-- What the sink uses of the CRDT library: documents `δ`, version vectors `ν`. -/
structure Crdt (δ ν : Type) where
  /-- A document nothing was imported to. -/
  init : δ
  importWith : δ → Bytes → δ × ImportStatus
  /-- A local edit, by its update. -/
  commit : δ → Bytes → δ
  exportSnapshot : δ → Bytes
  oplogVv : δ → ν
  encode : ν → Bytes
  decode : Bytes → Option ν
  isEmpty : ν → Bool
  includesVv : ν → ν → Bool

/-- What the library promises about the documents that have the content of some bytes: imports and
edits add to it, bytes that are no update have none, a snapshot has what its document had, and so
has whatever includes the document's version vector. -/
structure Crdt.Lawful {δ ν : Type} (crdt : Crdt δ ν) (Has : δ → Bytes → Prop) : Prop where
  keeps_import : ∀ {d b} b', Has d b → Has (crdt.importWith d b').1 b
  of_import : ∀ {d b}, (crdt.importWith d b).2 ≠ .pending → Has (crdt.importWith d b).1 b
  keeps_commit : ∀ {d b} b', Has d b → Has (crdt.commit d b') b
  of_commit : ∀ d b, Has (crdt.commit d b) b
  of_snapshot : ∀ {d d' b}, (crdt.importWith d' (crdt.exportSnapshot d)).2 = .success → Has d b →
    Has (crdt.importWith d' (crdt.exportSnapshot d)).1 b
  decode_encode : ∀ vv, crdt.decode (crdt.encode vv) = some vv
  of_includes : ∀ {d d' b}, crdt.includesVv (crdt.oplogVv d') (crdt.oplogVv d) = true → Has d b →
    Has d' b

/-! ## The sink -/

/-- `ChatPersistence`: the cursor, and the one a flush under way has sampled. -/
structure ChatPersistence where
  cursor : ℕ
  sampled : Option ℕ
  initialCursorVerified : Bool
  deriving DecidableEq

namespace ChatPersistence

def resetCursor (p : ChatPersistence) (cursor : ℕ) : ChatPersistence := { p with cursor }

end ChatPersistence

/-- `EngineChatSink`, with its document. -/
structure Sink (δ : Type) where
  doc : δ
  persistence : ChatPersistence
  deriving DecidableEq

namespace Sink

variable {δ ν : Type} (crdt : Crdt δ ν) (sink : Sink δ)

def containsFrontier (frontier : Bytes) : Bool :=
  match crdt.decode frontier with
  | none => false
  | some vv => if crdt.isEmpty vv then false else crdt.includesVv (crdt.oplogVv sink.doc) vv

def resetCursor (cursor : ℕ) : Sink δ :=
  { sink with persistence := sink.persistence.resetCursor cursor }

end Sink

/-! ## The cursor -/

inductive CatchUpPlan where
  | rowsOnly (after : ℕ)
  | checkpointThenRows (after : ℕ)
  deriving DecidableEq

def CatchUpPlan.after : CatchUpPlan → ℕ
  | .rowsOnly after => after
  | .checkpointThenRows after => after

def planCatchUp (cursor : ℕ) (state : LogStats) (frontierContained : Bool) : CatchUpPlan :=
  -- a cursor ahead of the server means the server lost state
  let cursor := if state.headSeq < cursor then 0 else cursor
  if state.checkpointSize = 0 then .rowsOnly cursor
  else if frontierContained then .rowsOnly (max cursor state.checkpointSeq)
  else .checkpointThenRows state.checkpointSeq

namespace Client

/-- `apply_cursor_amnesty`, on the cursor and the sink; `done` is the flag before it. -/
def applyCursorAmnesty {δ : Type} (client : Client) (sink : Sink δ) (state : LogStats)
    (done : Bool) : Client × Sink δ :=
  if done || sink.persistence.initialCursorVerified then (client, sink)
  else
    let clampTo := if 0 < state.checkpointSize then state.checkpointSeq else 0
    if clampTo < client.shared.cursor then
      ({ client with shared.cursor := clampTo }, sink.resetCursor 0)
    else (client, sink)

end Client

/-! ## A library of small documents -/

/-- Documents of one-byte operations: an update is its operations, a snapshot and a version vector
are all of them. -/
def Docs.crdt : Crdt Bytes Bytes where
  init := []
  importWith d b := (d ++ b, .success)
  commit d b := d ++ b
  exportSnapshot d := d
  oplogVv d := d
  encode vv := vv
  decode b := some b
  isEmpty vv := vv.isEmpty
  includesVv d vv := vv.all (d.contains ·)

/-- The document has the operations. -/
def Docs.Has (d b : Bytes) : Prop := ∀ x ∈ b, x ∈ d

instance (d b : Bytes) : Decidable (Docs.Has d b) := inferInstanceAs (Decidable (∀ x ∈ b, x ∈ d))

theorem Docs.lawful : Docs.crdt.Lawful Docs.Has where
  keeps_import b' h x hx := List.mem_append_left b' (h x hx)
  of_import _ x hx := List.mem_append_right _ hx
  keeps_commit b' h x hx := List.mem_append_left b' (h x hx)
  of_commit d b x hx := List.mem_append_right d hx
  of_snapshot _ h x hx := List.mem_append_right _ (h x hx)
  decode_encode _ := rfl
  of_includes {d d' b} hi h x hx := by
    have hall : d.all (d'.contains ·) = true := hi
    have hmem := List.all_eq_true.mp hall x (h x hx)
    simpa using hmem

end Zeron.Chat
