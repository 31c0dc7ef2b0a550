import Zeron.Lib.Run

/-!
# The queues of a local connection

A client and a server on two ends of a socket (`rpc/src/client.rs`, `rpc/src/server.rs`). Each end
has a pump, which does one thing at a time: it writes a frame to the socket, or puts one into the
queue of its reader. The client's reader awaits the queue of a stream, and the outbound queue where
it cancels a stream nobody receives.

* `Pump`, `Reader`, `Task`: where each part of the connection may wait;
* `Link`, `Act`, `step`: the queues, and one step of a part or of its user;
* `Jammed`, `Crossed`: the two ways in which two parts wait for one another;
* `Outstanding`, `Moves`: a frame or a call is on its way, and some step is enabled.
-/

namespace Zeron.Rpc

open Run

/-! ## Frames -/

inductive ClientFrame where
  | request (id : ℕ)
  | cancel (id : ℕ)
  deriving DecidableEq

/-- `ready` is the `ok` frame of a stream; `last` ends a request: its value, its error or its
`done`. -/
inductive ServerFrame where
  | ready (id : ℕ)
  | item (id : ℕ)
  | last (id : ℕ)
  deriving DecidableEq

def ServerFrame.id : ServerFrame → ℕ
  | .ready id | .item id | .last id => id

/-- `mpsc::channel(256)`, `STREAM_QUEUE_CAP`. -/
def queueCap : ℕ := 256

def streamQueueCap : ℕ := 256

/-- How many frames the socket's buffers take, either way. -/
structure Socket where
  up : ℕ
  down : ℕ
  up_pos : 0 < up
  down_pos : 0 < down

/-! ## The parts -/

/-- A pump: it selects, awaits the socket with a frame `α`, or awaits its reader's queue with a
frame `β`. -/
inductive Pump (α β : Type) where
  | idle
  | writing (f : α)
  | delivering (f : β)
  deriving DecidableEq

def Pump.writes {α β : Type} : Pump α β → Bool
  | .writing _ => true
  | _ => false

def Pump.delivers {α β : Type} : Pump α β → Bool
  | .delivering _ => true
  | _ => false

/-- The client's reader: it awaits a stream's queue with an item, or the outbound queue with the
cancellation of a stream. -/
inductive Reader where
  | idle
  | pushing (id : ℕ)
  | cancelling (id : ℕ)
  deriving DecidableEq

def Reader.cancels : Reader → Bool
  | .cancelling _ => true
  | _ => false

/-- It awaits a queue whose receiver was dropped. -/
def Reader.dead (queues : ℕ → Option ℕ) : Reader → Bool
  | .pushing id => (queues id).isNone
  | _ => false

inductive Pending where
  | call
  | stream
  deriving DecidableEq

/-- A request task: its handler runs, or it awaits the outbound queue. -/
structure Task where
  id : ℕ
  sending : Option ServerFrame
  deriving DecidableEq

/-- The connection. `waiting` are the callers and dropped subscriptions that await the outbound
queue; `queues` are the items in the queue of each receiver that is there. -/
structure Link where
  nextId : ℕ
  table : ℕ → Option Pending
  queues : ℕ → Option ℕ
  waiting : List ClientFrame
  out : List ClientFrame
  clientPump : Pump ClientFrame ServerFrame
  inbound : List ServerFrame
  reader : Reader
  up : List ClientFrame
  down : List ServerFrame
  serverPump : Pump ServerFrame ClientFrame
  serverInbound : List ClientFrame
  serverOut : List ServerFrame
  tasks : List Task

inductive Act where
  | call
  | subscribe
  | dropReceiver (id : ℕ)
  /-- A checked subscription is dropped. -/
  | unsubscribe (id : ℕ)
  /-- The next waiting frame gets a place in the outbound queue. -/
  | enter
  | takeOut
  | write
  | takeIn
  | deliver
  | route
  | push
  | sendCancel
  | consume (id : ℕ)
  | serverTakeOut
  | serverWrite
  | serverTakeIn
  | serverDeliver
  | serve
  | work (i : ℕ) (f : ServerFrame)
  | sendTask (i : ℕ)
  deriving DecidableEq

/-- A step of the connection itself, of a receiver that reads or of a handler. -/
def Act.internal : Act → Bool
  | .call | .subscribe | .dropReceiver _ | .unsubscribe _ => false
  | _ => true

namespace Link

def start : Link :=
  { nextId := 1, table := fun _ => none, queues := fun _ => none, waiting := [], out := []
    clientPump := .idle, inbound := [], reader := .idle, up := [], down := [], serverPump := .idle
    serverInbound := [], serverOut := [], tasks := [] }

variable (k : Socket) (s : Link)

def request (kind : Pending) : Link :=
  { s with
    nextId := s.nextId + 1
    table := Function.update s.table s.nextId (some kind)
    waiting := s.waiting ++ [.request s.nextId] }

/-- `RpcSubscription::drop`. -/
def unsubscribe (id : ℕ) : Link :=
  let s' := { s with queues := Function.update s.queues id none }
  if s.table id = some .stream then
    { s' with
      table := Function.update s.table id none
      waiting := s.waiting ++ [.cancel id] }
  else s'

/-- `route_frame`, up to where it awaits. -/
def routeFrame (f : ServerFrame) : Link :=
  match f with
  | .ready id =>
    if s.table id = some .call then { s with table := Function.update s.table id none } else s
  | .item id => if s.table id = some .stream then { s with reader := .pushing id } else s
  | .last id => { s with table := Function.update s.table id none }

/-- The server's loop at a frame. -/
def serveFrame (f : ClientFrame) : Link :=
  match f with
  | .request id => { s with tasks := s.tasks ++ [{ id, sending := none }] }
  | .cancel id => { s with tasks := s.tasks.filter (·.id ≠ id) }

def step : Act → Option Link
  | .call => some (s.request .call)
  | .subscribe =>
    some { s.request .stream with queues := Function.update s.queues s.nextId (some 0) }
  | .dropReceiver id => some { s with queues := Function.update s.queues id none }
  | .unsubscribe id => some (s.unsubscribe id)
  | .enter =>
    match s.waiting with
    | f :: rest =>
      if s.out.length < queueCap then some { s with waiting := rest, out := s.out ++ [f] } else none
    | [] => none
  | .takeOut =>
    match s.clientPump, s.out with
    | .idle, f :: rest => some { s with clientPump := .writing f, out := rest }
    | _, _ => none
  | .write =>
    match s.clientPump with
    | .writing f =>
      if s.up.length < k.up then some { s with clientPump := .idle, up := s.up ++ [f] } else none
    | _ => none
  | .takeIn =>
    match s.clientPump, s.down with
    | .idle, f :: rest => some { s with clientPump := .delivering f, down := rest }
    | _, _ => none
  | .deliver =>
    match s.clientPump with
    | .delivering f =>
      if s.inbound.length < queueCap then
        some { s with clientPump := .idle, inbound := s.inbound ++ [f] }
      else none
    | _ => none
  | .route =>
    match s.reader, s.inbound with
    | .idle, f :: rest => some ({ s with inbound := rest }.routeFrame f)
    | _, _ => none
  | .push =>
    match s.reader with
    | .pushing id =>
      match s.queues id with
      | none =>
        some { s with reader := .cancelling id, table := Function.update s.table id none }
      | some level =>
        if level < streamQueueCap then
          some { s with reader := .idle, queues := Function.update s.queues id (some (level + 1)) }
        else none
    | _ => none
  | .sendCancel =>
    match s.reader with
    | .cancelling id =>
      if s.out.length < queueCap then some { s with reader := .idle, out := s.out ++ [.cancel id] }
      else none
    | _ => none
  | .consume id =>
    match s.queues id with
    | some (level + 1) => some { s with queues := Function.update s.queues id (some level) }
    | _ => none
  | .serverTakeOut =>
    match s.serverPump, s.serverOut with
    | .idle, f :: rest => some { s with serverPump := .writing f, serverOut := rest }
    | _, _ => none
  | .serverWrite =>
    match s.serverPump with
    | .writing f =>
      if s.down.length < k.down then some { s with serverPump := .idle, down := s.down ++ [f] }
      else none
    | _ => none
  | .serverTakeIn =>
    match s.serverPump, s.up with
    | .idle, f :: rest => some { s with serverPump := .delivering f, up := rest }
    | _, _ => none
  | .serverDeliver =>
    match s.serverPump with
    | .delivering f =>
      if s.serverInbound.length < queueCap then
        some { s with serverPump := .idle, serverInbound := s.serverInbound ++ [f] }
      else none
    | _ => none
  | .serve =>
    match s.serverInbound with
    | f :: rest => some ({ s with serverInbound := rest }.serveFrame f)
    | [] => none
  | .work i f =>
    match s.tasks[i]? with
    | some task =>
      if task.sending = none ∧ f.id = task.id then
        some { s with tasks := s.tasks.set i { task with sending := some f } }
      else none
    | none => none
  | .sendTask i =>
    match s.tasks[i]? with
    | some { id, sending := some f } =>
      if s.serverOut.length < queueCap then
        some { s with
          serverOut := s.serverOut ++ [f]
          tasks := if f = .last id then s.tasks.eraseIdx i
            else s.tasks.set i { id, sending := none } }
      else none
    | _ => none

/-! ## The two cycles -/

/-- The reader awaits the outbound queue, which the pump does not drain; the pump awaits the inbound
queue, which the reader does not drain. -/
structure Jammed : Prop where
  reader : ∃ id, s.reader = .cancelling id
  pump : ∃ f, s.clientPump = .delivering f
  inbound : queueCap ≤ s.inbound.length
  out : queueCap ≤ s.out.length

/-- Each pump awaits the socket, which the other does not read. -/
structure Crossed : Prop where
  client : ∃ f, s.clientPump = .writing f
  server : ∃ f, s.serverPump = .writing f
  up : k.up ≤ s.up.length
  down : k.down ≤ s.down.length

/-- What is on the way, or at work. -/
def Quiet : Prop :=
  s.waiting = [] ∧ s.out = [] ∧ s.clientPump = .idle ∧ s.inbound = [] ∧ s.reader = .idle ∧
    s.up = [] ∧ s.down = [] ∧ s.serverPump = .idle ∧ s.serverInbound = [] ∧ s.serverOut = [] ∧
    s.tasks = []

/-- A frame, a call or a cancellation is outstanding. -/
def Outstanding : Prop := ¬ s.Quiet ∨ ∃ id, s.table id = some .call

/-- Some step of the connection is enabled. -/
def Moves : Prop := ∃ a : Act, a.internal = true ∧ (s.step k a).isSome = true

end Link

end Zeron.Rpc
