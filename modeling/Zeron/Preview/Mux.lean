import Zeron.Lib.Run

/-!
# The multiplexer of preview streams

Two endpoints carry many streams over one ordered transport (`preview/src/mux.rs`). A stream has a
window in each direction: a sender takes permits for what it sends, and the receiver returns them
as its reader makes room.

* `Frame`, `encode`, `decode`: the frames, and their bytes;
* `Sender`, `Receiver`, `Stream`: the two directions at one end, the handle of the stream and the
  task that bridges it; `Stream.move`: one step of either;
* `Party`, `dispatch`; `Net`, `Act`, `step`: both endpoints, and the frames that are on their way.
-/

namespace Zeron.Preview.Mux

abbrev Bytes := List UInt8

def CHUNK : ℕ := 8192
def WINDOW : ℕ := 65536
def MAX_STREAMS : ℕ := 64

/-! ## Frames -/

def OPEN : UInt8 := 1
def DATA : UInt8 := 2
def END : UInt8 := 3
def CANCEL : UInt8 := 4
def WS_OPEN : UInt8 := 5
def WS_DATA : UInt8 := 6
def WS_CLOSE : UInt8 := 7
def CREDIT : UInt8 := 8
def READY : UInt8 := 9

/-- `u32::to_be_bytes`. -/
def toBeBytes (n : ℕ) : Bytes :=
  [UInt8.ofNat (n / 2 ^ 24), UInt8.ofNat (n / 2 ^ 16), UInt8.ofNat (n / 2 ^ 8), UInt8.ofNat n]

def fromBeBytes (bytes : Bytes) : ℕ := bytes.foldl (fun n b => 256 * n + b.toNat) 0

structure Frame where
  kind : UInt8
  id : ℕ
  data : Bytes
  deriving DecidableEq

def Frame.encode (f : Frame) : Bytes := f.kind :: (toBeBytes f.id ++ f.data)

def Frame.decode (bytes : Bytes) : Option Frame :=
  if 5 ≤ bytes.length ∧ bytes.length ≤ CHUNK + 5 then
    match bytes with
    | kind :: bytes => some { kind, id := fromBeBytes (bytes.take 4), data := bytes.drop 4 }
    | [] => none
  else none

theorem fromBeBytes_toBeBytes {n : ℕ} (hn : n < 2 ^ 32) : fromBeBytes (toBeBytes n) = n := by
  simp only [fromBeBytes, toBeBytes, List.foldl_cons, List.foldl_nil, UInt8.toNat_ofNat']
  omega

/-- **What is encoded is decoded**, if it is not too long. -/
theorem Frame.decode_encode (f : Frame) (hid : f.id < 2 ^ 32) (hdata : f.data.length ≤ CHUNK) :
    Frame.decode f.encode = some f := by
  have hlen : f.encode.length = f.data.length + 5 := by simp [Frame.encode, toBeBytes]
  have htake : (toBeBytes f.id ++ f.data).take 4 = toBeBytes f.id := rfl
  have hdrop : (toBeBytes f.id ++ f.data).drop 4 = f.data := rfl
  unfold Frame.decode
  rw [if_pos (by omega)]
  simp only [Frame.encode, htake, hdrop, fromBeBytes_toBeBytes hid]

/-! ## One end of a stream -/

/-- The task that sends: the bytes that it has read wait for their permits, then for the
transport. -/
inductive Sending where
  | reading
  | acquiring (bytes : Bytes)
  | holding (bytes : Bytes)
  | ending
  | done
  deriving DecidableEq

/-- The task that receives: what it writes into the pipe is the rest of a frame. -/
inductive Receiving where
  | waiting
  | writing (rest : Bytes) (length : ℕ)
  | crediting (length : ℕ)
  | done
  deriving DecidableEq

/-- The way out. `written` has all that the application wrote. -/
structure Sender where
  written : Bytes
  pipe : Bytes
  closed : Bool
  sending : Sending
  permits : ℕ
  deriving DecidableEq

/-- The way in. `read` has all that the application read. -/
structure Receiver where
  queue : List Frame
  receiving : Receiving
  receiveCredit : ℕ
  pipe : Bytes
  shut : Bool
  read : Bytes
  readEof : Bool
  deriving DecidableEq

/-- Who has the stream: `open`, the task that connects, the application, or no one. It is torn if
it is dropped before both ways are at their end. -/
inductive Handle where
  | opening (service : String)
  | waiting
  | connecting
  | held
  | dropped (torn : Bool)
  deriving DecidableEq

/-- The task of a stream; its slot is there while it runs. -/
inductive Task where
  | running
  | finished
  | cancelling
  | aborted
  deriving DecidableEq

structure Stream where
  websocket : Bool
  sender : Sender
  receiver : Receiver
  handle : Handle
  cancel : Bool
  ready : Option Bool
  task : Task
  deriving DecidableEq

def Sender.new : Sender where
  written := []
  pipe := []
  closed := false
  sending := .reading
  permits := WINDOW

def Receiver.new : Receiver where
  queue := []
  receiving := .waiting
  receiveCredit := WINDOW
  pipe := []
  shut := false
  read := []
  readEof := false

def Stream.new (websocket : Bool) (handle : Handle) : Stream where
  websocket
  sender := Sender.new
  receiver := Receiver.new
  handle
  cancel := false
  ready := none
  task := .running

/-- Steps of the application, and of the task of a stream. -/
inductive Move where
  | sendOpen
  | opened
  | connected
  | write (bytes : Bytes)
  | read (n : ℕ)
  | shutdown
  | drop
  | take
  | acquire
  | send
  | pop
  | push (n : ℕ)
  | restore
  | credit
  | finish
  | abort
  | sendCancel
  deriving DecidableEq

namespace Stream

variable (s : Stream)

/-- The bridge has not dropped its end of the pipes. -/
def bridged : Bool := s.task = .running || s.task = .cancelling

/-- `Stream::read`. An empty pipe that is shut, or has lost its other end, is at its end. -/
def readSome (n : ℕ) : Option Stream :=
  let r := s.receiver
  if n = 0 then none
  else if r.pipe ≠ [] then
    some { s with
      receiver := { r with read := r.read ++ r.pipe.take n, pipe := r.pipe.drop n } }
  else if r.shut = true ∨ s.bridged = false then
    some { s with receiver := { r with readEof := true } }
  else none

/-- `Drop for Stream`. -/
def drop : Stream :=
  let graceful := s.receiver.readEof && s.sender.closed
  { s with
      handle := .dropped (!graceful)
      sender := { s.sender with closed := true }
      cancel := s.cancel || !graceful }

/-- A step, and the frame that it sends. -/
def move (id : ℕ) : Move → Option (Stream × List Frame)
  | .sendOpen =>
    match s.handle with
    | .opening service =>
      some ({ s with handle := .waiting },
        [{ kind := if s.websocket then WS_OPEN else OPEN, id, data := service.toUTF8.data.toList }])
    | _ => none
  | .opened =>
    if s.handle = .waiting ∧ s.ready = some true then some ({ s with handle := .held }, [])
    else none
  | .connected =>
    if s.handle = .connecting then
      some ({ s with handle := .held }, [{ kind := READY, id, data := [] }])
    else none
  | .write bytes =>
    if s.handle = .held ∧ bytes ≠ [] ∧ s.sender.closed = false ∧ s.bridged = true ∧
        s.sender.pipe.length + bytes.length ≤ WINDOW then
      some ({ s with sender := { s.sender with
        written := s.sender.written ++ bytes, pipe := s.sender.pipe ++ bytes } }, [])
    else none
  | .read n => if s.handle = .held then (s.readSome n).map fun s => (s, []) else none
  | .shutdown =>
    if s.handle = .held then some ({ s with sender := { s.sender with closed := true } }, [])
    else none
  | .drop =>
    match s.handle with
    | .dropped _ => none
    | _ => some (s.drop, [])
  | .take =>
    if s.task = .running ∧ s.sender.sending = .reading then
      if s.sender.pipe ≠ [] then
        some ({ s with sender := { s.sender with
          sending := .acquiring (s.sender.pipe.take CHUNK)
          pipe := s.sender.pipe.drop CHUNK } }, [])
      else if s.sender.closed = true then
        some ({ s with sender := { s.sender with sending := .ending } }, [])
      else none
    else none
  | .acquire =>
    match s.task, s.sender.sending with
    | .running, .acquiring bytes =>
      if bytes.length ≤ s.sender.permits then
        some ({ s with sender := { s.sender with
          sending := .holding bytes, permits := s.sender.permits - bytes.length } }, [])
      else none
    | _, _ => none
  | .send =>
    match s.task, s.sender.sending with
    | .running, .holding bytes =>
      some ({ s with sender := { s.sender with sending := .reading } },
        [{ kind := if s.websocket then WS_DATA else DATA, id, data := bytes }])
    | .running, .ending =>
      some ({ s with sender := { s.sender with sending := .done } },
        [{ kind := if s.websocket then WS_CLOSE else END, id, data := [] }])
    | _, _ => none
  | .pop =>
    match s.task, s.receiver.receiving, s.receiver.queue with
    | .running, .waiting, f :: queue =>
      if f.kind = END ∨ f.kind = WS_CLOSE then
        some ({ s with receiver := { s.receiver with queue, receiving := .done, shut := true } },
          [])
      else
        some ({ s with receiver := { s.receiver with
          queue, receiving := .writing f.data f.data.length } }, [])
    | _, _, _ => none
  | .push n =>
    match s.task, s.receiver.receiving with
    | .running, .writing rest length =>
      if 0 < n ∧ n ≤ rest.length ∧ s.receiver.pipe.length + n ≤ WINDOW ∧
          (∀ torn, s.handle ≠ .dropped torn) then
        some ({ s with receiver := { s.receiver with
          pipe := s.receiver.pipe ++ rest.take n
          receiving := .writing (rest.drop n) length } }, [])
      else none
    | _, _ => none
  | .restore =>
    match s.task, s.receiver.receiving with
    | .running, .writing [] length =>
      some ({ s with receiver := { s.receiver with
        receiveCredit := s.receiver.receiveCredit + length
        receiving := .crediting length } }, [])
    | _, _ => none
  | .credit =>
    match s.task, s.receiver.receiving with
    | .running, .crediting length =>
      some ({ s with receiver := { s.receiver with receiving := .waiting } },
        [{ kind := CREDIT, id, data := toBeBytes length }])
    | _, _ => none
  | .finish =>
    if s.task = .running ∧ s.sender.sending = .done ∧ s.receiver.receiving = .done then
      some ({ s with task := .finished }, [])
    else none
  | .abort =>
    if s.task = .running ∧ s.cancel = true then some ({ s with task := .cancelling }, []) else none
  | .sendCancel =>
    if s.task = .cancelling then
      some ({ s with task := .aborted }, [{ kind := CANCEL, id, data := [] }])
    else none

end Stream

/-! ## Endpoints -/

inductive Side where
  | initiator
  | acceptor
  deriving DecidableEq

namespace Side

def other : Side → Side
  | initiator => acceptor
  | acceptor => initiator

/-- The parity of the ids that it draws. -/
def parity : Side → ℕ
  | initiator => 1
  | acceptor => 0

/-- The first id. -/
def firstId : Side → ℕ
  | initiator => 1
  | acceptor => 2

end Side

/-- `opened` counts the ids that were drawn; `refusing`: the reader waits to send a CANCEL;
`failed`: `dispatch` has failed; `overflowed`: a queue was full. -/
structure Party where
  opened : ℕ
  streams : AList fun _ : ℕ => Stream
  refusing : Option ℕ
  failed : Bool
  overflowed : Bool

namespace Party

variable (p : Party) (side : Side)

/-- `ids`: a `u32` that wraps. -/
def nextId : ℕ := (side.firstId + 2 * p.opened) % 2 ^ 32

def put (id : ℕ) (s : Stream) : Party := { p with streams := p.streams.insert id s }

def slot (id : ℕ) : Option Stream := (p.streams.lookup id).filter (·.task = .running)

def slots : ℕ := p.streams.entries.countP fun e => e.2.task = .running

/-- `stream`. -/
def stream (id : ℕ) (s : Stream) : Option Party :=
  if p.slots < MAX_STREAMS ∧ p.slot id = none then some (p.put id s) else none

/-- `open`, up to the frame that it sends. -/
def openStream (service : String) (websocket : Bool) : Option Party :=
  if service.utf8ByteSize = 0 ∨ 128 < service.utf8ByteSize then none
  else
    let id := p.nextId side
    let p := { p with opened := p.opened + 1 }
    if id < 2 ^ 32 - 1 - 2 then
      some ((p.stream id (Stream.new websocket (.opening service))).getD p)
    else some p

def fail : Party := { p with failed := true }

/-- `try_send`, of a frame for the task of the stream. -/
def enqueue (s : Stream) (f : Frame) : Party :=
  if s.receiver.queue.length < WINDOW + 2 then
    p.put f.id { s with receiver := { s.receiver with queue := s.receiver.queue ++ [f] } }
  else { p.put f.id { s with cancel := true } with overflowed := true }

/-- A frame for a slot. -/
def toSlot (s : Stream) (f : Frame) : Party :=
  if f.kind = READY then p.put f.id { s with ready := s.ready <|> some true }
  else if f.kind = CANCEL then
    p.put f.id { s with cancel := true, ready := s.ready <|> some false }
  else if f.kind = CREDIT then
    let count := fromBeBytes f.data
    if f.data.length = 4 ∧ 0 < count ∧ count ≤ WINDOW ∧ s.sender.permits + count ≤ WINDOW then
      p.put f.id { s with sender := { s.sender with permits := s.sender.permits + count } }
    else p.fail
  else if f.kind = DATA ∨ f.kind = WS_DATA then
    if f.data ≠ [] ∧ f.data.length ≤ s.receiver.receiveCredit then
      let receiveCredit := s.receiver.receiveCredit - f.data.length
      p.enqueue { s with receiver := { s.receiver with receiveCredit } } f
    else p.fail
  else if f.kind = END ∨ f.kind = WS_CLOSE then p.enqueue s f
  else p.fail

/-- `dispatch`. -/
def dispatch (f : Frame) : Party :=
  if f.kind = OPEN ∨ f.kind = WS_OPEN then
    if f.id ≠ 0 ∧ f.id % 2 ≠ side.parity ∧ 1 ≤ f.data.length ∧ f.data.length ≤ 128 ∧
        ByteArray.validateUTF8 ⟨f.data.toArray⟩ = true then
      (p.stream f.id (Stream.new (f.kind = WS_OPEN) .connecting)).getD
        { p with refusing := some f.id }
    else p.fail
  else
    match p.slot f.id with
    | some s => p.toSlot s f
    | none => p

end Party

/-! ## Both of them -/

/-- `wire side` has the frames that `side` has sent. -/
structure Net where
  party : Side → Party
  wire : Side → List Frame

/-- `deliver side`: the next frame reaches `side`. -/
inductive Act where
  | open (side : Side) (service : String) (websocket : Bool)
  | move (side : Side) (id : ℕ) (m : Move)
  | deliver (side : Side)
  | refuse (side : Side)
  deriving DecidableEq

namespace Net

variable (n : Net)

def setParty (side : Side) (p : Party) : Net := { n with party := Function.update n.party side p }

def send (side : Side) (frames : List Frame) : Net :=
  { n with wire := Function.update n.wire side (n.wire side ++ frames) }

def deliver (side : Side) : Option Net :=
  let p := n.party side
  if p.refusing.isSome ∨ p.failed = true then none
  else
    match n.wire side.other with
    | [] => none
    | f :: rest =>
      let n := { n with wire := Function.update n.wire side.other rest }
      some (n.setParty side (((Frame.decode f.encode).map (p.dispatch side)).getD p.fail))

def step : Act → Option Net
  | .open side service websocket =>
    ((n.party side).openStream side service websocket).map (n.setParty side)
  | .move side id m => do
    let s ← (n.party side).streams.lookup id
    let (s, frames) ← s.move id m
    some ((n.setParty side ((n.party side).put id s)).send side frames)
  | .deliver side => n.deliver side
  | .refuse side =>
    (n.party side).refusing.map fun id =>
      (n.setParty side { n.party side with refusing := none }).send side
        [{ kind := CANCEL, id, data := [] }]

/-- Two endpoints that have just connected. -/
def start : Net where
  party _ :=
    { opened := 0, streams := ∅, refusing := none, failed := false, overflowed := false }
  wire _ := []

end Net

end Zeron.Preview.Mux
