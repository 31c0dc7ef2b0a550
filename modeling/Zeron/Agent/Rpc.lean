import Zeron.Lib.Json
import Zeron.Lib.Run

/-!
# Calls to an agent

JSON-RPC over the stdio of a child (`harness/src/jsonrpc.rs`): the calls, the task that reads the
child's output, the table they share and the channel for everything that is no response.

* `Line`, `hear`: what the reader makes of a line;
* `Rpc`, `Act`, `step`: callers and reader, a step for each lock, send and await;
* `Call.heard`: the responses that named a call, in order.
-/

namespace Zeron.Agent

/-! ## Lines -/

/-- The `id` of a message. -/
inductive Id where
  | int (n : ℤ)
  | float (q : ℚ)
  | str (s : String)
  | other
  deriving DecidableEq

/-- The fields of a JSON object that the reader looks at. -/
structure Message where
  jsonrpc : Option Json
  method : Option Json
  id : Option Id
  result : Option Json
  error : Option Json
  params : Option Json
  deriving DecidableEq

/-- A line of the child's output, trimmed. -/
inductive Line where
  /-- Empty, a link to log in with, no JSON, or no object. -/
  | noise
  | object (message : Message)
  deriving DecidableEq

/-- What goes to the session loop. -/
inductive Incoming where
  | notification (method : String) (params : Json)
  | request (id : Id) (method : String) (params : Json)
  | eof
  deriving DecidableEq

/-- The result or the error's text. -/
inductive Outcome where
  | ok (result : Json)
  | err (message : String)
  deriving DecidableEq

def i64Min : ℤ := -2 ^ 63

def i64Max : ℤ := 2 ^ 63 - 1

/-- Digits, at least one. -/
def parseDigits (digits : List Char) : Option ℕ :=
  if digits ≠ [] ∧ digits.all Char.isDigit then
    some (digits.foldl (fun n c => 10 * n + (c.toNat - '0'.toNat)) 0)
  else none

/-- `str::parse::<i64>`. -/
def parseI64 (s : String) : Option ℤ :=
  let signed : Option ℤ := match s.toList with
    | '-' :: digits => (parseDigits digits).map fun n => -(n : ℤ)
    | '+' :: digits => (parseDigits digits).map fun n => (n : ℤ)
    | digits => (parseDigits digits).map fun n => (n : ℤ)
  signed.filter fun n => i64Min ≤ n ∧ n ≤ i64Max

/-- `as i64`, of a whole number. -/
def saturate (n : ℤ) : ℤ := max i64Min (min n i64Max)

/-- `response_id`. -/
def responseId : Id → Option ℤ
  | .int n => some (saturate n)
  | .float q => if q.isInt then some (saturate q.num) else none
  | .str s => parseI64 s
  | .other => none

/-- `Value::get`. -/
def get (key : String) : Json → Option Json
  | .obj members => members.reverse.lookup key
  | _ => none

/-- `response_error`, where `toText` prints a value. -/
def responseError (toText : Json → String) (error : Json) : String :=
  match (get "message" error).bind Json.asStr with
  | none => toText error
  | some message =>
    let rendered := match (get "code" error).bind Json.asI64 with
      | none => message
      | some code => message ++ " (code " ++ toString code ++ ")"
    match (get "data" error).filter fun data => !data.isNull with
    | none => rendered
    | some data =>
      let detail := data.asStr.getD (toText data)
      if detail = "" then rendered else rendered ++ ": " ++ detail

/-- What the reader does with a line. -/
inductive Heard where
  | skip
  | response (id : ℤ) (outcome : Outcome)
  | forward (incoming : Incoming)
  deriving DecidableEq

/-- The body of `read_loop`. -/
def hear (toText : Json → String) : Line → Heard
  | .noise => .skip
  | .object m =>
    if m.jsonrpc.any (· ≠ .str "2.0") then .skip
    else
      match m.method.bind Json.asStr, m.id with
      | none, some id =>
        if m.result = none ∧ m.error = none then .skip
        else
          match responseId id with
          | none => .skip
          | some id =>
            .response id (match m.error with
              | some error => .err (responseError toText error)
              | none => .ok (m.result.getD .null))
      | some method, some id => .forward (.request id method (m.params.getD .null))
      | some method, none => .forward (.notification method (m.params.getD .null))
      | none, none => .skip

/-! ## The client -/

/-- How a call ended. -/
inductive End where
  | answered (outcome : Outcome)
  | exited
  | stdinClosed
  deriving DecidableEq

/-- How far `request` is. -/
inductive Stage where
  | idle
  /-- The id is taken. -/
  | minted
  /-- The call is in the table. -/
  | entered
  /-- The request is written. -/
  | awaiting
  | ended (how : End)
  /-- The caller is gone. -/
  | dropped
  deriving DecidableEq

structure Call where
  method : String
  id : ℤ
  stage : Stage
  /-- What its channel holds. -/
  answer : Option Outcome
  /-- The responses that named it since it entered the table. -/
  heard : List Outcome
  deriving DecidableEq

/-- Where `read_loop` is. -/
inductive Reader where
  | reading
  | forwarding (incoming : Incoming)
  /-- The flag is up. -/
  | closing
  /-- The table is cleared. -/
  | signalling
  | stopped
  deriving DecidableEq

structure Rpc where
  nextId : ℤ
  /-- `pending`: the callers by id. -/
  table : ℤ → Option ℕ
  closed : Bool
  /-- The task that writes to the child is there. -/
  writing : Bool
  channel : List Incoming
  /-- The receiver of the channel is there. -/
  listening : Bool
  reader : Reader
  calls : ℕ → Call

/-- The capacity of the channel. -/
def capacity : ℕ := 256

def Rpc.start : Rpc where
  nextId := 0
  table := fun _ => none
  closed := false
  writing := true
  channel := []
  listening := true
  reader := .reading
  calls := fun _ => { method := "", id := 0, stage := .idle, answer := none, heard := [] }

inductive Act where
  -- a caller
  | mint (i : ℕ) (method : String)
  | enter (i : ℕ)
  | send (i : ℕ)
  | finish (i : ℕ)
  | cancel (i : ℕ)
  -- the reader
  | read (line : Line)
  /-- End of the output, or a read error. -/
  | close
  | clear
  | forward
  | signal
  -- the others
  | receive
  | lose
  | writerStops
  deriving DecidableEq

namespace Rpc

variable (toText : Json → String) (s : Rpc)

def setCall (i : ℕ) (c : Call) : Rpc := { s with calls := Function.update s.calls i c }

/-- Every call that `id` names hears the response. -/
def note (id : ℤ) (outcome : Outcome) : Rpc :=
  { s with
      calls := fun i =>
        let c := s.calls i
        if (c.stage = .entered ∨ c.stage = .awaiting) ∧ c.id = id then
          { c with heard := c.heard ++ [outcome] }
        else c }

/-- A response resolves the call in the table. -/
def resolve (id : ℤ) (outcome : Outcome) : Rpc :=
  match s.table id with
  | none => s
  | some i =>
    { s with table := Function.update s.table id none }.setCall i
      { s.calls i with answer := some outcome }

def enter (i : ℕ) : Option Rpc :=
  let c := s.calls i
  if c.stage ≠ .minted then none
  else if s.closed then some (s.setCall i { c with stage := .ended .exited })
  else
    some ({ s with table := Function.update s.table c.id (some i) }.setCall i
      { c with stage := .entered })

def send (i : ℕ) : Option Rpc :=
  let c := s.calls i
  if c.stage ≠ .entered then none
  else if s.writing then some (s.setCall i { c with stage := .awaiting })
  else
    some ({ s with table := Function.update s.table c.id none }.setCall i
      { c with stage := .ended .stdinClosed })

/-- `rx.await`: the answer, or the channel is gone. -/
def finish (i : ℕ) : Option Rpc :=
  let c := s.calls i
  if c.stage ≠ .awaiting then none
  else
    match c.answer with
    | some outcome => some (s.setCall i { c with stage := .ended (.answered outcome) })
    | none =>
      if s.table c.id = some i then none
      else some (s.setCall i { c with stage := .ended .exited })

def read (line : Line) : Option Rpc :=
  match s.reader, hear toText line with
  | .reading, .skip => some s
  | .reading, .response id outcome => some ((s.note id outcome).resolve id outcome)
  | .reading, .forward incoming => some { s with reader := .forwarding incoming }
  | _, _ => none

def forward : Option Rpc :=
  match s.reader with
  | .forwarding incoming =>
    if !s.listening then some { s with reader := .stopped }
    else if s.channel.length < capacity then
      some { s with reader := .reading, channel := s.channel ++ [incoming] }
    else none
  | _ => none

def signal : Option Rpc :=
  match s.reader with
  | .signalling =>
    if !s.listening then some { s with reader := .stopped }
    else if s.channel.length < capacity then
      some { s with reader := .stopped, channel := s.channel ++ [.eof] }
    else none
  | _ => none

/-- One step; `none` where the act is not possible. -/
def step : Act → Option Rpc
  | .mint i method =>
    if (s.calls i).stage = .idle then
      some ({ s with nextId := s.nextId + 1 }.setCall i
        { method, id := s.nextId + 1, stage := .minted, answer := none, heard := [] })
    else none
  | .enter i => s.enter i
  | .send i => s.send i
  | .finish i => s.finish i
  | .cancel i =>
    if (s.calls i).stage = .entered ∨ (s.calls i).stage = .awaiting then
      some (s.setCall i { s.calls i with stage := .dropped })
    else none
  | .read line => s.read toText line
  | .close =>
    if s.reader = .reading then some { s with reader := .closing, closed := true } else none
  | .clear =>
    if s.reader = .closing then some { s with reader := .signalling, table := fun _ => none }
    else none
  | .forward => s.forward
  | .signal => s.signal
  | .receive =>
    match s.listening, s.channel with
    | true, _ :: rest => some { s with channel := rest }
    | _, _ => none
  | .lose => some { s with listening := false, channel := [] }
  | .writerStops => some { s with writing := false }

end Rpc

end Zeron.Agent
