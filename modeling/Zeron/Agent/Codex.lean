import Zeron.Lib.Run

/-!
# A session with the Codex app server

The main loop of `run_session` (`harness/src/codex/mod.rs`). One task reads the notifications of the
app server, the mailbox of the steers and the interrupt; a request is awaited where it is made.

* `TurnRouter`: which turn is active, and the last turns that have ended;
* `Session`: the variables of the loop, and the events it has sent;
* `steerAsNewTurn`, `drain`, `finish`: a steer that opens a turn; the queue after an end; the end of
  the stream;
* `Act`, `step`: one round of the loop.
-/

namespace Zeron.Agent.Codex

/-! ## The router -/

structure TurnRouter where
  active : Option String
  completed : List String
  deriving DecidableEq

namespace TurnRouter

variable (r : TurnRouter) (id : String)

/-- `is_completed`. -/
def isCompleted : Bool := decide (id ∈ r.completed)

/-- `remember_completed`: the last 32 turns. -/
def rememberCompleted : TurnRouter :=
  let completed := r.completed ++ [id]
  { r with completed := completed.drop (completed.length - 32) }

/-- `note_started`: a turn that is replaced is over. -/
def noteStarted : TurnRouter :=
  if id = "" ∨ r.isCompleted id then r
  else
    match r.active with
    | some prev => if prev = id then r else { r.rememberCompleted prev with active := some id }
    | none => { r with active := some id }

/-- `note_completed`. -/
def noteCompleted : TurnRouter :=
  if id = "" then r
  else
    let r := r.rememberCompleted id
    if r.active = some id then { r with active := none } else r

/-- `adopt_started`: the answer to a `turn/start`. -/
def adoptStarted : TurnRouter :=
  { r with active := if id ≠ "" ∧ r.isCompleted id = false then some id else none }

end TurnRouter

/-! ## The stream -/

inductive Status where
  | completed
  | errored
  | interrupted
  deriving DecidableEq

/-- A `Done`. Noted beside its status: the turn it is for, the router's active turn as it is sent,
and whether the interrupt had fired. -/
structure Settle where
  status : Status
  turn : Option String
  active : Option String
  fired : Bool
  deriving DecidableEq

inductive Event where
  | done (settle : Settle)
  /-- `Steered`, with the message it acknowledges. -/
  | steered (message : ℕ)
  | turnStarted (id : String)
  /-- Text, tools, usage, goals, errors. -/
  | content
  deriving DecidableEq

/-- What `command_request` makes of a prompt. -/
inductive Command where
  | text
  | native
  | refused
  deriving DecidableEq

/-- What `start_turn` returns. -/
inductive Started where
  | turn (id : String)
  | goal (startsTurn : Bool) (message : Option String)
  | failed
  deriving DecidableEq

structure Message where
  messageId : Option String
  prompt : String
  deriving DecidableEq

/-- A goal control without a message id: not a steer. -/
def Message.isControl (m : Message) : Bool :=
  m.messageId = none && (m.prompt = "/goal pause" || m.prompt = "/goal resume" ||
    m.prompt = "/goal clear")

/-- What a person says. -/
def Message.say (prompt : String) : Message := { messageId := some prompt, prompt }

/-- No prompt is a command. -/
def noCommand (_ : String) : Command := .text

/-- The loop. A steer is queued with its number. `takes` is how many events the consumer takes
before it hangs up, if it does; `begun` has the turns that were started or adopted, `delivered` the
steers that the agent took. -/
structure Session where
  router : TurnRouter
  queuedSteers : List (ℕ × String)
  steeringOpen : Bool
  interrupted : Bool
  interruptSent : Bool
  doneCurrent : Bool
  currentNative : Bool
  doneAfterInterrupt : Bool
  ended : Bool
  takes : Option ℕ
  out : List Event
  received : ℕ
  begun : List String
  delivered : List ℕ
  deriving DecidableEq

namespace Session

variable (command : String → Command) (s : Session)

def isNative (text : String) : Bool := decide (command text = .native)

def push (e : Event) : Session := { s with out := s.out ++ [e], takes := s.takes.map (· - 1) }

/-- A `Done` for a turn, now. -/
def settle (status : Status) (turn : Option String) : Event :=
  .done { status, turn, active := s.router.active, fired := s.interrupted }

/-- The bookkeeping after the loop. -/
def finish : Session :=
  if s.takes = some 0 then s
  else if s.interrupted = true ∧ s.doneAfterInterrupt = false then
    s.push (s.settle .interrupted s.router.active)
  else if s.interrupted = false ∧ s.doneCurrent = false then
    s.push (s.settle .errored s.router.active)
  else s

/-- `break 'main`. -/
def breakMain : Session := if s.ended then s else { s.finish with ended := true }

/-- `send`: the loop ends if the consumer hung up. -/
def send (e : Event) : Session :=
  if s.ended then s else if s.takes = some 0 then s.breakMain else s.push e

/-- A turn becomes active. -/
def begin (router : TurnRouter) : Session :=
  { s with
      router
      doneCurrent := false
      begun := match router.active with
        | some id => if id ∈ s.begun then s.begun else s.begun ++ [id]
        | none => s.begun }

/-- The agent takes a steer. -/
def deliver (n : ℕ) : Session := { s with delivered := s.delivered ++ [n] }

/-- `steer_as_new_turn`. -/
def steerAsNewTurn (n : ℕ) : Started → Session
  | .turn id => ((s.begin (s.router.adoptStarted id)).deliver n).send (.steered n)
  | .goal startsTurn message =>
    let s := { s.deliver n with doneCurrent := !startsTurn, currentNative := false }
    let s := (s.send .content).send (.steered n)
    let s := if message.isSome then s.send .content else s
    if startsTurn then s else s.send (s.settle .completed none)
  | .failed =>
    let s := { s with doneCurrent := true, currentNative := false }
    let s := s.send (.steered n)
    s.send (s.settle .errored none)

/-- The queue after an end, one answer for each turn that is tried: until one is open. -/
def drain (s : Session) : List (ℕ × String) → List Started → Option Session
  | [], _ => some { s with queuedSteers := [] }
  | _ :: _, [] => none
  | (n, text) :: rest, answer :: answers =>
    let s := { s with queuedSteers := rest, currentNative := isNative command text }
    let s := s.steerAsNewTurn n answer
    if s.ended ∨ s.doneCurrent = false then some s
    else drain { s with currentNative := false } rest answers

end Session

/-! ## Rounds -/

/-- `accepted` is the answer to a `turn/steer`, the `Started` that of `start_turn`, where they are
asked for. -/
inductive Act where
  | started (id : String)
  | completed (id : String) (error : Bool) (answers : List Started)
  | failed (id : String)
  | aborted (id : String)
  /-- Any other notification that is shown. -/
  | content
  | steer (message : Message) (accepted : Bool) (answer : Started)
  | mailboxClosed
  | interrupt
  | eof
  | hungUp
  deriving DecidableEq

namespace Session

variable (command : String → Command) (s : Session)

/-- The end of a turn is noted, and its `Done` sent. -/
def noteEnd (id : String) (status : Status) (after : Bool) : Session :=
  let s := { s with
    router := s.router.noteCompleted id, doneCurrent := true, doneAfterInterrupt := after }
  s.send (s.settle status (some id))

/-- `turn/completed`. -/
def completed (id : String) (error : Bool) (answers : List Started) : Option Session :=
  let status : Status :=
    if s.interrupted then .interrupted else if error then .errored else .completed
  let s := s.noteEnd id status s.doneAfterInterrupt
  if s.ended then some s
  else if s.interrupted then some { s with doneAfterInterrupt := true }.breakMain
  else
    let drained := { s with currentNative := false }.drain command s.queuedSteers answers
    drained.map fun (s : Session) =>
      if s.steeringOpen = false ∧ s.doneCurrent = true then s.breakMain else s

/-- `turn/failed` and `turn/aborted`: the session is over. -/
def cutShort (id : String) (status : Status) : Session :=
  (s.noteEnd id status (s.interrupted || s.doneAfterInterrupt)).breakMain

/-- A steer that is not held back: into the active turn, or as a new one. -/
def inject (n : ℕ) (text : String) (accepted : Bool) (answer : Started) : Session :=
  match s.router.active with
  | some expected =>
    if accepted then (s.deliver n).send (.steered n)
    else if s.router.isCompleted expected = false then
      { s with queuedSteers := s.queuedSteers ++ [(n, text)] }
    else { s with currentNative := isNative command text }.steerAsNewTurn n answer
  | none => { s with currentNative := isNative command text }.steerAsNewTurn n answer

/-- A message of the mailbox. -/
def steer (message : Message) (accepted : Bool) (answer : Started) : Session :=
  if message.isControl then s.send .content
  else
    let n := s.received
    let s := { s with received := n + 1 }
    if s.doneCurrent = false ∧ (s.queuedSteers ≠ [] ∨ s.currentNative = true ∨
        command message.prompt ≠ .text) then
      { s with queuedSteers := s.queuedSteers ++ [(n, message.prompt)] }
    else s.inject command n message.prompt accepted answer

def step : Act → Option Session
  | .started id =>
    if s.ended then none
    else
      let router := s.router.noteStarted id
      if router.active = some id then some ((s.begin router).send (.turnStarted id))
      else some { s with router }
  | .completed id error answers => if s.ended then none else s.completed command id error answers
  | .failed id =>
    if s.ended then none
    else some (s.cutShort id (if s.interrupted then .interrupted else .errored))
  | .aborted id => if s.ended then none else some (s.cutShort id .interrupted)
  | .content => if s.ended then none else some (s.send .content)
  | .steer message accepted answer =>
    if s.ended ∨ s.steeringOpen = false ∨ s.interrupted = true then none
    else some (s.steer command message accepted answer)
  | .mailboxClosed =>
    if s.ended ∨ s.steeringOpen = false ∨ s.interrupted = true then none
    else
      let s := { s with steeringOpen := false }
      if s.doneCurrent = true ∧ s.router.active = none ∧ s.queuedSteers = [] then some s.breakMain
      else some s
  | .interrupt =>
    if s.ended ∨ s.interruptSent = true then none
    else
      let s := { s with interruptSent := true, interrupted := true }
      if s.router.active = none then some s.breakMain else some s
  | .eof => if s.ended then none else some s.breakMain
  | .hungUp => if s.ended ∨ s.takes ≠ some 0 then none else some s.breakMain

/-- The variables at first. -/
def new (takes : Option ℕ) : Session where
  router := { active := none, completed := [] }
  queuedSteers := []
  steeringOpen := true
  interrupted := false
  interruptSent := false
  doneCurrent := false
  currentNative := false
  doneAfterInterrupt := false
  ended := false
  takes
  out := []
  received := 0
  begun := []
  delivered := []

/-- The session as the loop finds it: the first prompt is a turn, a goal or refused. -/
def start (prompt : String) (takes : Option ℕ) : Started → Session
  | .turn id =>
    { (new takes).begin ((new takes).router.adoptStarted id) with
      currentNative := isNative command prompt }
  | .goal startsTurn message =>
    let s := { new takes with doneCurrent := !startsTurn }
    let s := s.send .content
    let s := if message.isSome then s.send .content else s
    if startsTurn then s else s.send (s.settle .completed none)
  | .failed =>
    let s := { new takes with doneCurrent := true }
    (s.send (s.settle .errored none)).breakMain

end Session

/-! ## Sends -/

namespace Session

variable {s : Session}

theorem send_cases (s : Session) (e : Event) :
    s.ended = true ∧ s.send e = s ∨
      s.ended = false ∧ s.takes = some 0 ∧ s.send e = { s with ended := true } ∨
      s.ended = false ∧ s.takes ≠ some 0 ∧ s.send e = s.push e := by
  unfold send breakMain finish
  by_cases hended : s.ended = true
  · exact Or.inl ⟨hended, if_pos hended⟩
  · have hopen : s.ended = false := Bool.eq_false_iff.mpr hended
    by_cases htakes : s.takes = some 0
    · refine Or.inr (Or.inl ⟨hopen, htakes, ?_⟩)
      rw [if_neg hended, if_pos htakes, if_neg hended, if_pos htakes]
    · exact Or.inr (Or.inr ⟨hopen, htakes, by rw [if_neg hended, if_neg htakes]⟩)

theorem breakMain_cases (hopen : s.ended = false) :
    s.takes = some 0 ∧ s.breakMain = { s with ended := true } ∨
      s.takes ≠ some 0 ∧ s.interrupted = true ∧ s.doneAfterInterrupt = false ∧
        s.breakMain = { s.push (s.settle .interrupted s.router.active) with ended := true } ∨
      s.takes ≠ some 0 ∧ s.interrupted = false ∧ s.doneCurrent = false ∧
        s.breakMain = { s.push (s.settle .errored s.router.active) with ended := true } ∨
      (s.interrupted = true → s.doneAfterInterrupt = true) ∧
        (s.interrupted = false → s.doneCurrent = true) ∧
        s.breakMain = { s with ended := true } := by
  have hne : ¬ s.ended = true := by simp [hopen]
  unfold breakMain finish
  rw [if_neg hne]
  by_cases htakes : s.takes = some 0
  · exact Or.inl ⟨htakes, by rw [if_pos htakes]⟩
  · rw [if_neg htakes]
    by_cases hint : s.interrupted = true ∧ s.doneAfterInterrupt = false
    · exact Or.inr (Or.inl ⟨htakes, hint.1, hint.2, by rw [if_pos hint]⟩)
    · rw [if_neg hint]
      by_cases hcur : s.interrupted = false ∧ s.doneCurrent = false
      · exact Or.inr (Or.inr (Or.inl ⟨htakes, hcur.1, hcur.2, by rw [if_pos hcur]⟩))
      · refine Or.inr (Or.inr (Or.inr ⟨fun h => ?_, fun h => ?_, by rw [if_neg hcur]⟩))
        · exact eq_true_of_ne_false fun h' => hint ⟨h, h'⟩
        · exact eq_true_of_ne_false fun h' => hcur ⟨h, h'⟩

theorem breakMain_same (s : Session) :
    ∃ out takes ended, s.breakMain = { s with out, takes, ended } := by
  by_cases hended : s.ended = true
  · exact ⟨s.out, s.takes, s.ended, if_pos hended⟩
  · rcases breakMain_cases (Bool.eq_false_iff.mpr hended) with ⟨-, hs⟩ | ⟨-, -, -, hs⟩ |
      ⟨-, -, -, hs⟩ | ⟨-, -, hs⟩ <;> exact ⟨_, _, _, hs⟩

theorem send_same (s : Session) (e : Event) :
    ∃ out takes ended, s.send e = { s with out, takes, ended } := by
  rcases send_cases s e with ⟨-, hs⟩ | ⟨-, -, hs⟩ | ⟨-, -, hs⟩ <;> exact ⟨_, _, _, hs⟩

variable (e : Event)

@[simp] theorem send_router : (s.send e).router = s.router := by
  obtain ⟨_, _, _, hs⟩ := send_same s e
  rw [hs]

@[simp] theorem send_interrupted : (s.send e).interrupted = s.interrupted := by
  obtain ⟨_, _, _, hs⟩ := send_same s e
  rw [hs]

@[simp] theorem send_doneCurrent : (s.send e).doneCurrent = s.doneCurrent := by
  obtain ⟨_, _, _, hs⟩ := send_same s e
  rw [hs]

@[simp] theorem send_doneAfterInterrupt :
    (s.send e).doneAfterInterrupt = s.doneAfterInterrupt := by
  obtain ⟨_, _, _, hs⟩ := send_same s e
  rw [hs]

@[simp] theorem send_begun : (s.send e).begun = s.begun := by
  obtain ⟨_, _, _, hs⟩ := send_same s e
  rw [hs]

@[simp] theorem send_queuedSteers : (s.send e).queuedSteers = s.queuedSteers := by
  obtain ⟨_, _, _, hs⟩ := send_same s e
  rw [hs]

variable {e}

theorem send_of_ended (hended : s.ended = true) : s.send e = s := if_pos hended

theorem breakMain_of_ended (hended : s.ended = true) : s.breakMain = s := if_pos hended

end Session

/-! ## The router's memory -/

namespace TurnRouter

variable {r : TurnRouter} {id id' : String}

theorem mem_rememberCompleted (h : id' ∈ (r.rememberCompleted id).completed) :
    id' ∈ r.completed ∨ id' = id := by
  have h := List.mem_of_mem_drop h
  rwa [List.mem_append, List.mem_singleton] at h

theorem noteCompleted_of_active (hid : id ≠ "") (hactive : r.active = some id) :
    r.noteCompleted id = { r.rememberCompleted id with active := none } := by
  have hkeep : (r.rememberCompleted id).active = some id := hactive
  unfold noteCompleted
  rw [if_neg hid, if_pos hkeep]

end TurnRouter

end Zeron.Agent.Codex
