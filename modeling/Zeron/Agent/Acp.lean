import Zeron.Lib.Run

/-!
# A session with an ACP agent

The main loop of `run_session` (`harness/src/acp/mod.rs`). The reader queues the agent's
notifications and resolves the responses, each on a way of its own; the loop has one prompt
outstanding at a time. A deadline may pass at any time after it was set.

* `Turn`, `Cause`: the outstanding prompt; what a prompt was settled by;
* `Session`: the variables of the loop, its stream and the wire;
* `settle`, `eof`, `starved`, `stalled`, `finish`: the ends of a prompt;
* `Act`, `step`: one line of the agent, or one round of the loop.
-/

namespace Zeron.Agent.Acp

/-! ## The wire -/

inductive Response where
  | ok (stopReason : Option String)
  | err
  deriving DecidableEq

/-- `_x.ai/session/prompt_complete`: the prompt it is for, whether it carries the prompt's id, its
stop reason, and how many updates were written before it. -/
structure Completion where
  prompt : ℕ
  named : Bool
  stopReason : Option String
  before : ℕ
  deriving DecidableEq

/-- What waits for the loop. `boilerplate` is an update that tells of no progress, `asks` a request
that is shown. -/
inductive Incoming where
  | update (boilerplate : Bool)
  | complete (completion : Completion)
  | request (asks : Bool)
  deriving DecidableEq

/-- The answer to a `_session/steering` call. -/
inductive Reply where
  | injected
  | promptRequired (noRunningTurn : Bool)
  | failed
  deriving DecidableEq

/-- The id minted for a prompt. -/
def promptId (prompt : ℕ) : String := "zeron-p" ++ prompt.repr

theorem promptId_inj {p q : ℕ} : promptId p = promptId q ↔ p = q := by
  refine ⟨fun h => ?_, fun h => h ▸ rfl⟩
  have h := congrArg String.toList h
  rw [promptId, promptId, String.toList_append, String.toList_append, Nat.toList_repr,
    Nat.toList_repr] at h
  have h := congrArg (Nat.ofDigitChars 10 · 0) (List.append_cancel_left h)
  rwa [Nat.ofDigitChars_ten_toDigits, Nat.ofDigitChars_ten_toDigits] at h

/-! ## The stream -/

inductive Status where
  | completed
  | errored
  | interrupted
  deriving DecidableEq

/-- What a prompt was settled by. A response and a completion are noted with the prompt they are of
and the updates that were written before them. -/
inductive Cause where
  | response (prompt before : ℕ)
  | completion (completion : Completion)
  | starved
  | stalled
  | ended
  deriving DecidableEq

/-- A `Done`. Noted beside its status: the prompt it is for, its cause, how many updates were shown
before it, and whether the interrupt had fired. -/
structure Settle where
  status : Status
  prompt : Option ℕ
  cause : Cause
  seen : ℕ
  fired : Bool
  deriving DecidableEq

inductive Event where
  | done (settle : Settle)
  | update
  | steered
  /-- Message ends, usage, errors, questions. -/
  | content
  deriving DecidableEq

/-- The outstanding `session/prompt`, and the completion its future was swapped for. -/
structure Turn where
  prompt : ℕ
  completion : Option Completion
  deriving DecidableEq

inductive Signal where
  | term
  | kill
  deriving DecidableEq

structure Config where
  promptCompleteExtension : Bool
  promptStall : Bool
  steerExt : Bool

/-- The loop. `takes` is how many events the consumer takes before it hangs up, if it does;
`written` counts the updates that were read, `responses` has the answers to the prompts, each with
the updates written before it. -/
structure Session where
  promptSeq : ℕ
  currentPromptId : Option String
  completedPrompts : List String
  promptStallDeadline : Bool
  turn : Option Turn
  queuedSteers : List String
  steeringCall : Option String
  steerBacklog : List String
  steeringOpen : Bool
  interrupted : Bool
  interruptSent : Bool
  doneCurrent : Bool
  doneAfterInterrupt : Bool
  escalation : Option Signal
  starveDeadline : Bool
  cancelFlushDeadline : Bool
  childExit : Bool
  exitDrainDeadline : Bool
  ended : Bool
  takes : Option ℕ
  out : List Event
  incoming : List Incoming
  closed : Bool
  written : ℕ
  responses : ℕ → Option (Response × ℕ)

/-- `stop_outcome`. -/
def stopOutcome (res : Response) (interrupted : Bool) : Status :=
  if interrupted then .interrupted
  else
    match res with
    | .ok (some "cancelled") => .interrupted
    | .ok (some "error") | .ok (some "refusal") | .err => .errored
    | .ok _ => .completed

namespace Session

variable (c : Config) (s : Session)

/-- The updates that were shown. -/
def seen : ℕ := s.out.count .update

def push (e : Event) : Session := { s with out := s.out ++ [e], takes := s.takes.map (· - 1) }

/-- A `Done`, now. -/
def settled (status : Status) (prompt : Option ℕ) (cause : Cause) : Event :=
  .done { status, prompt, cause, seen := s.seen, fired := s.interrupted }

/-- The bookkeeping after the loop. -/
def finish : Session :=
  if s.takes = some 0 then s
  else if s.interrupted = true ∧ s.doneAfterInterrupt = false then
    s.push (s.settled .interrupted (if s.doneCurrent then none else some s.promptSeq) .ended)
  else if s.interrupted = false ∧ s.doneCurrent = false then
    s.push (s.settled .errored (some s.promptSeq) .ended)
  else s

/-- `break 'main`. -/
def breakMain : Session := if s.ended then s else { s.finish with ended := true }

/-- `send`: the loop ends if the consumer hung up. -/
def send (e : Event) : Session :=
  if s.ended then s else if s.takes = some 0 then s.breakMain else s.push e

/-! ## Prompts -/

/-- A steer becomes the next prompt. -/
def prompt : Session :=
  let s := s.send .steered
  if s.ended then s
  else
    { s with
        doneCurrent := false
        promptSeq := s.promptSeq + 1
        currentPromptId :=
          if c.promptCompleteExtension then some (promptId (s.promptSeq + 1)) else none
        promptStallDeadline := c.promptStall
        turn := some { prompt := s.promptSeq + 1, completion := none } }

/-- The result of the outstanding prompt, where its future is ready. The reader fails what is not
answered at the end of the agent's output. -/
def result (turn : Turn) : Option (Response × Cause) :=
  match turn.completion with
  | some completion =>
    some (.ok (some (completion.stopReason.getD "end_turn")), .completion completion)
  | none =>
    match s.responses turn.prompt with
    | some (res, before) => some (res, .response turn.prompt before)
    | none => if s.closed then some (.err, .ended) else none

/-- What the loop shows of an incoming message. -/
def emit : Incoming → Session
  | .update _ => s.send .update
  | .complete _ => s
  | .request asks => if asks then s.send .content else s

/-- `incoming.try_recv` until there is nothing left. -/
def drain : Session :=
  s.incoming.foldl (fun s inc => s.emit inc) { s with incoming := [] }

/-- A `_session/steering` call that is in flight as the prompt's future resolves. -/
def settleSteering (reply : Reply) : Session :=
  match s.steeringCall with
  | none => s
  | some text =>
    let s := { s with steeringCall := none }
    let s :=
      if s.interrupted then s
      else if reply = .injected then s.send .steered
      else { s with queuedSteers := s.queuedSteers ++ [text] }
    { s with queuedSteers := s.queuedSteers ++ s.steerBacklog, steerBacklog := [] }

/-- The `Done` of a prompt, with the end of its message. -/
def close (status : Status) (prompt : ℕ) (cause : Cause) : Session :=
  let s := s.send .content
  let s := { s with
    doneCurrent := true, doneAfterInterrupt := s.interrupted || s.doneAfterInterrupt }
  s.send (s.settled status (some prompt) cause)

/-- After a `Done`: the next steer of the queue, or the end once the mailbox is closed. -/
def promote : Session :=
  if s.ended then s
  else
    match s.queuedSteers with
    | _ :: rest => { s with queuedSteers := rest }.prompt c
    | [] => if s.steeringOpen then s else s.breakMain

/-- The outstanding prompt is remembered as settled, and its deadlines are void. -/
def forget : Session :=
  let completed := s.completedPrompts ++ s.currentPromptId.toList
  { s with
      turn := none
      starveDeadline := false
      promptStallDeadline := false
      currentPromptId := none
      completedPrompts := completed.drop (completed.length - 32) }

/-- The prompt's future resolves. -/
def settle (reply : Reply) : Option Session := do
  let turn ← s.turn
  let (res, cause) ← s.result turn
  if res = .err ∧ s.closed = true then some { s with turn := none }.breakMain
  else
    let s := (s.forget.settleSteering reply).drain
    let s := s.close (stopOutcome res s.interrupted) turn.prompt cause
    if s.interrupted = true ∨ res = .err then some s.breakMain else some (s.promote c)

/-- A completion of the agent; one that is stale settles nothing. -/
def complete (completion : Completion) : Session :=
  let pid := if completion.named then some (promptId completion.prompt) else none
  let stale := (∃ p ∈ pid, p ∈ s.completedPrompts) ∨ pid ≠ none ∧ pid ≠ s.currentPromptId
  if c.promptCompleteExtension = true ∧ s.interrupted = false ∧ ¬ stale then
    { s with turn := s.turn.map fun turn => { turn with completion := some completion } }
  else s

/-- The next incoming message. -/
def next (inc : Incoming) : Session :=
  match inc with
  | .update boilerplate =>
    { s with promptStallDeadline := s.promptStallDeadline && boilerplate }.send .update
  | .complete completion => { s with promptStallDeadline := false }.complete c completion
  | .request asks => { s with promptStallDeadline := false }.emit (.request asks)

/-- The end of the agent's output. -/
def eof : Session :=
  match s.turn with
  | none => s.breakMain
  | some turn =>
    match s.result turn with
    | some (.ok stop, cause) =>
      let s := { s with turn := none }
      (s.close (stopOutcome (.ok stop) s.interrupted) turn.prompt cause).breakMain
    | _ => { s with turn := none }.breakMain

/-- The waiting steers, once a `_session/steering` call is answered. -/
def followers : Session :=
  match s.steerBacklog with
  | [] => s
  | text :: rest =>
    if s.turn ≠ none ∧ s.interrupted = false then
      { s with steeringCall := some text, steerBacklog := rest }
    else { s with queuedSteers := s.queuedSteers ++ s.steerBacklog, steerBacklog := [] }

/-- A `_session/steering` call is answered. -/
def steered (text : String) (reply : Reply) : Session :=
  let s := { s with steeringCall := none }
  let s :=
    if s.interrupted then s
    else
      match reply with
      | .injected =>
        if s.turn = none then s else { s with starveDeadline := false }.drain.send .steered
      | .promptRequired noRunningTurn =>
        if s.turn = none then s.prompt c
        else
          { s with
              starveDeadline := noRunningTurn || s.starveDeadline
              queuedSteers := s.queuedSteers ++ [text] }
      | .failed =>
        if s.turn = none then s.prompt c
        else { s with queuedSteers := s.queuedSteers ++ [text] }
  if s.ended then s else s.followers

/-- A busy session has been cancelled. -/
def flush : Session :=
  let s := { s with cancelFlushDeadline := false }
  if s.turn = none then s.promote c else s

/-- Starved-turn recovery. -/
def starved : Session :=
  let s := { s with starveDeadline := false, turn := none }
  (s.close .completed s.promptSeq .starved).promote c

/-- A steer. `busy`: a tool is open, or there was traffic just now. -/
def steer (text : String) (busy : Bool) : Session :=
  if s.turn = none then
    if s.cancelFlushDeadline then { s with queuedSteers := s.queuedSteers ++ [text] }
    else if busy then
      { s with queuedSteers := s.queuedSteers ++ [text], cancelFlushDeadline := true }
    else s.prompt c
  else if c.steerExt then
    if s.steeringCall = none then { s with steeringCall := some text }
    else { s with steerBacklog := s.steerBacklog ++ [text] }
  else { s with queuedSteers := s.queuedSteers ++ [text] }

/-- The prompt-stall watchdog. -/
def stalled : Session :=
  let s := { s.send .content with doneCurrent := true }
  (s.send (s.settled .errored (some s.promptSeq) .stalled)).breakMain

end Session

/-! ## Rounds -/

/-- A line of the agent. -/
inductive Line where
  | update (boilerplate : Bool)
  | complete (prompt : ℕ) (named : Bool) (stopReason : Option String)
  | request (asks : Bool)
  | response (prompt : ℕ) (res : Response)
  | eof
  deriving DecidableEq

/-- `settle` has the answer of a steering call that is in flight, if it comes in time. -/
inductive Act where
  | read (line : Line)
  | settle (reply : Reply)
  | next
  | eof
  | steered (reply : Reply)
  | flush
  | starved
  | steer (text : String) (busy : Bool)
  | mailboxClosed
  | interrupt (target : Bool)
  | stalled
  | escalate
  | childExit
  | exitDrained
  | hungUp
  deriving DecidableEq

namespace Session

variable (c : Config) (s : Session)

def read : Line → Session
  | .update boilerplate =>
    { s with incoming := s.incoming ++ [.update boilerplate], written := s.written + 1 }
  | .complete prompt named stopReason =>
    { s with
        incoming := s.incoming ++ [.complete { prompt, named, stopReason, before := s.written }] }
  | .request asks => { s with incoming := s.incoming ++ [.request asks] }
  | .response prompt res =>
    if s.responses prompt = none ∧ prompt ≤ s.promptSeq then
      { s with responses := Function.update s.responses prompt (some (res, s.written)) }
    else s
  | .eof => { s with closed := true }

def step (a : Act) : Option Session :=
  if s.ended then none
  else
    match a with
    | .read line => if s.closed then none else some (s.read line)
    | .settle reply => s.settle c reply
    | .next =>
      match s.incoming with
      | [] => none
      | inc :: rest => some ({ s with incoming := rest }.next c inc)
    | .eof => if s.closed = true ∧ s.incoming = [] then some s.eof else none
    | .steered reply => s.steeringCall.map fun text => s.steered c text reply
    | .flush =>
      if s.cancelFlushDeadline = true ∧ s.interrupted = false then some (s.flush c) else none
    | .starved =>
      if s.starveDeadline = true ∧ s.turn ≠ none ∧ s.interrupted = false then some (s.starved c)
      else none
    | .steer text busy =>
      if s.steeringOpen = true ∧ s.interrupted = false then some (s.steer c text busy) else none
    | .mailboxClosed =>
      if s.steeringOpen = true ∧ s.interrupted = false then
        let s := { s with steeringOpen := false }
        if s.turn = none ∧ s.queuedSteers = [] then some s.breakMain else some s
      else none
    | .interrupt target =>
      if s.interruptSent then none
      else
        let s := { s with interruptSent := true, interrupted := true }
        if s.turn = none then some s.breakMain
        else some (if target then { s with escalation := some .term } else s)
    | .stalled =>
      if s.promptStallDeadline = true ∧ s.turn ≠ none ∧ s.interrupted = false then some s.stalled
      else none
    | .escalate =>
      s.escalation.map fun signal =>
        { s with
            turn := none
            escalation := match signal with
              | .term => some .kill
              | .kill => none }
    | .childExit =>
      if s.childExit then none
      else some { s with childExit := true, escalation := none, exitDrainDeadline := true }
    | .exitDrained => if s.exitDrainDeadline then some s.breakMain else none
    | .hungUp => if s.takes = some 0 then some s.breakMain else none

/-- The session with its first prompt outstanding. -/
def start (takes : Option ℕ) : Session where
  promptSeq := 1
  currentPromptId := if c.promptCompleteExtension then some (promptId 1) else none
  completedPrompts := []
  promptStallDeadline := c.promptStall
  turn := some { prompt := 1, completion := none }
  queuedSteers := []
  steeringCall := none
  steerBacklog := []
  steeringOpen := true
  interrupted := false
  interruptSent := false
  doneCurrent := false
  doneAfterInterrupt := false
  escalation := none
  starveDeadline := false
  cancelFlushDeadline := false
  childExit := false
  exitDrainDeadline := false
  ended := false
  takes
  out := []
  incoming := []
  closed := false
  written := 0
  responses := fun _ => none

end Session

/-! ## Sends -/

namespace Session

variable {s : Session}

theorem send_cases (s : Session) (e : Event) :
    s.ended = true ∧ s.send e = s ∨
      s.ended = false ∧ s.takes = some 0 ∧ s.send e = { s with ended := true } ∨
      s.ended = false ∧ s.takes ≠ some 0 ∧ s.send e = s.push e := by
  unfold send breakMain finish
  by_cases hended : s.ended = true
  · exact Or.inl ⟨hended, if_pos hended⟩
  · have hopen : s.ended = false := Bool.eq_false_iff.mpr hended
    by_cases htakes : s.takes = some 0
    · refine Or.inr (Or.inl ⟨hopen, htakes, ?_⟩)
      rw [if_neg hended, if_pos htakes, if_neg hended, if_pos htakes]
    · exact Or.inr (Or.inr ⟨hopen, htakes, by rw [if_neg hended, if_neg htakes]⟩)

theorem breakMain_cases (hopen : s.ended = false) :
    s.takes = some 0 ∧ s.breakMain = { s with ended := true } ∨
      s.interrupted = true ∧ s.doneAfterInterrupt = false ∧ s.breakMain =
        { s.push (s.settled .interrupted (if s.doneCurrent then none else some s.promptSeq) .ended)
          with ended := true } ∨
      s.interrupted = false ∧ s.doneCurrent = false ∧ s.breakMain =
        { s.push (s.settled .errored (some s.promptSeq) .ended) with ended := true } ∨
      (s.interrupted = true → s.doneAfterInterrupt = true) ∧
        (s.interrupted = false → s.doneCurrent = true) ∧
        s.breakMain = { s with ended := true } := by
  have hne : ¬ s.ended = true := by simp [hopen]
  unfold breakMain finish
  rw [if_neg hne]
  by_cases htakes : s.takes = some 0
  · exact Or.inl ⟨htakes, by rw [if_pos htakes]⟩
  · rw [if_neg htakes]
    by_cases hint : s.interrupted = true ∧ s.doneAfterInterrupt = false
    · exact Or.inr (Or.inl ⟨hint.1, hint.2, by rw [if_pos hint]⟩)
    · rw [if_neg hint]
      by_cases hcur : s.interrupted = false ∧ s.doneCurrent = false
      · exact Or.inr (Or.inr (Or.inl ⟨hcur.1, hcur.2, by rw [if_pos hcur]⟩))
      · refine Or.inr (Or.inr (Or.inr ⟨fun h => ?_, fun h => ?_, by rw [if_neg hcur]⟩))
        · exact eq_true_of_ne_false fun h' => hint ⟨h, h'⟩
        · exact eq_true_of_ne_false fun h' => hcur ⟨h, h'⟩

theorem send_same (s : Session) (e : Event) :
    ∃ out takes ended, s.send e = { s with out, takes, ended } := by
  rcases send_cases s e with ⟨-, hs⟩ | ⟨-, -, hs⟩ | ⟨-, -, hs⟩ <;> exact ⟨_, _, _, hs⟩

theorem emit_same (s : Session) (inc : Incoming) :
    ∃ out takes ended, s.emit inc = { s with out, takes, ended } := by
  cases inc with
  | update boilerplate => exact send_same s .update
  | complete completion => exact ⟨_, _, _, rfl⟩
  | request asks =>
    cases asks with
    | true => exact send_same s .content
    | false => exact ⟨_, _, _, rfl⟩

theorem drain_same (s : Session) :
    ∃ out takes ended, s.drain = { s with incoming := [], out, takes, ended } := by
  unfold drain
  have hfold : ∀ (l : List Incoming) (s : Session), ∃ out takes ended,
      l.foldl (fun s inc => s.emit inc) s = { s with out, takes, ended } := by
    intro l
    induction l with
    | nil => exact fun s => ⟨_, _, _, rfl⟩
    | cons inc l ih =>
      intro s
      obtain ⟨out, takes, ended, hs⟩ := emit_same s inc
      obtain ⟨out', takes', ended', hs'⟩ := ih (s.emit inc)
      rw [List.foldl_cons]
      exact ⟨out', takes', ended', by rw [hs', hs]⟩
  exact hfold s.incoming _

theorem send_of_ended (hended : s.ended = true) (e : Event) : s.send e = s := if_pos hended

theorem breakMain_of_ended (hended : s.ended = true) : s.breakMain = s := if_pos hended

end Session

end Zeron.Agent.Acp
