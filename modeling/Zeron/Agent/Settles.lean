import Zeron.Lib.Run
import Zeron.Agent.Claude

/-!
# Every turn of the Claude CLI settles

The loop of `run_session` (`harness/src/claude/mod.rs`). One task reads the frames of the CLI, the
mailbox of the steers and the interrupt; a tool's question waits for the user in a task of its own.

* `parseQuestions`, `updatedInputWithAnswers`: a question of the CLI, and its answer;
* `Session`, `Act`, `step`: the variables of the loop, and one round of it;
* `Settles`: what is promised of the turns and of the control requests;
* **`session_settles`**; `later_turn_lost`: a crash in a later turn ends with no `Done`.
-/

namespace Zeron.Agent.Claude

open Run

/-! ## Control requests -/

structure UserInputQuestion where
  id : ℕ
  header : String
  question : String
  multiSelect : Bool
  options : List String
  deriving DecidableEq

structure UserInputAnswer where
  questionId : ℕ
  labels : List String
  deriving DecidableEq

def optionLabel (option : Json) : String :=
  match option with
  | .str s => s
  | other => (((get other "label").orElse fun _ => get other "value").bind Json.asStr).getD ""

/-- One item of the tool's `questions`. -/
def parseQuestion (id : ℕ) (q : Json) : UserInputQuestion :=
  let field := fun keys : List String => keys.findSome? fun key => (get q key).bind Json.asStr
  { id
    header := (field ["header", "title"]).getD "Question"
    question := (field ["question", "prompt"]).getD ""
    multiSelect := (["multiSelect", "multi_select"].findSome? fun key =>
      (get q key).bind Json.asBool).getD false
    options := (itemsOf (get q "options")).map optionLabel }

/-- `parse_questions`; the ids, which the code draws at random, are the positions. -/
def parseQuestions (input : Json) : List UserInputQuestion :=
  (itemsOf (get input "questions")).mapIdx parseQuestion

/-- `Map::insert`. -/
def insertMember (members : List (String × Json)) (key : String) (v : Json) :
    List (String × Json) :=
  members.filter (·.1 ≠ key) ++ [(key, v)]

def answerValue (answers : List UserInputAnswer) (q : UserInputQuestion) : Json :=
  let labels := ((answers.find? (·.questionId = q.id)).map (·.labels)).getD []
  if q.multiSelect then .arr (labels.map .str) else .str (labels.head?.getD "")

/-- `updated_input_with_answers`. -/
def updatedInputWithAnswers (input : Json) (questions : List UserInputQuestion)
    (answers : List UserInputAnswer) : Json :=
  let updated := match input with
    | .obj members => members
    | _ => []
  let byQuestion := questions.foldl
    (fun members q => insertMember members q.question (answerValue answers q)) []
  .obj (insertMember updated "answers" (.obj byQuestion))

def allowResponse (updatedInput : Json) : Json :=
  .obj [("behavior", .str "allow"), ("updatedInput", updatedInput)]

def titleDenial : Json :=
  .obj [("behavior", .str "deny"), ("message", .str "Tools are disabled for title generation")]

/-! ## The loop -/

/-- What is queued for the CLI's input. -/
inductive StdinMsg where
  | user (prompt : String)
  | controlResponse (requestId : String) (response : Json)
  | interruptRequest
  | close
  deriving DecidableEq

def StdinMsg.answers (requestId : String) : StdinMsg → Bool
  | .controlResponse id _ => id = requestId
  | _ => false

/-- An item of the stream: an event, or the error of a read. -/
inductive Item where
  | ok (ev : AgentEvent)
  | io
  deriving DecidableEq

def Item.event : Item → Option AgentEvent
  | .ok ev => some ev
  | .io => none

/-- A question that waits for the user; `early`: it was read while the input was open. -/
structure Question where
  requestId : String
  input : Json
  early : Bool
  deriving DecidableEq

inductive Stage where
  /-- In the loop. -/
  | running
  /-- Past the loop, before the terminal bookkeeping. -/
  | leaving
  | ended
  deriving DecidableEq

/-- The variables of `run_session`; `sending` is what is left of the events it is at, `listening`
the consumer, `stdin` and `out` what it has sent. The last three follow the CLI: whether a turn is
in flight, the `Done` of each terminal frame, and the requests read while the input was open. -/
structure Session where
  titleOnly : Bool
  norm : Normalizer
  steeringOpen : Bool
  interrupted : Bool
  interruptSent : Bool
  anyDone : Bool
  doneAfterInterrupt : Bool
  sending : List AgentEvent
  stage : Stage
  listening : Bool
  questions : List Question
  stdin : List StdinMsg
  out : List Item
  inFlight : Bool
  results : List AgentEvent
  asked : List String

/-- A frame that tells of a turn. -/
def Frame.opensTurn : Frame → Bool
  | .system f => f.subtype = "init"
  | .streamEvent f => f.parentToolUseId.isNone
  | .assistant f | .user f => f.parentToolUseId.isNone
  | _ => false

/-- A turn is over with its terminal frame, unless the CLI is in another by then. -/
def Frame.flight (frame : Frame) (inFlight goesOn : Bool) : Bool :=
  match frame with
  | .result _ => goesOn
  | frame => inFlight || frame.opensTurn

inductive Act where
  /-- A line of output; `none` is blank or does not parse. `goesOn`: at a terminal frame, the CLI
  is in another turn. -/
  | line (frame : Option Frame) (goesOn : Bool)
  | eof
  | readError
  | steer (prompt : String)
  | closeMailbox
  | interrupt
  /-- The loop finds that the consumer is gone. -/
  | closed
  /-- The next event is sent. -/
  | emit
  /-- The terminal bookkeeping, with the message of a crash. -/
  | finish (crash : String)
  /-- The consumer goes. -/
  | hangUp
  /-- The user answers a question; a dropped one has no answers. -/
  | answer (i : ℕ) (answers : List UserInputAnswer)
  deriving DecidableEq

namespace Session

/-- The session of a prompt. -/
def start (titleOnly : Bool) (prompt : String) : Session :=
  { titleOnly, norm := .new, steeringOpen := true, interrupted := false, interruptSent := false
    anyDone := false, doneAfterInterrupt := false, sending := [], stage := .running
    listening := true, questions := [], stdin := [.user prompt], out := [], inFlight := true
    results := [], asked := [] }

variable (s : Session)

/-- The loop waits for what comes next. -/
def Selecting : Prop := s.stage = .running ∧ s.sending = []

instance : Decidable s.Selecting := inferInstanceAs (Decidable (_ ∧ _))

def send (msg : StdinMsg) : Session := { s with stdin := s.stdin ++ [msg] }

/-- A request is read. -/
def ask (requestId : String) : Session :=
  { s with asked := if s.steeringOpen then s.asked ++ [requestId] else s.asked }

/-- `handle_control_request`, and what a title's session does instead. -/
def handleControlRequest (req : ControlRequestFrame) : Session :=
  if s.titleOnly then s.send (.controlResponse req.requestId titleDenial)
  else if req.subtype ≠ "can_use_tool" then s
  else if req.toolName ≠ "AskUserQuestion" then
    s.send (.controlResponse req.requestId (allowResponse req.input))
  else
    { s with questions := s.questions ++ [⟨req.requestId, req.input, s.steeringOpen⟩] }

def frame (frame : Frame) (goesOn : Bool) : Session :=
  let (norm, events) := s.norm.normalize frame s.interrupted
  { s with
    norm
    sending := events
    inFlight := frame.flight s.inFlight goesOn
    results := s.results ++ Normalizer.doneOfFrame frame s.interrupted }

/-- The steer's line, and its `Steered` event. -/
def steer (prompt : String) : Session :=
  { s.send (.user prompt) with
    norm := s.norm.rotateForSteer
    sending := [.steered s.norm.assistantMessageId s.norm.rotateForSteer.assistantMessageId]
    inFlight := true }

def leave : Session := { s with stage := .leaving, sending := [] }

/-- The event is sent; an interrupted turn's `Done` ends the loop. -/
def emit (ev : AgentEvent) (rest : List AgentEvent) : Session :=
  if s.listening then
    let sent :=
      { s with out := s.out ++ [.ok ev], sending := rest, anyDone := s.anyDone || ev.isDone }
    if ev.isDone && s.interrupted then { sent with doneAfterInterrupt := true }.leave else sent
  else s.leave

/-- The `Done` of the terminal bookkeeping. -/
def closingDone (crash : String) : Option AgentEvent :=
  if s.interrupted && !s.doneAfterInterrupt then
    some (.done .interrupted none none s.norm.sessionId)
  else if !s.interrupted && !s.anyDone then
    some (.done .errored none (some crash) s.norm.sessionId)
  else none

def finish (crash : String) : Session :=
  { s with
    stage := .ended
    out := s.out ++ if s.listening then (s.closingDone crash).toList.map .ok else [] }

/-- The answer of a question is sent from its own task. -/
def answer (q : Question) (rest : List Question) (answers : List UserInputAnswer) : Session :=
  { s with questions := rest }.send (.controlResponse q.requestId
    (allowResponse (updatedInputWithAnswers q.input (parseQuestions q.input) answers)))

def step : Act → Option Session
  | .line none _ => if s.Selecting then some s else none
  | .line (some (.controlRequest req)) _ =>
    if s.Selecting then some ((s.ask req.requestId).handleControlRequest req) else none
  | .line (some f) goesOn => if s.Selecting then some (s.frame f goesOn) else none
  | .eof => if s.Selecting then some s.leave else none
  | .readError =>
    if s.Selecting then
      some { s.leave with out := if s.listening then s.out ++ [.io] else s.out }
    else none
  | .steer prompt =>
    if s.Selecting ∧ s.steeringOpen = true ∧ s.interrupted = false then some (s.steer prompt)
    else none
  | .closeMailbox =>
    if s.Selecting ∧ s.steeringOpen = true ∧ s.interrupted = false then
      some { s.send .close with steeringOpen := false }
    else none
  | .interrupt =>
    if s.Selecting ∧ s.interruptSent = false then
      some { s.send .interruptRequest with interrupted := true, interruptSent := true }
    else none
  | .closed => if s.Selecting ∧ s.listening = false then some s.leave else none
  | .emit =>
    match s.sending with
    | ev :: rest => if s.stage = .running then some (s.emit ev rest) else none
    | [] => none
  | .finish crash => if s.stage = .leaving then some (s.finish crash) else none
  | .hangUp => some { s with listening := false }
  | .answer i answers =>
    match s.questions[i]? with
    | some q => some (s.answer q (s.questions.eraseIdx i) answers)
    | none => none

/-! ## What is promised -/

def dones : List AgentEvent := (s.out.filterMap Item.event).filter AgentEvent.isDone

/-- What the CLI reads: nothing that is queued after the close. -/
def heard : List StdinMsg := s.stdin.takeWhile (· ≠ .close)

/-- The questions of a request that are open, of those read while the input was open. -/
def waiting (requestId : String) : ℕ :=
  s.questions.countP fun q => q.early && q.requestId = requestId

/-- Each terminal frame has one `Done`, in order, and the stream of a consumer that stays ends with
no turn in flight, or with a `Done` for it; each request read while the input was open is answered
once, or waits for the user. -/
structure Settles : Prop where
  ordered : ∃ crash, s.dones <+: s.results ++ (s.closingDone crash).toList
  settled : s.stage = .ended → s.listening = true → ∃ crash,
    s.dones = s.results ++ (s.closingDone crash).toList ∧
      (s.inFlight = true → s.closingDone crash ≠ none)
  answered : ∀ id, s.heard.countP (StdinMsg.answers id) + s.waiting id = s.asked.count id

/-- The output ends in the first turn, between turns or after the interrupt; the frame of an
interrupted turn is the CLI's last; a request is one the session serves; and no question is open
when the mailbox closes. -/
def Orderly : Act → Prop
  | .eof | .readError => s.inFlight = true → s.interrupted = true ∨ s.anyDone = false
  | .line (some (.controlRequest req)) _ =>
    s.steeringOpen = true → s.titleOnly = true ∨ req.subtype = "can_use_tool"
  | .line (some (.result _)) goesOn => s.interrupted = true → goesOn = false
  | .closeMailbox => s.questions = []
  | _ => True

instance (a : Act) : Decidable (s.Orderly a) :=
  match a with
  | .eof | .readError => inferInstanceAs (Decidable (_ → _))
  | .line (some (.controlRequest _)) _ => inferInstanceAs (Decidable (_ → _))
  | .line (some (.result _)) _ => inferInstanceAs (Decidable (_ → _))
  | .closeMailbox => inferInstanceAs (Decidable (s.questions = []))
  | .line none _ | .line (some (.system _)) _ | .line (some (.streamEvent _)) _
  | .line (some (.assistant _)) _ | .line (some (.user _)) _ | .line (some (.rateLimit _)) _
  | .line (some .other) _ | .steer _ | .interrupt | .closed | .emit | .finish _ | .hangUp
  | .answer _ _ => isTrue trivial

/-! ## Control requests are answered -/

variable {s s' : Session}

structure Requests (s : Session) : Prop where
  answered : ∀ id, s.heard.countP (StdinMsg.answers id) + s.waiting id = s.asked.count id
  early : ∀ q ∈ s.questions, q.early = s.steeringOpen
  opened : s.steeringOpen = true ↔ .close ∉ s.stdin

theorem heard_of_open (h : .close ∉ s.stdin) : s.heard = s.stdin := by
  refine List.takeWhile_eq_self_iff.mpr fun msg hmsg => ?_
  rw [decide_eq_true_iff]
  rintro rfl
  exact h hmsg

theorem heard_of_closed (h : .close ∈ s.stdin) {msgs : List StdinMsg}
    (hs' : s'.stdin = s.stdin ++ msgs) : s'.heard = s.heard := by
  rw [heard, heard, hs', List.takeWhile_append, if_neg]
  intro hlen
  have hall := (List.takeWhile_prefix _).eq_of_length hlen
  have := List.takeWhile_eq_self_iff.mp hall .close h
  simp at this

namespace Requests

theorem stay (h : s.Requests) (msgs : List StdinMsg)
    (hquiet : ∀ msg ∈ msgs, msg ≠ .close ∧ ∀ id, StdinMsg.answers id msg = false)
    (hstdin : s'.stdin = s.stdin ++ msgs) (hq : s'.questions = s.questions)
    (hasked : s'.asked = s.asked) (hopen : s'.steeringOpen = s.steeringOpen) : s'.Requests where
  answered id := by
    have hheard : s'.heard.countP (StdinMsg.answers id) = s.heard.countP (StdinMsg.answers id) := by
      by_cases hc : .close ∈ s.stdin
      · rw [heard_of_closed hc hstdin]
      · have hc' : .close ∉ s'.stdin := by
          rw [hstdin, List.mem_append]
          rintro (h' | h')
          · exact hc h'
          · exact (hquiet _ h').1 rfl
        rw [heard_of_open hc, heard_of_open hc', hstdin, List.countP_append]
        have : msgs.countP (StdinMsg.answers id) = 0 :=
          List.countP_eq_zero.mpr fun msg hmsg => by simp [(hquiet msg hmsg).2 id]
        omega
    have := h.answered id
    simp only [hheard, waiting, hq, hasked] at this ⊢
    exact this
  early q hm := by
    rw [hopen]
    exact h.early q (hq ▸ hm)
  opened := by
    rw [hopen, h.opened, hstdin, List.mem_append, not_or]
    refine ⟨fun hc => ⟨hc, fun hm => (hquiet _ hm).1 rfl⟩, And.left⟩

theorem respond (h : s.Requests) (id : String) (body : Json) :
    ((s.ask id).send (.controlResponse id body)).Requests where
  answered id' := by
    have := h.answered id'
    by_cases hc : .close ∈ s.stdin
    · have hopen : s.steeringOpen = false := by simpa using mt h.opened.mp (not_not.mpr hc)
      rw [heard_of_closed hc (by rfl)]
      simpa [send, ask, waiting, hopen] using this
    · have hopen := h.opened.mpr hc
      rw [heard_of_open hc] at this
      rw [heard_of_open (by simp [send, ask, hc])]
      simp only [send, ask, hopen, if_true, List.countP_append, List.count_append,
        waiting] at this ⊢
      by_cases hid : id = id' <;> simp [StdinMsg.answers, hid] <;> omega
  early q hq := h.early q hq
  opened := by simp [send, ask, h.opened]

theorem wait (h : s.Requests) (id : String) (input : Json) :
    Requests { s.ask id with
      questions := s.questions ++ [⟨id, input, s.steeringOpen⟩] } where
  answered id' := by
    have := h.answered id'
    show s.heard.countP _ + _ = _
    simp only [ask, waiting, List.countP_append] at this ⊢
    cases hopen : s.steeringOpen <;> by_cases hid : id = id' <;> simp [hid] <;> omega
  early q hq := by
    simp only [List.mem_append, List.mem_singleton] at hq
    rcases hq with hq | rfl
    · exact h.early q hq
    · rfl
  opened := h.opened

theorem answer (h : s.Requests) {i : ℕ} {q : Question} (hi : s.questions[i]? = some q)
    (answers : List UserInputAnswer) :
    (s.answer q (s.questions.eraseIdx i) answers).Requests where
  answered id := by
    have := h.answered id
    obtain ⟨hlt, hget⟩ := List.getElem?_eq_some_iff.mp hi
    have hperm := (List.getElem_cons_eraseIdx_perm hlt).countP_eq
      fun q : Question => q.early && q.requestId = id
    rw [List.countP_cons, hget] at hperm
    by_cases hc : .close ∈ s.stdin
    · have hopen : s.steeringOpen = false := by simpa using mt h.opened.mp (not_not.mpr hc)
      have hq := h.early q (hget ▸ List.getElem_mem hlt)
      rw [heard_of_closed hc (by rfl)]
      simp only [Session.answer, send, waiting] at this ⊢
      simp only [hq, hopen] at hperm
      simp only [Bool.false_and, Bool.false_eq_true, if_false] at hperm
      omega
    · have hq := h.early q (hget ▸ List.getElem_mem hlt)
      rw [h.opened.mpr hc] at hq
      rw [heard_of_open hc] at this
      rw [heard_of_open (by simp [Session.answer, send, hc])]
      simp only [Session.answer, send, waiting, List.countP_append] at this ⊢
      by_cases hid : q.requestId = id <;> simp [StdinMsg.answers, hid, hq] at hperm ⊢ <;> omega
  early r hr := h.early r (List.mem_of_mem_eraseIdx hr)
  opened := by simp [Session.answer, send, h.opened]

theorem close (h : s.Requests) (hq : s.questions = []) :
    ({ s.send .close with steeringOpen := false } : Session).Requests where
  answered id := by
    have := h.answered id
    simp only [heard, send, waiting, hq] at this ⊢
    rw [← this, List.takeWhile_append]
    split_ifs with hlen
    · rw [(List.takeWhile_prefix _).eq_of_length hlen]
      simp
    · rfl
  early q hm := by simp [send, hq] at hm
  opened := by simp [send]

end Requests

theorem step_line {f : Frame} (hf : ∀ req, f ≠ .controlRequest req) (goesOn : Bool) :
    s.step (.line (some f) goesOn) =
      if s.Selecting then some (s.frame f goesOn) else none := by
  cases f
  case controlRequest req => exact absurd rfl (hf req)
  all_goals rfl

theorem Requests.control (h : s.Requests) {req : ControlRequestFrame}
    (hserved : s.steeringOpen = true → s.titleOnly = true ∨ req.subtype = "can_use_tool") :
    ((s.ask req.requestId).handleControlRequest req).Requests := by
  have htitle : (s.ask req.requestId).titleOnly = s.titleOnly := rfl
  simp only [handleControlRequest, htitle]
  split_ifs with ht hsub hname
  · exact h.respond _ _
  · have hopen : s.steeringOpen = false := by
      by_contra hopen
      exact (hserved (by simpa using hopen)).elim ht hsub
    refine h.stay [] (by simp) (by simp [ask]) rfl ?_ rfl
    simp [ask, hopen]
  · exact h.respond _ _
  · exact h.wait _ _

theorem requests_step {a : Act} (h : s.Requests) (hg : s.Orderly a) (hs : s.step a = some s') :
    s'.Requests := by
  cases a with
  | line frame goesOn =>
    cases frame with
    | none =>
      obtain ⟨-, rfl⟩ := of_guard hs
      exact h
    | some f =>
      by_cases hf : ∃ req, f = .controlRequest req
      · obtain ⟨req, rfl⟩ := hf
        obtain ⟨-, rfl⟩ := of_guard hs
        exact h.control hg
      · rw [step_line fun req he => hf ⟨req, he⟩] at hs
        obtain ⟨-, rfl⟩ := of_guard hs
        exact h.stay [] (by simp) (by simp [frame]) rfl rfl rfl
  | eof =>
    obtain ⟨-, rfl⟩ := of_guard hs
    exact h.stay [] (by simp) (by simp [leave]) rfl rfl rfl
  | readError =>
    obtain ⟨-, rfl⟩ := of_guard hs
    exact h.stay [] (by simp) (by simp [leave]) rfl rfl rfl
  | steer prompt =>
    obtain ⟨-, rfl⟩ := of_guard hs
    exact h.stay [.user prompt] (by simp [StdinMsg.answers]) rfl rfl rfl rfl
  | closeMailbox =>
    obtain ⟨-, rfl⟩ := of_guard hs
    exact h.close hg
  | interrupt =>
    obtain ⟨-, rfl⟩ := of_guard hs
    exact h.stay [.interruptRequest] (by simp [StdinMsg.answers]) rfl rfl rfl rfl
  | closed =>
    obtain ⟨-, rfl⟩ := of_guard hs
    exact h.stay [] (by simp) (by simp [leave]) rfl rfl rfl
  | emit =>
    simp only [step] at hs
    split at hs
    · obtain ⟨-, rfl⟩ := of_guard hs
      simp only [Session.emit, leave]
      split_ifs <;> exact h.stay [] (by simp) (by simp) rfl rfl rfl
    · simp at hs
  | finish crash =>
    obtain ⟨-, rfl⟩ := of_guard hs
    exact h.stay [] (by simp) (by simp [Session.finish]) rfl rfl rfl
  | hangUp =>
    obtain rfl := Option.some_inj.mp hs
    exact h.stay [] (by simp) (by simp) rfl rfl rfl
  | answer i answers =>
    simp only [step] at hs
    split at hs
    · rename_i q hq
      obtain rfl := Option.some_inj.mp hs
      exact h.answer hq answers
    · simp at hs

/-! ## Turns settle -/

/-- In the loop, each terminal frame's `Done` is sent or about to be. -/
structure Loop (s : Session) : Prop where
  results : s.dones ++ s.sending.filter AgentEvent.isDone = s.results
  one : (s.sending.filter AgentEvent.isDone).length ≤ 1
  notLast : s.doneAfterInterrupt = false
  flight : s.interrupted = true → s.sending.filter AgentEvent.isDone ≠ [] → s.inFlight = false

/-- Past the loop, the bookkeeping covers a turn in flight. -/
structure Left (s : Session) : Prop where
  results : s.dones <+: s.results
  all : s.listening = true → s.dones = s.results
  covered : s.listening = true → s.inFlight = true → ∀ crash, s.closingDone crash ≠ none

structure Over (s : Session) (crash : String) : Prop where
  results : s.dones <+: s.results ++ (s.closingDone crash).toList
  all : s.listening = true → s.dones = s.results ++ (s.closingDone crash).toList
  covered : s.listening = true → s.inFlight = true → s.closingDone crash ≠ none

/-- What holds at each stage. -/
def Turns (s : Session) : Prop :=
  match s.stage with
  | .running => s.Loop
  | .leaving => s.Left
  | .ended => ∃ crash, s.Over crash

theorem turns_frame (h : s.Loop) (hsel : s.Selecting) (f : Frame) (goesOn : Bool)
    (hlast : ∀ r, f = .result r → s.interrupted = true → goesOn = false) :
    (s.frame f goesOn).Loop where
  results := by
    have hres := h.results
    simp only [hsel.2, List.filter_nil, List.append_nil] at hres
    show s.dones ++ (s.norm.normalize f s.interrupted).2.filter AgentEvent.isDone =
      s.results ++ Normalizer.doneOfFrame f s.interrupted
    rw [Normalizer.dones_normalize, hres]
  one := by
    show ((s.norm.normalize f s.interrupted).2.filter AgentEvent.isDone).length ≤ 1
    rw [Normalizer.dones_normalize]
    cases f <;> simp [Normalizer.doneOfFrame]
  notLast := h.notLast
  flight hint hne := by
    change (s.norm.normalize f s.interrupted).2.filter AgentEvent.isDone ≠ [] at hne
    rw [Normalizer.dones_normalize] at hne
    show f.flight s.inFlight goesOn = false
    cases f with
    | result r => exact hlast r rfl hint
    | _ => exact absurd rfl hne

theorem Loop.dones_eq (h : s.Loop) (hsel : s.Selecting) : s.dones = s.results := by
  have := h.results
  rwa [hsel.2, List.filter_nil, List.append_nil] at this

theorem Loop.leave (h : s.Loop) (hsel : s.Selecting)
    (hcover : s.listening = true → s.inFlight = true →
      s.interrupted = true ∨ s.anyDone = false) : s.leave.Left where
  results := h.dones_eq hsel ▸ List.prefix_rfl
  all _ := h.dones_eq hsel
  covered hl hf crash := by
    simp only [closingDone, Session.leave, h.notLast, Bool.not_false, Bool.and_true]
    rcases hcover hl hf with hi | hd
    · simp [hi]
    · by_cases hi : s.interrupted = true <;> simp [hi, hd]

theorem dones_snoc (hs' : s'.out = s.out ++ [Item.ok ev]) :
    s'.dones = s.dones ++ [ev].filter AgentEvent.isDone := by
  simp only [dones, hs', List.filterMap_append, List.filter_append]
  rfl

theorem dones_closing (hl : s.listening = true) (hall : s.dones = s.results) (crash : String) :
    (s.finish crash).dones = s.results ++ (s.closingDone crash).toList := by
  have hdone : ∀ ev, s.closingDone crash = some ev → ev.isDone = true := by
    intro ev hev
    simp only [closingDone] at hev
    split_ifs at hev <;> simp only [Option.some_inj] at hev <;> rw [← hev] <;> rfl
  simp only [dones, Session.finish, hl, if_true, List.filterMap_append, List.filter_append]
  rw [show (s.out.filterMap Item.event).filter AgentEvent.isDone = s.results from hall]
  cases hc : s.closingDone crash with
  | none => rfl
  | some ev => simp [Item.event, hdone ev hc]

theorem Loop.emit (h : s.Loop) {ev : AgentEvent} {rest : List AgentEvent}
    (hsend : s.sending = ev :: rest) (hrun : s.stage = .running) : (s.emit ev rest).Turns := by
  have hres := h.results
  rw [hsend, ← List.singleton_append, List.filter_append, ← List.append_assoc] at hres
  simp only [Session.emit]
  split_ifs with hl hd
  · rw [Bool.and_eq_true] at hd
    have hrest : rest.filter AgentEvent.isDone = [] := by
      have := h.one
      rw [hsend, List.filter_cons_of_pos hd.1, List.length_cons] at this
      exact List.length_eq_zero_iff.mp (by omega)
    have hflight : s.inFlight = false := h.flight hd.2 (by simp [hsend, hd.1])
    rw [hrest, List.append_nil] at hres
    refine ⟨⟨[], ?_⟩, fun _ => (dones_snoc rfl).trans hres, fun _ hf => ?_⟩
    · exact (List.append_nil _).trans ((dones_snoc rfl).trans hres)
    · exact absurd hf (by simp [Session.leave, hflight])
  · have hone := h.one
    have hflight := h.flight
    rw [hsend, ← List.singleton_append, List.filter_append] at hone hflight
    rw [List.length_append] at hone
    simp only [Turns, hrun]
    refine ⟨?_, ?_, h.notLast, fun hi hne => hflight hi fun hnil => hne ?_⟩
    · exact (congrArg (· ++ _) (dones_snoc rfl)).trans hres
    · show (rest.filter AgentEvent.isDone).length ≤ 1
      omega
    · exact (List.append_eq_nil_iff.mp hnil).2
  · show s.leave.Left
    refine ⟨?_, fun hl' => absurd hl' hl, fun hl' => absurd hl' hl⟩
    rw [List.append_assoc] at hres
    exact ⟨_, hres⟩

theorem Left.finish (h : s.Left) (crash : String) : (s.finish crash).Over crash where
  results := by
    have hall := h.all
    cases hl : s.listening with
    | true =>
      exact ⟨[], (List.append_nil _).trans (dones_closing hl (hall hl) crash)⟩
    | false =>
      have hsame : (s.finish crash).dones = s.dones := by simp [dones, Session.finish, hl]
      rw [hsame]
      exact h.results.trans (List.prefix_append _ _)
  all hl := dones_closing (s := s) hl (h.all hl) crash
  covered hl hf := h.covered hl hf crash

theorem turns_set (h : s.Turns) (stdin : List StdinMsg) (questions : List Question)
    (asked : List String) (steeringOpen : Bool) :
    ({ s with stdin, questions, asked, steeringOpen } : Session).Turns := by
  cases hst : s.stage with
  | running =>
    simp only [Turns, hst] at h ⊢
    exact ⟨h.results, h.one, h.notLast, h.flight⟩
  | leaving =>
    simp only [Turns, hst] at h ⊢
    exact ⟨h.results, h.all, h.covered⟩
  | ended =>
    simp only [Turns, hst] at h ⊢
    obtain ⟨crash, h⟩ := h
    exact ⟨crash, h.results, h.all, h.covered⟩

theorem turns_hangUp (h : s.Turns) : ({ s with listening := false } : Session).Turns := by
  cases hst : s.stage with
  | running =>
    simp only [Turns, hst] at h ⊢
    exact ⟨h.results, h.one, h.notLast, h.flight⟩
  | leaving =>
    simp only [Turns, hst] at h ⊢
    exact ⟨h.results, by simp, by simp⟩
  | ended =>
    simp only [Turns, hst] at h ⊢
    obtain ⟨crash, h⟩ := h
    exact ⟨crash, h.results, by simp, by simp⟩

theorem Loop.steer (h : s.Loop) (hsel : s.Selecting) (prompt : String) : (s.steer prompt).Loop where
  results := (List.append_nil _).trans (h.dones_eq hsel)
  one := Nat.zero_le 1
  notLast := h.notLast
  flight _ hne := absurd rfl hne

theorem turns_step {a : Act} (h : s.Turns) (hg : s.Orderly a) (hs : s.step a = some s') :
    s'.Turns := by
  have hloop : s.Selecting → s.Loop := fun hsel => by simpa only [Turns, hsel.1] using h
  cases a with
  | line frame goesOn =>
    cases frame with
    | none =>
      obtain ⟨-, rfl⟩ := of_guard hs
      exact h
    | some f =>
      by_cases hf : ∃ req, f = .controlRequest req
      · obtain ⟨req, rfl⟩ := hf
        obtain ⟨-, rfl⟩ := of_guard hs
        simp only [handleControlRequest]
        split_ifs <;> exact turns_set h _ _ _ _
      · rw [step_line fun req he => hf ⟨req, he⟩] at hs
        obtain ⟨hsel, rfl⟩ := of_guard hs
        have hframe := turns_frame (hloop hsel) hsel f goesOn (by rintro r rfl; exact hg)
        simpa only [Turns, Session.frame, hsel.1] using hframe
  | eof =>
    obtain ⟨hsel, rfl⟩ := of_guard hs
    exact (hloop hsel).leave hsel fun _ => hg
  | readError =>
    obtain ⟨hsel, rfl⟩ := of_guard hs
    have hleft := (hloop hsel).leave hsel fun _ => hg
    have hout : ∀ l : List Item, ((if s.listening then l ++ [Item.io] else l).filterMap Item.event) =
        l.filterMap Item.event := by
      intro l
      split_ifs <;> simp [Item.event]
    refine ⟨?_, fun hl => ?_, hleft.covered⟩
    · show List.filter _ (List.filterMap _ _) <+: _
      rw [hout]
      exact hleft.results
    · show List.filter _ (List.filterMap _ _) = _
      rw [hout]
      exact hleft.all hl
  | steer prompt =>
    obtain ⟨⟨hsel, -⟩, rfl⟩ := of_guard hs
    have hsteer := (hloop hsel).steer hsel prompt
    simpa only [Turns, Session.steer, send, hsel.1] using hsteer
  | closeMailbox =>
    obtain ⟨-, rfl⟩ := of_guard hs
    exact turns_set h _ _ _ _
  | interrupt =>
    obtain ⟨⟨hsel, -⟩, rfl⟩ := of_guard hs
    have h := hloop hsel
    simp only [Turns, send, hsel.1]
    exact ⟨h.results, h.one, h.notLast, fun _ hne => absurd hsel.2 fun he => hne (by simp [he])⟩
  | closed =>
    obtain ⟨⟨hsel, hl⟩, rfl⟩ := of_guard hs
    exact (hloop hsel).leave hsel fun hl' => by simp [hl] at hl'
  | emit =>
    simp only [step] at hs
    split at hs
    · rename_i ev rest hsend
      obtain ⟨hrun, rfl⟩ := of_guard hs
      exact Loop.emit (by simpa only [Turns, hrun] using h) hsend hrun
    · simp at hs
  | finish crash =>
    obtain ⟨hleft, rfl⟩ := of_guard hs
    have h : s.Left := by simpa only [Turns, hleft] using h
    exact ⟨crash, h.finish crash⟩
  | hangUp =>
    obtain rfl := Option.some_inj.mp hs
    exact turns_hangUp h
  | answer i answers =>
    simp only [step] at hs
    split at hs
    · obtain rfl := Option.some_inj.mp hs
      exact turns_set h _ _ _ _
    · simp at hs

/-! ## Every run -/

theorem requests_start (titleOnly : Bool) (prompt : String) :
    (start titleOnly prompt).Requests where
  answered id := rfl
  early q hq := by simp [start] at hq
  opened := by simp [start]

theorem turns_start (titleOnly : Bool) (prompt : String) : (start titleOnly prompt).Turns :=
  ⟨rfl, Nat.zero_le 1, rfl, fun _ hne => absurd rfl hne⟩

theorem settles_of (hr : s.Requests) (ht : s.Turns) : s.Settles := by
  have hprefix : ∀ {crash}, s.dones <+: s.results →
      s.dones <+: s.results ++ (s.closingDone crash).toList :=
    fun h => h.trans (List.prefix_append _ _)
  cases hst : s.stage with
  | running =>
    simp only [Turns, hst] at ht
    exact ⟨⟨"", hprefix ⟨_, ht.results⟩⟩, by simp [hst], hr.answered⟩
  | leaving =>
    simp only [Turns, hst] at ht
    exact ⟨⟨"", hprefix ht.results⟩, by simp [hst], hr.answered⟩
  | ended =>
    simp only [Turns, hst] at ht
    obtain ⟨crash, ht⟩ := ht
    exact ⟨⟨crash, ht.results⟩, fun _ hl => ⟨crash, ht.all hl, ht.covered hl⟩, hr.answered⟩

/-- **Every turn settles and every request is answered.** -/
theorem session_settles {titleOnly : Bool} {prompt : String} {acts : List Act}
    (hg : Guarded step Orderly (start titleOnly prompt) acts)
    (he : exec step (start titleOnly prompt) acts = some s) : s.Settles := by
  have hinv := exec_invariant (I := fun s => s.Requests ∧ s.Turns)
    (fun s a s' h hg hs => ⟨requests_step h.1 hg hs, turns_step h.2 hg hs⟩)
    ⟨requests_start titleOnly prompt, turns_start titleOnly prompt⟩ hg he
  exact settles_of hinv.1 hinv.2

/-- The terminal frame of a turn that succeeded. -/
def success : ResultFrame :=
  { modelUsage := [], subtype := "success", result := some "ok", errors := [], inputTokens := 1
    outputTokens := 1, sessionId := some "s" }

def toolRequest (requestId toolName : String) : Frame :=
  .controlRequest { requestId, subtype := "can_use_tool", toolName, input := .obj [] }

/-- A question and a tool's request; a steered turn; the interrupt of the second turn. -/
def twoTurns : List Act :=
  [.line (some (toolRequest "a" "AskUserQuestion")) false,
    .line (some (toolRequest "b" "Bash")) false, .steer "more", .emit,
    .line (some (.result success)) true, .emit, .emit, .answer 0 [], .closeMailbox, .interrupt,
    .line (some (.result success)) false, .emit, .emit, .finish ""]

theorem session_settles_two : ∃ s, exec step (start false "hi") twoTurns = some s ∧ s.Settles ∧
    s.stage = .ended ∧ s.dones.length = 2 ∧ s.asked = ["a", "b"] := by
  have hrun : (exec step (start false "hi") twoTurns).map
      (fun s => (s.stage, s.dones.length, s.asked)) = some (.ended, 2, ["a", "b"]) := by
    decide +kernel
  obtain ⟨s, he, hs⟩ := Option.map_eq_some_iff.mp hrun
  simp only [Prod.mk.injEq] at hs
  exact ⟨s, he, session_settles (guarded_of_checks (by decide +kernel)) he, hs⟩

/-- The CLI dies in its second turn. -/
def crashLater : List Act :=
  [.line (some (.result success)) false, .emit, .emit, .steer "more", .emit, .eof, .finish "exit"]

/-- **A crash in a later turn ends the stream without a `Done`.** -/
theorem later_turn_lost : ¬ ∀ (titleOnly : Bool) (prompt : String) (acts : List Act) (s : Session),
    exec step (start titleOnly prompt) acts = some s → s.Settles := by
  intro hall
  have hrun : (exec step (start false "hi") crashLater).map
      (fun s => (s.stage, s.listening, s.inFlight, s.interrupted, s.anyDone)) =
      some (.ended, true, true, false, true) := by decide +kernel
  obtain ⟨s, he, hs⟩ := Option.map_eq_some_iff.mp hrun
  simp only [Prod.mk.injEq] at hs
  obtain ⟨hst, hl, hf, hi, hd⟩ := hs
  obtain ⟨crash, -, hcover⟩ := (hall _ _ _ s he).settled hst hl
  exact hcover hf (by simp [closingDone, hi, hd])

end Session

end Zeron.Agent.Claude
