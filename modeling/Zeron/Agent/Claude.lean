import Zeron.Lib.Json
import Zeron.Session.Queue

/-!
# The frames of the Claude CLI

One line of the CLI's output, and the events it stands for (`wire.rs` and `normalize.rs` of
`harness/src/claude`).

* `Frame`: a parsed line;
* `decodeToolUse`: a tool call by its name and input;
* `Normalizer`, `normalize`: the events of a frame;
* `dones_normalize`: a turn's `Done` comes from its terminal frame, and from nothing else.
-/

namespace Zeron.Agent.Claude

/-! ## Values -/

/-- `Value::get`. -/
def get (v : Json) (key : String) : Option Json :=
  match v with
  | .obj members => members.lookup key
  | _ => none

/-- `Value::as_u64`. -/
def asU64 : Json → Option ℕ
  | .num n => if 0 ≤ n ∧ n < 2 ^ 64 then some n.toNat else none
  | _ => none

/-- `Value::as_array`, with no items for anything else. -/
def itemsOf : Option Json → List Json
  | some (.arr items) => items
  | _ => []

def strField (input : Json) (key : String) : String := ((get input key).bind Json.asStr).getD ""

def optStrField (input : Json) (key : String) : Option String := (get input key).bind Json.asStr

/-! ## Frames -/

structure SystemFrame where
  subtype : String
  model : String
  tools : List String
  cwd : String
  sessionId : String
  toolUseId : Option String
  status : Option String
  taskId : Option String
  subagentType : Option String
  deriving DecidableEq

structure StreamEventFrame where
  parentToolUseId : Option String
  kind : String
  deltaKind : String
  text : String
  thinking : String
  deriving DecidableEq

structure ContentBlock where
  kind : String
  text : String
  id : String
  name : String
  input : Json
  toolUseId : String
  isError : Option Bool
  deriving DecidableEq

/-- A message of the assistant or the user, with its blocks. -/
structure MessageFrame where
  parentToolUseId : Option String
  model : Option String
  usage : Option Json
  blocks : List ContentBlock
  error : Option String
  deriving DecidableEq

structure RateLimitFrame where
  status : String
  rateLimitType : Option String
  deriving DecidableEq

/-- The end of a turn; the errors are the texts of their values. -/
structure ResultFrame where
  modelUsage : List (String × Json)
  subtype : String
  result : Option String
  errors : List String
  inputTokens : ℕ
  outputTokens : ℕ
  sessionId : Option String
  deriving DecidableEq

structure ControlRequestFrame where
  requestId : String
  subtype : String
  toolName : String
  input : Json
  deriving DecidableEq

inductive Frame where
  | system (f : SystemFrame)
  | streamEvent (f : StreamEventFrame)
  | assistant (f : MessageFrame)
  | user (f : MessageFrame)
  | rateLimit (f : RateLimitFrame)
  | result (f : ResultFrame)
  | controlRequest (f : ControlRequestFrame)
  | other
  deriving DecidableEq

/-! ## Events -/

structure TodoItem where
  text : String
  done : Bool
  deriving DecidableEq

inductive ToolCall where
  | exec (command : String)
  | readFile (path : String)
  | writeFile (path : String) (content : Option String)
  | editFile (path : String) (oldString newString : Option String)
  | search (pattern : String) (path : Option String)
  | glob (pattern : String)
  | webFetch (url : String) (prompt : Option String)
  | webSearch (query : String)
  | todo (items : List TodoItem)
  | mcp (server tool : String) (input : Option Json)
  | unknown (name : String) (input : Option Json)
  deriving DecidableEq

inductive DoneStatus where
  | completed
  | interrupted
  | errored
  deriving DecidableEq

/-- `AgentEvent`; message ids are numbered. -/
inductive AgentEvent where
  | sessionStarted (model : String) (tools : List String) (cwd sessionId : String)
      (assistantMessageId : ℕ)
  | textDelta (text : String)
  | reasoningDelta (text : String)
  | toolCall (id : String) (call : ToolCall)
  | toolResult (id : String) (isError : Bool)
  | userMessage (text : String)
  | error (message : String)
  | contextUsage (tokens window : Option ℕ)
  | assistantMessageCompleted (assistantMessageId : ℕ)
  | usage (inputTokens outputTokens : ℕ)
  | steered (assistantMessageId nextAssistantMessageId : ℕ)
  | done (status : DoneStatus) (result error sessionId : Option String)
  | subagent (parentToolUseId : String) (event : AgentEvent)
  deriving DecidableEq

/-- `matches!(ev, AgentEvent::Done { .. })`. -/
def AgentEvent.isDone : AgentEvent → Bool
  | .done _ _ _ _ => true
  | _ => false

/-! ## Texts -/

def assistantErrorText (code : String) : String :=
  match code with
  | "authentication_failed" => "Authentication failed — sign in to Claude again."
  | "oauth_org_not_allowed" => "This organization isn't allowed to use Claude here."
  | "billing_error" => "Billing error — check your Claude plan or payment method."
  | "rate_limit" => "Claude usage limit reached — try again after the limit resets."
  | "overloaded" => "Claude is overloaded right now — try again shortly."
  | "invalid_request" => "The request was rejected as invalid."
  | "model_not_found" => "The selected model isn't available."
  | "server_error" => "Claude had a server error — try again."
  | "max_output_tokens" => "The reply hit the maximum output length."
  | "unknown" => "Claude returned an unspecified error."
  | other => "Claude error: " ++ other

def rateWindowLabel (kind : String) : String :=
  match kind with
  | "five_hour" => "5-hour"
  | "seven_day" | "seven_day_overage_included" => "weekly"
  | "seven_day_opus" => "weekly (Opus)"
  | "seven_day_sonnet" => "weekly (Sonnet)"
  | "overage" => "overage"
  | _ => "usage"

def resultErrorText (subtype : String) : String :=
  match subtype with
  | "error_max_turns" => "The run hit the maximum number of turns."
  | "error_max_budget_usd" => "The run hit its cost budget."
  | "error_max_structured_output_retries" => "The run exhausted its structured-output retries."
  | _ => "The run ended with an error."

/-- `str::contains`. -/
def hasPart (text part : String) : Bool := decide (part.toList <:+: text.toList)

def isInternalDiagnostic (message : String) : Bool := hasPart message "[ede_diagnostic]"

/-- `str::trim_start`, `str::starts_with`. -/
def startsTrimmed (text start : String) : Bool :=
  decide (start.toList <+: text.toList.dropWhile Session.isWhitespace)

def isSyntheticUserText (text : String) : Bool :=
  startsTrimmed text "<system-reminder>" || startsTrimmed text "[Request interrupted"

/-- `str::trim_end`. -/
def trimEnd (text : String) : String := String.ofList (text.toList.rdropWhile Session.isWhitespace)

/-- `str::split_once` at two underscores. -/
def splitOnce : List Char → Option (List Char × List Char)
  | '_' :: '_' :: rest => some ([], rest)
  | c :: rest => (splitOnce rest).map fun (before, after) => (c :: before, after)
  | [] => none

/-! ## Tool calls -/

def decodeTodo (item : Json) : TodoItem :=
  { text := strField item "content"
    done := (get item "status").bind Json.asStr = some "completed" }

def decodeToolUse (name : String) (input : Json) : ToolCall :=
  match name with
  | "Bash" => .exec (strField input "command")
  | "Read" => .readFile (strField input "file_path")
  | "Write" => .writeFile (strField input "file_path") (optStrField input "content")
  | "Edit" =>
    .editFile (strField input "file_path") (optStrField input "old_string")
      (optStrField input "new_string")
  | "Grep" => .search (strField input "pattern") (optStrField input "path")
  | "Glob" => .glob (strField input "pattern")
  | "WebFetch" => .webFetch (strField input "url") (optStrField input "prompt")
  | "WebSearch" => .webSearch (strField input "query")
  | "TodoWrite" => .todo ((itemsOf (get input "todos")).map decodeTodo)
  | "Agent" | "Task" =>
    let description := strField input "description"
    .unknown (if description = "" then "Agent" else "Agent: " ++ description) input.nonNull
  | name =>
    match if "mcp__".toList <+: name.toList then splitOnce (name.toList.drop 5) else none with
    | some (server, tool) => .mcp (String.ofList server) (String.ofList tool) input.nonNull
    | none => .unknown name input.nonNull

/-! ## The normalizer -/

structure Normalizer where
  sawInit : Bool
  lastModel : Option String
  agentTasks : List (String × String)
  agentSpawnTools : List String
  assistantMessageId : ℕ
  sessionId : Option String
  deriving DecidableEq

namespace Normalizer

def new : Normalizer :=
  { sawInit := false, lastModel := none, agentTasks := [], agentSpawnTools := []
    assistantMessageId := 0, sessionId := none }

variable (norm : Normalizer)

/-- `rotate_for_steer`: the next message id; the old one is the previous state's. -/
def rotateForSteer : Normalizer := { norm with assistantMessageId := norm.assistantMessageId + 1 }

/-- The status of a `task_notification`, where it is terminal. -/
def taskStatus (status : String) : Option DoneStatus :=
  match status with
  | "completed" | "complete" | "succeeded" | "success" => some .completed
  | "failed" | "errored" | "error" => some .errored
  | "killed" | "cancelled" | "canceled" | "stopped" | "interrupted" => some .interrupted
  | _ => none

def system (f : SystemFrame) : Normalizer × List AgentEvent :=
  if f.subtype = "task_notification" then
    match f.toolUseId.filter (· ≠ "") with
    | none => (norm, [])
    | some parent =>
      if parent ∈ norm.agentSpawnTools then
        match taskStatus (f.status.getD "") with
        | some status => (norm, [.subagent parent (.done status none none none)])
        | none => (norm, [])
      else (norm, [])
  else
    match f.subtype = "task_started" && f.subagentType.isSome, f.taskId.filter (· ≠ ""),
      f.toolUseId.filter (· ≠ "") with
    | true, some task, some tool =>
      ({ norm with
          agentTasks := (task, tool) :: norm.agentTasks
          agentSpawnTools := tool :: norm.agentSpawnTools }, [])
    | _, _, _ =>
      if f.subtype ≠ "init" ∨ norm.sawInit then (norm, [])
      else
        ({ norm with sawInit := true, sessionId := some f.sessionId },
          [.sessionStarted f.model f.tools f.cwd f.sessionId norm.assistantMessageId])

def streamEvent (f : StreamEventFrame) : List AgentEvent :=
  if f.kind ≠ "content_block_delta" then []
  else
    match f.parentToolUseId with
    | some parent =>
      match f.deltaKind with
      | "text_delta" => [.subagent parent (.textDelta f.text)]
      | "thinking_delta" =>
        if f.thinking = "" then [] else [.subagent parent (.reasoningDelta f.thinking)]
      | _ => []
    | none =>
      match f.deltaKind with
      | "text_delta" => [.textDelta f.text]
      | "thinking_delta" => [.reasoningDelta f.thinking]
      | "input_json_delta" => [.reasoningDelta ""]
      | _ => []

/-- The blocks of a subagent's message. -/
def taggedBlock (parent : String) (b : ContentBlock) : Option AgentEvent :=
  match b.kind with
  | "text" =>
    if b.text = "" then none else some (.subagent parent (.textDelta (trimEnd b.text ++ "\n\n")))
  | "tool_use" => some (.subagent parent (.toolCall b.id (decodeToolUse b.name b.input)))
  | _ => none

/-- A tool call, with the message it opens a subagent with or sends to one. -/
def toolUse (b : ContentBlock) : List AgentEvent :=
  let opening :=
    if b.name = "Agent" ∨ b.name = "Task" then
      ((get b.input "prompt").bind Json.asStr).filter fun prompt => !Session.isBlank prompt
    else none
  let steer :=
    if b.name = "SendMessage" then do
      let recipient ← ((get b.input "to").orElse fun _ => get b.input "recipient").bind Json.asStr
      let spawn ← norm.agentTasks.lookup recipient
      let text ← (((get b.input "message").orElse fun _ => get b.input "content").bind
        Json.asStr).filter fun text => !Session.isBlank text
      some (AgentEvent.subagent spawn (.userMessage text))
    else none
  .toolCall b.id (decodeToolUse b.name b.input) ::
    ((opening.map fun prompt => AgentEvent.subagent b.id (.userMessage prompt)).toList ++
      steer.toList)

def tokenFields : List String :=
  ["input_tokens", "cache_read_input_tokens", "cache_creation_input_tokens"]

/-- The context in use, where a message tells it. -/
def contextTokens (usage : Json) : Option ℕ :=
  let counts := tokenFields.filterMap fun key => (get usage key).bind asU64
  if counts.isEmpty then none
  else some (counts.foldl (fun total n => min (total + n) (2 ^ 64 - 1)) 0)

def assistant (f : MessageFrame) : Normalizer × List AgentEvent :=
  match f.parentToolUseId with
  | some parent =>
    (norm, f.blocks.filterMap (taggedBlock parent) ++
      (f.error.map fun code => .subagent parent (.error (assistantErrorText code))).toList)
  | none =>
    let calls := f.blocks.filter (·.kind = "tool_use")
    let spawns := (calls.filter fun b => b.name = "Agent" || b.name = "Task").map (·.id)
    let events := calls.flatMap norm.toolUse ++
      ((f.usage.bind contextTokens).map fun tokens => .contextUsage (some tokens) none).toList ++
      (f.error.map fun code => .error (assistantErrorText code)).toList ++
      [.assistantMessageCompleted norm.assistantMessageId]
    ({ norm with
        agentSpawnTools := spawns ++ norm.agentSpawnTools
        lastModel := f.model.orElse fun _ => norm.lastModel }.rotateForSteer, events)

def user (f : MessageFrame) : List AgentEvent :=
  let results := (f.blocks.filter (·.kind = "tool_result")).map fun b =>
    AgentEvent.toolResult b.toolUseId (b.isError.getD false)
  match f.parentToolUseId with
  | some parent =>
    let texts := f.blocks.filter fun b =>
      b.kind = "text" && !Session.isBlank b.text && !isSyntheticUserText b.text
    results.map (.subagent parent) ++ texts.map fun b => .subagent parent (.userMessage b.text)
  | none => results

def rateLimit (f : RateLimitFrame) : List AgentEvent :=
  if f.status ≠ "rejected" then []
  else [.error ("Claude " ++ rateWindowLabel (f.rateLimitType.getD "") ++
    " limit reached — the turn was blocked. Try again after it resets.")]

/-- The usage of the model that spoke last. -/
def modelUsage (f : ResultFrame) : Option Json :=
  (norm.lastModel.bind fun model =>
    (f.modelUsage.lookup model).orElse fun _ =>
      (f.modelUsage.map (·.2)).find? fun entry =>
        (get entry "canonicalModel").bind Json.asStr = some model).orElse fun _ =>
    match f.modelUsage with
    | [entry] => some entry.2
    | _ => none

/-- The error of a turn that failed; the CLI's own diagnostics are dropped. -/
def resultError (f : ResultFrame) : Option String :=
  let errors := f.errors.filter fun m => !isInternalDiagnostic m
  if errors ≠ [] then some (String.intercalate "; " errors)
  else
    match f.subtype with
    | "error_max_turns" | "error_max_budget_usd" | "error_max_structured_output_retries" =>
      some (resultErrorText f.subtype)
    | subtype =>
      if f.errors.any isInternalDiagnostic then none else some (resultErrorText subtype)

def doneOf (f : ResultFrame) (interrupted : Bool) : AgentEvent :=
  if f.subtype = "success" then
    .done (if interrupted then .interrupted else .completed) f.result none f.sessionId
  else .done (if interrupted then .interrupted else .errored) none (resultError f) f.sessionId

def result (f : ResultFrame) (interrupted : Bool) : Normalizer × List AgentEvent :=
  let window := (((norm.modelUsage f).bind (get · "contextWindow")).bind asU64).filter (0 < ·)
  ({ norm with sessionId := f.sessionId.orElse fun _ => norm.sessionId },
    (window.map fun window => .contextUsage none (some window)).toList ++
      [.usage f.inputTokens f.outputTokens, doneOf f interrupted])

def normalize (frame : Frame) (interrupted : Bool) : Normalizer × List AgentEvent :=
  match frame with
  | .system f => norm.system f
  | .streamEvent f => (norm, streamEvent f)
  | .assistant f => norm.assistant f
  | .user f => (norm, user f)
  | .rateLimit f => (norm, rateLimit f)
  | .result f => norm.result f interrupted
  | .controlRequest _ | .other => (norm, [])

/-! ## The `Done` events -/

/-- The `Done` of a frame. -/
def doneOfFrame (frame : Frame) (interrupted : Bool) : List AgentEvent :=
  match frame with
  | .result f => [doneOf f interrupted]
  | _ => []

@[simp] theorem isDone_doneOf (f : ResultFrame) (b : Bool) : (doneOf f b).isDone = true := by
  unfold doneOf
  split <;> rfl

theorem system_no_done (f : SystemFrame) : ∀ ev ∈ (norm.system f).2, ev.isDone = false := by
  intro ev hev
  simp only [system] at hev
  split_ifs at hev <;> split at hev <;> (try split_ifs at hev) <;> (try split at hev) <;>
    simp_all [AgentEvent.isDone]

theorem streamEvent_no_done (f : StreamEventFrame) :
    ∀ ev ∈ streamEvent f, ev.isDone = false := by
  intro ev hev
  by_cases hk : f.kind = "content_block_delta"
  · simp only [streamEvent, hk, ne_eq, not_true_eq_false, if_false] at hev
    split at hev <;> split at hev <;> (try split_ifs at hev) <;> simp_all [AgentEvent.isDone]
  · simp [streamEvent, hk] at hev

theorem toolUse_no_done (b : ContentBlock) : ∀ ev ∈ norm.toolUse b, ev.isDone = false := by
  intro ev hev
  simp only [toolUse, List.mem_cons, List.mem_append, Option.mem_toList] at hev
  rcases hev with rfl | hev | hev
  · rfl
  · obtain ⟨prompt, -, rfl⟩ := Option.map_eq_some_iff.mp hev
    rfl
  · split_ifs at hev with hn
    · simp only [Option.bind_eq_bind, Option.bind_eq_some_iff, Option.some_inj] at hev
      obtain ⟨-, -, -, -, -, -, rfl⟩ := hev
      rfl

theorem taggedBlock_no_done {parent : String} {b : ContentBlock} {ev : AgentEvent}
    (h : taggedBlock parent b = some ev) : ev.isDone = false := by
  simp only [taggedBlock] at h
  split at h <;> (try split_ifs at h) <;> simp_all
  all_goals rw [← h]; rfl

theorem assistant_no_done (f : MessageFrame) : ∀ ev ∈ (norm.assistant f).2, ev.isDone = false := by
  intro ev hev
  simp only [assistant] at hev
  split at hev
  · rw [List.mem_append, List.mem_filterMap, Option.mem_toList] at hev
    rcases hev with ⟨b, -, hb⟩ | hev
    · exact taggedBlock_no_done hb
    · obtain ⟨code, -, rfl⟩ := Option.map_eq_some_iff.mp hev
      rfl
  · simp only [List.mem_append, List.mem_flatMap, Option.mem_toList, List.mem_singleton,
      Option.map_eq_some_iff] at hev
    rcases hev with ((⟨b, -, hb⟩ | ⟨tokens, -, rfl⟩) | ⟨code, -, rfl⟩) | rfl
    · exact norm.toolUse_no_done b ev hb
    all_goals rfl

theorem user_no_done (f : MessageFrame) : ∀ ev ∈ user f, ev.isDone = false := by
  intro ev hev
  simp only [user] at hev
  split at hev
  · simp only [List.map_map, List.mem_append, List.mem_map] at hev
    rcases hev with ⟨b, -, rfl⟩ | ⟨b, -, rfl⟩ <;> rfl
  · obtain ⟨b, -, rfl⟩ := List.mem_map.mp hev
    rfl

/-- **A `Done` comes from a terminal frame, and from nothing else.** -/
theorem dones_normalize (frame : Frame) (interrupted : Bool) :
    (norm.normalize frame interrupted).2.filter AgentEvent.isDone =
      doneOfFrame frame interrupted := by
  have hnone : ∀ {evs : List AgentEvent}, (∀ ev ∈ evs, ev.isDone = false) →
      evs.filter AgentEvent.isDone = [] := by
    intro evs h
    simpa using h
  cases frame with
  | system f => exact hnone (norm.system_no_done f)
  | streamEvent f => exact hnone (streamEvent_no_done f)
  | assistant f => exact hnone (norm.assistant_no_done f)
  | user f => exact hnone (user_no_done f)
  | rateLimit f =>
    refine hnone fun ev hev => ?_
    simp only [normalize, rateLimit] at hev
    split_ifs at hev <;> simp_all [AgentEvent.isDone]
  | result f =>
    have hw : ∀ o : Option ℕ, ((o.map fun w => AgentEvent.contextUsage none (some w)).toList.filter
        AgentEvent.isDone) = [] := by
      intro o
      cases o <;> rfl
    simp only [normalize, result, List.filter_append, hw, List.nil_append]
    rw [List.filter_cons_of_neg (by simp [AgentEvent.isDone]),
      List.filter_cons_of_pos (isDone_doneOf f interrupted)]
    rfl
  | controlRequest f => rfl
  | other => rfl

end Normalizer

end Zeron.Agent.Claude
