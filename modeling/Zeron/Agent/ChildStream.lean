import Zeron.Agent.Children
import Zeron.Agent.Reasoning
import Zeron.Lib.Run
import Zeron.Session.Queue

/-!
# The stream of a child thread

What the notifications of a child thread of Codex are mapped to (`ChildStream` in
`harness/src/codex/normalize.rs`).

* `remember`, `ChildStream.map`: the source, with histories of any capacity;
* `Near`, `transcript_eq`: where the histories are long enough, nothing is forgotten;
* `Message`, `Replayed`: what the thread is assumed to send;
* **`child_text`**: a message is told once, replays tell nothing, and only a user message or a new
  turn opens the child again; `untold_and_told_twice`.
-/

namespace Zeron.Agent.Codex

open Zeron.Session

/-! ## The source -/

/-- What a stream emits; `map_item` and the reasoning stream give their own events. -/
inductive StreamEvent where
  | textDelta (text : String)
  | userMessage (text : String)
  | steered
  | done (status : DoneStatus) (error : Option String) (sessionId : String)
  | error (message : String)
  | other (event : AgentEvent)

structure ChildStream where
  reasoning : ReasoningStream
  streamedText : Finset String
  completedItems : List String
  completedTurns : List String
  settled : Bool

/-- `ChildStream::default`. -/
def ChildStream.default : ChildStream := ⟨.default, ∅, [], [], false⟩

/-- `remember`, for a history of `cap` ids. -/
def remember (cap : Option ℕ) (ids : List String) (id : String) : List String × Bool :=
  if id = "" then (ids, true)
  else if id ∈ ids then (ids, false)
  else ((if some ids.length = cap then ids.drop 1 else ids) ++ [id], true)

/-- `turn_id`. -/
def turnId (params : Json) : String := ((get params "turn").map (strField · ["id"])).getD ""

/-- `item_type`. -/
def itemType (item : Json) : String := ((get item "type").bind Json.asStr).getD ""

/-- `params.get("item")`. -/
def itemOf (params : Json) : Json := (get params "item").getD .null

/-- `user_message_text`. -/
def userMessageText (item : Json) : Option String :=
  let text := strField item ["text"]
  if !isBlank text then some text
  else
    let blocks := ((get item "content").bind Serde.asArray).getD []
    let joined := "\n\n".intercalate (blocks.filterMap fun b => (get b "text").bind Json.asStr)
    if !isBlank joined then some joined else none

/-- `params.pointer("/a/b")`. -/
def pointer (params : Json) (a b : String) : Option Json := (get params a).bind (get · b)

/-- The methods that end a turn, or the thread. -/
def endMethods : List String := ["turn/completed", "turn/failed", "turn/aborted", "thread/closed"]

def reasoningMethods : List String :=
  ["item/reasoning/textDelta", "item/reasoning/summaryTextDelta", "item/reasoning/summaryPartAdded"]

namespace ChildStream

section

variable (mapItem : Phase → Json → List AgentEvent) (print : Json → String) (cap : Option ℕ)
  (child : String) (s : ChildStream)

/-- `turn_error_message`; `print` is the text of a value. -/
def turnErrorMessage (params : Json) : Option String :=
  ((pointer params "turn" "error").filter (!·.isNull)).map fun e =>
    if strField e ["message"] = "" then print e else strField e ["message"]

/-- The branch of `turn/started`. -/
def turnStarted (params : Json) : ChildStream × List StreamEvent :=
  if turnId params ≠ "" ∧ turnId params ∈ s.completedTurns then (s, [])
  else if s.settled then ({ s with settled := false }, [.steered])
  else (s, [])

def isUserMessage (item : Json) : Bool :=
  itemType item = "userMessage" || itemType item = "user_message"

def isAgentMessage (item : Json) : Bool :=
  itemType item = "agentMessage" || itemType item = "agent_message"

/-- The branch of the items, behind the check for replays. -/
def item (phase : Phase) (item : Json) : ChildStream × List StreamEvent :=
  if isUserMessage item then
    if phase = .completed then
      match userMessageText item with
      | some text => ({ s with settled := false }, [.userMessage text])
      | none => (s, [])
    else (s, [])
  else if s.settled then (s, [])
  else if isAgentMessage item then
    if phase = .started then (s, [])
    else
      let id := strField item ["id"]
      let text := strField item ["text"]
      ({ s with streamedText := s.streamedText.erase id },
        (if id ∉ s.streamedText ∧ text ≠ "" then [.textDelta text] else []) ++
          [.textDelta "\n\n"])
  else (s, (mapItem phase item).map .other)

/-- The branch of `item/completed`. -/
def completed (params : Json) : ChildStream × List StreamEvent :=
  let ids := remember cap s.completedItems (strField (itemOf params) ["id"])
  if ids.2 then item mapItem { s with completedItems := ids.1 } .completed (itemOf params)
  else (s, [])

/-- The branch of `item/agentMessage/delta`. -/
def delta (params : Json) : ChildStream × List StreamEvent :=
  if itemId params ≠ "" ∧ itemId params ∈ s.completedItems then (s, [])
  else ({ s with streamedText := insert (itemId params) s.streamedText },
    ((deltaText params).map .textDelta).toList)

/-- The status of a `Done`. -/
def status (method : String) (params : Json) : DoneStatus :=
  let status := (pointer params "turn" "status").bind Json.asStr
  if method = "turn/failed" ∨ (turnErrorMessage print params).isSome ∨ status = some "failed" then
    .errored
  else if method = "turn/aborted" ∨ status = some "interrupted" then .interrupted
  else .completed

/-- The branch of the ends. -/
def ended (method : String) (params : Json) : ChildStream × List StreamEvent :=
  let ids := if method = "thread/closed" then (s.completedTurns, true)
    else remember cap s.completedTurns (turnId params)
  if ids.2 then
    ({ s with completedTurns := ids.1, settled := true, streamedText := ∅ },
      [.done (status print method params) (turnErrorMessage print params) child])
  else (s, [])

/-- The branch of `error`. -/
def failed (params : Json) : List StreamEvent :=
  [.error ((((pointer params "error" "message").bind Json.asStr).orElse fun _ =>
    (get params "message").bind Json.asStr).getD "Codex subagent error")]

/-- `ChildStream::map`. -/
def map (n : Notification) : ChildStream × List StreamEvent :=
  if n.1 = "turn/started" then s.turnStarted n.2
  else if n.1 = "item/started" then item mapItem s .started (itemOf n.2)
  else if n.1 = "item/completed" then s.completed mapItem cap n.2
  else if s.settled then (s, [])
  else if n.1 = "item/agentMessage/delta" then s.delta n.2
  else if n.1 ∈ reasoningMethods then
    ({ s with reasoning := (s.reasoning.map n.1 n.2).1 }, (s.reasoning.map n.1 n.2).2.map .other)
  else if n.1 ∈ endMethods then s.ended print cap child n.1 n.2
  else if n.1 = "error" then (s, failed n.2)
  else (s, [])

/-- The stream after some notifications. -/
def after (ns : List Notification) : ChildStream :=
  ns.foldl (fun s n => (map mapItem print cap child s n).1) s

/-- The notifications of a run with what each is mapped to. -/
def transcript : ChildStream → List Notification → List (Notification × List StreamEvent)
  | _, [] => []
  | s, n :: ns =>
    (n, (map mapItem print cap child s n).2) ::
      transcript (map mapItem print cap child s n).1 ns

end

attribute [local simp] isUserMessage isAgentMessage item completed delta ended map after transcript in
theorem transcript_cons (mapItem : _) (print : _) (cap : Option ℕ) (child : String)
    (s : ChildStream) (n : Notification) (ns : List Notification) :
    transcript mapItem print cap child s (n :: ns) = (n, (map mapItem print cap child s n).2) ::
      transcript mapItem print cap child (map mapItem print cap child s n).1 ns := rfl

/-! ## Histories that forget -/

/-- The ids that a history of 256 has kept. -/
def recent (ids : List String) : List String := ids.drop (ids.length - 256)

def lookedUpItem (n : Notification) : Option String :=
  if n.1 = "item/completed" then some (strField (itemOf n.2) ["id"])
  else if n.1 = "item/agentMessage/delta" then some (itemId n.2)
  else none

def lookedUpTurn (n : Notification) : Option String :=
  if n.1 = "turn/started" ∨ n.1 ∈ endMethods ∧ n.1 ≠ "thread/closed" then some (turnId n.2)
  else none

/-- What is looked up is not more than 256 ids back, if it is there. -/
def Near (s : ChildStream) (n : Notification) : Prop :=
  (∀ id ∈ lookedUpItem n, id ∈ s.completedItems → id ∈ recent s.completedItems) ∧
    ∀ id ∈ lookedUpTurn n, id ∈ s.completedTurns → id ∈ recent s.completedTurns

instance (s : ChildStream) (n : Notification) : Decidable (Near s n) :=
  inferInstanceAs (Decidable (_ ∧ _))

section

variable (mapItem : Phase → Json → List AgentEvent) (print : Json → String) (child : String)

/-- Every lookup of a run is near, where the histories forget nothing. -/
def NearAll : ChildStream → List Notification → Prop
  | _, [] => True
  | s, n :: ns => Near s n ∧ NearAll (map mapItem print none child s n).1 ns

end

/-- The stream with the ids it has kept. -/
def kept (s : ChildStream) : ChildStream :=
  { s with completedItems := recent s.completedItems, completedTurns := recent s.completedTurns }

theorem kept_settled (s : ChildStream) : s.kept.settled = s.settled := by simp only [kept]

theorem kept_completedItems (s : ChildStream) :
    s.kept.completedItems = recent s.completedItems := by
  simp only [kept]

theorem kept_streamedText (s : ChildStream) : s.kept.streamedText = s.streamedText := by
  simp only [kept]

section

variable {mapItem : Phase → Json → List AgentEvent} {print : Json → String} {child : String}
  {s : ChildStream} {n : Notification} {ns : List Notification} {ids : List String} {id : String}

theorem mem_of_mem_recent (h : id ∈ recent ids) : id ∈ ids := by
  rw [recent] at h
  exact List.mem_of_mem_drop h

theorem remember_recent (h : id ∈ ids → id ∈ recent ids) :
    remember (some 256) (recent ids) id =
      (recent (remember none ids id).1, (remember none ids id).2) := by
  have hmem : id ∈ recent ids ↔ id ∈ ids := ⟨mem_of_mem_recent, h⟩
  by_cases hempty : id = ""
  · rw [remember, remember, if_pos hempty]
    rw [if_pos hempty]
  by_cases hin : id ∈ ids
  · rw [remember, remember, if_neg hempty, if_neg hempty, if_pos hin, if_pos (hmem.mpr hin)]
  · have hnone : ¬ some ids.length = none := by simp
    have hpush : (if some (recent ids).length = some 256 then (recent ids).drop 1
        else recent ids) ++ [id] = recent (ids ++ [id]) := by
      rw [recent, recent, List.length_append, List.length_singleton]
      split_ifs with hfull
      · rw [Option.some_inj, List.length_drop] at hfull
        have hdrop : ids.length - 256 + 1 = ids.length + 1 - 256 := by omega
        rw [List.drop_drop, hdrop, List.drop_append_of_le_length (by omega)]
      · rw [Option.some_inj, List.length_drop] at hfull
        rw [Nat.sub_eq_zero_of_le (by omega), Nat.sub_eq_zero_of_le (by omega), List.drop_zero,
          List.drop_zero]
    rw [remember, remember, if_neg hempty, if_neg hempty, if_neg hin, if_neg (hin ∘ hmem.mp),
      if_neg hnone, hpush]

theorem item_kept (phase : Phase) (v : Json) :
    item mapItem s.kept phase v =
      ((item mapItem s phase v).1.kept, (item mapItem s phase v).2) := by
  rw [item, item, kept_settled, kept_streamedText]
  split_ifs
  · cases userMessageText v <;> simp only [kept]
  all_goals simp only [kept]

/-- A near lookup finds what a full history finds. -/
theorem map_kept (h : Near s n) :
    map mapItem print (some 256) child s.kept n =
      ((map mapItem print none child s n).1.kept, (map mapItem print none child s n).2) := by
  obtain ⟨hitem, hturn⟩ := h
  rw [map, map, kept_settled]
  by_cases h₁ : n.1 = "turn/started"
  · have hmem : turnId n.2 ∈ recent s.completedTurns ↔ turnId n.2 ∈ s.completedTurns :=
      ⟨mem_of_mem_recent, hturn _ (by simp [lookedUpTurn, h₁])⟩
    simp only [if_pos h₁]
    rw [turnStarted, turnStarted, kept_settled, kept]
    simp only [hmem]
    split_ifs <;> rfl
  simp only [if_neg h₁]
  by_cases h₂ : n.1 = "item/started"
  · simp only [if_pos h₂]
    exact item_kept .started _
  simp only [if_neg h₂]
  by_cases h₃ : n.1 = "item/completed"
  · have hids := remember_recent (hitem (strField (itemOf n.2) ["id"]) (by simp [lookedUpItem, h₃]))
    rw [← kept_completedItems] at hids
    have hkept : { s.kept with
        completedItems := recent (remember none s.completedItems
          (strField (itemOf n.2) ["id"])).1 } =
        kept { s with completedItems := (remember none s.completedItems
          (strField (itemOf n.2) ["id"])).1 } := by
      simp only [kept]
    simp only [if_pos h₃]
    rw [completed, completed, hids, hkept]
    split_ifs
    · exact item_kept .completed _
    · rfl
  simp only [if_neg h₃]
  by_cases h₄ : s.settled = true
  · simp only [if_pos h₄]
  simp only [if_neg h₄]
  by_cases h₅ : n.1 = "item/agentMessage/delta"
  · have hmem : itemId n.2 ∈ recent s.completedItems ↔ itemId n.2 ∈ s.completedItems :=
      ⟨mem_of_mem_recent, hitem _ (by simp [lookedUpItem, h₅])⟩
    simp only [if_pos h₅]
    rw [delta, delta, kept]
    simp only [hmem]
    split_ifs <;> rfl
  simp only [if_neg h₅]
  by_cases h₆ : n.1 ∈ reasoningMethods
  · simp only [if_pos h₆, kept]
  simp only [if_neg h₆]
  by_cases h₇ : n.1 ∈ endMethods
  · simp only [if_pos h₇]
    rw [ended, ended]
    by_cases hclosed : n.1 = "thread/closed"
    · simp only [hclosed, if_true, kept]
    · have hids := remember_recent (hturn (turnId n.2) (by simp [lookedUpTurn, h₇, hclosed]))
      simp only [hclosed, if_false, kept, hids]
      split_ifs <;> rfl
  simp only [if_neg h₇]
  split_ifs <;> rfl

theorem transcript_kept (h : NearAll mapItem print child s ns) :
    transcript mapItem print (some 256) child s.kept ns =
        transcript mapItem print none child s ns ∧
      after mapItem print (some 256) child s.kept ns =
        (after mapItem print none child s ns).kept := by
  induction ns generalizing s with
  | nil => exact ⟨rfl, rfl⟩
  | cons n ns ih =>
    have hstep := @map_kept mapItem print child s n h.1
    have hrest := ih h.2
    rw [transcript_cons, transcript_cons, hstep, hrest.1]
    refine ⟨rfl, ?_⟩
    rw [after, List.foldl_cons, hstep]
    exact hrest.2

end

/-! ## What a thread sends -/

/-- A completed item, of any type. -/
def Completes (id : String) (n : Notification) : Prop :=
  n.1 = "item/completed" ∧ strField (itemOf n.2) ["id"] = id

def IsDelta (id : String) (n : Notification) : Prop :=
  n.1 = "item/agentMessage/delta" ∧ itemId n.2 = id

instance (id : String) (n : Notification) : Decidable (Completes id n) :=
  inferInstanceAs (Decidable (_ ∧ _))

instance (id : String) (n : Notification) : Decidable (IsDelta id n) :=
  inferInstanceAs (Decidable (_ ∧ _))

def About (id : String) (n : Notification) : Prop := IsDelta id n ∨ Completes id n

instance (id : String) (n : Notification) : Decidable (About id n) :=
  inferInstanceAs (Decidable (_ ∨ _))

/-- A turn's end. -/
def Ends (id : String) (n : Notification) : Prop :=
  (n.1 ∈ endMethods ∧ n.1 ≠ "thread/closed") ∧ turnId n.2 = id

/-- The turn's end has been told. -/
def EndTold (told : List (Notification × List StreamEvent)) (id : String) : Prop :=
  ∃ t ∈ told, Ends id t.1 ∧ t.2 ≠ []

def text : StreamEvent → List Char
  | .textDelta text => text.toList
  | _ => []

theorem text_textDelta (said : String) : text (.textDelta said) = said.toList := rfl

/-- The text that was told about an item. -/
def said (id : String) (told : List (Notification × List StreamEvent)) : List Char :=
  (told.filter fun t => About id t.1).flatMap fun t => t.2.flatMap text

/-- The text of an item's deltas. -/
def deltaTexts (id : String) (ns : List Notification) : List Char :=
  (ns.filter fun n => IsDelta id n).flatMap fun n => ((deltaText n.2).getD "").toList

/-- A new turn, or a new message of the user. -/
def Opens (told : List (Notification × List StreamEvent)) (n : Notification) : Prop :=
  n.1 = "turn/started" ∧ (turnId n.2 = "" ∨ ¬ EndTold told (turnId n.2)) ∨
  n.1 = "item/completed" ∧ isUserMessage (itemOf n.2) ∧ (userMessageText (itemOf n.2)).isSome ∧
    (strField (itemOf n.2) ["id"] = "" ∨
      ∀ t ∈ told, ¬ Completes (strField (itemOf n.2) ["id"]) t.1)

/-- A message of the agent: its deltas come in a turn, before its completion, and carry all of its
text, or there are none. After the completion anything may come again. -/
structure Message (told : List (Notification × List StreamEvent)) (id full : String)
    (before turn : List Notification) (completion : Notification) : Prop where
  named : id ≠ ""
  unknown : ∀ n ∈ before, ¬ About id n
  opened : before = [] ∨ ∃ n ∈ turn.head?, Opens told n
  quiet : ∀ n ∈ turn, n.1 ∈ endMethods →
    n.1 ≠ "thread/closed" ∧ turnId n.2 ≠ "" ∧ EndTold told (turnId n.2)
  incomplete : ∀ n ∈ turn, ¬ Completes id n
  deltas : (∀ n ∈ turn, ¬ IsDelta id n) ∨ deltaTexts id turn = full.toList
  completes : Completes id completion
  agent : isAgentMessage (itemOf completion.2) = true
  full : strField (itemOf completion.2) ["text"] = full

/-- A completion or a turn's end that has been told. -/
def Replayed (told : List (Notification × List StreamEvent)) (n : Notification) : Prop :=
  (∃ id ≠ "", Completes id n ∧ ∃ t ∈ told, Completes id t.1) ∨
    ∃ id ≠ "", Ends id n ∧ EndTold told id

/-! ## Full histories -/

section

variable {mapItem : Phase → Json → List AgentEvent} {print : Json → String} {child : String}
  {s : ChildStream} {n : Notification} {ns : List Notification} {ids : List String} {id : String}

theorem mem_remember {id' : String} :
    id' ∈ (remember none ids id).1 ↔ id' ∈ ids ∨ id = id' ∧ id ≠ "" := by
  have hnone : ¬ some ids.length = none := by simp
  rw [remember]
  by_cases hempty : id = ""
  · simp [hempty]
  · by_cases hin : id ∈ ids
    · rw [if_neg hempty, if_pos hin]
      constructor
      · exact Or.inl
      · rintro (h | ⟨rfl, -⟩)
        · exact h
        · exact hin
    · rw [if_neg hempty, if_neg hin, if_neg hnone]
      simp [hempty, eq_comm]

theorem remember_snd (cap : Option ℕ) : (remember cap ids id).2 = !(id ≠ "" && id ∈ ids) := by
  rw [remember]
  split_ifs <;> simp_all

theorem remember_eq_self {cap : Option ℕ} (h : ¬ (remember cap ids id).2 = true) :
    (remember cap ids id).1 = ids := by
  rw [remember] at h ⊢
  split_ifs at h ⊢ <;> simp_all

theorem item_completedItems (phase : Phase) (v : Json) :
    (item mapItem s phase v).1.completedItems = s.completedItems := by
  rw [item]
  split_ifs
  · cases userMessageText v <;> rfl
  all_goals rfl

theorem map_cases {P : ChildStream × List StreamEvent → Prop} (same : P (s, []))
    (started : n.1 = "turn/started" → P (turnStarted s n.2))
    (started' : n.1 = "item/started" → P (item mapItem s .started (itemOf n.2)))
    (completed : n.1 = "item/completed" → P (completed mapItem none s n.2))
    (delta : n.1 = "item/agentMessage/delta" → P (delta s n.2))
    (reasoning : ∀ r events, P ({ s with reasoning := r }, events))
    (ended : n.1 ∈ endMethods → P (ended print none child s n.1 n.2))
    (failed : P (s, failed n.2)) : P (map mapItem print none child s n) := by
  unfold map
  refine iteInduction started fun _ => ?_
  refine iteInduction started' fun _ => ?_
  refine iteInduction completed fun _ => ?_
  refine iteInduction (fun _ => same) fun _ => ?_
  refine iteInduction delta fun _ => ?_
  refine iteInduction (fun _ => reasoning _ _) fun _ => ?_
  exact iteInduction ended fun _ => iteInduction (fun _ => failed) fun _ => same

theorem map_completed (cap : Option ℕ) (h : n.1 = "item/completed") :
    map mapItem print cap child s n = completed mapItem cap s n.2 := by
  rw [map, if_neg (by simp [h]), if_neg (by simp [h]), if_pos h]

theorem map_delta (h : n.1 = "item/agentMessage/delta") (hs : s.settled = false) :
    map mapItem print none child s n = delta s n.2 := by
  rw [map, if_neg (by simp [h]), if_neg (by simp [h]), if_neg (by simp [h]), if_neg (by simp [hs]),
    if_pos h]

theorem completedItems_map (h : n.1 ≠ "item/completed") :
    (map mapItem print none child s n).1.completedItems = s.completedItems := by
  refine map_cases (P := fun r => r.1.completedItems = s.completedItems) rfl (fun _ => ?_)
    (fun _ => item_completedItems .started _) (fun hc => absurd hc h) (fun _ => ?_)
    (fun _ _ => rfl) (fun _ => ?_) rfl
  · rw [turnStarted]
    split_ifs <;> rfl
  · rw [delta]
    split_ifs <;> rfl
  · rw [ended]
    split_ifs <;> rfl

theorem mem_completedItems_map :
    id ∈ (map mapItem print none child s n).1.completedItems ↔
      id ∈ s.completedItems ∨ Completes id n ∧ id ≠ "" := by
  by_cases h : n.1 = "item/completed"
  · have hmem := @mem_remember s.completedItems (strField (itemOf n.2) ["id"]) id
    have hiff : id ∈ s.completedItems ∨ Completes id n ∧ id ≠ "" ↔
        id ∈ (remember none s.completedItems (strField (itemOf n.2) ["id"])).1 := by
      rw [hmem, Completes]
      refine or_congr_right ⟨fun hc => ⟨hc.1.2, hc.1.2 ▸ hc.2⟩, fun hc => ⟨⟨h, hc.1⟩, hc.1 ▸ hc.2⟩⟩
    rw [hiff, map_completed none h, completed]
    split_ifs with hnew
    · rw [item_completedItems]
    · rw [remember_eq_self hnew]
  · rw [completedItems_map h]
    simp [Completes, h]

theorem ne_of_mem_endMethods (h : n.1 ∈ endMethods) :
    n.1 ≠ "turn/started" ∧ n.1 ≠ "item/started" ∧ n.1 ≠ "item/completed" ∧
      n.1 ≠ "item/agentMessage/delta" ∧ n.1 ∉ reasoningMethods := by
  rw [endMethods] at h
  simp only [List.mem_cons, List.not_mem_nil, or_false] at h
  rcases h with h | h | h | h <;> simp [h, reasoningMethods]

theorem map_end (h : n.1 ∈ endMethods) (hs : s.settled = false) :
    map mapItem print none child s n = ended print none child s n.1 n.2 := by
  obtain ⟨h₁, h₂, h₃, h₄, h₅⟩ := ne_of_mem_endMethods h
  rw [map, if_neg h₁, if_neg h₂, if_neg h₃, if_neg (by simp [hs]), if_neg h₄, if_neg h₅, if_pos h]

theorem map_end_settled (h : n.1 ∈ endMethods) (hs : s.settled = true) :
    map mapItem print none child s n = (s, []) := by
  obtain ⟨h₁, h₂, h₃, -, -⟩ := ne_of_mem_endMethods h
  rw [map, if_neg h₁, if_neg h₂, if_neg h₃, if_pos hs]

theorem item_completedTurns (phase : Phase) (v : Json) :
    (item mapItem s phase v).1.completedTurns = s.completedTurns := by
  rw [item]
  split_ifs
  · cases userMessageText v <;> rfl
  all_goals rfl

theorem completedTurns_map (h : n.1 ∉ endMethods) :
    (map mapItem print none child s n).1.completedTurns = s.completedTurns := by
  refine map_cases (P := fun r => r.1.completedTurns = s.completedTurns) rfl (fun _ => ?_)
    (fun _ => item_completedTurns .started _) (fun _ => ?_) (fun _ => ?_) (fun _ _ => rfl)
    (fun he => absurd he h) rfl
  · rw [turnStarted]
    split_ifs <;> rfl
  · rw [completed]
    split_ifs
    · exact item_completedTurns .completed _
    · rfl
  · rw [delta]
    split_ifs <;> rfl

theorem mem_completedTurns_map :
    id ∈ (map mapItem print none child s n).1.completedTurns ↔
      id ∈ s.completedTurns ∨
        id ≠ "" ∧ Ends id n ∧ (map mapItem print none child s n).2 ≠ [] := by
  by_cases h : n.1 ∈ endMethods
  · cases hs : s.settled with
    | true =>
      rw [map_end_settled h hs]
      simp
    | false =>
      rw [map_end h hs, ended, Ends]
      by_cases hclosed : n.1 = "thread/closed"
      · simp [hclosed]
      · rw [if_neg hclosed]
        split_ifs with hnew
        · rw [mem_remember]
          simp only [h, hclosed, ne_eq, not_false_eq_true, and_true, true_and, reduceCtorEq]
          refine or_congr_right ⟨fun hc => ⟨hc.1 ▸ hc.2, hc.1⟩, fun hc => ⟨hc.2, hc.2 ▸ hc.1⟩⟩
        · simp
  · rw [completedTurns_map h]
    simp [Ends, h]

theorem item_streamedText (phase : Phase) (v : Json) :
    (item mapItem s phase v).1.streamedText = s.streamedText ∨
      phase = .completed ∧
        (item mapItem s phase v).1.streamedText = s.streamedText.erase (strField v ["id"]) := by
  rw [item]
  split_ifs with h₁ h₂ h₃ h₄ h₅
  · cases userMessageText v <;> exact Or.inl rfl
  · exact Or.inl rfl
  · exact Or.inl rfl
  · exact Or.inl rfl
  · refine Or.inr ⟨?_, rfl⟩
    cases phase with
    | started => exact absurd rfl h₅
    | completed => rfl
  · exact Or.inl rfl

theorem delta_streamedText (params : Json) :
    (delta s params).1.streamedText ⊆ insert (itemId params) s.streamedText := by
  rw [delta]
  split_ifs
  · exact Finset.subset_insert _ _
  · exact subset_rfl

theorem ended_streamedText (cap : Option ℕ) (method : String) (params : Json) :
    (ended print cap child s method params).1.streamedText ⊆ s.streamedText := by
  rw [ended]
  split_ifs
  · exact Finset.empty_subset _
  · exact subset_rfl
  · exact Finset.empty_subset _
  · exact subset_rfl

theorem completed_streamedText (cap : Option ℕ) (params : Json) :
    (completed mapItem cap s params).1.streamedText = s.streamedText ∨
      (completed mapItem cap s params).1.streamedText =
        s.streamedText.erase (strField (itemOf params) ["id"]) := by
  rw [completed]
  split_ifs
  · exact (item_streamedText .completed _).imp_right And.right
  · exact Or.inl rfl

theorem turnStarted_streamedText (params : Json) :
    (turnStarted s params).1.streamedText = s.streamedText := by
  rw [turnStarted]
  split_ifs <;> rfl

theorem started_streamedText (v : Json) :
    (item mapItem s .started v).1.streamedText = s.streamedText :=
  (item_streamedText .started v).resolve_right fun h => by cases h.1

theorem mem_streamedText_map :
    id ∈ (map mapItem print none child s n).1.streamedText →
      id ∈ s.streamedText ∨ IsDelta id n := by
  refine map_cases (P := fun r => id ∈ r.1.streamedText → id ∈ s.streamedText ∨ IsDelta id n)
    Or.inl (fun _ h => ?_) (fun _ h => ?_) (fun _ h => ?_) (fun hd h => ?_) (fun _ _ => Or.inl)
    (fun _ h => ?_) Or.inl
  · rw [turnStarted_streamedText] at h
    exact Or.inl h
  · rw [started_streamedText] at h
    exact Or.inl h
  · rcases @completed_streamedText mapItem s none n.2 with heq | heq
    · rw [heq] at h
      exact Or.inl h
    · rw [heq] at h
      exact Or.inl (Finset.mem_of_mem_erase h)
  · have hmem := Finset.mem_insert.mp (delta_streamedText n.2 h)
    exact hmem.symm.imp_right fun heq => ⟨hd, heq.symm⟩
  · exact Or.inl (ended_streamedText none n.1 n.2 h)

/-- What keeps the text of an item until its completion. -/
structure Streaming (id : String) (s : ChildStream) : Prop where
  running : s.settled = false
  incomplete : id ∉ s.completedItems

theorem item_settled (h : s.settled = false) (phase : Phase) (v : Json) :
    (item mapItem s phase v).1.settled = false := by
  rw [item]
  split_ifs
  · cases userMessageText v
    · exact h
    · rfl
  all_goals exact h

theorem ended_known (hend : n.1 ∈ endMethods → n.1 ≠ "thread/closed" ∧ turnId n.2 ≠ "" ∧
      turnId n.2 ∈ s.completedTurns) (h : n.1 ∈ endMethods) :
    ended print none child s n.1 n.2 = (s, []) := by
  obtain ⟨hclosed, hempty, hmem⟩ := hend h
  have hknown : ¬ (remember none s.completedTurns (turnId n.2)).2 = true := by
    rw [remember_snd]
    simp [hempty, hmem]
  rw [ended, if_neg hclosed, if_neg hknown]

theorem settled_map (hs : s.settled = false)
    (hend : n.1 ∈ endMethods → n.1 ≠ "thread/closed" ∧ turnId n.2 ≠ "" ∧
      turnId n.2 ∈ s.completedTurns) :
    (map mapItem print none child s n).1.settled = false := by
  refine map_cases (P := fun r => r.1.settled = false) hs (fun _ => ?_)
    (fun _ => item_settled hs .started _) (fun _ => ?_) (fun _ => ?_) (fun _ _ => hs)
    (fun he => ?_) hs
  · rw [turnStarted]
    split_ifs
    · exact hs
    · rfl
    · exact hs
  · rw [completed]
    split_ifs
    · refine item_settled ?_ .completed _
      exact hs
    · exact hs
  · rw [delta]
    split_ifs <;> exact hs
  · rw [ended_known hend he]
    exact hs

theorem map_streaming (h : Streaming id s) (hc : ¬ Completes id n)
    (hend : n.1 ∈ endMethods → n.1 ≠ "thread/closed" ∧ turnId n.2 ≠ "" ∧
      turnId n.2 ∈ s.completedTurns) :
    Streaming id (map mapItem print none child s n).1 ∧
      (id ∈ s.streamedText → id ∈ (map mapItem print none child s n).1.streamedText) := by
  refine ⟨⟨settled_map h.running hend, fun hmem => ?_⟩, fun hmem => ?_⟩
  · rcases mem_completedItems_map.mp hmem with hmem | ⟨hmem, -⟩
    · exact h.incomplete hmem
    · exact hc hmem
  · refine map_cases (P := fun r => id ∈ r.1.streamedText) hmem (fun _ => ?_) (fun _ => ?_)
      (fun hn => ?_) (fun _ => ?_) (fun _ _ => hmem) (fun he => ?_) hmem
    · rw [turnStarted_streamedText]
      exact hmem
    · rw [started_streamedText]
      exact hmem
    · have hne : strField (itemOf n.2) ["id"] ≠ id := fun heq => hc ⟨hn, heq⟩
      rcases @completed_streamedText mapItem s none n.2 with heq | heq
      · rw [heq]
        exact hmem
      · rw [heq]
        exact Finset.mem_erase.mpr ⟨hne.symm, hmem⟩
    · rw [delta]
      split_ifs
      · exact hmem
      · exact Finset.mem_insert_of_mem hmem
    · rw [ended_known hend he]
      exact hmem

theorem map_isDelta (h : Streaming id s) (hd : IsDelta id n) :
    id ∈ (map mapItem print none child s n).1.streamedText ∧
      (map mapItem print none child s n).2.flatMap text = ((deltaText n.2).getD "").toList := by
  have hnew : ¬ (itemId n.2 ≠ "" ∧ itemId n.2 ∈ s.completedItems) := by
    rw [hd.2]
    exact fun hmem => h.incomplete hmem.2
  rw [map_delta hd.1 h.running, delta, if_neg hnew]
  refine ⟨hd.2 ▸ Finset.mem_insert_self _ _, ?_⟩
  cases deltaText n.2 <;> simp [text_textDelta]

theorem map_silent (h : id ∈ s.completedItems) (hid : id ≠ "") (habout : About id n) :
    (map mapItem print none child s n).2 = [] := by
  rcases habout with hd | hc
  · cases hs : s.settled with
    | true =>
      rw [map, if_neg (by simp [hd.1]), if_neg (by simp [hd.1]), if_neg (by simp [hd.1]), if_pos hs]
    | false =>
      have hold : itemId n.2 ≠ "" ∧ itemId n.2 ∈ s.completedItems := by
        rw [hd.2]
        exact ⟨hid, h⟩
      rw [map_delta hd.1 hs, delta, if_pos hold]
  · have hold : ¬ (remember none s.completedItems (strField (itemOf n.2) ["id"])).2 = true := by
      rw [hc.2, remember_snd]
      simp [hid, h]
    rw [map_completed none hc.1, completed, if_neg hold]

theorem map_message (cap : Option ℕ) (h : Streaming id s) (hc : Completes id n)
    (hagent : isAgentMessage (itemOf n.2) = true) :
    (map mapItem print cap child s n).2.flatMap text =
      (if id ∈ s.streamedText then [] else (strField (itemOf n.2) ["text"]).toList) ++
        ['\n', '\n'] := by
  have hnew : (remember cap s.completedItems (strField (itemOf n.2) ["id"])).2 = true := by
    rw [hc.2, remember_snd]
    simp [h.incomplete]
  have huser : ¬ isUserMessage (itemOf n.2) = true := by
    intro huser
    simp only [isUserMessage, isAgentMessage, Bool.or_eq_true, decide_eq_true_eq] at huser hagent
    rcases huser with huser | huser <;> simp [huser] at hagent
  rw [map_completed cap hc.1, completed, if_pos hnew, item, if_neg huser,
    if_neg (by simp [h.running]), if_pos hagent, if_neg (by simp), hc.2]
  dsimp only
  by_cases hmem : id ∈ s.streamedText
  · rw [if_neg fun hn => hn.1 hmem, if_pos hmem]
    rfl
  · rw [if_neg hmem]
    split_ifs with hempty
    · simp [text_textDelta]
    · have hnil : strField (itemOf n.2) ["text"] = "" := by
        by_contra hne
        exact hempty ⟨hmem, hne⟩
      simp [text_textDelta, hnil]

/-! ## Runs -/

theorem after_append (ms : List Notification) :
    after mapItem print none child s (ns ++ ms) =
      after mapItem print none child (after mapItem print none child s ns) ms :=
  List.foldl_append

theorem transcript_append (cap : Option ℕ) (s : ChildStream) (ns ms : List Notification) :
    transcript mapItem print cap child s (ns ++ ms) = transcript mapItem print cap child s ns ++
      transcript mapItem print cap child (after mapItem print cap child s ns) ms := by
  induction ns generalizing s with
  | nil => rfl
  | cons n ns ih =>
    rw [List.cons_append, transcript_cons, transcript_cons, ih]
    rfl

theorem map_transcript (cap : Option ℕ) (s : ChildStream) (ns : List Notification) :
    (transcript mapItem print cap child s ns).map Prod.fst = ns := by
  induction ns generalizing s with
  | nil => rfl
  | cons n ns ih => rw [transcript_cons, List.map_cons, ih]

theorem mem_transcript {cap : Option ℕ} {m : Notification} (h : m ∈ ns) :
    ∃ t ∈ transcript mapItem print cap child s ns, t.1 = m := by
  rw [← @map_transcript mapItem print child cap s ns] at h
  exact List.mem_map.mp h

theorem mem_completedItems_after :
    id ∈ (after mapItem print none child s ns).completedItems ↔
      id ∈ s.completedItems ∨ id ≠ "" ∧ ∃ n ∈ ns, Completes id n := by
  induction ns generalizing s with
  | nil => exact (or_iff_left fun h => h.2.elim fun n hn => List.not_mem_nil hn.1).symm
  | cons n ns ih =>
    show id ∈ (after mapItem print none child
      (map mapItem print none child s n).1 ns).completedItems ↔ _
    rw [ih, mem_completedItems_map, or_assoc]
    simp only [List.mem_cons, exists_eq_or_imp, and_or_left]
    exact or_congr_right (or_congr_left and_comm)

theorem mem_completedTurns_after :
    id ∈ (after mapItem print none child s ns).completedTurns ↔
      id ∈ s.completedTurns ∨ id ≠ "" ∧ EndTold (transcript mapItem print none child s ns) id := by
  induction ns generalizing s with
  | nil => exact (or_iff_left fun h => h.2.elim fun t ht => List.not_mem_nil ht.1).symm
  | cons n ns ih =>
    show id ∈ (after mapItem print none child
      (map mapItem print none child s n).1 ns).completedTurns ↔ _
    rw [ih, mem_completedTurns_map, EndTold, EndTold, transcript_cons, or_assoc]
    simp only [List.mem_cons, exists_eq_or_imp, and_or_left]

theorem mem_streamedText_after (h : id ∈ (after mapItem print none child s ns).streamedText) :
    id ∈ s.streamedText ∨ ∃ n ∈ ns, IsDelta id n := by
  induction ns generalizing s with
  | nil => exact Or.inl h
  | cons n ns ih =>
    rcases ih h with h | ⟨m, hm, hd⟩
    · exact (mem_streamedText_map h).imp_right fun hd => ⟨n, List.mem_cons_self, hd⟩
    · exact Or.inr ⟨m, List.mem_cons_of_mem n hm, hd⟩

theorem said_append (told told' : List (Notification × List StreamEvent)) :
    said id (told ++ told') = said id told ++ said id told' := by
  rw [said, List.filter_append, List.flatMap_append]
  rfl

theorem deltaTexts_append (ns ms : List Notification) :
    deltaTexts id (ns ++ ms) = deltaTexts id ns ++ deltaTexts id ms := by
  rw [deltaTexts, List.filter_append, List.flatMap_append]
  rfl

theorem said_transcript_of_not_about (cap : Option ℕ) (h : ∀ n ∈ ns, ¬ About id n) :
    said id (transcript mapItem print cap child s ns) = [] := by
  rw [said, List.filter_eq_nil_iff.mpr, List.flatMap_nil]
  intro t ht
  rw [← @map_transcript mapItem print child cap s ns] at h
  simpa using h t.1 (List.mem_map_of_mem ht)

/-- The notifications of a turn, up to the completion of an item. -/
theorem streaming_after (h : Streaming id s) (hc : ∀ n ∈ ns, ¬ Completes id n)
    (hend : ∀ n ∈ ns, n.1 ∈ endMethods → n.1 ≠ "thread/closed" ∧ turnId n.2 ≠ "" ∧
      turnId n.2 ∈ s.completedTurns) :
    Streaming id (after mapItem print none child s ns) ∧
      ((id ∈ s.streamedText ∨ ∃ n ∈ ns, IsDelta id n) →
        id ∈ (after mapItem print none child s ns).streamedText) ∧
      said id (transcript mapItem print none child s ns) = deltaTexts id ns := by
  induction ns generalizing s with
  | nil => exact ⟨h, fun hs => hs.resolve_right (by simp), rfl⟩
  | cons n ns ih =>
    rw [List.forall_mem_cons] at hc hend
    obtain ⟨hstream, hkeep⟩ := @map_streaming mapItem print child s n id h hc.1 hend.1
    obtain ⟨hrest, hdelta, hsaid⟩ := ih hstream hc.2 fun m hm he =>
      ⟨(hend.2 m hm he).1, (hend.2 m hm he).2.1,
        mem_completedTurns_map.mpr (Or.inl (hend.2 m hm he).2.2)⟩
    refine ⟨hrest, fun hs => hdelta ?_, ?_⟩
    · rcases hs with hs | ⟨m, hm, hd⟩
      · exact Or.inl (hkeep hs)
      · rcases List.mem_cons.mp hm with rfl | hm
        · exact Or.inl (map_isDelta h hd).1
        · exact Or.inr ⟨m, hm, hd⟩
    · have hsplit : deltaTexts id (n :: ns) = deltaTexts id [n] ++ deltaTexts id ns :=
        deltaTexts_append [n] ns
      rw [transcript_cons, ← List.singleton_append, said_append, hsaid, hsplit]
      refine congrArg (· ++ _) ?_
      by_cases hd : IsDelta id n
      · have habout : About id n := Or.inl hd
        simp [said, deltaTexts, habout, hd, (map_isDelta h hd).2]
      · have habout : ¬ About id n := fun habout => habout.elim hd hc.1
        simp [said, deltaTexts, habout, hd]

theorem said_of_completed (h : id ∈ s.completedItems) (hid : id ≠ "") :
    said id (transcript mapItem print none child s ns) = [] := by
  induction ns generalizing s with
  | nil => rfl
  | cons n ns ih =>
    rw [transcript_cons, ← List.singleton_append, said_append,
      ih (mem_completedItems_map.mpr (Or.inl h)), List.append_nil, said]
    by_cases habout : About id n
    · simp [habout, map_silent h hid habout]
    · simp [habout]

theorem settled_of_opens
    (h : Opens (transcript mapItem print none child .default ns) n) :
    (map mapItem print none child (after mapItem print none child .default ns) n).1.settled =
      false := by
  rcases h with ⟨hn, hnew⟩ | ⟨hn, huser, htext, hnew⟩
  · have hknown : ¬ (turnId n.2 ≠ "" ∧
        turnId n.2 ∈ (after mapItem print none child .default ns).completedTurns) := by
      rintro ⟨hempty, hmem⟩
      rcases mem_completedTurns_after.mp hmem with hmem | ⟨-, hmem⟩
      · simp [ChildStream.default] at hmem
      · exact hnew.elim hempty fun hnew => hnew hmem
    rw [map, if_pos hn, turnStarted, if_neg hknown]
    split_ifs with hs
    · rfl
    · simpa using hs
  · have hknown : (remember none (after mapItem print none child .default ns).completedItems
        (strField (itemOf n.2) ["id"])).2 = true := by
      rw [remember_snd]
      by_contra hold
      simp only [ne_eq, Bool.not_eq_true', Bool.and_eq_false_iff, decide_eq_false_iff_not,
        not_or, not_not] at hold
      rcases mem_completedItems_after.mp hold.2 with hmem | ⟨-, m, hm, hc⟩
      · simp [ChildStream.default] at hmem
      · obtain ⟨t, ht, rfl⟩ := @mem_transcript mapItem print child .default ns none m hm
        exact hnew.elim hold.1 fun hnew => hnew t ht hc
    obtain ⟨text, htext⟩ := Option.isSome_iff_exists.mp htext
    rw [map_completed none hn, completed, if_pos hknown, item, if_pos huser, if_pos rfl, htext]

/-- The part of a message before its completion. -/
theorem said_turn {before turn : List Notification} {completion : Notification} {full : String}
    (h : Message (transcript mapItem print none child .default before) id full before turn
      completion) :
    Streaming id (after mapItem print none child .default (before ++ turn)) ∧
      ((∃ n ∈ turn, IsDelta id n) →
        id ∈ (after mapItem print none child .default (before ++ turn)).streamedText) ∧
      said id (transcript mapItem print none child
        (after mapItem print none child .default before) turn) = deltaTexts id turn := by
  have hincomplete : id ∉ (after mapItem print none child .default before).completedItems := by
    intro hmem
    rcases mem_completedItems_after.mp hmem with hmem | ⟨-, m, hm, hc⟩
    · simp [ChildStream.default] at hmem
    · exact h.unknown m hm (Or.inr hc)
  have hquiet : ∀ n ∈ turn, n.1 ∈ endMethods → n.1 ≠ "thread/closed" ∧ turnId n.2 ≠ "" ∧
      turnId n.2 ∈ (after mapItem print none child .default before).completedTurns :=
    fun n hn he => ⟨(h.quiet n hn he).1, (h.quiet n hn he).2.1,
      mem_completedTurns_after.mpr (Or.inr (h.quiet n hn he).2)⟩
  rw [after_append]
  rcases h.opened with rfl | ⟨n, hhead, hopens⟩
  · have hall := @streaming_after mapItem print child .default turn id ⟨rfl, hincomplete⟩
      h.incomplete hquiet
    exact ⟨hall.1, fun hd => hall.2.1 (Or.inr hd), hall.2.2⟩
  · obtain ⟨rest, rfl⟩ := List.head?_eq_some_iff.mp hhead
    have hdelta : ¬ IsDelta id n := fun hd => by
      rcases hopens with ⟨hn, -⟩ | ⟨hn, -⟩ <;> simp [hd.1] at hn
    have hcompletes := List.forall_mem_cons.mp h.incomplete
    have habout : ¬ About id n := fun habout => habout.elim hdelta hcompletes.1
    have hincomplete' : id ∉ (map mapItem print none child
        (after mapItem print none child .default before) n).1.completedItems := fun hmem =>
      (mem_completedItems_map.mp hmem).elim hincomplete fun hc => hcompletes.1 hc.1
    have hrest := @streaming_after mapItem print child _ rest id
      ⟨settled_of_opens hopens, hincomplete'⟩ hcompletes.2 fun m hm he =>
        ⟨(hquiet m (List.mem_cons_of_mem n hm) he).1, (hquiet m (List.mem_cons_of_mem n hm) he).2.1,
          mem_completedTurns_map.mpr (Or.inl (hquiet m (List.mem_cons_of_mem n hm) he).2.2)⟩
    refine ⟨hrest.1, fun hd => hrest.2.1 (Or.inr ?_), ?_⟩
    · obtain ⟨m, hm, hd⟩ := hd
      rcases List.mem_cons.mp hm with rfl | hm
      · exact absurd hd hdelta
      · exact ⟨m, hm, hd⟩
    · have hsplit : deltaTexts id (n :: rest) = deltaTexts id [n] ++ deltaTexts id rest :=
        deltaTexts_append [n] rest
      rw [transcript_cons, ← List.singleton_append, said_append, hrest.2.2, hsplit]
      refine congrArg (· ++ _) ?_
      simp [said, deltaTexts, habout, hdelta]

/-- A message is told once, and closed. -/
theorem said_message {before turn rest : List Notification} {completion : Notification}
    {full : String}
    (h : Message (transcript mapItem print none child .default before) id full before turn
      completion) :
    said id (transcript mapItem print none child .default (before ++ turn ++ completion :: rest)) =
      full.toList ++ ['\n', '\n'] := by
  obtain ⟨hstream, hdelta, hsaid⟩ := said_turn h
  have htext := @map_message mapItem print child _ completion id none hstream h.completes h.agent
  have hdone : id ∈ (map mapItem print none child
      (after mapItem print none child .default (before ++ turn)) completion).1.completedItems :=
    mem_completedItems_map.mpr (Or.inr ⟨h.completes, h.named⟩)
  have hcompletion : said id [(completion, (map mapItem print none child
      (after mapItem print none child .default (before ++ turn)) completion).2)] =
      (map mapItem print none child
        (after mapItem print none child .default (before ++ turn)) completion).2.flatMap text := by
    have habout : About id completion := Or.inr h.completes
    simp [said, habout]
  rw [transcript_append, transcript_append, said_append, said_append,
    said_transcript_of_not_about none h.unknown, hsaid, transcript_cons, ← List.singleton_append,
    said_append, said_of_completed hdone h.named, hcompletion, htext, h.full]
  by_cases hd : ∃ n ∈ turn, IsDelta id n
  · have hfull := h.deltas.resolve_left fun hnone => hd.elim fun n hn => hnone n hn.1 hn.2
    rw [if_pos (hdelta hd), hfull]
    simp
  · have hnone : ∀ n ∈ turn, ¬ IsDelta id n := fun n hn hdn => hd ⟨n, hn, hdn⟩
    have hstreamed :
        id ∉ (after mapItem print none child .default (before ++ turn)).streamedText := by
      intro hmem
      rcases mem_streamedText_after hmem with hmem | ⟨m, hm, hdm⟩
      · simp [ChildStream.default] at hmem
      · rcases List.mem_append.mp hm with hm | hm
        · exact h.unknown m hm (Or.inl hdm)
        · exact hnone m hm hdm
    have hempty : deltaTexts id turn = [] := by
      rw [deltaTexts, List.filter_eq_nil_iff.mpr, List.flatMap_nil]
      simpa using hnone
    rw [if_neg hstreamed, hempty]
    simp

theorem map_replayed (h : Replayed (transcript mapItem print none child .default ns) n) :
    (map mapItem print none child (after mapItem print none child .default ns) n).2 = [] := by
  rcases h with ⟨id, hid, hc, t, ht, htc⟩ | ⟨id, hid, hends, htold⟩
  · have hmem : id ∈ (after mapItem print none child .default ns).completedItems := by
      refine mem_completedItems_after.mpr (Or.inr ⟨hid, t.1, ?_, htc⟩)
      rw [← @map_transcript mapItem print child none .default ns]
      exact List.mem_map_of_mem ht
    exact map_silent hmem hid (Or.inr hc)
  · have hmem : id ∈ (after mapItem print none child .default ns).completedTurns :=
      mem_completedTurns_after.mpr (Or.inr ⟨hid, htold⟩)
    cases hs : (after mapItem print none child .default ns).settled with
    | true => rw [map_end_settled hends.1.1 hs]
    | false =>
      have hknown : n.1 ∈ endMethods → n.1 ≠ "thread/closed" ∧ turnId n.2 ≠ "" ∧
          turnId n.2 ∈ (after mapItem print none child .default ns).completedTurns := fun _ =>
        ⟨hends.1.2, hends.2 ▸ hid, hends.2 ▸ hmem⟩
      rw [map_end hends.1.1 hs, ended_known hknown hends.1.1]

theorem item_of_settled {phase : Phase} {v : Json} (hs : s.settled = true)
    (h : (item mapItem s phase v).1.settled = false) :
    phase = .completed ∧ isUserMessage v = true ∧ (userMessageText v).isSome = true := by
  rw [item] at h
  by_cases huser : isUserMessage v = true
  · rw [if_pos huser] at h
    by_cases hphase : phase = .completed
    · rw [if_pos hphase] at h
      cases htext : userMessageText v with
      | none => simp [htext, hs] at h
      | some text => exact ⟨hphase, huser, rfl⟩
    · simp [hphase, hs] at h
  · simp [huser, hs] at h

theorem opens_of_settled
    (hs : (after mapItem print none child .default ns).settled = true)
    (h : (map mapItem print none child (after mapItem print none child .default ns) n).1.settled =
      false) :
    Opens (transcript mapItem print none child .default ns) n := by
  revert h
  refine map_cases (P := fun r => r.1.settled = false → Opens _ n) (fun h => ?_) (fun hn h => ?_)
    (fun _ h => ?_) (fun hn h => ?_) (fun _ h => ?_) (fun _ _ h => ?_) (fun _ h => ?_) fun h => ?_
  · simp [hs] at h
  · rw [turnStarted] at h
    split_ifs at h with hknown
    · simp [hs] at h
    · refine Or.inl ⟨hn, ?_⟩
      by_contra hold
      rw [not_or, not_not] at hold
      exact hknown ⟨hold.1, mem_completedTurns_after.mpr (Or.inr hold)⟩
  · cases (item_of_settled hs h).1
  · rw [completed] at h
    split_ifs at h with hnew
    · obtain ⟨-, huser, htext⟩ := item_of_settled (by exact hs) h
      refine Or.inr ⟨hn, huser, htext, ?_⟩
      by_contra hold
      simp only [not_or, not_forall, not_not] at hold
      obtain ⟨hid, t, ht, hc⟩ := hold
      have hmem : t.1 ∈ ns := by
        rw [← @map_transcript mapItem print child none .default ns]
        exact List.mem_map_of_mem ht
      rw [remember_snd] at hnew
      simp [hid, mem_completedItems_after.mpr (Or.inr ⟨hid, t.1, hmem, hc⟩)] at hnew
    · simp [hs] at h
  · rw [delta] at h
    split_ifs at h <;> simp [hs] at h
  · simp [hs] at h
  · rw [ended] at h
    split_ifs at h <;> simp [hs] at h
  · simp [hs] at h

end

/-! ## The stream as it is -/

section

variable {mapItem : Phase → Json → List AgentEvent} {print : Json → String} {child : String}
  {s : ChildStream} {n : Notification} {ns : List Notification}

theorem nearAll_append {ms : List Notification} :
    NearAll mapItem print child s (ns ++ ms) ↔ NearAll mapItem print child s ns ∧
      NearAll mapItem print child (after mapItem print none child s ns) ms := by
  induction ns generalizing s with
  | nil => simp [NearAll, after]
  | cons n ns ih =>
    rw [List.cons_append, NearAll, NearAll, ih, and_assoc]
    rfl

theorem kept_default : ChildStream.default.kept = .default := by
  simp [kept, ChildStream.default, recent]

theorem transcript_default (h : NearAll mapItem print child .default ns) :
    transcript mapItem print (some 256) child .default ns =
      transcript mapItem print none child .default ns ∧
    after mapItem print (some 256) child .default ns =
      (after mapItem print none child .default ns).kept := by
  have hkept := transcript_kept h
  rwa [kept_default] at hkept

/-- **A child's messages.** Where no id is looked up that more than 256 ids have followed: a
message of a turn is told once and closed, what is replayed tells nothing, and only a new turn or
user message opens a settled child. -/
theorem child_text (hnear : NearAll mapItem print child .default ns) :
    (∀ id full before turn completion rest, ns = before ++ turn ++ completion :: rest →
      Message (transcript mapItem print (some 256) child .default before) id full before turn
        completion →
      said id (transcript mapItem print (some 256) child .default ns) =
        full.toList ++ ['\n', '\n']) ∧
    ∀ pre n post, ns = pre ++ n :: post →
      (Replayed (transcript mapItem print (some 256) child .default pre) n →
        (map mapItem print (some 256) child
          (after mapItem print (some 256) child .default pre) n).2 = []) ∧
      ((after mapItem print (some 256) child .default pre).settled = true →
        (after mapItem print (some 256) child .default (pre ++ [n])).settled = false →
        Opens (transcript mapItem print (some 256) child .default pre) n) := by
  refine ⟨?_, ?_⟩
  · rintro id full before turn completion rest rfl h
    have hbefore := (nearAll_append.mp (nearAll_append.mp hnear).1).1
    rw [(transcript_default hbefore).1] at h
    rw [(transcript_default hnear).1]
    exact said_message h
  · rintro pre n post rfl
    obtain ⟨hpre, hn, -⟩ := nearAll_append.mp hnear
    obtain ⟨htold, hafter⟩ := transcript_default hpre
    have hstep := @map_kept mapItem print child _ n hn
    rw [← hafter] at hstep
    obtain ⟨hstate, hevents⟩ := Prod.ext_iff.mp hstep
    dsimp only at hstate hevents
    rw [htold]
    constructor
    · intro h
      exact hevents.trans (map_replayed h)
    · intro hs h
      have hlast : after mapItem print (some 256) child .default (pre ++ [n]) =
          (map mapItem print (some 256) child
            (after mapItem print (some 256) child .default pre) n).1 := by
        rw [after, after, List.foldl_append, List.foldl_cons, List.foldl_nil]
      rw [hlast, hstate, kept_settled] at h
      rw [hafter, kept_settled] at hs
      exact opens_of_settled hs h

instance decidableNearAll : ∀ (s : ChildStream) (ns : List Notification),
    Decidable (NearAll mapItem print child s ns)
  | _, [] => isTrue trivial
  | s, n :: ns =>
    @instDecidableAnd _ _ inferInstance
      (decidableNearAll (map mapItem print none child s n).1 ns)

end

/-! ## A child -/

/-- The completion of a message. -/
def complete (id text : String) : Notification :=
  ("item/completed", .obj [("item", .obj [("type", .str "agentMessage"), ("id", .str id),
    ("text", .str text)])])

/-- A delta of a message. -/
def stream (id text : String) : Notification :=
  ("item/agentMessage/delta", .obj [("itemId", .str id), ("delta", .str text)])

/-- A turn's notification. -/
def turn (method id : String) : Notification := (method, .obj [("turn", .obj [("id", .str id)])])

/-- A turn with a streamed message, whose completion and end are replayed. -/
def replaying : List Notification :=
  [turn "turn/started" "t", stream "m" "a", stream "m" "", stream "m" "b", complete "m" "ab",
    turn "turn/completed" "t", complete "m" "ab", turn "turn/completed" "t"]

theorem child_text_replaying :
    said "m" (transcript (fun _ _ => []) (fun _ => "") (some 256) "c" .default replaying) =
      ['a', 'b', '\n', '\n'] := by
  have hquiet : ∀ n ∈ replaying.take 4, n.1 ∉ endMethods := by decide +kernel
  exact (child_text (by decide +kernel)).1 "m" "ab" [] (replaying.take 4) (complete "m" "ab")
    (replaying.drop 5) rfl
    { named := by decide
      unknown := by simp
      opened := Or.inl rfl
      quiet := fun n hn he => absurd he (hquiet n hn)
      incomplete := by decide +kernel
      deltas := Or.inr (by decide +kernel)
      completes := by decide +kernel
      agent := by decide +kernel
      full := by decide +kernel }

/-- Messages in one piece leave their ids in the history, in order. -/
theorem completedItems_complete {ids : List String} {s : ChildStream} (hs : s.settled = false)
    (hids : (s.completedItems ++ ids).Nodup) (hne : "" ∉ ids) :
    NearAll (fun _ _ => []) (fun _ => "") "c" s (ids.map (complete · "a")) ∧
      (after (fun _ _ => []) (fun _ => "") none "c" s (ids.map (complete · "a"))).completedItems =
        s.completedItems ++ ids ∧
      (after (fun _ _ => []) (fun _ => "") none "c" s (ids.map (complete · "a"))).settled =
        false := by
  induction ids generalizing s with
  | nil => exact ⟨trivial, (List.append_nil _).symm, hs⟩
  | cons id ids ih =>
    rw [List.mem_cons, not_or] at hne
    have hid : strField (itemOf (complete id "a").2) ["id"] = id := by
      simp [complete, itemOf, strField, field, get, List.lookup, Json.asStr]
    have hnew : id ∉ s.completedItems := fun hmem =>
      (List.nodup_append'.mp hids).2.2 hmem List.mem_cons_self
    have hitem : lookedUpItem (complete id "a") = some id := by
      have hmethod : (complete id "a").1 = "item/completed" := rfl
      rw [lookedUpItem, if_pos hmethod, hid]
    have hturn : lookedUpTurn (complete id "a") = none :=
      if_neg (by simp [complete, endMethods])
    have hnear : Near s (complete id "a") := by
      rw [Near, hitem, hturn]
      exact ⟨fun id' hid' hmem => absurd (Option.some.inj hid' ▸ hmem) hnew, by simp⟩
    have hremember : remember none s.completedItems id = (s.completedItems ++ [id], true) := by
      rw [remember, if_neg (Ne.symm hne.1), if_neg hnew, if_neg (by simp)]
    have hmap : map (fun _ _ => []) (fun _ => "") none "c" s (complete id "a") =
        item (fun _ _ => []) { s with completedItems := s.completedItems ++ [id] } .completed
          (itemOf (complete id "a").2) := by
      rw [map_completed none rfl, completed, hid, hremember]
      rfl
    have hrest := @ih (map (fun _ _ => []) (fun _ => "") none "c" s (complete id "a")).1 ?_ ?_ hne.2
    · rw [hmap, item_completedItems] at hrest
      rw [List.map_cons, NearAll, after, List.foldl_cons, ← after, hmap]
      refine ⟨⟨hnear, hrest.1⟩, hrest.2.1.trans (List.append_assoc _ _ _), hrest.2.2⟩
    · rw [hmap]
      refine item_settled ?_ _ _
      exact hs
    · rw [hmap, item_completedItems, List.append_assoc]
      exact hids

/-- A completion that is replayed behind 256 others is told again. -/
theorem said_forgotten {id : String} {ids : List String} (hids : (id :: ids).Nodup)
    (hempty : "" ∉ id :: ids) (hlen : ids.length = 256) :
    said id (transcript (fun _ _ => []) (fun _ => "") (some 256) "c" .default
      ((id :: ids).map (complete · "a") ++ [complete id "a"])) =
        ['a', '\n', '\n', 'a', '\n', '\n'] := by
  obtain ⟨hnear, hitems, hsettled⟩ :=
    @completedItems_complete (id :: ids) .default rfl hids hempty
  obtain ⟨htold, hafter⟩ := transcript_default hnear
  have hid : strField (itemOf (complete id "a").2) ["id"] = id := by
    simp [complete, itemOf, strField, field, get, List.lookup, Json.asStr]
  have hcompletes : Completes id (complete id "a") := ⟨rfl, hid⟩
  have hagent : isAgentMessage (itemOf (complete id "a").2) = true := by
    simp [complete, itemOf, isAgentMessage, itemType, get, List.lookup, Json.asStr]
  have hfull : strField (itemOf (complete id "a").2) ["text"] = "a" := by
    simp [complete, itemOf, strField, field, get, List.lookup, Json.asStr]
  have hfirst := @said_message (fun _ _ => []) (fun _ => "") "c" id [] []
    (ids.map (complete · "a")) (complete id "a") "a"
    { named := fun h => hempty (h ▸ List.mem_cons_self)
      unknown := by simp
      opened := Or.inl rfl
      quiet := by simp
      incomplete := by simp
      deltas := Or.inl (by simp)
      completes := hcompletes
      agent := hagent
      full := hfull }
  have hrecent : recent (id :: ids) = ids := by
    rw [recent, List.length_cons, hlen]
    rfl
  have hstream : Streaming id (after (fun _ _ => []) (fun _ => "") (some 256) "c" .default
      ((id :: ids).map (complete · "a"))) := by
    rw [hafter]
    refine ⟨(kept_settled _).trans hsettled, ?_⟩
    rw [kept_completedItems, hitems, ChildStream.default, List.nil_append, hrecent]
    exact (List.nodup_cons.mp hids).1
  have hstreamed : id ∉ (after (fun _ _ => []) (fun _ => "") (some 256) "c" .default
      ((id :: ids).map (complete · "a"))).streamedText := by
    rw [hafter, kept_streamedText]
    intro hmem
    rcases mem_streamedText_after hmem with hmem | ⟨n, hn, hd⟩
    · simp [ChildStream.default] at hmem
    · obtain ⟨id', -, rfl⟩ := List.mem_map.mp hn
      simp [IsDelta, complete] at hd
  have hlast := @map_message (fun _ _ => []) (fun _ => "") "c" _ (complete id "a") id (some 256)
    hstream hcompletes hagent
  have habout : About id (complete id "a") := Or.inr hcompletes
  rw [if_neg hstreamed, hfull] at hlast
  rw [transcript_append, said_append, htold, transcript, transcript]
  refine (congrArg₂ (· ++ ·) hfirst ?_).trans rfl
  simp only [said, habout, decide_true, List.filter_cons_of_pos, List.filter_nil,
    List.flatMap_cons, List.flatMap_nil, List.append_nil]
  exact hlast

/-- The ids of 256 messages. -/
def others : List String := (List.range 256).map fun n => String.ofList (List.replicate (n + 2) 'x')

theorem length_of_mem_others {id : String} (h : id ∈ others) : 2 ≤ id.length := by
  obtain ⟨n, -, rfl⟩ := List.mem_map.mp h
  simp

theorem nodup_others : others.Nodup := by
  refine List.Nodup.map (fun n m h => ?_) List.nodup_range
  have hlen := congrArg String.length h
  simpa using hlen

/-- A message whose only delta is empty is not told; one whose completion is replayed behind 256
others is told twice. -/
theorem untold_and_told_twice :
    said "m" (transcript (fun _ _ => []) (fun _ => "") (some 256) "c" .default
      [stream "m" "", complete "m" "ab"]) = ['\n', '\n'] ∧
    said "x" (transcript (fun _ _ => []) (fun _ => "") (some 256) "c" .default
      (("x" :: others).map (complete · "a") ++ [complete "x" "a"])) =
        ['a', '\n', '\n', 'a', '\n', '\n'] := by
  have hx : "x" ∉ others := fun hmem => absurd (length_of_mem_others hmem) (by decide)
  have hempty : "" ∉ "x" :: others := fun hmem => by
    rcases List.mem_cons.mp hmem with h | h
    · simp at h
    · simpa using length_of_mem_others h
  refine ⟨by decide +kernel, said_forgotten (List.nodup_cons.mpr ⟨hx, nodup_others⟩) hempty ?_⟩
  rw [others, List.length_map, List.length_range]

end ChildStream

end Zeron.Agent.Codex
