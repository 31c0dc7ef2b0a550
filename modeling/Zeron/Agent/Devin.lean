import Mathlib.Data.List.AList
import Zeron.Agent.Claude
import Zeron.Lib.Run
import Zeron.Lib.Story

/-!
# The subagents of Devin

Devin tags the updates of its subagents on the parent's feed (`subagent_devin.rs` of
`harness/src/acp`): a spawn call, `subagent_started`, the child's own updates, and
`subagent_completed`.

* `DevinTracker`, `map`, `finishOpen`: the source; `map_update` is a parameter;
* `Run`, `step`: the tracker, and the story of what it has tagged;
* `Fair`: what pairs a child with a call that is not its own;
* **`devin_transcripts`**: one chip and one transcript for each child.
-/

namespace Zeron.Agent.Subagent

open Zeron.Run Zeron.Story
open Claude (DoneStatus)

/-! ## Events -/

/-- `AgentEvent`, with what is of no concern here as `other`. -/
inductive Event (ε : Type) where
  | textDelta (text : String)
  | done (status : DoneStatus)
  | other (event : ε)
  deriving DecidableEq

/-- What a tracker emits: an event of the parent's own, or `AgentEvent::Subagent`. -/
inductive Out (ε : Type) where
  | plain (event : Event ε)
  | subagent (parentToolUseId : String) (event : Event ε)
  deriving DecidableEq

variable {ε : Type}

def Event.isText : Event ε → Bool
  | .textDelta _ => true
  | _ => false

def Event.isDone : Event ε → Bool
  | .done _ => true
  | _ => false

/-- What the event is for the child's transcript; `ending`: it comes with the child's end. -/
def Event.kind (ending : Bool) : Event ε → Kind
  | .textDelta _ => if ending then .summary else .text
  | .done _ => .done
  | .other _ => .other

def tag (parent : String) (event : Event ε) : Out ε := .subagent parent event

/-! ## The updates -/

/-- `nonempty`. -/
def nonempty (value : Json) (key : String) : Option String :=
  ((Claude.get value key).bind Json.asStr).filter (· ≠ "")

/-- `meta`. -/
def metaOf (update : Json) (key : String) : Option Json :=
  (Claude.get update "_meta").bind (Claude.get · key)

/-- `is_spawn`. -/
def isSpawn (update : Json) : Bool :=
  (metaOf update "cognition.ai/inferenceToolName").bind Json.asStr = some "run_subagent"

def isOver (update : Json) : Bool :=
  (Claude.get update "status").bind Json.asStr = some "failed" ∨
    (Claude.get update "status").bind Json.asStr = some "cancelled"

/-! ## Calls that wait for their child -/

/-- `title`: what the call says of its child. -/
structure PendingSpawn where
  toolCallId : String
  title : String
  deriving DecidableEq

/-- The call is there already, or joins the queue. -/
def remember (id title : String) : List PendingSpawn → List PendingSpawn
  | [] => [⟨id, title⟩]
  | p :: ps =>
    if p.toolCallId = id then (if p.title = "" then ⟨p.toolCallId, title⟩ else p) :: ps
    else p :: remember id title ps

/-- Which call a child with this title is paired with: the first of the title, or the first. -/
def startIndex (pending : List PendingSpawn) (title : String) : Option ℕ :=
  (pending.findIdx? fun p => title ≠ "" ∧ p.title = title).or
    (if pending = [] then none else some 0)

/-! ## The tracker -/

structure DevinTracker where
  pending : List PendingSpawn
  bound : AList fun _ : String => String
  sawText : List String
  settled : List String

namespace DevinTracker

def default : DevinTracker := ⟨[], ∅, [], []⟩

variable (t : DevinTracker)

def rememberSpawn (update : Json) : DevinTracker :=
  let id := (nonempty update "toolCallId").getD ""
  if id = "" then t
  else if isOver update then { t with pending := t.pending.filter (·.toolCallId ≠ id) }
  else
    let title := ((Claude.get update "rawInput").bind (nonempty · "title")).getD ""
    { t with pending := remember id title t.pending }

/-- The owner a child's events are tagged with. -/
def parent (agentId : String) : String := (t.bound.lookup agentId).getD agentId

/-- `subagent_started`. -/
def started (agentId title : String) : DevinTracker :=
  let index := startIndex t.pending title
  let call := index.bind (t.pending[·]?)
  { t with
    pending := index.elim t.pending t.pending.eraseIdx
    bound := t.bound.insert agentId ((call.map (·.toolCallId)).getD agentId) }

/-- `subagent_completed`. -/
def completed (agentId : String) (completed : Json) : DevinTracker × List (Out ε) :=
  if agentId ∈ t.settled then (t, [])
  else
    let summary := if agentId ∈ t.sawText then none else nonempty completed "summary"
    let status :=
      if (Claude.get completed "success").bind Json.asBool = some false then DoneStatus.errored
      else .completed
    ({ t with
      sawText := t.sawText.filter (· ≠ agentId)
      settled := agentId :: t.settled },
      summary.toList.map (fun s => tag (t.parent agentId) (.textDelta s)) ++
        [tag (t.parent agentId) (.done status)])

/-- Traffic of the child. -/
def frame (childId : String) (events : List (Event ε)) : DevinTracker × List (Out ε) :=
  if childId ∈ t.settled then (t, [])
  else
    ({ t with sawText := if events.any (·.isText) then t.sawText.insert childId else t.sawText },
      events.map (tag (t.parent childId)))

/-- The tracker behind `remember_spawn`. -/
def noted (update : Json) : DevinTracker :=
  if isSpawn update then t.rememberSpawn update else t

def map (mapUpdate : Json → List (Event ε)) (update : Json) : DevinTracker × List (Out ε) :=
  match metaOf update "cognition.ai/subagent_started" with
  | some v =>
    match nonempty v "agentId" with
    | none => (t, [])
    | some agentId => (t.started agentId ((nonempty v "title").getD ""), [])
  | none =>
    match metaOf update "cognition.ai/subagent_completed" with
    | some v =>
      match nonempty v "agentId" with
      | none => (t, [])
      | some agentId => t.completed agentId v
    | none =>
      match (metaOf update "cognition.ai/subagent_context").bind (nonempty · "parentAgentId") with
      | none => (t.noted update, (mapUpdate update).map .plain)
      | some childId => (t.noted update).frame childId (mapUpdate update)

/-- The children that were started and are not settled, with their owners. -/
def openChildren : List (String × String) :=
  (t.bound.entries.filter (·.1 ∉ t.settled)).map fun x => (x.1, x.2)

def finishOpen (status : DoneStatus) : DevinTracker × List (Out ε) :=
  ({ t with settled := t.openChildren.map (·.1) ++ t.settled },
    t.openChildren.map fun x => tag x.2 (.done status))

end DevinTracker

/-! ## Stories -/

/-- The child that an update starts. -/
def startedAgent (update : Json) : Option String :=
  (metaOf update "cognition.ai/subagent_started").bind (nonempty · "agentId")

/-- The child that it completes. -/
def completedAgent (update : Json) : Option String :=
  if (metaOf update "cognition.ai/subagent_started").isSome then none
  else (metaOf update "cognition.ai/subagent_completed").bind (nonempty · "agentId")

/-- The child that it is traffic of. -/
def contextAgent (update : Json) : Option String :=
  if (metaOf update "cognition.ai/subagent_started").isSome ∨
      (metaOf update "cognition.ai/subagent_completed").isSome then none
  else (metaOf update "cognition.ai/subagent_context").bind (nonempty · "parentAgentId")

/-- The spawn call that it joins to the queue. -/
def spawnCall (update : Json) : Option String :=
  if (metaOf update "cognition.ai/subagent_started").isSome ∨
      (metaOf update "cognition.ai/subagent_completed").isSome ∨ isSpawn update = false ∨
      isOver update then none
  else nonempty update "toolCallId"

inductive Input where
  | update (update : Json)
  | finishOpen (status : DoneStatus)

/-- What was tagged so far, in its order. -/
structure Run (ε : Type) where
  tracker : DevinTracker
  story : List (Entry String String (Event ε))

namespace Run

def new : Run ε := ⟨.default, []⟩

/-- The entry of a tagged event of a child. -/
def entry (child : String) (ending : Bool) : Out ε → Option (Entry String String (Event ε))
  | .plain _ => none
  | .subagent parent event => some ⟨child, parent, event.kind ending, event⟩

/-- The entries of events of a child. -/
def entries (child owner : String) (ending : Bool) (events : List (Event ε)) :
    List (Entry String String (Event ε)) :=
  events.map fun event => ⟨child, owner, event.kind ending, event⟩

variable (mapUpdate : Json → List (Event ε)) (r : Run ε)

def step : Input → Option (Run ε)
  | .update v =>
    let child := ((completedAgent v).or (contextAgent v)).getD ""
    some ⟨(r.tracker.map mapUpdate v).1,
      r.story ++ (r.tracker.map mapUpdate v).2.filterMap (entry child (completedAgent v).isSome)⟩
  | .finishOpen status =>
    some ⟨(@DevinTracker.finishOpen ε r.tracker status).1,
      r.story ++ r.tracker.openChildren.map fun x => ⟨x.1, x.2, .done, .done status⟩⟩

/-- The child was started, or something of it was told. -/
def Known (c : String) : Prop := c ∈ r.tracker.bound ∨ ∃ e ∈ r.story, e.child = c

/-- A child that was not started has an id that no other child's owner and no call that waits
has. -/
def Apart (c : String) : Prop :=
  c ∉ r.tracker.bound → (∀ c', r.tracker.bound.lookup c' ≠ some c) ∧
    ∀ p ∈ r.tracker.pending, p.toolCallId ≠ c

/-- A child is started once, and before its traffic if a call waits; the update of a call whose
child is known does not join the queue; a child that is told has an id of its own; and the children
that were told are started or settled at the end. -/
def Fair : Input → Prop
  | .update v =>
    (∀ c, startedAgent v = some c → c ∉ r.tracker.bound ∧
      ((∃ e ∈ r.story, e.child = c) → r.tracker.pending = []) ∧
      (r.tracker.pending = [] → ∀ c', r.tracker.bound.lookup c' ≠ some c)) ∧
    (∀ id, spawnCall v = some id → ∀ c, r.Known c → r.tracker.parent c ≠ id) ∧
    (∀ c, completedAgent v = some c → r.Apart c) ∧
    (∀ c, contextAgent v = some c → (⟨r.tracker.noted v, r.story⟩ : Run ε).Apart c)
  | .finishOpen _ => ∀ e ∈ r.story, e.child ∈ r.tracker.bound ∨ e.child ∈ r.tracker.settled

structure Inv : Prop where
  nodup : (r.tracker.pending.map (·.toolCallId)).Nodup
  fresh : ∀ p ∈ r.tracker.pending, ∀ c, r.Known c → r.tracker.parent c ≠ p.toolCallId
  inj : ∀ c c', r.Known c → r.Known c' → r.tracker.parent c = r.tracker.parent c' → c = c'
  owned : Owned r.tracker.parent r.story
  told : Told (· ∈ r.tracker.settled) r.story
  saw : ∀ c, c ∉ r.tracker.settled → (c ∈ r.tracker.sawText ↔ Kind.text ∈ kinds c r.story)

end Run

/-- Each child has a chip of its own and one transcript. -/
structure Chips (bound : AList fun _ : String => String) (ended : String → Prop)
    (story : List (Entry String String (Event ε))) : Prop where
  injective : ∀ c c' p, bound.lookup c = some p → bound.lookup c' = some p → c = c'
  owner : ∃ owner : String → String, Owned owner story ∧
    (∀ c p, bound.lookup c = some p → owner c = p) ∧
    ∀ e ∈ story, ∀ e' ∈ story, e.owner = e'.owner → e.child = e'.child
  settled : ∀ c, ended c → Settled (kinds c story)
  unfinished : ∀ c, ¬ ended c → Unfinished (kinds c story)

/-! ## The queue of calls -/

theorem remember_ids (id title : String) (ps : List PendingSpawn) :
    (remember id title ps).map (·.toolCallId) =
      if id ∈ ps.map (·.toolCallId) then ps.map (·.toolCallId)
      else ps.map (·.toolCallId) ++ [id] := by
  induction ps with
  | nil => simp [remember]
  | cons p ps ih =>
    by_cases hp : p.toolCallId = id
    · by_cases ht : p.title = "" <;> simp [remember, hp, ht]
    · rw [remember, if_neg hp, List.map_cons, ih]
      simp only [List.map_cons, List.mem_cons, Ne.symm hp, false_or]
      split_ifs <;> simp

theorem startIndex_nil (title : String) : startIndex [] title = none := by simp [startIndex]

theorem startIndex_some {pending : List PendingSpawn} (hp : pending ≠ []) (title : String) :
    ∃ i p, startIndex pending title = some i ∧ pending[i]? = some p := by
  unfold startIndex
  rw [if_neg hp]
  cases hf : pending.findIdx? fun p => title ≠ "" ∧ p.title = title with
  | none => exact ⟨0, pending.head hp, rfl, List.head?_eq_getElem? ▸ List.head?_eq_some_head hp⟩
  | some i =>
    obtain ⟨hlt, -⟩ := List.findIdx?_eq_some_iff_getElem.mp hf
    exact ⟨i, pending[i], rfl, List.getElem?_eq_getElem hlt⟩

theorem ne_of_mem_eraseIdx {pending : List PendingSpawn} (hn : (pending.map (·.toolCallId)).Nodup)
    {i : ℕ} {p p' : PendingSpawn} (hi : pending[i]? = some p) (hp' : p' ∈ pending.eraseIdx i) :
    p'.toolCallId ≠ p.toolCallId := by
  intro he
  obtain ⟨j, hji, hj⟩ := List.mem_eraseIdx_iff_getElem?.mp hp'
  have hlt : i < (pending.map (·.toolCallId)).length := by
    rw [List.length_map]
    exact (List.getElem?_eq_some_iff.mp hi).1
  refine hji ((List.getElem?_inj hlt hn).mp ?_).symm
  rw [List.getElem?_map, List.getElem?_map, hi, hj, Option.map_some, Option.map_some, he]

namespace DevinTracker

variable {t : DevinTracker}

/-- What `remember_spawn` does: calls are forgotten, or one joins the queue. -/
theorem noted_spec (t : DevinTracker) {v : Json}
    (hv : (metaOf v "cognition.ai/subagent_started").isSome = false)
    (hv' : (metaOf v "cognition.ai/subagent_completed").isSome = false) :
    ∃ ps, t.noted v = { t with pending := ps } ∧
      (∀ p ∈ ps, p.toolCallId ∈ t.pending.map (·.toolCallId) ∨
        spawnCall v = some p.toolCallId) ∧
      ((t.pending.map (·.toolCallId)).Nodup → (ps.map (·.toolCallId)).Nodup) := by
  have hsame : ∀ p ∈ t.pending, p.toolCallId ∈ t.pending.map (·.toolCallId) ∨
      spawnCall v = some p.toolCallId := fun p hp => Or.inl (List.mem_map_of_mem hp)
  unfold noted
  by_cases hs : isSpawn v = true
  · rw [if_pos hs, rememberSpawn]
    generalize hid : (nonempty v "toolCallId").getD "" = id
    by_cases h0 : id = ""
    · exact ⟨t.pending, if_pos h0, hsame, fun h => h⟩
    · by_cases ho : isOver v = true
      · refine ⟨_, (if_neg h0).trans (if_pos ho), fun p hp => hsame p (List.mem_filter.mp hp).1,
          fun h => ?_⟩
        exact h.sublist (List.filter_sublist.map _)
      · refine ⟨_, (if_neg h0).trans (if_neg ho), fun p hp => ?_, fun h => ?_⟩
        · have hmem := List.mem_map_of_mem (f := fun p : PendingSpawn => p.toolCallId) hp
          rw [remember_ids] at hmem
          have hcall : spawnCall v = some id := by
            rw [spawnCall, if_neg (by simp [hv, hv', hs, ho])]
            cases hn : nonempty v "toolCallId" with
            | none => simp [hn] at hid; exact absurd hid h0
            | some id' => simp [hn] at hid; rw [hid]
          split_ifs at hmem with hin
          · exact Or.inl hmem
          · rcases List.mem_append.mp hmem with hold | hnew
            · exact Or.inl hold
            · exact Or.inr (by rw [hcall, List.mem_singleton.mp hnew])
        · rw [remember_ids]
          split_ifs with hin
          · exact h
          · exact List.nodup_append.mpr ⟨h, by simp, by simpa using hin⟩
  · rw [if_neg hs]
    exact ⟨t.pending, rfl, hsame, fun h => h⟩

theorem parent_of_not_mem {c : String} (h : c ∉ t.bound) : t.parent c = c := by
  rw [parent, AList.lookup_eq_none.mpr h]
  rfl

theorem parent_of_lookup {c p : String} (h : t.bound.lookup c = some p) : t.parent c = p := by
  rw [parent, h]
  rfl

theorem lookup_of_mem {c : String} (h : c ∈ t.bound) : t.bound.lookup c = some (t.parent c) := by
  obtain ⟨p, hp⟩ := Option.isSome_iff_exists.mp (AList.lookup_isSome.mpr h)
  rw [parent_of_lookup hp, hp]

theorem parent_started (agentId title c : String) :
    (t.started agentId title).parent c = if c = agentId then
      ((((startIndex t.pending title).bind (t.pending[·]?)).map (·.toolCallId)).getD agentId)
      else t.parent c := by
  by_cases hc : c = agentId
  · subst hc
    rw [if_pos rfl, parent, started, AList.lookup_insert]
    rfl
  · rw [if_neg hc, parent, started, AList.lookup_insert_ne hc]
    rfl

end DevinTracker

/-! ## What is kept -/

namespace Run

variable {mapUpdate : Json → List (Event ε)} {r : Run ε}

theorem Inv.noted (h : r.Inv) {v : Json}
    (hv : (metaOf v "cognition.ai/subagent_started").isSome = false)
    (hv' : (metaOf v "cognition.ai/subagent_completed").isSome = false)
    (hf : ∀ id, spawnCall v = some id → ∀ c, r.Known c → r.tracker.parent c ≠ id) :
    (⟨r.tracker.noted v, r.story⟩ : Run ε).Inv := by
  obtain ⟨ps, hps, hids, hnodup⟩ := r.tracker.noted_spec hv hv'
  rw [hps]
  refine ⟨hnodup h.nodup, fun p hp c hc => ?_, h.inj, h.owned, h.told, h.saw⟩
  rcases hids p hp with hold | hnew
  · obtain ⟨p', hp', he⟩ := List.mem_map.mp hold
    rw [← he]
    exact h.fresh p' hp' c hc
  · exact hf _ hnew c hc

theorem Apart.inj (h : r.Inv) {c : String} (ha : r.Apart c) {c' : String} (hc' : r.Known c')
    (he : r.tracker.parent c = r.tracker.parent c') : c = c' := by
  by_cases hc : c ∈ r.tracker.bound
  · exact h.inj c c' (Or.inl hc) hc' he
  · rw [DevinTracker.parent_of_not_mem hc] at he
    by_cases hb : c' ∈ r.tracker.bound
    · exact absurd ((DevinTracker.lookup_of_mem hb).trans (congrArg some he.symm))
        ((ha hc).1 c')
    · rwa [DevinTracker.parent_of_not_mem hb] at he

theorem Apart.fresh (h : r.Inv) {c : String} (ha : r.Apart c) :
    ∀ p ∈ r.tracker.pending, r.tracker.parent c ≠ p.toolCallId := by
  intro p hp
  by_cases hc : c ∈ r.tracker.bound
  · exact h.fresh p hp c (Or.inl hc)
  · rw [DevinTracker.parent_of_not_mem hc]
    exact ((ha hc).2 p hp).symm

/-- **Something of a child is told**, under its owner. -/
theorem Inv.tell (h : r.Inv) {c : String} (ha : r.Apart c) {sawText settled : List String}
    {es : List (Entry String String (Event ε))}
    (hes : ∀ e ∈ es, e.child = c ∧ e.owner = r.tracker.parent c)
    (htold : Told (· ∈ settled) (r.story ++ es))
    (hsaw : ∀ c', c' ∉ settled →
      (c' ∈ sawText ↔ Kind.text ∈ kinds c' (r.story ++ es))) :
    (⟨{ r.tracker with sawText, settled }, r.story ++ es⟩ : Run ε).Inv := by
  have hknown : ∀ c', (⟨{ r.tracker with sawText, settled }, r.story ++ es⟩ : Run ε).Known c' →
      r.Known c' ∨ c' = c := by
    rintro c' (hb | ⟨e, he, rfl⟩)
    · exact Or.inl (Or.inl hb)
    · rcases List.mem_append.mp he with hold | hnew
      · exact Or.inl (Or.inr ⟨e, hold, rfl⟩)
      · exact Or.inr (hes e hnew).1
  refine ⟨h.nodup, fun p hp c' hc' => ?_, fun c₁ c₂ h₁ h₂ he => ?_, ?_, htold, hsaw⟩
  · rcases hknown c' hc' with hc' | rfl
    · exact h.fresh p hp c' hc'
    · exact ha.fresh h p hp
  · rcases hknown c₁ h₁ with h₁ | rfl
    · rcases hknown c₂ h₂ with h₂ | rfl
      · exact h.inj c₁ c₂ h₁ h₂ he
      · exact (ha.inj h h₁ he.symm).symm
    · rcases hknown c₂ h₂ with h₂ | rfl
      · exact ha.inj h h₂ he
      · rfl
  · refine h.owned.append fun e he => ?_
    rw [(hes e he).1]
    exact (hes e he).2

theorem filterMap_tag (c owner : String) (ending : Bool) (events : List (Event ε)) :
    (events.map (tag owner)).filterMap (entry c ending) = entries c owner ending events := by
  rw [List.filterMap_map]
  exact List.filterMap_eq_map_iff_forall_eq_some.mpr fun e _ => rfl

theorem of_mem_entries {c owner : String} {ending : Bool} {events : List (Event ε)}
    {e : Entry String String (Event ε)} (he : e ∈ entries c owner ending events) :
    e.child = c ∧ e.owner = owner := by
  obtain ⟨e', -, rfl⟩ := List.mem_map.mp he
  exact ⟨rfl, rfl⟩

theorem map_kind_entries (c owner : String) (ending : Bool) (events : List (Event ε)) :
    (entries c owner ending events).map (·.kind) = events.map (·.kind ending) := List.map_map

theorem kinds_entries (c owner : String) (ending : Bool) (events : List (Event ε)) :
    kinds c (entries c owner ending events) = events.map (·.kind ending) := by
  rw [kinds_of_all fun e he => (of_mem_entries he).1, map_kind_entries]

theorem kinds_entries_ne {c c' : String} (hne : c' ≠ c) (owner : String) (ending : Bool)
    (events : List (Event ε)) : kinds c' (entries c owner ending events) = [] :=
  kinds_of_none fun _ he hn => hne (hn.symm.trans (of_mem_entries he).1)

theorem filterMap_plain (c : String) (ending : Bool) (events : List (Event ε)) :
    (events.map Out.plain).filterMap (entry c ending) = [] := by
  rw [List.filterMap_map]
  exact List.filterMap_eq_nil_iff.mpr fun e _ => rfl

theorem kind_frame {e : Event ε} (he : e.isDone = false) :
    e.kind false = .text ∨ e.kind false = .other := by
  cases e with
  | textDelta s => exact Or.inl rfl
  | done s => cases he
  | other e => exact Or.inr rfl

theorem kind_text_iff (e : Event ε) : e.kind false = .text ↔ e.isText = true := by
  cases e <;> simp [Event.kind, Event.isText]

/-- **Traffic of a child.** -/
theorem Inv.frame (h : r.Inv) {c : String} (ha : r.Apart c) {events : List (Event ε)}
    (hno : ∀ e ∈ events, e.isDone = false) :
    (⟨(r.tracker.frame c events).1,
      r.story ++ (r.tracker.frame c events).2.filterMap (entry c false)⟩ : Run ε).Inv := by
  unfold DevinTracker.frame
  by_cases hc : c ∈ r.tracker.settled
  · rw [if_pos hc]
    simpa using h
  · rw [if_neg hc]
    simp only [filterMap_tag]
    refine h.tell ha (fun e => of_mem_entries)
      (h.told.frames hc (fun e he => (of_mem_entries he).1) ?_) fun c' hc' => ?_
    · intro k hk
      rw [map_kind_entries] at hk
      obtain ⟨e, he, rfl⟩ := List.mem_map.mp hk
      exact kind_frame (hno e he)
    · rw [kinds_append, List.mem_append, ← h.saw c' hc']
      by_cases he : c' = c
      · subst he
        rw [kinds_entries]
        have hany : Kind.text ∈ events.map (·.kind false) ↔ events.any (·.isText) = true := by
          simp [kind_text_iff]
        rw [hany]
        by_cases ht : events.any (·.isText) = true
        · simp [ht]
        · simp [ht]
      · rw [kinds_entries_ne he]
        by_cases ht : events.any (·.isText) = true
        · simp [ht, he]
        · simp [ht]

/-- **The completion of a child.** -/
theorem Inv.completed (h : r.Inv) {c : String} (ha : r.Apart c) (v : Json) :
    (⟨(@DevinTracker.completed ε r.tracker c v).1,
      r.story ++ (r.tracker.completed c v).2.filterMap (entry c true)⟩ : Run ε).Inv := by
  unfold DevinTracker.completed
  by_cases hc : c ∈ r.tracker.settled
  · rw [if_pos hc]
    simpa using h
  · rw [if_neg hc]
    generalize hstatus : (if (Claude.get v "success").bind Json.asBool = some false then
      DoneStatus.errored else DoneStatus.completed) = status
    generalize hsum : (if c ∈ r.tracker.sawText then none else nonempty v "summary") = summary
    have hlist : (summary.toList.map (fun s => tag (r.tracker.parent c) (Event.textDelta s)) ++
        [tag (r.tracker.parent c) (.done status)] : List (Out ε)) =
        (summary.toList.map Event.textDelta ++ [Event.done status]).map
          (tag (r.tracker.parent c)) := by
      rw [List.map_append, List.map_map]
      rfl
    simp only [hlist, filterMap_tag]
    refine h.tell ha (fun e => of_mem_entries)
      (h.told.settle hc (fun e he => (of_mem_entries he).1) ?_ fun c' => List.mem_cons)
      fun c' hc' => ?_
    · rw [map_kind_entries]
      cases summary with
      | none => exact Or.inl rfl
      | some s =>
        refine Or.inr ⟨rfl, fun hk => ?_⟩
        rw [← h.saw c hc] at hk
        rw [if_pos hk] at hsum
        cases hsum
    · have hne : c' ≠ c := fun he => hc' (he ▸ List.mem_cons_self)
      rw [kinds_append, kinds_entries_ne hne, List.append_nil,
        ← h.saw c' fun hm => hc' (List.mem_cons_of_mem _ hm)]
      simp [hne]

/-- **A child is started.** -/
theorem Inv.started (h : r.Inv) {c : String} (title : String) (hb : c ∉ r.tracker.bound)
    (hstory : (∃ e ∈ r.story, e.child = c) → r.tracker.pending = [])
    (howner : r.tracker.pending = [] → ∀ c', r.tracker.bound.lookup c' ≠ some c) :
    (⟨r.tracker.started c title, r.story⟩ : Run ε).Inv := by
  have hknown : ∀ c', (⟨r.tracker.started c title, r.story⟩ : Run ε).Known c' →
      r.Known c' ∨ c' = c := by
    rintro c' (hm | he)
    · exact ((AList.mem_insert _).mp hm).symm.imp Or.inl id
    · exact Or.inl (Or.inr he)
  by_cases hp : r.tracker.pending = []
  · have hindex : startIndex r.tracker.pending title = none := hp ▸ startIndex_nil title
    have hpar : ∀ c', (r.tracker.started c title).parent c' = r.tracker.parent c' := by
      intro c'
      rw [DevinTracker.parent_started, hindex]
      split_ifs with he
      · rw [he, DevinTracker.parent_of_not_mem hb]
        rfl
      · rfl
    have hpend : (r.tracker.started c title).pending = [] := by
      rw [DevinTracker.started, hindex]
      exact hp
    have ha : r.Apart c := fun _ => ⟨howner hp, fun p hmem => by simp [hp] at hmem⟩
    refine ⟨by simp [hpend], fun p hmem => by simp [hpend] at hmem, fun c₁ c₂ k₁ k₂ he => ?_, ?_,
      h.told, h.saw⟩
    · rw [hpar, hpar] at he
      rcases hknown c₁ k₁ with h₁ | rfl
      · rcases hknown c₂ k₂ with h₂ | rfl
        · exact h.inj c₁ c₂ h₁ h₂ he
        · exact (ha.inj h h₁ he.symm).symm
      · rcases hknown c₂ k₂ with h₂ | rfl
        · exact ha.inj h h₂ he
        · rfl
    · intro e he
      rw [hpar]
      exact h.owned e he
  · obtain ⟨i, p, hindex, hi⟩ := startIndex_some hp title
    have hpar : ∀ c', (r.tracker.started c title).parent c' =
        if c' = c then p.toolCallId else r.tracker.parent c' := by
      intro c'
      rw [DevinTracker.parent_started, hindex, Option.bind_some, hi]
      rfl
    have hpend : (r.tracker.started c title).pending = r.tracker.pending.eraseIdx i := by
      rw [DevinTracker.started, hindex]
      rfl
    have hmem := List.mem_of_getElem? hi
    have hnot : ∀ c', r.Known c' → c' ≠ c := by
      rintro c' (hm | he) rfl
      · exact hb hm
      · exact hp (hstory he)
    refine ⟨?_, fun p' hp' c' hc' => ?_, fun c₁ c₂ k₁ k₂ he => ?_, fun e he => ?_, h.told, h.saw⟩
    · rw [hpend]
      exact h.nodup.sublist ((List.eraseIdx_sublist _ _).map _)
    · rw [hpend] at hp'
      rw [hpar]
      rcases hknown c' hc' with hc' | rfl
      · rw [if_neg (hnot c' hc')]
        exact h.fresh p' (List.mem_of_mem_eraseIdx hp') c' hc'
      · rw [if_pos rfl]
        exact (ne_of_mem_eraseIdx h.nodup hi hp').symm
    · rw [hpar, hpar] at he
      rcases hknown c₁ k₁ with h₁ | rfl
      · rw [if_neg (hnot c₁ h₁)] at he
        rcases hknown c₂ k₂ with h₂ | rfl
        · rw [if_neg (hnot c₂ h₂)] at he
          exact h.inj c₁ c₂ h₁ h₂ he
        · rw [if_pos rfl] at he
          exact absurd he (h.fresh p hmem c₁ h₁)
      · rw [if_pos rfl] at he
        rcases hknown c₂ k₂ with h₂ | rfl
        · rw [if_neg (hnot c₂ h₂)] at he
          exact absurd he.symm (h.fresh p hmem c₂ h₂)
        · rfl
    · rw [hpar, if_neg (hnot e.child (Or.inr ⟨e, he, rfl⟩))]
      exact h.owned e he

theorem mem_openChildren {t : DevinTracker} {x : String × String} (hx : x ∈ t.openChildren) :
    t.bound.lookup x.1 = some x.2 ∧ x.1 ∉ t.settled := by
  obtain ⟨y, hy, rfl⟩ := List.mem_map.mp hx
  obtain ⟨hy, hs⟩ := List.mem_filter.mp hy
  exact ⟨AList.mem_lookup_iff.mpr hy, of_decide_eq_true hs⟩

theorem nodup_openChildren (t : DevinTracker) : (t.openChildren.map (·.1)).Nodup := by
  have hkeys : t.openChildren.map (·.1) =
      (t.bound.entries.filter (·.1 ∉ t.settled)).map Sigma.fst := List.map_map
  rw [hkeys]
  exact t.bound.keys_nodup.sublist (List.filter_sublist.map _)

/-- **The run of the parent ends.** -/
theorem Inv.finishOpen (h : r.Inv) (status : DoneStatus) :
    (⟨(@DevinTracker.finishOpen ε r.tracker status).1,
      r.story ++ r.tracker.openChildren.map fun x => ⟨x.1, x.2, .done, .done status⟩⟩ :
      Run ε).Inv := by
  have hnew : ∀ e ∈ r.tracker.openChildren.map fun x =>
      (⟨x.1, x.2, .done, .done status⟩ : Entry String String (Event ε)),
      e.child ∈ r.tracker.openChildren.map (·.1) ∧
        r.tracker.bound.lookup e.child = some e.owner := by
    intro e he
    obtain ⟨x, hx, rfl⟩ := List.mem_map.mp he
    exact ⟨List.mem_map_of_mem hx, (mem_openChildren hx).1⟩
  have hknown : ∀ c', (⟨(@DevinTracker.finishOpen ε r.tracker status).1, r.story ++
      r.tracker.openChildren.map fun x => ⟨x.1, x.2, .done, .done status⟩⟩ : Run ε).Known c' →
      r.Known c' := by
    rintro c' (hb | ⟨e, he, rfl⟩)
    · exact Or.inl hb
    · rcases List.mem_append.mp he with hold | hn
      · exact Or.inr ⟨e, hold, rfl⟩
      · exact Or.inl (AList.lookup_isSome.mp (by rw [(hnew e hn).2]; rfl))
  refine ⟨h.nodup, fun p hp c' hc' => h.fresh p hp c' (hknown c' hc'),
    fun c₁ c₂ h₁ h₂ he => h.inj c₁ c₂ (hknown c₁ h₁) (hknown c₂ h₂) he, ?_, ?_, fun c' hc' => ?_⟩
  · refine h.owned.append fun e he => ?_
    exact (DevinTracker.parent_of_lookup (hnew e he).2).symm
  · refine (h.told.settleAll (.done status) (nodup_openChildren r.tracker)
      fun x hx => (mem_openChildren hx).2).congr fun c' => List.mem_append
  · have hnone : kinds c' (r.tracker.openChildren.map fun x =>
        (⟨x.1, x.2, .done, .done status⟩ : Entry String String (Event ε))) = [] :=
      kinds_of_none fun e he hn => hc' (List.mem_append_left _ (hn ▸ (hnew e he).1))
    rw [kinds_append, hnone, List.append_nil]
    exact h.saw c' fun hs => hc' (List.mem_append_right _ hs)

/-- **What every fair step keeps.** -/
theorem inv_step (hmap : ∀ v, ∀ e ∈ mapUpdate v, e.isDone = false) {i : Input} {r' : Run ε}
    (h : r.Inv) (hf : r.Fair i) (he : r.step mapUpdate i = some r') : r'.Inv := by
  cases i with
  | finishOpen status =>
    cases he
    exact h.finishOpen status
  | update v =>
    cases he
    obtain ⟨hstart, hspawn, hdone, hctxt⟩ := hf
    simp only [DevinTracker.map]
    cases hs : metaOf v "cognition.ai/subagent_started" with
    | some w =>
      cases ha : nonempty w "agentId" with
      | none => simpa [ha] using h
      | some c =>
        obtain ⟨hb, hstory, howner⟩ := hstart c (by rw [startedAgent, hs]; exact ha)
        simpa [ha] using h.started _ hb hstory howner
    | none =>
      cases hd : metaOf v "cognition.ai/subagent_completed" with
      | some w =>
        cases ha : nonempty w "agentId" with
        | none => simpa [ha] using h
        | some c =>
          have hc : completedAgent v = some c := by simp [completedAgent, hs, hd, ha]
          simpa [ha, hc] using h.completed (hdone c hc) w
      | none =>
        have hn := h.noted (by rw [hs]; rfl) (by rw [hd]; rfl) hspawn
        have hc : completedAgent v = none := by simp [completedAgent, hs, hd]
        cases ha : (metaOf v "cognition.ai/subagent_context").bind
            (nonempty · "parentAgentId") with
        | none =>
          simp only [hc, filterMap_plain, List.append_nil]
          exact hn
        | some c =>
          have hctx : contextAgent v = some c := by simp [contextAgent, hs, hd, ha]
          simpa [hc, hctx] using hn.frame (hctxt c hctx) (hmap v)

theorem inv_new : (new : Run ε).Inv where
  nodup := List.nodup_nil
  fresh p hp := absurd hp List.not_mem_nil
  inj c c' hc := by
    rcases hc with hb | ⟨e, he, -⟩
    · exact absurd hb (AList.notMem_empty c)
    · exact absurd he List.not_mem_nil
  owned e he := absurd he List.not_mem_nil
  told := told_nil.congr fun c => by simp [new, DevinTracker.default]
  saw c hc := by simp [new, DevinTracker.default]

theorem Inv.chips (h : r.Inv) :
    Chips r.tracker.bound (· ∈ r.tracker.settled) r.story where
  injective c c' p hc hc' := by
    refine h.inj c c' (Or.inl (AList.lookup_isSome.mp (by rw [hc]; rfl)))
      (Or.inl (AList.lookup_isSome.mp (by rw [hc']; rfl))) ?_
    rw [DevinTracker.parent_of_lookup hc, DevinTracker.parent_of_lookup hc']
  owner := by
    refine ⟨r.tracker.parent, h.owned, fun c p => DevinTracker.parent_of_lookup,
      fun e he e' he' heq => h.inj _ _ (Or.inr ⟨e, he, rfl⟩) (Or.inr ⟨e', he', rfl⟩) ?_⟩
    rw [← h.owned e he, ← h.owned e' he', heq]
  settled c hc := (h.told c).1 hc
  unfinished c hc := ((h.told c).2 hc).unfinished

theorem story_frame {v : Json} {c : String} (hc : contextAgent v = some c)
    (hs : c ∉ r.tracker.settled) : ∃ r', r.step mapUpdate (.update v) = some r' ∧
      r'.story = r.story ++ entries c (r.tracker.parent c) false (mapUpdate v) := by
  refine ⟨_, rfl, ?_⟩
  have hnot : ¬ ((metaOf v "cognition.ai/subagent_started").isSome ∨
      (metaOf v "cognition.ai/subagent_completed").isSome) := by
    intro hn
    rw [contextAgent, if_pos hn] at hc
    cases hc
  have hctx := hc
  rw [contextAgent, if_neg hnot] at hctx
  rw [not_or, Option.not_isSome_iff_eq_none, Option.not_isSome_iff_eq_none] at hnot
  have hdone : completedAgent v = none := by simp [completedAgent, hnot.1, hnot.2]
  obtain ⟨ps, hps, -, -⟩ := r.tracker.noted_spec (v := v) (by rw [hnot.1]; rfl)
    (by rw [hnot.2]; rfl)
  have hset : c ∉ (r.tracker.noted v).settled := by rw [hps]; exact hs
  have hpar : (r.tracker.noted v).parent c = r.tracker.parent c := by rw [hps]; rfl
  simp only [DevinTracker.map, hnot.1, hnot.2, hctx, hdone, hc, DevinTracker.frame, if_neg hset,
    Option.none_or, Option.getD_some, Option.isSome_none, filterMap_tag, hpar]

theorem settled_completed {v : Json} {c : String} (hc : completedAgent v = some c) :
    ∃ r', r.step mapUpdate (.update v) = some r' ∧ c ∈ r'.tracker.settled := by
  refine ⟨_, rfl, ?_⟩
  have hnot : ¬ (metaOf v "cognition.ai/subagent_started").isSome := by
    intro hn
    rw [completedAgent, if_pos hn] at hc
    cases hc
  rw [completedAgent, if_neg hnot] at hc
  rw [Option.not_isSome_iff_eq_none] at hnot
  obtain ⟨w, hw, ha⟩ := Option.bind_eq_some_iff.mp hc
  show c ∈ (r.tracker.map mapUpdate v).1.settled
  simp only [DevinTracker.map, hnot, hw, ha, DevinTracker.completed]
  by_cases hm : c ∈ r.tracker.settled
  · rw [if_pos hm]
    exact hm
  · rw [if_neg hm]
    exact List.mem_cons_self

theorem settled_finishOpen {status : DoneStatus} (hf : r.Fair (.finishOpen status)) :
    ∃ r', r.step mapUpdate (.finishOpen status) = some r' ∧
      ∀ e ∈ r'.story, e.child ∈ r'.tracker.settled := by
  refine ⟨_, rfl, fun e he => ?_⟩
  show e.child ∈ r.tracker.openChildren.map (·.1) ++ r.tracker.settled
  rcases List.mem_append.mp he with hold | hnew
  · by_cases hs : e.child ∈ r.tracker.settled
    · exact List.mem_append_right _ hs
    · refine List.mem_append_left _
        (List.mem_map.mpr ⟨(e.child, r.tracker.parent e.child), ?_, rfl⟩)
      have hl := DevinTracker.lookup_of_mem ((hf e hold).resolve_right hs)
      exact List.mem_map.mpr ⟨⟨e.child, r.tracker.parent e.child⟩,
        List.mem_filter.mpr ⟨AList.mem_lookup_iff.mp hl, decide_eq_true hs⟩, rfl⟩
  · obtain ⟨x, hx, rfl⟩ := List.mem_map.mp hnew
    exact List.mem_append_left _ (List.mem_map_of_mem hx)

theorem settled_subset {i : Input} {r' : Run ε} (he : r.step mapUpdate i = some r') :
    r.tracker.settled ⊆ r'.tracker.settled := by
  intro c hc
  cases i with
  | finishOpen status =>
    cases he
    exact List.mem_append_right _ hc
  | update v =>
    cases he
    show c ∈ (r.tracker.map mapUpdate v).1.settled
    have hnoted : c ∈ (r.tracker.noted v).settled := by
      unfold DevinTracker.noted DevinTracker.rememberSpawn
      split_ifs <;> simpa only [apply_ite, ite_self] using hc
    unfold DevinTracker.map
    split
    · split
      · exact hc
      · exact hc
    · split
      · split
        · exact hc
        · rename_i agentId _
          unfold DevinTracker.completed
          by_cases hm : agentId ∈ r.tracker.settled
          · rw [if_pos hm]
            exact hc
          · rw [if_neg hm]
            exact List.mem_cons_of_mem _ hc
      · split
        · exact hnoted
        · unfold DevinTracker.frame
          split_ifs
          · exact hnoted
          · exact hnoted
          · exact hnoted

end Run

/-- **Over every run of fair inputs**: the children have chips of their own and one transcript each;
the traffic of a child that is not settled is told, once; and a child is settled by its completion,
and by the end of the parent's run. -/
theorem devin_transcripts {mapUpdate : Json → List (Event ε)}
    (hmap : ∀ v, ∀ e ∈ mapUpdate v, e.isDone = false) {ins : List Input}
    (hf : Guarded (Run.step mapUpdate) Run.Fair Run.new ins) {r : Run ε}
    (he : exec (Run.step mapUpdate) Run.new ins = some r) :
    Chips r.tracker.bound (· ∈ r.tracker.settled) r.story :=
  (exec_invariant (fun _ _ _ h hf he => Run.inv_step hmap h hf he) Run.inv_new hf he).chips

end Zeron.Agent.Subagent
