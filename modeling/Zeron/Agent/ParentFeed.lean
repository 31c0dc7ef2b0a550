import Zeron.Agent.Claude
import Zeron.Lib.Hidden

/-!
# The parent's feed and the traffic of its subagents

The frames of a Claude session, of the parent and of its subagents, go through one `Normalizer`.

* `Frame.parent`: the spawning call of a subagent's frame;
* `Input`, `Normalizer.feed`: the frames of a session, with the steers between them;
* `tagged_normalize`: what the normalizer does with a subagent's frame;
* **`parent_feed`**: sessions that differ in their subagents' frames have the same parent's feed,
  and the events of a subagent's frame are wrapped under its spawning call.
-/

namespace Zeron.Agent.Claude

open Hidden

/-- The `parent_tool_use_id` of a frame. -/
def Frame.parent : Frame → Option String
  | .streamEvent f => f.parentToolUseId
  | .assistant f | .user f => f.parentToolUseId
  | _ => none

/-- Not wrapped as a subagent's. -/
def AgentEvent.untagged : AgentEvent → Bool
  | .subagent _ _ => false
  | _ => true

/-- The run loop's calls of the normalizer. -/
inductive Input where
  /-- A line of the CLI, and whether the turn had been interrupted by then. -/
  | frame (f : Frame) (interrupted : Bool)
  /-- A message to the running turn. -/
  | steer
  deriving DecidableEq

/-- No frame of a subagent. -/
def Input.ofParent : Input → Bool
  | .frame f _ => f.parent.isNone
  | .steer => true

namespace Normalizer

variable (norm : Normalizer)

/-- `normalize` on a frame; a steer rotates the message id and tells both. -/
def feed : Input → Normalizer × List AgentEvent
  | .frame f interrupted => norm.normalize f interrupted
  | .steer =>
    (norm.rotateForSteer,
      [.steered norm.assistantMessageId norm.rotateForSteer.assistantMessageId])

/-! ## Frames of a subagent -/

theorem streamEvent_tagged {f : StreamEventFrame} {parent : String}
    (hp : f.parentToolUseId = some parent) :
    ∀ ev ∈ streamEvent f, ∃ inner, ev = .subagent parent inner := by
  intro ev hev
  by_cases hk : f.kind = "content_block_delta"
  · simp only [streamEvent, hk, hp, ne_eq, not_true_eq_false, if_false] at hev
    split at hev
    · exact ⟨_, List.mem_singleton.mp hev⟩
    · split_ifs at hev with ht
      · simp at hev
      · exact ⟨_, List.mem_singleton.mp hev⟩
    · simp at hev
  · simp [streamEvent, hk] at hev

theorem taggedBlock_tagged {parent : String} {b : ContentBlock} {ev : AgentEvent}
    (h : taggedBlock parent b = some ev) : ∃ inner, ev = .subagent parent inner := by
  simp only [taggedBlock] at h
  split at h
  · split_ifs at h with ht
    exact ⟨_, (Option.some_inj.mp h).symm⟩
  · exact ⟨_, (Option.some_inj.mp h).symm⟩
  · simp at h

theorem assistant_tagged {f : MessageFrame} {parent : String}
    (hp : f.parentToolUseId = some parent) :
    (norm.assistant f).1 = norm ∧
      ∀ ev ∈ (norm.assistant f).2, ∃ inner, ev = .subagent parent inner := by
  simp only [assistant, hp, true_and]
  intro ev hev
  rw [List.mem_append, List.mem_filterMap, Option.mem_toList] at hev
  rcases hev with ⟨b, -, hb⟩ | hev
  · exact taggedBlock_tagged hb
  · obtain ⟨code, -, rfl⟩ := Option.map_eq_some_iff.mp hev
    exact ⟨_, rfl⟩

theorem user_tagged {f : MessageFrame} {parent : String} (hp : f.parentToolUseId = some parent) :
    ∀ ev ∈ user f, ∃ inner, ev = .subagent parent inner := by
  intro ev hev
  simp only [user, hp, List.map_map, List.mem_append, List.mem_map] at hev
  rcases hev with ⟨b, -, rfl⟩ | ⟨b, -, rfl⟩
  · exact ⟨_, rfl⟩
  · exact ⟨_, rfl⟩

theorem tagged_normalize {f : Frame} {parent : String} (hp : f.parent = some parent)
    (interrupted : Bool) :
    (norm.normalize f interrupted).1 = norm ∧
      ∀ ev ∈ (norm.normalize f interrupted).2, ∃ inner, ev = .subagent parent inner := by
  cases f with
  | streamEvent f => exact ⟨rfl, streamEvent_tagged hp⟩
  | assistant f => exact norm.assistant_tagged hp
  | user f => exact ⟨rfl, user_tagged hp⟩
  | system f | rateLimit f | result f | controlRequest f => simp [Frame.parent] at hp
  | other => simp [Frame.parent] at hp

/-! ## Sessions -/

theorem hides_subagents : Hides feed Input.ofParent AgentEvent.untagged := by
  have key : ∀ (norm : Normalizer) (i : Input), i.ofParent = false →
      (norm.feed i).1 = norm ∧ ∀ ev ∈ (norm.feed i).2, ev.untagged = false := by
    intro norm i hi
    cases i with
    | steer => simp [Input.ofParent] at hi
    | frame f interrupted =>
      obtain ⟨parent, hp⟩ : ∃ parent, f.parent = some parent := by
        simpa [Input.ofParent, Option.isSome_iff_exists] using hi
      obtain ⟨hstate, hev⟩ := norm.tagged_normalize hp interrupted
      refine ⟨hstate, fun ev he => ?_⟩
      obtain ⟨inner, rfl⟩ := hev ev he
      rfl
  exact ⟨fun norm i hi => (key norm i hi).1, fun norm i hi => (key norm i hi).2⟩

/-- **Subagents do not disturb the parent's feed.** Sessions with the same frames of the parent, at
the same places among the steers, show the same untagged events and end in the same state, whatever
frames of subagents stand between; and each event of a subagent's frame is wrapped under the call
that spawned it. -/
theorem parent_feed (is js : List Input)
    (he : is.filter Input.ofParent = js.filter Input.ofParent) :
    view feed AgentEvent.untagged norm is = view feed AgentEvent.untagged norm js ∧
      (run feed norm is).1 = (run feed norm js).1 ∧
      ∀ (f : Frame) (parent : String) (interrupted : Bool), f.parent = some parent →
        ∀ ev ∈ (norm.normalize f interrupted).2, ∃ inner, ev = .subagent parent inner := by
  obtain ⟨hstate, hview⟩ := hides_subagents.run_agree norm he
  exact ⟨hview, hstate, fun f parent interrupted hp =>
    (norm.tagged_normalize hp interrupted).2⟩

/-- A subagent speaks while its parent does. -/
theorem parent_feed_between :
    view feed AgentEvent.untagged new
        [.frame (.streamEvent ⟨none, "content_block_delta", "text_delta", "a", ""⟩) false,
          .frame (.streamEvent ⟨some "t", "content_block_delta", "text_delta", "x", ""⟩) false,
          .frame (.streamEvent ⟨none, "content_block_delta", "text_delta", "b", ""⟩) false] =
      view feed AgentEvent.untagged new
        [.frame (.streamEvent ⟨none, "content_block_delta", "text_delta", "a", ""⟩) false,
          .frame (.streamEvent ⟨none, "content_block_delta", "text_delta", "b", ""⟩) false] :=
  (parent_feed new _ _ rfl).1

end Normalizer

end Zeron.Agent.Claude
