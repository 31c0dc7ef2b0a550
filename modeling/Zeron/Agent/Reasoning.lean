import Zeron.Lib.Breaks
import Zeron.Lib.Cut
import Zeron.Lib.Serde
import Zeron.Session.Parts

/-!
# The reasoning of a Codex thread

The app server streams reasoning as deltas of indexed parts, without text between the parts
(`ReasoningStream` in `harness/src/codex/normalize.rs`).

* `field`, `deltaText`, `itemId`: what a notification says;
* `ReasoningStream`, `map`: the source;
* `deltas`: the parts the notifications of a run are of;
* `text_run`: a run is the stream of its deltas;
* **`parts_separated`**: when the text does not depend on how the parts were cut.
-/

namespace Zeron.Agent.Codex

open Zeron.Session Zeron.Breaks

/-! ## The notifications -/

/-- `Value::get`. -/
def get (v : Json) (key : String) : Option Json :=
  match v with
  | .obj members => members.lookup key
  | _ => none

/-- `field`: the first of the keys that is there. -/
def field (v : Json) (keys : List String) : Option Json := keys.findSome? (get v)

/-- `str_field`. -/
def strField (v : Json) (keys : List String) : String := ((field v keys).bind Json.asStr).getD ""

/-- `delta_text`. -/
def deltaText (params : Json) : Option String :=
  ((field params ["delta", "textDelta"]).bind Json.asStr).filter (· ≠ "")

/-- `item_id`. -/
def itemId (params : Json) : String := strField params ["itemId", "item_id"]

/-- The item, whether it is its summary, and the index. -/
abbrev Part := String × Bool × ℕ

structure ReasoningStream where
  lastPart : Option Part
  announcedSummary : Option (String × ℕ)
  trailingNewlines : ℕ
  deriving DecidableEq

/-- `ReasoningStream::default`. -/
def ReasoningStream.default : ReasoningStream := ⟨none, none, 0⟩

/-- The part that a notification is of. -/
def partOf (announced : Option (String × ℕ)) (method : String) (params : Json) : Part :=
  let id := itemId params
  let summary := decide (method ≠ "item/reasoning/textDelta")
  let keys := if summary then ["summaryIndex", "summary_index"]
    else ["contentIndex", "content_index"]
  let index := ((field params keys).bind Serde.u64).orElse fun _ =>
    (announced.filter fun a => summary && a.1 == id).map (·.2)
  (id, summary, index.getD 0)

/-- `"\n".repeat(n)`. -/
def newlines (n : ℕ) : String := .ofList (List.replicate n '\n')

/-- `ReasoningStream::map`. -/
def ReasoningStream.map (s : ReasoningStream) (method : String) (params : Json) :
    ReasoningStream × List AgentEvent :=
  let part := partOf s.announcedSummary method params
  if method = "item/reasoning/summaryPartAdded" then
    ({ s with announcedSummary := some (part.1, part.2.2) }, [])
  else
    match deltaText params with
    | none => (s, [])
    | some text =>
      let missing :=
        if s.lastPart.any (· ≠ part) then 2 - (s.trailingNewlines + leading text.toList) else 0
      ({ s with
          lastPart := some part
          trailingNewlines := if trailing text.toList = Cut.size text.toList
            then s.trailingNewlines + missing + trailing text.toList
            else trailing text.toList },
        (if 0 < missing then [.reasoningDelta (newlines missing)] else []) ++
          [.reasoningDelta text])

/-- A method and its parameters. -/
abbrev Notification := String × Json

/-- The events of the notifications of a thread. -/
def ReasoningStream.run (s : ReasoningStream) : List Notification → List AgentEvent
  | [] => []
  | n :: ns => (s.map n.1 n.2).2 ++ (s.map n.1 n.2).1.run ns

/-- The text of reasoning events. -/
def reasoningText (events : List AgentEvent) : List Char :=
  events.flatMap fun
    | .reasoningDelta text => text.toList
    | _ => []

/-- The deltas that the notifications carry, with their parts. -/
def deltas (announced : Option (String × ℕ)) : List Notification → List (Part × List Char)
  | [] => []
  | n :: ns =>
    let part := partOf announced n.1 n.2
    if n.1 = "item/reasoning/summaryPartAdded" then deltas (some (part.1, part.2.2)) ns
    else ((deltaText n.2).map fun text => (part, text.toList)).toList ++ deltas announced ns

/-- The parts that a thread's notifications are of, one after another, with their texts. -/
def partsOf (ns : List Notification) : List (Part × List Char) := parts (deltas none ns)

/-- The reasoning text that comes out. -/
def emitted (ns : List Notification) : List Char := reasoningText (ReasoningStream.default.run ns)

/-! ## A run is the stream of its deltas -/

section

variable {ns : List Notification} {announced : Option (String × ℕ)}

theorem reasoningText_append (l l' : List AgentEvent) :
    reasoningText (l ++ l') = reasoningText l ++ reasoningText l' :=
  List.flatMap_append

theorem trailing_eq_size_iff (x : List Char) :
    trailing x = Cut.size x ↔ trailing x = x.length := by
  have hle : trailing x ≤ x.length := by
    rw [← List.length_reverse]
    exact leading_le x.reverse
  have hsize : x.length ≤ Cut.size x := by
    clear hle
    induction x with
    | nil => exact le_rfl
    | cons c x ih =>
      have := c.utf8Size_pos
      rw [List.length_cons, Cut.size_cons]
      omega
  refine ⟨fun h => by omega, fun h => ?_⟩
  have hall : x.reverse.takeWhile (· = '\n') = x.reverse :=
    (List.takeWhile_prefix _).eq_of_length (h.trans List.length_reverse.symm)
  have hnl : x = List.replicate x.length '\n' :=
    List.eq_replicate_iff.mpr ⟨rfl, fun c hc => by
      simpa using List.takeWhile_eq_self_iff.mp hall c (List.mem_reverse.mpr hc)⟩
  rw [hnl, trailing_replicate, Cut.size, List.map_replicate, List.sum_replicate, smul_eq_mul]
  exact (Nat.mul_one _).symm

/-- A delta with text goes out behind what is missing. -/
theorem map_text {s : ReasoningStream} {method : String} {params : Json} {text : String}
    (hadd : method ≠ "item/reasoning/summaryPartAdded") (ht : deltaText params = some text) :
    ∃ i, i = piece (partOf s.announcedSummary method params, text.toList) ∧
      reasoningText (s.map method params).2 =
        List.replicate (missing s.lastPart s.trailingNewlines i) '\n' ++ i.text ∧
      (s.map method params).1 =
        { s with
          lastPart := some i.part
          trailingNewlines :=
            after (s.trailingNewlines + missing s.lastPart s.trailingNewlines i) i.text } := by
  refine ⟨_, rfl, ?_⟩
  have hmissing : (if s.lastPart.any (· ≠ partOf s.announcedSummary method params)
      then 2 - (s.trailingNewlines + leading text.toList) else 0) =
      missing s.lastPart s.trailingNewlines
        (piece (partOf s.announcedSummary method params, text.toList)) := by
    rw [missing]
    refine ite_congr ?_ (fun _ => rfl) fun _ => rfl
    rw [Option.any_eq_true]
    simp [piece]
  have hafter : (if trailing text.toList = Cut.size text.toList
      then s.trailingNewlines + missing s.lastPart s.trailingNewlines
        (piece (partOf s.announcedSummary method params, text.toList)) + trailing text.toList
      else trailing text.toList) = after (s.trailingNewlines + missing s.lastPart s.trailingNewlines
        (piece (partOf s.announcedSummary method params, text.toList))) text.toList := by
    rw [after]
    exact ite_congr (propext (trailing_eq_size_iff _)) (fun _ => rfl) fun _ => rfl
  rw [ReasoningStream.map, if_neg hadd, ht]
  dsimp only
  rw [hmissing, hafter]
  refine ⟨?_, rfl⟩
  split_ifs with hpos
  · simp [reasoningText, newlines, piece]
  · rw [Nat.eq_zero_of_not_pos hpos]
    simp [reasoningText, piece]

theorem text_run (s : ReasoningStream) (ns : List Notification) :
    reasoningText (s.run ns) =
      emit s.lastPart s.trailingNewlines ((deltas s.announcedSummary ns).map piece) := by
  induction ns generalizing s with
  | nil => rfl
  | cons n ns ih =>
    rw [ReasoningStream.run, reasoningText_append, ih, deltas]
    by_cases hadd : n.1 = "item/reasoning/summaryPartAdded"
    · rw [ReasoningStream.map, if_pos hadd, if_pos hadd]
      rfl
    · rw [if_neg hadd]
      cases ht : deltaText n.2 with
      | none =>
        rw [ReasoningStream.map, if_neg hadd]
        simp only [ht]
        rfl
      | some text =>
        obtain ⟨i, hi, htext, hstate⟩ := @map_text s _ _ _ hadd ht
        rw [htext, hstate]
        show _ = emit _ _ (List.map piece ((_, text.toList) :: deltas s.announcedSummary ns))
        rw [List.map_cons, ← hi, emit]

theorem emitted_eq (ns : List Notification) :
    emitted ns = emit none 0 ((deltas none ns).map piece) := text_run _ ns

end

/-! ## Which deltas there are -/

section

variable {announced : Option (String × ℕ)} {ns : List Notification}

theorem deltaText_ne {params : Json} {text : String} (h : deltaText params = some text) :
    text.toList ≠ [] := by
  have hne := (Option.filter_eq_some_iff.mp h).2
  simpa using hne

theorem u64_lt {v : Json} {n : ℕ} (h : Serde.u64 v = some n) : n < 2 ^ 64 := by
  unfold Serde.u64 at h
  split at h
  · split_ifs at h with hn
    exact Option.some.inj h ▸ hn.2
  · cases h

theorem partOf_index_lt (h : ∀ a ∈ announced, a.2 < 2 ^ 64) (method : String) (params : Json) :
    (partOf announced method params).2.2 < 2 ^ 64 := by
  rw [partOf]
  dsimp only
  cases hread : (field params _).bind Serde.u64 with
  | some n =>
    obtain ⟨v, -, hv⟩ := Option.bind_eq_some_iff.mp hread
    exact u64_lt hv
  | none =>
    cases announced with
    | none => exact Nat.two_pow_pos 64
    | some a =>
      show (((some a).filter _).map Prod.snd).getD 0 < 2 ^ 64
      rw [Option.filter_some]
      split_ifs
      · exact h a rfl
      · exact Nat.two_pow_pos 64

theorem of_mem_deltas (h : ∀ a ∈ announced, a.2 < 2 ^ 64) :
    ∀ d ∈ deltas announced ns, d.2 ≠ [] ∧ d.1.2.2 < 2 ^ 64 := by
  induction ns generalizing announced with
  | nil => simp [deltas]
  | cons n ns ih =>
    have hlt := partOf_index_lt h n.1 n.2
    rw [deltas]
    split_ifs
    · refine ih fun a ha => ?_
      obtain rfl := Option.some.inj ha
      exact hlt
    · cases ht : deltaText n.2 with
      | none => exact ih h
      | some text => exact List.forall_mem_cons.mpr ⟨⟨deltaText_ne ht, hlt⟩, ih h⟩

/-- The notification of a delta. -/
def tell (d : Part × List Char) : Notification :=
  (if d.1.2.1 then "item/reasoning/summaryTextDelta" else "item/reasoning/textDelta",
    .obj [("itemId", .str d.1.1),
      (if d.1.2.1 then "summaryIndex" else "contentIndex", .num d.1.2.2),
      ("delta", .str (.ofList d.2))])

theorem deltas_tell {ds : List (Part × List Char)}
    (h : ∀ d ∈ ds, d.2 ≠ [] ∧ d.1.2.2 < 2 ^ 64) : deltas announced (ds.map tell) = ds := by
  induction ds with
  | nil => rfl
  | cons d ds ih =>
    rw [List.forall_mem_cons] at h
    have hadd : (tell d).1 ≠ "item/reasoning/summaryPartAdded" := by
      rw [tell]
      split_ifs <;> simp
    have hpart : partOf announced (tell d).1 (tell d).2 = d.1 := by
      have hindex := (Serde.u64_num d.1.2.2).mpr h.1.2
      obtain ⟨⟨id, summary, index⟩, text⟩ := d
      cases summary <;>
        simp [partOf, tell, itemId, strField, field, get, List.lookup, Json.asStr, hindex]
    have htext : deltaText (tell d).2 = some (.ofList d.2) := by
      obtain ⟨⟨id, summary, index⟩, text⟩ := d
      cases summary <;>
        simpa [deltaText, tell, field, get, List.lookup, Json.asStr, Option.filter] using h.1.1
    rw [List.map_cons, deltas, if_neg hadd, hpart, htext, ih h.2]
    simp

end

/-! ## The parts are kept apart -/

/-- **Reasoning text.** Two newlines stand between the texts of different parts. How a part was
cut does not show, exactly if no part starts with two newlines behind one that ends with none. -/
theorem parts_separated (ns : List Notification) :
    ((∀ x xs, (partsOf ns).map (·.2) = x :: xs → Separated x xs (emitted ns)) ∧
      ∀ ns', partsOf ns' = partsOf ns → emitted ns' = emitted ns) ↔
    (partsOf ns).IsChain fun a b => ¬ Torn a.2 b.2 := by
  have hds : ∀ ns, ∀ d ∈ deltas none ns, d.2 ≠ [] ∧ d.1.2.2 < 2 ^ 64 := fun ns =>
    @of_mem_deltas none ns (by simp)
  have hne := fun ns d hd => (hds ns d hd).1
  rw [and_iff_right, partsOf, ← emit_eq_iff (hne ns)]
  · constructor
    · intro h ds hds' hparts
      have hindex : ∀ d ∈ ds, d.2 ≠ [] ∧ d.1.2.2 < 2 ^ 64 := by
        intro d hd
        refine ⟨hds' d hd, ?_⟩
        have hmem := mem_parts.mp (hparts ▸ mem_parts.mpr (List.mem_map_of_mem hd))
        obtain ⟨e, he, heq⟩ := List.mem_map.mp hmem
        rw [← heq]
        exact (hds ns e he).2
      have htell := h (ds.map tell) (by rw [partsOf, deltas_tell hindex, hparts])
      rwa [emitted_eq, emitted_eq, deltas_tell hindex] at htell
    · intro h ns' hparts
      rw [emitted_eq, emitted_eq]
      exact h _ (hne ns') hparts
  · rw [emitted_eq]
    exact separated_emit (hne ns)

/-- A part that starts with a blank line, whole and in two deltas. -/
theorem cut_shows :
    let r₁ := tell (("r1", false, 0), ['a'])
    let r₂ := fun text => tell (("r2", false, 0), text)
    partsOf [r₁, r₂ ['\n'], r₂ ['\n', 'b']] = partsOf [r₁, r₂ ['\n', '\n', 'b']] ∧
      emitted [r₁, r₂ ['\n', '\n', 'b']] = ['a', '\n', '\n', 'b'] ∧
      emitted [r₁, r₂ ['\n'], r₂ ['\n', 'b']] = ['a', '\n', '\n', '\n', 'b'] := by
  decide

end Zeron.Agent.Codex
