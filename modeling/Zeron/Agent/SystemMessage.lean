import Zeron.Lib.Tag
import Zeron.Session.Queue

/-!
# Echoes of a wakeup

A model may parrot the wakeup block it was given; `harness/src/acp/system_message.rs` strips such
blocks from the deltas of a channel, which come in chunks. Texts are lists of characters.

* `EchoStrip`, `push`, `SystemMessageEchoFilter`, `strip`: the source;
* `stripped`: a whole text without its blocks;
* `EchoStrip.meaning`, **`push_meaning`**: what is still to come of a channel, with any text;
* **`strip_channel`**: the filtered stream, a channel at a time.
-/

namespace Zeron.Agent.SystemMessage

open Tag Zeron.Session

/-! ## Tags -/

def openTag : List Char := "<SYSTEM_MESSAGE>".toList

def closeTag : List Char := "</SYSTEM_MESSAGE>".toList

def wakeupMarker : List Char := "[Message]".toList

/-- `str::trim_start`. -/
def trimStart (text : List Char) : List Char := text.dropWhile isWhitespace

/-! ## The stripper -/

structure EchoStrip where
  pending : List Char
  insideBlock : Bool

def EchoStrip.default : EchoStrip := ⟨[], false⟩

/-- The loop of `push`, and what is visible so far. -/
def EchoStrip.loop (s : EchoStrip) (visible : List Char) : List Char × EchoStrip :=
  if s.insideBlock then
    match _h : find closeTag s.pending with
    | some start => loop ⟨s.pending.drop (start + closeTag.length), false⟩ visible
    | none =>
      let keep := partialSuffix closeTag s.pending
      (visible, ⟨s.pending.drop (s.pending.length - keep), true⟩)
  else
    match _h : find openTag s.pending with
    | none =>
      let keep := partialSuffix openTag s.pending
      (visible ++ s.pending.take (s.pending.length - keep),
        ⟨s.pending.drop (s.pending.length - keep), false⟩)
    | some start =>
      let visible := visible ++ s.pending.take start
      let pending := s.pending.drop start
      let body := trimStart (pending.drop openTag.length)
      if wakeupMarker <+: body then loop ⟨pending.drop openTag.length, true⟩ visible
      else if body <+: wakeupMarker then (visible, ⟨pending, false⟩)
      else loop ⟨pending.drop openTag.length, false⟩ (visible ++ pending.take openTag.length)
termination_by s.pending.length
decreasing_by
  all_goals
    have hfits := length_of_find _h
    have hopen : openTag.length = 16 := rfl
    have hclose : closeTag.length = 17 := rfl
    simp only [List.length_drop]
    omega

def EchoStrip.push (s : EchoStrip) (chunk : List Char) : List Char × EchoStrip :=
  loop { s with pending := s.pending ++ chunk } []

/-- What is left behind is `EchoStrip.default`. -/
def EchoStrip.finish (s : EchoStrip) : List Char := if s.insideBlock then [] else s.pending

/-! ## The filter -/

/-- `AgentEvent`; `other` are the events that are neither deltas nor boundaries. -/
inductive AgentEvent (ε : Type) where
  | textDelta (text : List Char)
  | reasoningDelta (text : List Char)
  | sessionStarted (event : ε)
  | assistantMessageCompleted (event : ε)
  | steered (event : ε)
  | userMessage (event : ε)
  | done (event : ε)
  | other (event : ε)

variable {ε η : Type}

def AgentEvent.isBoundary : AgentEvent ε → Bool
  | .sessionStarted _ | .assistantMessageCompleted _ | .steered _ | .userMessage _ | .done _ => true
  | _ => false

structure SystemMessageEchoFilter where
  text : EchoStrip
  reasoning : EchoStrip

namespace SystemMessageEchoFilter

def default : SystemMessageEchoFilter := ⟨.default, .default⟩

def textDelta (text : List Char) : List (AgentEvent ε) :=
  if text = [] then [] else [.textDelta text]

def reasoningDelta (text : List Char) : List (AgentEvent ε) :=
  if text = [] then [] else [.reasoningDelta text]

/-- What is left behind is `default`. -/
def finish (f : SystemMessageEchoFilter) : List (AgentEvent ε) :=
  reasoningDelta f.reasoning.finish ++ textDelta f.text.finish

def apply (f : SystemMessageEchoFilter) (event : AgentEvent ε) :
    List (AgentEvent ε) × SystemMessageEchoFilter :=
  match event with
  | .textDelta text => (textDelta (f.text.push text).1, { f with text := (f.text.push text).2 })
  | .reasoningDelta text =>
    (reasoningDelta (f.reasoning.push text).1,
      { f with reasoning := (f.reasoning.push text).2 })
  | event => if event.isBoundary then (f.finish ++ [event], default) else ([event], f)

/-- The rest of the stream. -/
def run (f : SystemMessageEchoFilter) :
    List (Except η (AgentEvent ε)) → List (Except η (AgentEvent ε))
  | [] => f.finish.map .ok
  | .ok event :: items => (f.apply event).1.map .ok ++ (f.apply event).2.run items
  | .error error :: items => f.finish.map .ok ++ .error error :: default.run items

end SystemMessageEchoFilter

/-- `strip_system_message_echoes`. -/
def strip (items : List (Except η (AgentEvent ε))) : List (Except η (AgentEvent ε)) :=
  SystemMessageEchoFilter.default.run items

/-! ## A whole text -/

/-- A block opens here. -/
def Opens (text : List Char) : Prop :=
  openTag <+: text ∧ wakeupMarker <+: trimStart (text.drop openTag.length)

instance (text : List Char) : Decidable (Opens text) := inferInstanceAs (Decidable (_ ∧ _))

/-- The text behind the next closing tag. -/
def afterClose (text : List Char) : List Char :=
  (find closeTag text).elim [] fun start => text.drop (start + closeTag.length)

theorem length_afterClose (text : List Char) : (afterClose text).length ≤ text.length := by
  unfold afterClose
  cases find closeTag text with
  | none => exact Nat.zero_le _
  | some start =>
    rw [Option.elim_some, List.length_drop]
    omega

/-- **The text without its blocks**: each from where it opens to the next closing tag, or to the
end. -/
def stripped : List Char → List Char
  | [] => []
  | c :: text =>
    if Opens (c :: text) then stripped (afterClose ((c :: text).drop openTag.length))
    else c :: stripped text
termination_by text => text.length
decreasing_by
  · have hle := length_afterClose ((c :: text).drop openTag.length)
    have hopen : openTag.length = 16 := rfl
    simp only [List.length_drop, List.length_cons] at hle ⊢
    omega
  · exact Nat.lt_succ_self _

/-! ## Tags in a growing text -/

variable {text rest pre body : List Char}

theorem trimStart_append (h : trimStart body ≠ []) (rest : List Char) :
    trimStart (body ++ rest) = trimStart body ++ rest := by
  rw [trimStart, List.dropWhile_append, if_neg]
  · rfl
  · rwa [List.isEmpty_iff]

theorem marker_append (h : ¬ trimStart body <+: wakeupMarker) (rest : List Char) :
    wakeupMarker <+: trimStart (body ++ rest) ↔ wakeupMarker <+: trimStart body := by
  have hne : trimStart body ≠ [] := fun hn => h (hn ▸ List.nil_prefix)
  rw [trimStart_append hne]
  refine ⟨fun hp => ?_, fun hp => hp.trans (List.prefix_append _ _)⟩
  rcases List.prefix_or_prefix_of_prefix hp (List.prefix_append (trimStart body) rest) with h' | h'
  · exact h'
  · exact absurd h' h

theorem marker_append_of_le (h : wakeupMarker <+: trimStart body) (rest : List Char) :
    wakeupMarker <+: trimStart (body ++ rest) := by
  have hne : trimStart body ≠ [] := by
    intro hn
    rw [hn] at h
    exact absurd (List.prefix_nil.mp h) (by decide)
  rw [trimStart_append hne]
  exact h.trans (List.prefix_append _ _)

theorem not_openTag_inside (hl : '<' ∉ pre.tail) {i : ℕ} (hi : 0 < i) (hlt : i < pre.length) :
    ¬ openTag <+: (pre ++ rest).drop i := by
  rintro ⟨t, ht⟩
  have hhead : ((pre ++ rest).drop i).head? = some '<' := by
    rw [← ht]
    rfl
  obtain ⟨j, rfl⟩ : ∃ j, i = j + 1 := ⟨i - 1, by omega⟩
  rw [List.head?_drop, List.getElem?_append_left hlt] at hhead
  refine hl (List.mem_of_getElem? (i := j) ?_)
  rw [List.getElem?_tail]
  exact hhead

/-! ## Whole texts -/

attribute [local simp] stripped in
theorem stripped_opens (h : Opens text) :
    stripped text = stripped (afterClose (text.drop openTag.length)) := by
  cases text with
  | nil => exact absurd h.1 (by decide)
  | cons c text => rw [stripped, if_pos h]

theorem stripped_append (h : ∀ i < pre.length, ¬ Opens ((pre ++ text).drop i)) :
    stripped (pre ++ text) = pre ++ stripped text := by
  induction pre with
  | nil => rfl
  | cons c pre ih =>
    have h0 : ¬ Opens (c :: (pre ++ text)) := h 0 (Nat.succ_pos _)
    rw [List.cons_append, stripped, if_neg h0,
      ih fun i hi => h (i + 1) (Nat.succ_lt_succ hi)]
    rfl

theorem stripped_self (h : ∀ i < text.length, ¬ Opens (text.drop i)) : stripped text = text := by
  have hnil : stripped [] = [] := by rw [stripped]
  have hpre := @stripped_append [] text (by simpa using h)
  rwa [List.append_nil, hnil, List.append_nil] at hpre

theorem afterClose_append_left {start : ℕ} (h : find closeTag text = some start) :
    afterClose (text ++ rest) = text.drop (start + closeTag.length) ++ rest := by
  rw [afterClose, find_append_left h, Option.elim_some,
    List.drop_append_of_le_length (length_of_find h)]

theorem afterClose_append (h : ∀ i < pre.length, ¬ closeTag <+: (pre ++ text).drop i) :
    afterClose (pre ++ text) = afterClose text := by
  rw [afterClose, afterClose, find_append h]
  cases find closeTag text with
  | none => rfl
  | some start =>
    simp only [Option.map_some, Option.elim_some]
    rw [Nat.add_assoc, List.drop_length_add_append]

/-! ## What is still to come -/

namespace EchoStrip

/-- **What the channel still gives**, if the rest of its text is `rest`. -/
def meaning (s : EchoStrip) (rest : List Char) : List Char :=
  if s.insideBlock then stripped (afterClose (s.pending ++ rest)) else stripped (s.pending ++ rest)

/-- Nothing that is pending can be given yet. -/
def Held (s : EchoStrip) : Prop := s.meaning [] = s.finish

theorem held_default : EchoStrip.default.Held := by
  show stripped [] = []
  rw [stripped]

section Loop

variable {s : EchoStrip} {visible : List Char} {start : ℕ}

theorem loop_close (hi : s.insideBlock = true) (hf : find closeTag s.pending = some start) :
    s.loop visible = loop ⟨s.pending.drop (start + closeTag.length), false⟩ visible := by
  rw [loop, if_pos hi]
  split
  · rename_i k hk
    cases hf.symm.trans hk
    rfl
  · rename_i hk
    cases hf.symm.trans hk

theorem loop_swallow (hi : s.insideBlock = true) (hf : find closeTag s.pending = none) :
    s.loop visible = (visible, ⟨s.pending.drop (s.pending.length -
      partialSuffix closeTag s.pending), true⟩) := by
  rw [loop, if_pos hi]
  split
  · rename_i k hk
    cases hf.symm.trans hk
  · rfl

theorem loop_emit (hi : s.insideBlock = false) (hf : find openTag s.pending = none) :
    s.loop visible =
      (visible ++ s.pending.take (s.pending.length - partialSuffix openTag s.pending),
        ⟨s.pending.drop (s.pending.length - partialSuffix openTag s.pending), false⟩) := by
  rw [loop, if_neg (Bool.eq_false_iff.mp hi)]
  split
  · rfl
  · rename_i k hk
    cases hf.symm.trans hk

theorem loop_open (hi : s.insideBlock = false) (hf : find openTag s.pending = some start) :
    s.loop visible =
      if wakeupMarker <+: trimStart ((s.pending.drop start).drop openTag.length) then
        loop ⟨(s.pending.drop start).drop openTag.length, true⟩ (visible ++ s.pending.take start)
      else if trimStart ((s.pending.drop start).drop openTag.length) <+: wakeupMarker then
        (visible ++ s.pending.take start, ⟨s.pending.drop start, false⟩)
      else loop ⟨(s.pending.drop start).drop openTag.length, false⟩
        (visible ++ s.pending.take start ++ (s.pending.drop start).take openTag.length) := by
  rw [loop, if_neg (Bool.eq_false_iff.mp hi)]
  split
  · rename_i hk
    cases hf.symm.trans hk
  · rename_i k hk
    cases hf.symm.trans hk
    rfl

/-- The loop has given what it has to give. -/
structure Given (s : EchoStrip) (visible : List Char) (r : List Char × EchoStrip) : Prop where
  meaning : ∀ rest, r.1 ++ r.2.meaning rest = visible ++ s.meaning rest
  held : r.2.Held

attribute [local simp] meaning in
theorem given_swallow (hi : s.insideBlock = true) (hf : find closeTag s.pending = none) :
    Given s visible (s.loop visible) := by
  rw [loop_swallow hi hf]
  have hno := fun j => @not_prefix_before _ _ _ _ (by decide) hf j
  have hnone := (find_eq_none (by decide)).mp hf
  generalize s.pending.length - partialSuffix closeTag s.pending = n at hno
  have hcut : s.pending.take n ++ s.pending.drop n = s.pending := List.take_append_drop n _
  constructor
  · intro rest
    have hafter : afterClose (s.pending ++ rest) = afterClose (s.pending.drop n ++ rest) := by
      conv_lhs => rw [← hcut, List.append_assoc]
      refine afterClose_append fun i hlt => ?_
      rw [List.length_take] at hlt
      rw [← List.append_assoc, hcut, List.drop_append_of_le_length (by omega)]
      exact hno i (by omega) rest
    simp only [meaning, hi, if_true, hafter]
  · have hkept : find closeTag (s.pending.drop n ++ []) = none := by
      rw [List.append_nil, find_eq_none (by decide)]
      intro j
      rw [List.drop_drop]
      exact hnone (n + j)
    show stripped (afterClose (s.pending.drop n ++ [])) = []
    rw [afterClose, hkept]
    exact held_default

theorem given_emit (hi : s.insideBlock = false) (hf : find openTag s.pending = none) :
    Given s visible (s.loop visible) := by
  rw [loop_emit hi hf]
  have hno := fun j => @not_prefix_before _ _ _ _ (by decide) hf j
  have hnone := (find_eq_none (by decide)).mp hf
  generalize s.pending.length - partialSuffix openTag s.pending = n at hno
  have hcut : s.pending.take n ++ s.pending.drop n = s.pending := List.take_append_drop n _
  constructor
  · intro rest
    have hkeep : stripped (s.pending ++ rest) =
        s.pending.take n ++ stripped (s.pending.drop n ++ rest) := by
      conv_lhs => rw [← hcut, List.append_assoc]
      refine stripped_append fun i hlt hopens => ?_
      rw [List.length_take] at hlt
      rw [← List.append_assoc, hcut, List.drop_append_of_le_length (by omega)] at hopens
      exact hno i (by omega) rest hopens.1
    simp only [meaning, hi, Bool.false_eq_true, if_false, hkeep, List.append_assoc]
  · show stripped (s.pending.drop n ++ []) = s.pending.drop n
    rw [List.append_nil]
    refine stripped_self fun i _ hopens => ?_
    rw [List.drop_drop] at hopens
    exact hnone _ hopens.1

section Open

variable (hi : s.insideBlock = false) (hf : find openTag s.pending = some start)
include hf

theorem opened_eq : ∃ body, s.pending.drop start = openTag ++ body := by
  obtain ⟨body, hbody⟩ := prefix_of_find hf
  exact ⟨body, hbody.symm⟩

include hi in
theorem meaning_open (rest : List Char) :
    s.meaning rest = s.pending.take start ++ stripped (s.pending.drop start ++ rest) := by
  have hfits := length_of_find hf
  have hcut : s.pending.take start ++ (s.pending.drop start ++ rest) = s.pending ++ rest := by
    rw [← List.append_assoc, List.take_append_drop]
  simp only [meaning, hi, Bool.false_eq_true, if_false]
  conv_lhs => rw [← hcut]
  refine stripped_append fun i hlt hopens => ?_
  rw [hcut] at hopens
  rw [List.length_take] at hlt
  exact not_prefix_of_lt (find_append_left hf rest) (by omega) hopens.1

end Open

theorem stripped_open (h : wakeupMarker <+: trimStart body) (rest : List Char) :
    stripped (openTag ++ body ++ rest) = stripped (afterClose (body ++ rest)) := by
  have hdrop : (openTag ++ body ++ rest).drop openTag.length = body ++ rest := by
    rw [List.append_assoc, List.drop_left]
  have hopens : Opens (openTag ++ body ++ rest) := by
    refine ⟨?_, ?_⟩
    · rw [List.append_assoc]
      exact List.prefix_append _ _
    · rw [hdrop]
      exact marker_append_of_le h rest
  rw [stripped_opens hopens, hdrop]

theorem stripped_skip (h : ¬ wakeupMarker <+: trimStart body)
    (h' : ¬ trimStart body <+: wakeupMarker) (rest : List Char) :
    stripped (openTag ++ body ++ rest) = openTag ++ stripped (body ++ rest) := by
  rw [List.append_assoc]
  refine stripped_append fun i hlt hopens => ?_
  cases i with
  | zero =>
    have hmarker := hopens.2
    rw [List.drop_zero, List.drop_left] at hmarker
    exact h ((marker_append h' rest).mp hmarker)
  | succ i => exact not_openTag_inside (by decide) (Nat.succ_pos i) hlt hopens.1

theorem stripped_hold (h : ¬ wakeupMarker <+: trimStart body)
    (h' : trimStart body <+: wakeupMarker) : stripped (openTag ++ body) = openTag ++ body := by
  have hbody : '<' ∉ body := by
    intro hmem
    rw [← List.takeWhile_append_dropWhile (p := isWhitespace) (l := body)] at hmem
    rcases List.mem_append.mp hmem with hws | htrim
    · exact absurd (List.mem_takeWhile_imp hws) (by decide)
    · exact absurd (h'.subset htrim) (by decide)
  refine stripped_self fun i hlt hopens => ?_
  cases i with
  | zero =>
    have hmarker := hopens.2
    rw [List.drop_zero, List.drop_left] at hmarker
    exact h hmarker
  | succ i =>
    have htail : '<' ∉ (openTag ++ body).tail := by
      intro hmem
      rcases List.mem_append.mp (show '<' ∈ openTag.tail ++ body from hmem) with htag | hmem
      · exact absurd htag (by decide)
      · exact hbody hmem
    refine @not_openTag_inside [] (openTag ++ body) htail (i + 1) (Nat.succ_pos i) hlt ?_
    rw [List.append_nil]
    exact hopens.1

/-- **What a push gives, and what is still to come of it.** -/
theorem loop_given (s : EchoStrip) (visible : List Char) : Given s visible (s.loop visible) := by
  induction hn : s.pending.length using Nat.strong_induction_on generalizing s visible with
  | _ n ih =>
    have hclose : closeTag.length = 17 := rfl
    have hopen : openTag.length = 16 := rfl
    cases hi : s.insideBlock with
    | true =>
      cases hf : find closeTag s.pending with
      | none => exact given_swallow hi hf
      | some start =>
        have hfits := length_of_find hf
        have hnext := ih _ (by simp only [List.length_drop]; omega)
          ⟨s.pending.drop (start + closeTag.length), false⟩ visible rfl
        rw [loop_close hi hf]
        refine ⟨fun rest => ?_, hnext.held⟩
        rw [hnext.meaning rest]
        simp only [meaning, hi, if_true, Bool.false_eq_true, if_false, afterClose_append_left hf]
    | false =>
      cases hf : find openTag s.pending with
      | none => exact given_emit hi hf
      | some start =>
        have hfits := length_of_find hf
        obtain ⟨body, hbody⟩ := opened_eq hf
        have hmean := meaning_open hi hf
        have hlen := congrArg List.length hbody
        rw [List.length_drop, List.length_append] at hlen
        rw [loop_open hi hf, hbody, List.drop_left, List.take_left]
        rw [hbody] at hmean
        by_cases hm : wakeupMarker <+: trimStart body
        · rw [if_pos hm]
          have hnext := ih body.length (by omega) ⟨body, true⟩
            (visible ++ s.pending.take start) rfl
          refine ⟨fun rest => ?_, hnext.held⟩
          rw [hnext.meaning rest, hmean, stripped_open hm, List.append_assoc]
          rfl
        · rw [if_neg hm]
          by_cases hp : trimStart body <+: wakeupMarker
          · rw [if_pos hp]
            refine ⟨fun rest => ?_, ?_⟩
            · rw [hmean, List.append_assoc]
              rfl
            · show stripped (openTag ++ body ++ []) = openTag ++ body
              rw [List.append_nil]
              exact stripped_hold hm hp
          · rw [if_neg hp]
            have hnext := ih body.length (by omega) ⟨body, false⟩
              (visible ++ s.pending.take start ++ openTag) rfl
            refine ⟨fun rest => ?_, hnext.held⟩
            rw [hnext.meaning rest, hmean, stripped_skip hm hp]
            simp only [List.append_assoc]
            rfl

end Loop

/-- **A push gives what it can**: the rest of the text decides about the rest. -/
theorem push_meaning (s : EchoStrip) (chunk rest : List Char) :
    (s.push chunk).1 ++ (s.push chunk).2.meaning rest = s.meaning (chunk ++ rest) := by
  rw [push, (loop_given _ _).meaning rest, List.nil_append, meaning, meaning]
  simp only [List.append_assoc]

theorem push_held (s : EchoStrip) (chunk : List Char) : (s.push chunk).2.Held :=
  (loop_given _ _).held

/-- The chunks pushed one after another, and the end. -/
def streamText (s : EchoStrip) : List (List Char) → List Char
  | [] => s.finish
  | chunk :: chunks => (s.push chunk).1 ++ (s.push chunk).2.streamText chunks

/-- **However the text is cut.** -/
theorem streamText_eq (chunks : List (List Char)) {s : EchoStrip} (h : s.Held) :
    s.streamText chunks = s.meaning chunks.flatten := by
  induction chunks generalizing s with
  | nil => exact h.symm
  | cons chunk chunks ih =>
    rw [streamText, ih (push_held s chunk), push_meaning]
    rfl

end EchoStrip

/-! ## The filtered stream -/

inductive Channel where
  | text
  | reasoning

/-- The text that an event adds to the channel. -/
def textOf (channel : Channel) : AgentEvent ε → List Char
  | .textDelta text => if channel matches .text then text else []
  | .reasoningDelta text => if channel matches .reasoning then text else []
  | _ => []

def AgentEvent.isDelta : AgentEvent ε → Bool
  | .textDelta _ | .reasoningDelta _ => true
  | _ => false

/-- The messages end here: at a boundary or an error. -/
def endsMessage : Except η (AgentEvent ε) → Bool
  | .ok event => event.isBoundary
  | .error _ => true

/-- The item is no delta. -/
def isOther : Except η (AgentEvent ε) → Bool
  | .ok event => !event.isDelta
  | .error _ => true

def itemText (channel : Channel) : Except η (AgentEvent ε) → List Char
  | .ok event => textOf channel event
  | .error _ => []

/-- The texts of a channel, one for each message. -/
def messages (channel : Channel) : List (Except η (AgentEvent ε)) → List (List Char)
  | [] => [[]]
  | item :: items =>
    if endsMessage item then [] :: messages channel items
    else (messages channel items).modifyHead (itemText channel item ++ ·)

def SystemMessageEchoFilter.channel (f : SystemMessageEchoFilter) : Channel → EchoStrip
  | .text => f.text
  | .reasoning => f.reasoning

section Stream

open SystemMessageEchoFilter

variable {f : SystemMessageEchoFilter} {channel : Channel}
  {items : List (Except η (AgentEvent ε))} {events : List (AgentEvent ε)}

theorem messages_deltas (h : ∀ e ∈ events, e.isDelta = true) :
    messages channel (events.map .ok ++ items) =
      (messages channel items).modifyHead (events.flatMap (textOf channel) ++ ·) := by
  induction events with
  | nil =>
    show messages channel items = (messages channel items).modifyHead id
    rw [List.modifyHead_id]
    rfl
  | cons event events ih =>
    have hev := h event List.mem_cons_self
    have hends : endsMessage (Except.ok event : Except η (AgentEvent ε)) = false := by
      cases event <;> first | rfl | cases hev
    rw [List.map_cons, List.cons_append, messages, hends, if_neg Bool.false_ne_true,
      ih fun e he => h e (List.mem_cons_of_mem _ he), List.modifyHead_modifyHead]
    congr 1
    funext text
    exact (List.append_assoc _ _ _).symm

theorem filter_deltas (h : ∀ e ∈ events, e.isDelta = true) :
    (events.map fun e => (.ok e : Except η _)).filter isOther = [] := by
  rw [List.filter_eq_nil_iff]
  intro item hitem
  obtain ⟨e, he, rfl⟩ := List.mem_map.mp hitem
  simp [isOther, h e he]

theorem textDelta_deltas (text : List Char) :
    ∀ e ∈ (textDelta text : List (AgentEvent ε)), e.isDelta = true := by
  unfold textDelta
  split_ifs
  · simp
  · simp [AgentEvent.isDelta]

theorem reasoningDelta_deltas (text : List Char) :
    ∀ e ∈ (reasoningDelta text : List (AgentEvent ε)), e.isDelta = true := by
  unfold reasoningDelta
  split_ifs
  · simp
  · simp [AgentEvent.isDelta]

theorem finish_deltas : ∀ e ∈ (f.finish : List (AgentEvent ε)), e.isDelta = true := by
  intro e he
  rcases List.mem_append.mp he with hr | ht
  · exact reasoningDelta_deltas _ e hr
  · exact textDelta_deltas _ e ht

theorem textOf_textDelta (text : List Char) :
    (textDelta text : List (AgentEvent ε)).flatMap (textOf .text) = text ∧
      (textDelta text : List (AgentEvent ε)).flatMap (textOf .reasoning) = [] := by
  unfold textDelta
  split_ifs with h
  · simp [h]
  · simp [textOf]

theorem textOf_reasoningDelta (text : List Char) :
    (reasoningDelta text : List (AgentEvent ε)).flatMap (textOf .reasoning) = text ∧
      (reasoningDelta text : List (AgentEvent ε)).flatMap (textOf .text) = [] := by
  unfold reasoningDelta
  split_ifs with h
  · simp [h]
  · simp [textOf]

theorem textOf_finish :
    (f.finish : List (AgentEvent ε)).flatMap (textOf channel) = (f.channel channel).finish := by
  rw [SystemMessageEchoFilter.finish, List.flatMap_append]
  cases channel with
  | text => rw [(textOf_reasoningDelta _).2, (textOf_textDelta _).1]; rfl
  | reasoning =>
    rw [(textOf_reasoningDelta _).1, (textOf_textDelta _).2, List.append_nil]
    rfl

/-- Both channels hold back only what they must. -/
def Settled (f : SystemMessageEchoFilter) : Prop := ∀ channel, (f.channel channel).Held

theorem settled_default : Settled default := by
  intro channel
  cases channel <;> exact EchoStrip.held_default

theorem settled_push (h : Settled f) (text : List Char) :
    Settled { f with text := (f.text.push text).2 } ∧
      Settled { f with reasoning := (f.reasoning.push text).2 } := by
  constructor <;> intro channel <;> cases channel
  · exact EchoStrip.push_held f.text text
  · exact h .reasoning
  · exact h .text
  · exact EchoStrip.push_held f.reasoning text

theorem run_boundary {event : AgentEvent ε} (hb : event.isBoundary = true) :
    f.run (.ok event :: items) = f.finish.map .ok ++ Except.ok event :: default.run items := by
  have happly : f.apply event = (f.finish ++ [event], default) := by
    cases event <;> first | rfl | cases hb
  rw [run, happly, List.map_append, List.append_assoc]
  rfl

theorem messages_cons {event : AgentEvent ε} (h : event.isBoundary = false) :
    messages channel (Except.ok event :: items) =
      (messages channel items).modifyHead (textOf channel event ++ ·) := by
  rw [messages, if_neg (by rw [endsMessage, h]; exact Bool.false_ne_true)]
  rfl

variable (channel items) in
/-- The first message goes on from what is pending. -/
def Follows (f : SystemMessageEchoFilter) (out : List (Except η (AgentEvent ε))) : Prop :=
  ∃ first rest, messages channel items = first :: rest ∧
    messages channel out = (f.channel channel).meaning first :: rest.map stripped

theorem follows_end {item : Except η (AgentEvent ε)} {out : List (Except η (AgentEvent ε))}
    (hs : Settled f) (h : Follows channel items default out) (hitem : endsMessage item = true) :
    Follows channel (item :: items) f (f.finish.map .ok ++ item :: out) := by
  obtain ⟨first, rest, hms, hout⟩ := h
  refine ⟨[], first :: rest, ?_, ?_⟩
  · rw [messages, if_pos hitem, hms]
  · rw [messages_deltas finish_deltas, messages, if_pos hitem, hout, textOf_finish]
    have hnew : (default.channel channel).meaning first = stripped first := by
      cases channel <;> rfl
    rw [List.modifyHead_cons, List.append_nil, ← hs channel, hnew, List.map_cons]

theorem follows_delta {f' : SystemMessageEchoFilter} {event : AgentEvent ε}
    {out : List (Except η (AgentEvent ε))} (h : Follows channel items f' out)
    (hb : event.isBoundary = false) (he : ∀ e ∈ events, e.isDelta = true)
    (hpush : ∀ rest, events.flatMap (textOf channel) ++ (f'.channel channel).meaning rest =
      (f.channel channel).meaning (textOf channel event ++ rest)) :
    Follows channel (.ok event :: items) f (events.map .ok ++ out) := by
  obtain ⟨first, rest, hms, hout⟩ := h
  refine ⟨textOf channel event ++ first, rest, ?_, ?_⟩
  · rw [messages_cons hb, hms, List.modifyHead_cons]
  · rw [messages_deltas he, hout, List.modifyHead_cons, hpush]

/-- **What a filter makes of the messages.** -/
theorem follows_run (h : Settled f) : Follows channel items f (f.run items) := by
  induction items generalizing f with
  | nil =>
    refine ⟨[], [], rfl, ?_⟩
    have hd := @messages_deltas ε η channel [] f.finish finish_deltas
    rw [List.append_nil] at hd
    rw [run, hd, textOf_finish, ← h channel]
    exact congrArg (· :: []) (List.append_nil _)
  | cons item items ih =>
    cases item with
    | error e => exact follows_end h (ih settled_default) rfl
    | ok event =>
      cases event with
      | textDelta text =>
        refine follows_delta (ih (settled_push h text).1) rfl (textDelta_deltas _) fun rest => ?_
        cases channel with
        | text =>
          refine (congrArg (· ++ _) (textOf_textDelta _).1).trans ?_
          exact EchoStrip.push_meaning f.text text rest
        | reasoning => exact congrArg (· ++ _) (textOf_textDelta _).2
      | reasoningDelta text =>
        refine follows_delta (ih (settled_push h text).2) rfl (reasoningDelta_deltas _)
          fun rest => ?_
        cases channel with
        | text => exact congrArg (· ++ _) (textOf_reasoningDelta _).2
        | reasoning =>
          refine (congrArg (· ++ _) (textOf_reasoningDelta _).1).trans ?_
          exact EchoStrip.push_meaning f.reasoning text rest
      | other e =>
        obtain ⟨first, rest, hms, hout⟩ := ih h
        refine ⟨first, rest, ?_, ?_⟩
        · rw [messages_cons rfl, hms]
          rfl
        · show messages channel (Except.ok (.other e) :: f.run items) = _
          rw [messages_cons rfl, hout]
          rfl
      | sessionStarted e =>
        rw [run_boundary rfl]
        exact follows_end h (ih settled_default) rfl
      | assistantMessageCompleted e =>
        rw [run_boundary rfl]
        exact follows_end h (ih settled_default) rfl
      | steered e =>
        rw [run_boundary rfl]
        exact follows_end h (ih settled_default) rfl
      | userMessage e =>
        rw [run_boundary rfl]
        exact follows_end h (ih settled_default) rfl
      | done e =>
        rw [run_boundary rfl]
        exact follows_end h (ih settled_default) rfl

theorem filter_run : (f.run items).filter isOther = items.filter isOther := by
  induction items generalizing f with
  | nil => exact filter_deltas finish_deltas
  | cons item items ih =>
    cases item with
    | error e =>
      rw [run, List.filter_append, filter_deltas finish_deltas, List.nil_append,
        List.filter_cons_of_pos rfl, List.filter_cons_of_pos rfl, ih]
    | ok event =>
      cases hb : event.isBoundary with
      | true =>
        have hother : isOther (Except.ok event : Except η (AgentEvent ε)) = true := by
          cases event <;> first | rfl | cases hb
        rw [run_boundary hb, List.filter_append, filter_deltas finish_deltas, List.nil_append,
          List.filter_cons_of_pos hother, List.filter_cons_of_pos hother, ih]
      | false =>
        rw [run, List.filter_append, ih]
        cases event with
        | textDelta text =>
          rw [List.filter_cons_of_neg Bool.false_ne_true]
          exact congrArg (· ++ _) (filter_deltas (textDelta_deltas _))
        | reasoningDelta text =>
          rw [List.filter_cons_of_neg Bool.false_ne_true]
          exact congrArg (· ++ _) (filter_deltas (reasoningDelta_deltas _))
        | other e => rfl
        | _ => cases hb

end Stream

/-- **The echoes are stripped, however the text is cut into chunks**; over a stream of events, each
channel gives each of its messages stripped, and the other events pass in their order. -/
theorem strip_echoes :
    (∀ chunks : List (List Char),
      EchoStrip.default.streamText chunks = stripped chunks.flatten) ∧
    ∀ items : List (Except η (AgentEvent ε)),
      (∀ channel, messages channel (strip items) = (messages channel items).map stripped) ∧
        (strip items).filter isOther = items.filter isOther := by
  refine ⟨fun chunks => EchoStrip.streamText_eq chunks EchoStrip.held_default, fun items =>
    ⟨fun channel => ?_, filter_run⟩⟩
  obtain ⟨first, rest, hms, hout⟩ := @follows_run ε η _ channel items settled_default
  have hnew : (SystemMessageEchoFilter.default.channel channel).meaning first = stripped first := by
    cases channel <;> rfl
  rw [hms, List.map_cons, ← hnew]
  exact hout

end Zeron.Agent.SystemMessage
