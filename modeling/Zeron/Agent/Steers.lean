import Zeron.Agent.Codex

/-!
# Steers are acknowledged in order

A steer is injected into the active turn, queued behind it, or becomes a turn
(`harness/src/codex/mod.rs`). Whoever reads the stream takes the next `Steered` for the oldest
message that has none.

* `acks`, `InOrder`: what is promised;
* `Current`: no steer is rejected by a turn that the loop holds for done;
* **`steers_in_order`**; `steer_overtakes`: a steer that is queued behind such a turn is overtaken.
-/

namespace Zeron.Agent.Codex

open Run

/-! ## What is promised -/

def ack? : Event → Option ℕ
  | .steered message => some message
  | _ => none

namespace Session

variable (command : String → Command) (s : Session)

/-- The messages that were acknowledged. -/
def acks : List ℕ := s.out.filterMap ack?

/-- The end of the turn takes a steer from the queue, or ends the stream. -/
def Drains : Prop := ∀ id error answers s', s.completed command id error answers = some s' →
  s'.ended = false → s'.queuedSteers.length < s.queuedSteers.length

structure InOrder : Prop where
  /-- The n-th `Steered` is for the n-th message. -/
  order : s.acks = List.range s.acks.length
  known : s.acks.length ≤ s.received
  /-- No message reaches the agent twice. -/
  once : s.delivered.Nodup
  /-- What is queued waits for the end of a turn. -/
  waits : s.ended = false → s.queuedSteers ≠ [] → s.doneCurrent = false ∧ s.Drains command

/-- A `turn/steer` is not rejected by a turn whose end the loop believes to have seen. -/
def Current : Act → Prop
  | .steer message accepted _ =>
    message.isControl = true ∨ accepted = true ∨ s.router.active = none ∨ s.doneCurrent = false
  | _ => True

instance (a : Act) : Decidable (s.Current a) := by
  cases a <;> simp only [Current] <;> infer_instance

/-! ## The invariant -/

/-- Acknowledged are the messages up to the queue; the agent has none of the queue. -/
structure Line (queue : List ℕ) : Prop where
  line : s.acks ++ queue = List.range s.received
  sorted : s.delivered.Pairwise (· < ·)
  below : ∀ n ∈ s.delivered, n < s.acks.length

/-- The loop is over, perhaps with a message that was delivered and not acknowledged. -/
structure Stopped : Prop where
  ended : s.ended = true
  order : s.acks <+: List.range s.received
  sorted : s.delivered.Pairwise (· < ·)

/-- Within a round. -/
def Mid : Prop := s.ended = false ∧ s.Line (s.queuedSteers.map Prod.fst) ∨ s.Stopped

def Kept : Prop := s.Mid ∧ (s.ended = false → s.queuedSteers ≠ [] → s.doneCurrent = false)

/-- A message, perhaps delivered, is acknowledged next. -/
structure Next (n : ℕ) (queue : List ℕ) : Prop where
  line : s.acks ++ n :: queue = List.range s.received
  sorted : s.delivered.Pairwise (· < ·)
  below : ∀ m ∈ s.delivered, m < s.acks.length + 1

end Session

/-! ## Sends -/

namespace Session

variable {command : String → Command} {s s' : Session}

theorem Line.congr {queue : List ℕ} (h : s.Line queue) (hout : s'.out = s.out)
    (hreceived : s'.received = s.received) (hdelivered : s'.delivered = s.delivered) :
    s'.Line queue := by
  have hacks : s'.acks = s.acks := by rw [acks, hout, acks]
  refine ⟨?_, ?_, ?_⟩
  · rw [hacks, hreceived]
    exact h.line
  · rw [hdelivered]
    exact h.sorted
  · rw [hacks, hdelivered]
    exact h.below

theorem Line.next {n : ℕ} {queue : List ℕ} (h : s.Line (n :: queue)) : s.Next n queue :=
  ⟨h.line, h.sorted, fun m hm => Nat.lt_succ_of_lt (h.below m hm)⟩

theorem Next.eq_length {n : ℕ} {queue : List ℕ} (h : s.Next n queue) : n = s.acks.length := by
  have hget := congrArg (fun l => l[s.acks.length]?) h.line
  have hlt : s.acks.length < s.received := by
    have hlen := congrArg List.length h.line
    rw [List.length_append, List.length_cons, List.length_range] at hlen
    omega
  rw [List.getElem?_append_right (Nat.le_refl _), Nat.sub_self, List.getElem?_cons_zero,
    List.getElem?_range hlt] at hget
  exact Option.some_inj.mp hget

theorem Line.deliver {n : ℕ} {queue : List ℕ} (h : s.Line (n :: queue)) :
    (s.deliver n).Next n queue := by
  have hn := h.next.eq_length
  refine ⟨h.line, List.pairwise_append.mpr ⟨h.sorted, List.pairwise_singleton _ _, ?_⟩, ?_⟩
  · intro m hm m' hm'
    rw [List.mem_singleton] at hm'
    rw [hm', hn]
    exact h.below m hm
  · intro m hm
    rcases List.mem_append.mp hm with hm | hm
    · exact Nat.lt_succ_of_lt (h.below m hm)
    · rw [List.mem_singleton] at hm
      show m < s.acks.length + 1
      omega

theorem Next.congr {n : ℕ} {queue : List ℕ} (h : s.Next n queue) (hout : s'.out = s.out)
    (hreceived : s'.received = s.received) (hdelivered : s'.delivered = s.delivered) :
    s'.Next n queue := by
  have hacks : s'.acks = s.acks := by rw [acks, hout, acks]
  refine ⟨?_, ?_, ?_⟩
  · rw [hacks, hreceived]
    exact h.line
  · rw [hdelivered]
    exact h.sorted
  · rw [hacks, hdelivered]
    exact h.below

/-- **A message is acknowledged.** -/
theorem Next.send {n : ℕ} (h : s.Next n (s.queuedSteers.map Prod.fst)) (hopen : s.ended = false) :
    (s.send (.steered n)).Mid := by
  rcases send_cases s (.steered n) with ⟨hended, -⟩ | ⟨-, -, hs⟩ | ⟨-, -, hs⟩
  · exact absurd (hended.symm.trans hopen) (by simp)
  · rw [hs]
    exact Or.inr ⟨rfl, ⟨_, h.line⟩, h.sorted⟩
  · have hacks : (s.push (.steered n)).acks = s.acks ++ [n] := by
      simp [acks, push, List.filterMap_append, ack?]
    rw [hs]
    refine Or.inl ⟨hopen, ?_, h.sorted, fun m hm => ?_⟩
    · rw [hacks, List.append_assoc]
      exact h.line
    · rw [hacks, List.length_append, List.length_singleton]
      exact h.below m hm

theorem Mid.stop (h : s.Mid) (hacks : s'.acks = s.acks) (hreceived : s'.received = s.received)
    (hdelivered : s'.delivered = s.delivered) (hended : s'.ended = true) : s'.Stopped := by
  refine ⟨hended, ?_, ?_⟩
  · rw [hacks, hreceived]
    rcases h with ⟨-, h⟩ | h
    · exact ⟨_, h.line⟩
    · exact h.order
  · rw [hdelivered]
    rcases h with ⟨-, h⟩ | h
    · exact h.sorted
    · exact h.sorted

theorem Mid.breakMain (h : s.Mid) : s.breakMain.Stopped := by
  rcases h with ⟨hopen, hline⟩ | h
  swap
  · rwa [breakMain_of_ended h.ended]
  have h : s.Mid := Or.inl ⟨hopen, hline⟩
  have hpush : ∀ d, (s.push (.done d)).acks = s.acks := fun d => by
    simp [acks, push, List.filterMap_append, ack?]
  rcases breakMain_cases hopen with ⟨-, hs⟩ | ⟨-, -, -, hs⟩ | ⟨-, -, -, hs⟩ | ⟨-, -, hs⟩ <;> rw [hs]
  · exact h.stop rfl rfl rfl rfl
  · exact h.stop (hpush _) rfl rfl rfl
  · exact h.stop (hpush _) rfl rfl rfl
  · exact h.stop rfl rfl rfl rfl

theorem Mid.send (h : s.Mid) {e : Event} (he : ack? e = none) : (s.send e).Mid := by
  have hacks : (s.push e).acks = s.acks := by
    simp [acks, push, List.filterMap_append, he]
  rcases send_cases s e with ⟨-, hs⟩ | ⟨-, -, hs⟩ | ⟨hopen, -, hs⟩ <;> rw [hs]
  · exact h
  · exact Or.inr (h.stop rfl rfl rfl rfl)
  · rcases h with ⟨-, h⟩ | h
    · refine Or.inl ⟨hopen, ?_, h.sorted, ?_⟩
      · rw [hacks]
        exact h.line
      · rw [hacks]
        exact h.below
    · exact absurd (h.ended.symm.trans hopen) (by simp)

theorem Stopped.kept (h : s.Stopped) : s.Kept :=
  ⟨Or.inr h, fun hopen => absurd (hopen.symm.trans h.ended) (by simp)⟩

theorem Mid.congr (h : s.Mid) (hout : s'.out = s.out) (hreceived : s'.received = s.received)
    (hdelivered : s'.delivered = s.delivered) (hqueue : s'.queuedSteers = s.queuedSteers)
    (hended : s'.ended = s.ended) : s'.Mid := by
  rcases h with ⟨hopen, h⟩ | h
  · exact Or.inl ⟨hended.trans hopen, by rw [hqueue]; exact h.congr hout hreceived hdelivered⟩
  · exact Or.inr (Mid.stop (Or.inr h) (by rw [acks, hout, acks]) hreceived hdelivered
      (hended.trans h.ended))

/-! ## A steer as a new turn -/

theorem steerAsNewTurn_queue (s : Session) (n : ℕ) (answer : Started) :
    (s.steerAsNewTurn n answer).queuedSteers = s.queuedSteers := by
  cases answer with
  | turn id => simp [steerAsNewTurn, Session.deliver, begin]
  | goal startsTurn message =>
    cases message <;> cases startsTurn <;> simp [steerAsNewTurn, Session.deliver]
  | failed => simp [steerAsNewTurn]

/-- **It is acknowledged, and delivered unless it fails.** -/
theorem Line.steerAsNewTurn {n : ℕ} (h : s.Line (n :: s.queuedSteers.map Prod.fst))
    (hopen : s.ended = false) (answer : Started) : (s.steerAsNewTurn n answer).Mid := by
  cases answer with
  | turn id =>
    exact Next.send ((h.congr rfl rfl rfl).deliver.congr rfl rfl rfl) hopen
  | goal startsTurn message =>
    have hset : ({ s.deliver n with doneCurrent := !startsTurn, currentNative := false } :
        Session).Next n (s.queuedSteers.map Prod.fst) := h.deliver.congr rfl rfl rfl
    generalize hs₁ : ({ s.deliver n with doneCurrent := !startsTurn, currentNative := false } :
      Session) = s₁ at hset
    have hqueue : s₁.queuedSteers = s.queuedSteers := by rw [← hs₁]; rfl
    have hopen₁ : s₁.ended = false := by rw [← hs₁]; exact hopen
    have hsent : ((s₁.send .content).send (.steered n)).Mid := by
      rcases send_cases s₁ .content with ⟨hended, -⟩ | ⟨-, -, hs⟩ | ⟨-, -, hs⟩
      · exact absurd (hended.symm.trans hopen₁) (by simp)
      · rw [hs, send_of_ended rfl]
        exact Or.inr ⟨rfl, ⟨_, hset.line⟩, hset.sorted⟩
      · have hacks : (s₁.push .content).acks = s₁.acks := by
          simp [acks, push, List.filterMap_append, ack?]
        rw [hs]
        refine Next.send ⟨?_, hset.sorted, ?_⟩ hopen₁
        · rw [hacks]
          show s₁.acks ++ n :: s₁.queuedSteers.map Prod.fst = _
          rw [hqueue]
          exact hset.line
        · rw [hacks]
          exact hset.below
    unfold Session.steerAsNewTurn
    dsimp only
    rw [hs₁]
    cases message with
    | none =>
      cases startsTurn with
      | true => exact hsent
      | false => exact hsent.send rfl
    | some text =>
      cases startsTurn with
      | true => exact hsent.send rfl
      | false => exact (hsent.send rfl).send rfl
  | failed =>
    have hsent : (({ s with doneCurrent := true, currentNative := false } : Session).send
        (.steered n)).Mid := Next.send (h.next.congr rfl rfl rfl) hopen
    exact hsent.send rfl

/-- **The queue after an end.** -/
theorem Line.drain {queue : List (ℕ × String)} (h : s.Line (queue.map Prod.fst))
    (hopen : s.ended = false) {answers : List Started}
    (hs : s.drain command queue answers = some s') :
    s'.Kept ∧ (queue ≠ [] → s'.queuedSteers.length < queue.length) := by
  induction queue generalizing s answers with
  | nil =>
    cases Option.some_inj.mp hs
    exact ⟨⟨Or.inl ⟨hopen, h.congr rfl rfl rfl⟩, fun _ hne => absurd rfl hne⟩,
      fun hne => absurd rfl hne⟩
  | cons head queue ih =>
    obtain ⟨n, text⟩ := head
    cases answers with
    | nil => cases hs
    | cons answer answers =>
      have hmid := Line.steerAsNewTurn (n := n)
        (s := { s with queuedSteers := queue, currentNative := isNative command text })
        (h.congr rfl rfl rfl) hopen answer
      have hqueue := steerAsNewTurn_queue
        { s with queuedSteers := queue, currentNative := isNative command text } n answer
      unfold Session.drain at hs
      dsimp only at hs hqueue
      generalize Session.steerAsNewTurn _ n answer = s₁ at hmid hqueue hs
      split_ifs at hs with hstop
      · cases Option.some_inj.mp hs
        refine ⟨⟨hmid, fun hopen₁ _ => ?_⟩, fun _ => ?_⟩
        · exact hstop.resolve_left fun hended => absurd (hended.symm.trans hopen₁) (by simp)
        · rw [hqueue]
          exact Nat.lt_succ_self _
      · rw [not_or] at hstop
        have hopen₁ : s₁.ended = false := Bool.eq_false_iff.mpr hstop.1
        have hline : s₁.Line (queue.map Prod.fst) := by
          rcases hmid with ⟨-, hline⟩ | hstopped
          · rwa [hqueue] at hline
          · exact absurd (hstopped.ended.symm.trans hopen₁) (by simp)
        obtain ⟨hkept, hlen⟩ := ih (s := { s₁ with currentNative := false })
          (hline.congr rfl rfl rfl) hopen₁ hs
        refine ⟨hkept, fun _ => ?_⟩
        cases queue with
        | nil =>
          cases Option.some_inj.mp hs
          exact Nat.zero_lt_one
        | cons head' queue => exact Nat.lt_succ_of_lt (hlen (List.cons_ne_nil _ _))

/-! ## Ends -/

theorem noteEnd_queue (s : Session) (id : String) (status : Status) (after : Bool) :
    (s.noteEnd id status after).queuedSteers = s.queuedSteers := by
  simp [noteEnd]

theorem Mid.noteEnd (h : s.Mid) (id : String) (status : Status) (after : Bool) :
    (s.noteEnd id status after).Mid := by
  have hset : ({ s with
      router := s.router.noteCompleted id, doneCurrent := true
      doneAfterInterrupt := after } : Session).Mid := h.congr rfl rfl rfl rfl rfl
  exact hset.send rfl

theorem breakMain_ended (s : Session) : s.breakMain.ended = true := by
  unfold breakMain
  split_ifs with hended
  · exact hended
  · rfl

/-- `turn/completed`, whatever turn it names. -/
theorem Mid.completed (h : s.Mid) {id : String} {error : Bool} {answers : List Started}
    (hs : s.completed command id error answers = some s') :
    s'.Kept ∧ (s'.ended = false → s.queuedSteers ≠ [] →
      s'.queuedSteers.length < s.queuedSteers.length) := by
  unfold Session.completed at hs
  dsimp only at hs
  generalize (if s.interrupted = true then Status.interrupted
    else if error = true then Status.errored else Status.completed) = status at hs
  have hmid := h.noteEnd id status s.doneAfterInterrupt
  have hqueue := noteEnd_queue s id status s.doneAfterInterrupt
  generalize s.noteEnd id status s.doneAfterInterrupt = s₁ at hs hmid hqueue
  split_ifs at hs with hended hint
  · cases Option.some_inj.mp hs
    refine ⟨⟨hmid, fun hopen => absurd (hopen.symm.trans hended) (by simp)⟩, fun hopen => ?_⟩
    exact absurd (hopen.symm.trans hended) (by simp)
  · cases Option.some_inj.mp hs
    have hset : ({ s₁ with doneAfterInterrupt := true } : Session).Mid :=
      hmid.congr rfl rfl rfl rfl rfl
    refine ⟨hset.breakMain.kept, fun hopen => ?_⟩
    exact absurd (hopen.symm.trans (breakMain_ended _)) (by simp)
  · have hopen : s₁.ended = false := Bool.eq_false_iff.mpr hended
    have hline : s₁.Line (s₁.queuedSteers.map Prod.fst) := by
      rcases hmid with ⟨-, hline⟩ | hstopped
      · exact hline
      · exact absurd hstopped.ended hended
    obtain ⟨s₂, hdrain, rfl⟩ := Option.map_eq_some_iff.mp hs
    obtain ⟨hkept, hlen⟩ := Line.drain (s := { s₁ with currentNative := false })
      (hline.congr rfl rfl rfl) hopen hdrain
    rw [hqueue] at hlen
    split_ifs
    · refine ⟨(Mid.breakMain hkept.1).kept, fun hopen => ?_⟩
      exact absurd (hopen.symm.trans (breakMain_ended _)) (by simp)
    · exact ⟨hkept, fun _ => hlen⟩

/-! ## Steers -/

theorem Line.arrive {queue : List ℕ} (h : s.Line queue) :
    ({ s with received := s.received + 1 } : Session).Line (queue ++ [s.received]) := by
  refine ⟨?_, h.sorted, h.below⟩
  show s.acks ++ (queue ++ [s.received]) = List.range (s.received + 1)
  rw [← List.append_assoc, h.line, List.range_succ]

/-- **A message.** -/
theorem Kept.steer (h : s.Kept) (hopen : s.ended = false) {message : Message} {accepted : Bool}
    {answer : Started} (hcurrent : s.Current (.steer message accepted answer)) :
    (s.steer command message accepted answer).Kept := by
  have hline : s.Line (s.queuedSteers.map Prod.fst) := by
    rcases h.1 with ⟨-, hline⟩ | hstopped
    · exact hline
    · exact absurd (hstopped.ended.symm.trans hopen) (by simp)
  have harrive := hline.arrive
  unfold Session.steer
  dsimp only
  split_ifs with hcontrol hqueue
  · exact ⟨h.1.send rfl, by simpa using fun _ => h.2 hopen⟩
  · refine ⟨Or.inl ⟨hopen, ?_⟩, fun _ _ => hqueue.1⟩
    rw [List.map_append]
    exact harrive.congr rfl rfl rfl
  · have hempty : s.queuedSteers = [] := by
      by_contra hne
      exact hqueue ⟨h.2 hopen hne, Or.inl hne⟩
    have hnew : ({ s with received := s.received + 1 } : Session).Line
        (s.received :: s.queuedSteers.map Prod.fst) := by
      rw [hempty] at harrive ⊢
      exact harrive
    have hturn : ∀ native, ((({ s with received := s.received + 1, currentNative := native } :
        Session).steerAsNewTurn s.received answer)).Kept := fun native => by
      have hset : ({ s with received := s.received + 1, currentNative := native } : Session).Line
          (s.received :: s.queuedSteers.map Prod.fst) := hnew.congr rfl rfl rfl
      refine ⟨hset.steerAsNewTurn hopen answer, fun _ hne => ?_⟩
      rw [steerAsNewTurn_queue] at hne
      exact absurd hempty hne
    unfold Session.inject
    cases hactive : s.router.active with
    | none => exact hturn _
    | some expected =>
      dsimp only
      split_ifs with hacc hlive
      · refine ⟨Next.send hnew.deliver hopen, fun _ hne => ?_⟩
        rw [send_queuedSteers] at hne
        exact absurd hempty hne
      · refine ⟨Or.inl ⟨hopen, ?_⟩, fun _ _ => ?_⟩
        · rw [List.map_append]
          exact harrive.congr rfl rfl rfl
        · rcases hcurrent with hc | ha | hno | hdone
          · exact absurd hc hcontrol
          · exact absurd ha hacc
          · exact absurd (hactive.symm.trans hno) (by simp)
          · exact hdone
      · exact hturn _

/-! ## Runs -/

/-- **One round.** -/
theorem kept_step {a : Act} (h : s.Kept) (hg : s.Current a) (hs : s.step command a = some s') :
    s'.Kept := by
  cases a with
  | started id =>
    simp only [step] at hs
    split_ifs at hs with hended hactive <;> cases Option.some_inj.mp hs
    · have hset : (s.begin (s.router.noteStarted id)).Mid := h.1.congr rfl rfl rfl rfl rfl
      refine ⟨hset.send rfl, fun _ _ => ?_⟩
      rw [send_doneCurrent]
      rfl
    · exact ⟨h.1.congr rfl rfl rfl rfl rfl, h.2⟩
  | completed id error answers =>
    simp only [step] at hs
    split_ifs at hs
    exact (h.1.completed hs).1
  | failed id =>
    simp only [step] at hs
    split_ifs at hs <;> cases Option.some_inj.mp hs
    · exact (Mid.breakMain (h.1.noteEnd id _ _)).kept
    · exact (Mid.breakMain (h.1.noteEnd id _ _)).kept
  | aborted id =>
    simp only [step] at hs
    split_ifs at hs
    cases Option.some_inj.mp hs
    exact (Mid.breakMain (h.1.noteEnd id _ _)).kept
  | content =>
    simp only [step] at hs
    split_ifs at hs with hended
    cases Option.some_inj.mp hs
    exact ⟨h.1.send rfl, by simpa using fun _ => h.2 (Bool.eq_false_iff.mpr hended)⟩
  | steer message accepted answer =>
    simp only [step] at hs
    split_ifs at hs with hno
    cases Option.some_inj.mp hs
    exact h.steer (Bool.eq_false_iff.mpr fun hended => hno (Or.inl hended)) hg
  | mailboxClosed =>
    simp only [step] at hs
    have hset : ({ s with steeringOpen := false } : Session).Mid := h.1.congr rfl rfl rfl rfl rfl
    split_ifs at hs <;> cases Option.some_inj.mp hs
    · exact hset.breakMain.kept
    · exact ⟨hset, h.2⟩
  | interrupt =>
    simp only [step] at hs
    have hset : ({ s with interruptSent := true, interrupted := true } : Session).Mid :=
      h.1.congr rfl rfl rfl rfl rfl
    split_ifs at hs <;> cases Option.some_inj.mp hs
    · exact hset.breakMain.kept
    · exact ⟨hset, h.2⟩
  | eof =>
    simp only [step] at hs
    split_ifs at hs
    cases Option.some_inj.mp hs
    exact (Mid.breakMain h.1).kept
  | hungUp =>
    simp only [step] at hs
    split_ifs at hs
    cases Option.some_inj.mp hs
    exact (Mid.breakMain h.1).kept

theorem kept_start (command : String → Command) (prompt : String) (takes : Option ℕ)
    (answer : Started) : (start command prompt takes answer).Kept := by
  have h : (new takes).Mid := by
    refine Or.inl ⟨rfl, ?_, ?_, ?_⟩ <;> simp [new, acks]
  have hqueue : (start command prompt takes answer).queuedSteers = [] := by
    cases answer with
    | turn id => rfl
    | goal startsTurn message => cases message <;> cases startsTurn <;> simp [start, new]
    | failed =>
      obtain ⟨_, _, _, hs⟩ := breakMain_same
        (({ new takes with doneCurrent := true } : Session).send
          (settle { new takes with doneCurrent := true } .errored none))
      simp only [start, hs, send_queuedSteers]
      rfl
  refine ⟨?_, fun _ hne => absurd hqueue hne⟩
  cases answer with
  | turn id => exact h.congr rfl rfl rfl rfl rfl
  | goal startsTurn message =>
    have hset : ({ new takes with doneCurrent := !startsTurn } : Session).Mid :=
      h.congr rfl rfl rfl rfl rfl
    have hsent := hset.send (e := .content) rfl
    unfold start
    dsimp only
    cases message with
    | none =>
      cases startsTurn with
      | true => exact hsent
      | false => exact hsent.send rfl
    | some text =>
      cases startsTurn with
      | true => exact hsent.send rfl
      | false => exact (hsent.send rfl).send rfl
  | failed =>
    have hset : ({ new takes with doneCurrent := true } : Session).Mid :=
      h.congr rfl rfl rfl rfl rfl
    have hsent := hset.send (e := settle { new takes with doneCurrent := true } .errored none) rfl
    exact Or.inr (Mid.breakMain hsent)

theorem Kept.inOrder (h : s.Kept) : s.InOrder command := by
  have horder : s.acks <+: List.range s.received := by
    rcases h.1 with ⟨-, hline⟩ | hstopped
    · exact ⟨_, hline.line⟩
    · exact hstopped.order
  have hlen : s.acks.length ≤ s.received := by simpa using horder.length_le
  have hsorted : s.delivered.Pairwise (· < ·) := by
    rcases h.1 with ⟨-, hline⟩ | hstopped
    · exact hline.sorted
    · exact hstopped.sorted
  refine ⟨?_, hlen, hsorted.imp fun hlt => Nat.ne_of_lt hlt, fun hopen hne => ⟨h.2 hopen hne, ?_⟩⟩
  · rw [List.prefix_iff_eq_take.mp horder, List.take_range, List.length_range, Nat.min_eq_left hlen]
  · exact fun id error answers s' hs hopen' => (h.1.completed hs).2 hopen' hne

/-- **Steers are acknowledged in order and never parked**, in every run in which no steer is
rejected by a turn that the loop holds for done. -/
theorem steers_in_order (command : String → Command) (prompt : String) (takes : Option ℕ)
    (answer : Started) {acts : List Act}
    (hg : Guarded (step command) Current (start command prompt takes answer) acts) {s : Session}
    (he : exec (step command) (start command prompt takes answer) acts = some s) :
    s.InOrder command :=
  (exec_invariant (fun _ _ _ h hg hs => kept_step h hg hs) (kept_start command prompt takes answer)
    hg he).inOrder

/-- The first turn rejects a steer, which waits with the next one for its end; the third is
injected. -/
def queuedTwice : List Act :=
  [.steer (.say "a") false .failed, .steer (.say "b") true .failed,
    .completed "t1" false [.turn "t2"], .completed "t2" false [.turn "t3"],
    .steer (.say "c") true .failed]

theorem steers_in_order_queued : ∃ s,
    exec (step noCommand) (start noCommand "hello" none (.turn "t1")) queuedTwice = some s ∧
      s.acks = [0, 1, 2] ∧ s.delivered = [0, 1, 2] ∧ s.InOrder noCommand := by
  have hg : Guarded (step noCommand) Current (start noCommand "hello" none (.turn "t1"))
      queuedTwice := guarded_of_checks (by decide)
  exact ⟨_, rfl, by decide, by decide, steers_in_order noCommand _ _ _ hg rfl⟩

/-! ## A turn held for done -/

/-- The end of the first turn comes after the second has started; the second rejects a steer and
takes the one after it. -/
def overtaken : List Act :=
  [.started "t1", .started "t2", .completed "t1" false [], .steer (.say "a") false .failed,
    .steer (.say "b") true .failed]

/-- **The later message is acknowledged first.** -/
theorem steer_overtakes : ∃ s,
    exec (step noCommand) (start noCommand "hello" none (.turn "t1")) overtaken = some s ∧
      s.ended = false ∧ s.router.active = some "t2" ∧ s.queuedSteers = [(0, "a")] ∧
      s.acks = [1] ∧ ¬ s.InOrder noCommand := by
  refine ⟨_, rfl, by decide, by decide, by decide, by decide, fun h => ?_⟩
  exact absurd h.order (by decide)

end Session

end Zeron.Agent.Codex
