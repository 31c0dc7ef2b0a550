import Zeron.Agent.Acp

/-!
# Steers of an ACP session

A steer is injected into the turn in flight, or becomes a prompt (`harness/src/acp/mod.rs`). In
between it is queued, is in a `_session/steering` call, or waits behind one. Whoever reads the
stream takes the next `Steered` for the oldest message that has none.

* `pending`, `injected`, `promptFor`: the steers that wait; the text a `Steered` stands for;
* `Ledger`: the session beside its steers, those acknowledged and those the agent accepted;
* `Round`: what one step does to the line of the steers; `Mail`: what the line waits for;
* **`steers_in_line`**; `injection_overtakes`: an injection passes a steer that was pushed back.
-/

namespace Zeron.Agent.Acp

open Run

namespace Session

variable (c : Config) (s : Session)

/-! ## The line -/

/-- The steers that wait, the oldest first. -/
def pending : List String := s.queuedSteers ++ s.steeringCall.toList ++ s.steerBacklog

/-- The `Steered` events so far. -/
def acks : ℕ := s.out.count .steered

/-- The steering call that ends. -/
def calledBy : Act → Option String
  | .settle _ | .steered _ => s.steeringCall
  | _ => none

/-- The call is answered with an injection. -/
def injectedBy : Act → Option String
  | .settle .injected | .steered .injected => s.steeringCall
  | _ => none

/-- The text of a prompt that is sent. -/
def promptFor : Act → Option String
  | .steer text _ => some text
  | .steered _ => s.steeringCall
  | .settle reply => (s.settleSteering reply).queuedSteers.head?
  | .flush | .starved => s.queuedSteers.head?
  | _ => none

def arrival : Act → Option String
  | .steer text _ => some text
  | _ => none

variable (s' : Session) (a : Act)

/-- The text of the prompt that was sent, if one was. -/
def prompted : Option String := if s'.promptSeq = s.promptSeq then none else s.promptFor a

/-- What the `Steered` events of the step stand for. -/
def texts : List String := (s.injectedBy a).toList ++ (s.prompted s' a).toList

end Session

/-- A session with the steers it was sent, those acknowledged, and those the agent accepted. -/
structure Ledger where
  session : Session
  sent : List String
  acked : List String
  accepted : List String

namespace Ledger

/-- A step; `took`: the agent has accepted the call that ends. -/
def step (c : Config) (l : Ledger) (act : Act × Bool) : Option Ledger :=
  (l.session.step c act.1).map fun s' =>
    { session := s'
      sent := l.sent ++ (Session.arrival act.1).toList
      acked := l.acked ++ (l.session.texts s' act.1).take (s'.acks - l.session.acks)
      accepted := l.accepted ++ (if act.2 then l.session.calledBy act.1 else none).toList ++
        (l.session.prompted s' act.1).toList }

def start (c : Config) (takes : Option ℕ) : Ledger :=
  { session := Session.start c takes, sent := [], acked := [], accepted := [] }

variable (l : Ledger)

/-- The n-th `Steered` is for the n-th steer, no steer is accepted twice, all are acknowledged and
accepted but those that wait, and these wait for something. -/
structure InLine : Prop where
  count : l.acked.length = l.session.acks
  order : l.acked <+: l.sent
  once : l.accepted <+: l.sent
  line : l.session.ended = false → l.acked ++ l.session.pending = l.sent ∧ l.accepted = l.acked
  waits : l.session.ended = false → l.session.queuedSteers ++ l.session.steerBacklog ≠ [] →
    l.session.turn ≠ none ∨ l.session.steeringCall ≠ none ∨ l.session.cancelFlushDeadline = true

/-- An injection finds no steer pushed back, and the agent has accepted just what it says it has
injected. -/
def Answered (reply : Reply) (took : Bool) : Prop :=
  l.session.steeringCall ≠ none →
    (reply = .injected → l.session.queuedSteers = []) ∧ took = decide (reply = .injected)

/-- No interrupt fires, and the replies are as above. -/
def Upright (act : Act × Bool) : Prop :=
  match act.1 with
  | .interrupt _ => False
  | .settle reply | .steered reply => l.Answered reply act.2
  | .read _ | .next | .eof | .flush | .starved | .steer _ _ | .mailboxClosed | .stalled
  | .escalate | .childExit | .exitDrained | .hungUp => True

instance (reply : Reply) (took : Bool) : Decidable (l.Answered reply took) :=
  inferInstanceAs (Decidable (_ → _))

instance (act : Act × Bool) : Decidable (l.Upright act) :=
  match act with
  | (.interrupt _, _) => isFalse id
  | (.settle reply, took) | (.steered reply, took) =>
    inferInstanceAs (Decidable (l.Answered reply took))
  | (.read _, _) | (.next, _) | (.eof, _) | (.flush, _) | (.starved, _) | (.steer _ _, _)
  | (.mailboxClosed, _) | (.stalled, _) | (.escalate, _) | (.childExit, _) | (.exitDrained, _)
  | (.hungUp, _) => isTrue trivial

end Ledger

/-! ## What a step leaves alone -/

namespace Session

variable {c : Config} {s s' : Session}

/-- The line, and what it waits for, are left alone; the stream may have ended. -/
structure Quiet (s s' : Session) : Prop where
  queue : s'.queuedSteers = s.queuedSteers
  call : s'.steeringCall = s.steeringCall
  backlog : s'.steerBacklog = s.steerBacklog
  turn : s'.turn = none ↔ s.turn = none
  flush : s'.cancelFlushDeadline = s.cancelFlushDeadline
  starve : s'.starveDeadline = s.starveDeadline
  calm : s'.interrupted = s.interrupted
  escalation : s'.escalation = none ↔ s.escalation = none
  prompts : s'.promptSeq = s.promptSeq
  acks : s'.acks = s.acks
  ended : s.ended = true → s'.ended = true

theorem Quiet.refl (s : Session) : Quiet s s :=
  ⟨rfl, rfl, rfl, Iff.rfl, rfl, rfl, rfl, Iff.rfl, rfl, rfl, id⟩

theorem Quiet.trans {s₁ s₂ s₃ : Session} (h : Quiet s₁ s₂) (h' : Quiet s₂ s₃) : Quiet s₁ s₃ where
  queue := h'.queue.trans h.queue
  call := h'.call.trans h.call
  backlog := h'.backlog.trans h.backlog
  turn := h'.turn.trans h.turn
  flush := h'.flush.trans h.flush
  starve := h'.starve.trans h.starve
  calm := h'.calm.trans h.calm
  escalation := h'.escalation.trans h.escalation
  prompts := h'.prompts.trans h.prompts
  acks := h'.acks.trans h.acks
  ended := h'.ended ∘ h.ended

theorem acks_push (s : Session) (e : Event) :
    (s.push e).acks = s.acks + if e = .steered then 1 else 0 := by
  simp only [acks, push, List.count_append, List.count_singleton, beq_iff_eq]

theorem quiet_push {e : Event} (he : e ≠ .steered) : Quiet s (s.push e) :=
  ⟨rfl, rfl, rfl, Iff.rfl, rfl, rfl, rfl, Iff.rfl, rfl, by simp [acks_push, he], id⟩

theorem quiet_over : Quiet s { s with ended := true } :=
  ⟨rfl, rfl, rfl, Iff.rfl, rfl, rfl, rfl, Iff.rfl, rfl, rfl, fun _ => rfl⟩

theorem quiet_send {e : Event} (he : e ≠ .steered) : Quiet s (s.send e) := by
  rcases send_cases s e with ⟨-, hs⟩ | ⟨-, -, hs⟩ | ⟨-, -, hs⟩ <;> rw [hs]
  · exact Quiet.refl s
  · exact quiet_over
  · exact quiet_push he

theorem quiet_breakMain : Quiet s s.breakMain := by
  cases hended : s.ended with
  | true =>
    rw [breakMain_of_ended hended]
    exact Quiet.refl s
  | false =>
    rcases breakMain_cases hended with ⟨-, hs⟩ | ⟨-, -, hs⟩ | ⟨-, -, hs⟩ | ⟨-, -, hs⟩ <;> rw [hs]
    · exact quiet_over
    · exact (quiet_push (by simp [settled])).trans quiet_over
    · exact (quiet_push (by simp [settled])).trans quiet_over
    · exact quiet_over

theorem breakMain_ended (s : Session) : s.breakMain.ended = true := by
  unfold breakMain
  split_ifs with h
  · exact h
  · rfl

theorem quiet_emit (inc : Incoming) : Quiet s (s.emit inc) := by
  cases inc with
  | update boilerplate => exact quiet_send (by simp)
  | complete completion => exact Quiet.refl s
  | request asks =>
    cases asks with
    | true => exact quiet_send (by simp)
    | false => exact Quiet.refl s

theorem quiet_drain : Quiet s s.drain := by
  have hfold : ∀ (l : List Incoming) (s : Session),
      Quiet s (l.foldl (fun s inc => s.emit inc) s) := by
    intro l
    induction l with
    | nil => exact Quiet.refl
    | cons inc l ih => exact fun s => (quiet_emit inc).trans (ih _)
  have hempty : Quiet s { s with incoming := [] } :=
    ⟨rfl, rfl, rfl, Iff.rfl, rfl, rfl, rfl, Iff.rfl, rfl, rfl, id⟩
  exact hempty.trans (hfold _ _)

theorem quiet_close (status : Status) (prompt : ℕ) (cause : Cause) :
    Quiet s (s.close status prompt cause) := by
  have hflags : ∀ s : Session, Quiet s { s with
      doneCurrent := true, doneAfterInterrupt := s.interrupted || s.doneAfterInterrupt } :=
    fun s => ⟨rfl, rfl, rfl, Iff.rfl, rfl, rfl, rfl, Iff.rfl, rfl, rfl, id⟩
  exact ((quiet_send (by simp)).trans (hflags _)).trans (quiet_send (by simp [settled]))

theorem quiet_complete (completion : Completion) : Quiet s (s.complete c completion) := by
  unfold complete
  extract_lets pid stale
  split
  · exact ⟨rfl, rfl, rfl, by simp, rfl, rfl, rfl, Iff.rfl, rfl, rfl, id⟩
  · exact Quiet.refl s

theorem quiet_next (inc : Incoming) (rest : List Incoming) :
    Quiet s ({ s with incoming := rest }.next c inc) := by
  have hflags : ∀ stall : Bool,
      Quiet s { s with incoming := rest, promptStallDeadline := stall } :=
    fun stall => ⟨rfl, rfl, rfl, Iff.rfl, rfl, rfl, rfl, Iff.rfl, rfl, rfl, id⟩
  cases inc with
  | update boilerplate => exact (hflags _).trans (quiet_send (by simp))
  | complete completion => exact (hflags _).trans (quiet_complete completion)
  | request asks => exact (hflags false).trans (quiet_emit (.request asks))

theorem quiet_read (line : Line) : Quiet s (s.read line) := by
  cases line with
  | response prompt res =>
    simp only [read]
    split_ifs
    · exact ⟨rfl, rfl, rfl, Iff.rfl, rfl, rfl, rfl, Iff.rfl, rfl, rfl, id⟩
    · exact Quiet.refl s
  | _ => exact ⟨rfl, rfl, rfl, Iff.rfl, rfl, rfl, rfl, Iff.rfl, rfl, rfl, id⟩

/-! ## A prompt is sent -/

/-- A prompt was sent, with its `Steered`. -/
structure Sent (s s' : Session) : Prop where
  queue : s'.queuedSteers = s.queuedSteers
  call : s'.steeringCall = s.steeringCall
  backlog : s'.steerBacklog = s.steerBacklog
  turn : s'.turn ≠ none
  starve : s'.starveDeadline = s.starveDeadline
  calm : s'.interrupted = s.interrupted
  escalation : s'.escalation = s.escalation
  prompts : s'.promptSeq = s.promptSeq + 1
  acks : s'.acks = s.acks + 1

theorem prompt_cases (hopen : s.ended = false) :
    Quiet s (s.prompt c) ∧ (s.prompt c).ended = true ∨ Sent s (s.prompt c) := by
  have hne : ¬ s.ended = true := by simp [hopen]
  rcases send_cases s .steered with ⟨hended, -⟩ | ⟨-, -, hs⟩ | ⟨-, -, hs⟩
  · exact absurd hended hne
  · left
    simp only [prompt, hs, if_true]
    exact ⟨quiet_over, trivial⟩
  · right
    have hpush : ¬ (s.push .steered).ended = true := hne
    simp only [prompt, hs, if_neg hpush]
    exact ⟨rfl, rfl, rfl, by simp, rfl, rfl, rfl, rfl, acks_push s .steered⟩

theorem promote_cases (hopen : s.ended = false) :
    s.queuedSteers = [] ∧ Quiet s (s.promote c) ∨
      ∃ text rest, s.queuedSteers = text :: rest ∧
        (Quiet { s with queuedSteers := rest } (s.promote c) ∧ (s.promote c).ended = true ∨
          Sent { s with queuedSteers := rest } (s.promote c)) := by
  have hne : ¬ s.ended = true := by simp [hopen]
  cases hqueue : s.queuedSteers with
  | nil =>
    left
    refine ⟨rfl, ?_⟩
    simp only [promote, if_neg hne, hqueue]
    split_ifs
    · exact Quiet.refl s
    · exact quiet_breakMain
  | cons text rest =>
    right
    have hpromote : s.promote c = { s with queuedSteers := rest }.prompt c := by
      simp only [promote, if_neg hne, hqueue]
    rw [hpromote]
    exact ⟨text, rest, rfl, prompt_cases hopen⟩

/-! ## Rounds -/

/-- A call is in flight only beside a turn, followers wait only behind a call, and what is queued
waits for a turn or the flush. -/
structure Mail (c : Config) (s : Session) : Prop where
  ext : c.steerExt = false → s.steeringCall = none
  call : s.turn = none → s.steeringCall = none
  backlog : s.steeringCall = none → s.steerBacklog = []
  starve : s.starveDeadline = true → s.queuedSteers ≠ [] ∧ s.turn ≠ none
  queue : s.turn = none → s.queuedSteers ≠ [] → s.cancelFlushDeadline = true
  calm : s.interrupted = false
  escalation : s.escalation = none

/-- The texts of the step's `Steered` events leave the front of the line. -/
structure Round (c : Config) (s : Session) (a : Act) (s' : Session) : Prop where
  grows : s.acks ≤ s'.acks ∧ s'.acks ≤ s.acks + (s.texts s' a).length
  front : s.texts s' a <+: s.pending ++ (arrival a).toList
  line : s'.ended = false → s'.acks = s.acks + (s.texts s' a).length ∧
    s.texts s' a ++ s'.pending = s.pending ++ (arrival a).toList ∧ s'.Mail c

theorem Mail.quiet (h : s.Mail c) (hq : Quiet s s') : s'.Mail c where
  ext := by
    rw [hq.call]
    exact h.ext
  call := by
    rw [hq.turn, hq.call]
    exact h.call
  backlog := by
    rw [hq.call, hq.backlog]
    exact h.backlog
  starve hs := by
    rw [hq.starve] at hs
    exact ⟨hq.queue ▸ (h.starve hs).1, mt hq.turn.mp (h.starve hs).2⟩
  queue := by
    rw [hq.turn, hq.queue, hq.flush]
    exact h.queue
  calm := hq.calm.trans h.calm
  escalation := hq.escalation.mpr h.escalation

theorem Quiet.pending_eq (h : Quiet s s') : s'.pending = s.pending := by
  rw [pending, h.queue, h.call, h.backlog, pending]

variable {a : Act}

theorem texts_of_same (hseq : s'.promptSeq = s.promptSeq) :
    s.texts s' a = (s.injectedBy a).toList := by
  simp [texts, prompted, hseq]

theorem Mail.round_quiet (h : s.Mail c) (hq : Quiet s s') (harrival : arrival a = none)
    (hinjected : s.injectedBy a = none) : Round c s a s' := by
  have htexts : s.texts s' a = [] := by rw [texts_of_same hq.prompts, hinjected]; rfl
  refine ⟨?_, ?_, fun _ => ⟨?_, ?_, h.quiet hq⟩⟩
  · rw [htexts, hq.acks]
    exact ⟨le_rfl, le_rfl⟩
  · rw [htexts]
    exact List.nil_prefix
  · rw [htexts, hq.acks]
    rfl
  · rw [htexts, hq.pending_eq, harrival, Option.toList_none, List.append_nil, List.nil_append]

theorem round_over (hended : s'.ended = true) (hseq : s'.promptSeq = s.promptSeq)
    (hacks : s.acks ≤ s'.acks ∧ s'.acks ≤ s.acks + (s.injectedBy a).toList.length)
    (hfront : (s.injectedBy a).toList <+: s.pending ++ (arrival a).toList) : Round c s a s' := by
  have htexts := texts_of_same (a := a) hseq
  refine ⟨htexts ▸ hacks, htexts ▸ hfront, fun hopen => ?_⟩
  simp [hended] at hopen

theorem round_sent {u : Session} (hsent : Sent u s') {text : String}
    (hfor : s.promptFor a = some text) (hseq : u.promptSeq = s.promptSeq)
    (hacks : u.acks = s.acks + (s.injectedBy a).toList.length)
    (hline : (s.injectedBy a).toList ++ text :: u.pending = s.pending ++ (arrival a).toList)
    (hext : c.steerExt = false → u.steeringCall = none)
    (hbacklog : u.steeringCall = none → u.steerBacklog = []) (hstarve : u.starveDeadline = false)
    (hcalm : u.interrupted = false) (hesc : u.escalation = none) : Round c s a s' := by
  have htexts : s.texts s' a = (s.injectedBy a).toList ++ [text] := by
    have hne : s'.promptSeq ≠ s.promptSeq := by
      have := hsent.prompts
      omega
    simp [texts, prompted, hne, hfor]
  have hpending : s'.pending = u.pending := by
    rw [pending, hsent.queue, hsent.call, hsent.backlog, pending]
  have hlen : s'.acks = s.acks + (s.texts s' a).length := by
    rw [hsent.acks, hacks, htexts, List.length_append, List.length_singleton]
    omega
  have hall : s.texts s' a ++ s'.pending = s.pending ++ (arrival a).toList := by
    rw [htexts, hpending, List.append_assoc]
    exact hline
  refine ⟨by omega, ⟨_, hall⟩, fun _ => ⟨hlen, hall, ?_⟩⟩
  refine ⟨?_, fun hturn => absurd hturn hsent.turn, ?_, ?_, fun hturn => absurd hturn hsent.turn,
    ?_, ?_⟩
  · rw [hsent.call]
    exact hext
  · rw [hsent.call, hsent.backlog]
    exact hbacklog
  · rw [hsent.starve, hstarve]
    simp
  · exact hsent.calm.trans hcalm
  · exact hsent.escalation.trans hesc

/-- **The front of the queue is promoted.** -/
theorem round_promote {u : Session} (hopen : u.ended = false)
    (hfor : s.promptFor a = u.queuedSteers.head?) (hseq : u.promptSeq = s.promptSeq)
    (hacks : u.acks = s.acks + (s.injectedBy a).toList.length)
    (hline : (s.injectedBy a).toList ++ u.pending = s.pending ++ (arrival a).toList)
    (hext : c.steerExt = false → u.steeringCall = none)
    (hbacklog : u.steeringCall = none → u.steerBacklog = [])
    (hidle : u.queuedSteers = [] → u.steeringCall = none)
    (hstarve : u.starveDeadline = false) (hcalm : u.interrupted = false)
    (hesc : u.escalation = none) : Round c s a (u.promote c) := by
  rcases promote_cases (c := c) hopen with ⟨hempty, hq⟩ | ⟨text, rest, hqueue, hrest⟩
  · have hu : u.Mail c := ⟨hext, fun _ => hidle hempty, hbacklog, by simp [hstarve],
      by simp [hempty], hcalm,
      hesc⟩
    have htexts := texts_of_same (a := a) (hq.prompts.trans hseq)
    refine ⟨?_, ?_, fun _ => ⟨?_, ?_, hu.quiet hq⟩⟩
    · rw [htexts, hq.acks, hacks]
      omega
    · rw [htexts]
      exact ⟨_, hline⟩
    · rw [htexts, hq.acks, hacks]
    · rw [htexts, hq.pending_eq]
      exact hline
  · have hpending : u.pending = text :: ({ u with queuedSteers := rest } : Session).pending := by
      simp [pending, hqueue]
    rw [hpending] at hline
    rw [hqueue, List.head?_cons] at hfor
    rcases hrest with ⟨hq, hended⟩ | hsent
    · have htexts := texts_of_same (a := a) (hq.prompts.trans hseq)
      refine ⟨?_, ?_, fun hopen' => ?_⟩
      · rw [htexts, hq.acks]
        exact ⟨hacks ▸ Nat.le_add_right _ _, le_of_eq hacks⟩
      · rw [htexts]
        exact ⟨_, hline⟩
      · simp [hended] at hopen'
    · exact round_sent hsent hfor hseq hacks hline hext hbacklog hstarve hcalm hesc

theorem send_queued (s : Session) (e : Event) : (s.send e).queuedSteers = s.queuedSteers := by
  obtain ⟨out, takes, ended, hs⟩ := send_same s e
  rw [hs]

theorem send_backlog (s : Session) (e : Event) : (s.send e).steerBacklog = s.steerBacklog := by
  obtain ⟨out, takes, ended, hs⟩ := send_same s e
  rw [hs]

theorem settleSteering_none (hcall : s.steeringCall = none) (reply : Reply) :
    s.settleSteering reply = s := by
  unfold settleSteering
  rw [hcall]

theorem settleSteering_injected {text : String} (hcall : s.steeringCall = some text)
    (hcalm : s.interrupted = false) :
    s.settleSteering .injected =
      { { s with steeringCall := none }.send .steered with
        queuedSteers := s.queuedSteers ++ s.steerBacklog, steerBacklog := [] } := by
  have hne : ¬ s.interrupted = true := by simp [hcalm]
  obtain ⟨out, takes, ended, hs⟩ := send_same { s with steeringCall := none } .steered
  unfold settleSteering
  rw [hcall]
  dsimp only
  rw [if_neg hne, if_pos rfl, hs]

theorem settleSteering_back {text : String} (hcall : s.steeringCall = some text)
    (hcalm : s.interrupted = false) {reply : Reply} (hreply : reply ≠ .injected) :
    s.settleSteering reply =
      { s with
        steeringCall := none
        queuedSteers := s.queuedSteers ++ [text] ++ s.steerBacklog, steerBacklog := [] } := by
  have hne : ¬ s.interrupted = true := by simp [hcalm]
  unfold settleSteering
  rw [hcall]
  dsimp only
  rw [if_neg hne, if_neg hreply]

theorem injectedBy_none {reply : Reply} (h : s.steeringCall = none ∨ reply ≠ .injected) :
    s.injectedBy (.settle reply) = none ∧ s.injectedBy (.steered reply) = none := by
  cases reply with
  | injected => exact ⟨h.resolve_right (by simp), h.resolve_right (by simp)⟩
  | _ => exact ⟨rfl, rfl⟩

/-- A call that is in flight as the prompt's future resolves: what was injected, and what is queued
now. -/
theorem settleSteering_line (hcalm : s.interrupted = false)
    (hbacklog : s.steeringCall = none → s.steerBacklog = []) {reply : Reply}
    (hfree : s.steeringCall ≠ none → reply = .injected → s.queuedSteers = []) :
    (s.injectedBy (.settle reply)).toList ++ (s.settleSteering reply).queuedSteers = s.pending := by
  cases hcall : s.steeringCall with
  | none =>
    rw [settleSteering_none hcall, (injectedBy_none (Or.inl hcall)).1]
    simp [pending, hcall, hbacklog hcall]
  | some text =>
    by_cases hreply : reply = .injected
    · subst hreply
      rw [settleSteering_injected hcall hcalm]
      simp [injectedBy, pending, hcall, hfree (by simp [hcall]) rfl]
    · rw [settleSteering_back hcall hcalm hreply, (injectedBy_none (Or.inr hreply)).1]
      simp [pending, hcall]

/-- The loop after the call is settled. -/
structure Freed (s u : Session) (injected : ℕ) : Prop where
  call : u.steeringCall = none
  backlog : u.steerBacklog = []
  turn : u.turn = s.turn
  flush : u.cancelFlushDeadline = s.cancelFlushDeadline
  starve : u.starveDeadline = s.starveDeadline
  calm : u.interrupted = s.interrupted
  escalation : u.escalation = s.escalation
  prompts : u.promptSeq = s.promptSeq
  acks : u.acks = s.acks + injected ∨ u.ended = true ∧ u.acks = s.acks

theorem settleSteering_freed (hcalm : s.interrupted = false)
    (hbacklog : s.steeringCall = none → s.steerBacklog = []) (hopen : s.ended = false)
    (reply : Reply) :
    Freed s (s.settleSteering reply) (s.injectedBy (.settle reply)).toList.length := by
  cases hcall : s.steeringCall with
  | none =>
    rw [settleSteering_none hcall, (injectedBy_none (Or.inl hcall)).1]
    exact ⟨hcall, hbacklog hcall, rfl, rfl, rfl, rfl, rfl, rfl, Or.inl rfl⟩
  | some text =>
    by_cases hreply : reply = .injected
    · subst hreply
      rw [settleSteering_injected hcall hcalm]
      have hlen : (s.injectedBy (.settle .injected)).toList.length = 1 := by
        simp [injectedBy, hcall]
      rw [hlen]
      rcases send_cases { s with steeringCall := none } .steered with
        ⟨hended, -⟩ | ⟨-, -, hs⟩ | ⟨-, -, hs⟩
      · exact absurd (hended.symm.trans hopen) (by simp)
      · rw [hs]
        exact ⟨rfl, rfl, rfl, rfl, rfl, rfl, rfl, rfl, Or.inr ⟨rfl, rfl⟩⟩
      · rw [hs]
        exact ⟨rfl, rfl, rfl, rfl, rfl, rfl, rfl, rfl, Or.inl (acks_push s .steered)⟩
    · rw [settleSteering_back hcall hcalm hreply, (injectedBy_none (Or.inr hreply)).1]
      exact ⟨rfl, rfl, rfl, rfl, rfl, rfl, rfl, rfl, Or.inl rfl⟩

theorem forget_queue (s : Session) (reply : Reply) :
    (s.forget.settleSteering reply).queuedSteers = (s.settleSteering reply).queuedSteers := by
  unfold settleSteering
  have hcall : s.forget.steeringCall = s.steeringCall := rfl
  rw [hcall]
  cases s.steeringCall with
  | none => rfl
  | some text =>
    have hcalm : s.forget.interrupted = s.interrupted := rfl
    dsimp only
    rw [hcalm]
    split_ifs
    · rfl
    · simp only [send_queued, send_backlog]
      rfl
    · rfl

/-- The prompt's future resolves. -/
theorem Mail.round_settle (h : s.Mail c) (hopen : s.ended = false) {reply : Reply}
    (hfree : s.steeringCall ≠ none → reply = .injected → s.queuedSteers = [])
    (hs : s.settle c reply = some s') : Round c s (.settle reply) s' := by
  have hline := settleSteering_line h.calm h.backlog hfree
  have hfront : (s.injectedBy (.settle reply)).toList <+: s.pending ++ [] := by
    rw [List.append_nil]
    exact ⟨_, hline⟩
  have hfreed : Freed s.forget (s.forget.settleSteering reply)
    (s.injectedBy (.settle reply)).toList.length :=
    settleSteering_freed (s := s.forget) h.calm h.backlog hopen reply
  simp only [settle, Option.bind_eq_bind, Option.bind_eq_some_iff] at hs
  obtain ⟨turn, hturn, ⟨res, cause⟩, hres, hs⟩ := hs
  have hq := (quiet_drain (s := s.forget.settleSteering reply)).trans
    (quiet_close (stopOutcome res (s.forget.settleSteering reply).drain.interrupted) turn.prompt
      cause)
  revert hs hq
  generalize (s.forget.settleSteering reply).drain.close
    (stopOutcome res (s.forget.settleSteering reply).drain.interrupted) turn.prompt cause = u
  intro hs hq
  have hseq : u.promptSeq = s.promptSeq := hq.prompts.trans hfreed.prompts
  have hacks : u.acks = s.acks + (s.injectedBy (.settle reply)).toList.length ∨
      u.ended = true ∧ u.acks = s.acks := by
    rw [hq.acks]
    exact hfreed.acks.imp id fun hover => ⟨hq.ended hover.1, hover.2⟩
  have hbounds : s.acks ≤ u.acks ∧
      u.acks ≤ s.acks + (s.injectedBy (.settle reply)).toList.length := by
    omega
  split_ifs at hs with hclosed hend
  · obtain rfl := Option.some_inj.mp hs
    have hq := quiet_breakMain (s := { s with turn := none })
    refine round_over (breakMain_ended _) hq.prompts ?_ hfront
    rw [hq.acks]
    exact ⟨le_rfl, Nat.le_add_right _ _⟩
  · obtain rfl := Option.some_inj.mp hs
    have hq' := quiet_breakMain (s := u)
    exact round_over (breakMain_ended _) (hq'.prompts.trans hseq) (hq'.acks ▸ hbounds) hfront
  · obtain rfl := Option.some_inj.mp hs
    cases hended : u.ended with
    | true =>
      have hsame : u.promote c = u := by simp [promote, hended]
      rw [hsame]
      exact round_over hended hseq hbounds hfront
    | false =>
      have hqueue : u.queuedSteers = (s.settleSteering reply).queuedSteers :=
        hq.queue.trans (forget_queue s reply)
      have hcall := hq.call.trans hfreed.call
      have hbacklog := hq.backlog.trans hfreed.backlog
      refine round_promote hended (congrArg List.head? hqueue.symm) hseq
        (hacks.resolve_right fun hover => by simp [hended] at hover) ?_ (fun _ => hcall)
        (fun _ => hbacklog)
        (fun _ => hcall) (hq.starve.trans hfreed.starve) ((hq.calm.trans hfreed.calm).trans h.calm)
        ?_
      · simp only [pending, hqueue, hcall, hbacklog, arrival, Option.toList_none, List.append_nil]
          at hline ⊢
        exact hline
      · exact hq.escalation.mpr (hfreed.escalation.trans h.escalation)

theorem followers_cases (s : Session) (hturn : s.turn ≠ none) (hcalm : s.interrupted = false) :
    s.steerBacklog = [] ∧ s.followers = s ∨ ∃ text rest, s.steerBacklog = text :: rest ∧
      s.followers = { s with steeringCall := some text, steerBacklog := rest } := by
  unfold followers
  cases hbacklog : s.steerBacklog with
  | nil => exact Or.inl ⟨rfl, rfl⟩
  | cons text rest => exact Or.inr ⟨text, rest, rfl, if_pos ⟨hturn, hcalm⟩⟩

/-- The next follower is called. -/
theorem round_followers {u : Session} (hturn : u.turn ≠ none) (hcall : u.steeringCall = none)
    (hext : c.steerExt = true) (hstarve : u.starveDeadline = true → u.queuedSteers ≠ [])
    (hcalm : u.interrupted = false) (hesc : u.escalation = none)
    (hseq : u.promptSeq = s.promptSeq)
    (hacks : u.acks = s.acks + (s.injectedBy a).toList.length)
    (hline : (s.injectedBy a).toList ++ u.pending = s.pending ++ (arrival a).toList) :
    Round c s a u.followers := by
  have hmail : ∀ u' : Session, u'.turn = u.turn → u'.starveDeadline = u.starveDeadline →
      u'.queuedSteers = u.queuedSteers → u'.interrupted = u.interrupted →
      u'.escalation = u.escalation → (u'.steeringCall = none → u'.steerBacklog = []) →
      u'.Mail c := by
    intro u' ht hs hq hi he hb
    refine ⟨fun hno => by simp [hext] at hno, fun hnone => absurd (ht ▸ hnone) hturn, hb, ?_,
      fun hnone => absurd (ht ▸ hnone) hturn, hi.trans hcalm, he.trans hesc⟩
    rw [hs, hq, ht]
    exact fun hstarved => ⟨hstarve hstarved, hturn⟩
  rcases followers_cases u hturn hcalm with ⟨hbacklog, hf⟩ | ⟨text, rest, hbacklog, hf⟩ <;> rw [hf]
  · have htexts := texts_of_same (a := a) hseq
    refine ⟨?_, htexts ▸ ⟨_, hline⟩, fun _ => ⟨htexts ▸ hacks, htexts ▸ hline, ?_⟩⟩
    · rw [htexts, hacks]
      omega
    · exact hmail u rfl rfl rfl rfl rfl fun _ => hbacklog
  · have hpending : ({ u with steeringCall := some text, steerBacklog := rest } : Session).pending =
        u.pending := by
      simp [pending, hcall, hbacklog]
    have htexts : s.texts { u with steeringCall := some text, steerBacklog := rest } a =
        (s.injectedBy a).toList := texts_of_same hseq
    refine ⟨?_, htexts ▸ ⟨_, hline⟩, fun _ => ⟨htexts ▸ hacks, ?_, ?_⟩⟩
    · rw [htexts]
      exact ⟨hacks ▸ Nat.le_add_right _ _, le_of_eq hacks⟩
    · rw [htexts, hpending]
      exact hline
    · exact hmail _ rfl rfl rfl rfl rfl (by simp)

/-- A steering call is answered. -/
theorem Mail.round_steered (h : s.Mail c) (hopen : s.ended = false) {text : String}
    (hcall : s.steeringCall = some text) {reply : Reply}
    (hfree : reply = .injected → s.queuedSteers = []) :
    Round c s (.steered reply) (s.steered c text reply) := by
  have hturn : s.turn ≠ none := fun hnone => by simp [h.call hnone] at hcall
  have hext : c.steerExt = true := by
    by_contra hno
    simp [h.ext (by simpa using hno)] at hcall
  have hcalm : ¬ s.interrupted = true := by simp [h.calm]
  have hne : ¬ s.ended = true := by simp [hopen]
  have hback : ∀ starve : Bool, reply ≠ .injected →
      Round c s (.steered reply) (Session.followers
        { s with
          steeringCall := none, starveDeadline := starve
          queuedSteers := s.queuedSteers ++ [text] }) := by
    intro starve hreply
    have hinjected := (injectedBy_none (s := s) (Or.inr hreply)).2
    refine round_followers hturn rfl hext (by simp) h.calm h.escalation rfl ?_ ?_
    · rw [hinjected]
      rfl
    · simp [hinjected, pending, hcall, arrival]
  cases reply with
  | promptRequired noRunningTurn =>
    simp only [Session.steered, if_neg hcalm, if_neg hturn, if_neg hne]
    exact hback _ (by simp)
  | failed =>
    simp only [Session.steered, if_neg hcalm, if_neg hturn, if_neg hne]
    exact hback _ (by simp)
  | injected =>
    simp only [Session.steered, if_neg hcalm, if_neg hturn]
    have hq := quiet_drain (s := { s with steeringCall := none, starveDeadline := false })
    revert hq
    generalize ({ s with steeringCall := none, starveDeadline := false } : Session).drain = u
    intro hq
    have hinjected : (s.injectedBy (.steered .injected)).toList = [text] := by
      simp [injectedBy, hcall]
    have hover : ∀ u' : Session, u'.ended = true → u'.promptSeq = s.promptSeq → u'.acks = s.acks →
        Round c s (.steered .injected) u' := by
      intro u' hended hseq hacks
      refine round_over hended hseq ?_ ?_
      · rw [hacks]
        exact ⟨le_rfl, Nat.le_add_right _ _⟩
      · simp [hinjected, pending, hfree rfl, hcall]
    rcases send_cases u .steered with ⟨hended, hs⟩ | ⟨-, -, hs⟩ | ⟨hopen', -, hs⟩ <;> rw [hs]
    · rw [if_pos hended]
      exact hover u hended hq.prompts hq.acks
    · rw [if_pos rfl]
      exact hover _ rfl hq.prompts hq.acks
    · have hne' : ¬ (u.push .steered).ended = true := by
        show ¬ u.ended = true
        simp [hopen']
      rw [if_neg hne']
      refine round_followers (mt hq.turn.mp hturn) hq.call hext ?_ (hq.calm.trans h.calm)
        (hq.escalation.mpr h.escalation) hq.prompts ?_ ?_
      · show u.starveDeadline = true → _
        simp [hq.starve]
      · rw [acks_push, hinjected, if_pos rfl, hq.acks]
        rfl
      · show _ ++ u.pending = _
        rw [hq.pending_eq, hinjected]
        simp [pending, hfree rfl, hcall, arrival]

theorem Mail.pending_idle (h : s.Mail c) (hturn : s.turn = none)
    (hflush : s.cancelFlushDeadline = false) : s.pending = [] := by
  have hqueue : s.queuedSteers = [] := by
    by_contra hne
    simp [h.queue hturn hne] at hflush
  simp [pending, hqueue, h.call hturn, h.backlog (h.call hturn)]

theorem round_join {text : String} {busy : Bool} (hmail : s'.Mail c)
    (hseq : s'.promptSeq = s.promptSeq) (hacks : s'.acks = s.acks)
    (hline : s'.pending = s.pending ++ [text]) : Round c s (.steer text busy) s' := by
  have htexts : s.texts s' (.steer text busy) = [] := texts_of_same hseq
  refine ⟨?_, htexts ▸ List.nil_prefix, fun _ => ⟨?_, ?_, hmail⟩⟩
  · rw [htexts, hacks]
    exact ⟨le_rfl, le_rfl⟩
  · rw [htexts, hacks]
    rfl
  · rw [htexts, hline]
    rfl

/-- A steer comes in. -/
theorem Mail.round_steer (h : s.Mail c) (hopen : s.ended = false) (text : String) (busy : Bool) :
    Round c s (.steer text busy) (s.steer c text busy) := by
  unfold Session.steer
  split_ifs with hturn hflush hbusy hext hcall
  · refine round_join ⟨h.ext, h.call, h.backlog, fun hs => absurd hturn (h.starve hs).2,
      fun _ _ => hflush, h.calm, h.escalation⟩ rfl rfl ?_
    simp [pending, h.call hturn, h.backlog (h.call hturn)]
  · refine round_join ⟨h.ext, h.call, h.backlog, fun hs => absurd hturn (h.starve hs).2,
      fun _ _ => rfl, h.calm, h.escalation⟩ rfl rfl ?_
    simp [pending, h.call hturn, h.backlog (h.call hturn)]
  · have hidle := h.pending_idle hturn (by simpa using hflush)
    rcases prompt_cases (c := c) hopen with ⟨hq, hended⟩ | hsent
    · refine round_over hended hq.prompts ?_ List.nil_prefix
      rw [hq.acks]
      exact ⟨le_rfl, Nat.le_add_right _ _⟩
    · have hstarve : s.starveDeadline = false := by
        by_contra hs
        exact (h.starve (by simpa using hs)).2 hturn
      refine round_sent hsent rfl rfl rfl ?_ h.ext h.backlog hstarve h.calm h.escalation
      rw [hidle]
      rfl
  · refine round_join ⟨fun hno => by simp [hext] at hno, fun hno => absurd hno hturn, by simp,
      h.starve, h.queue, h.calm, h.escalation⟩ rfl rfl ?_
    simp [pending, hcall, h.backlog hcall]
  · refine round_join ⟨h.ext, h.call, fun hno => absurd hno hcall, h.starve, h.queue, h.calm,
      h.escalation⟩ rfl rfl ?_
    simp [pending]
  · have hcall := h.ext (by simpa using hext)
    refine round_join ⟨h.ext, h.call, h.backlog, fun hs => ⟨by simp, hturn⟩,
      fun hno => absurd hno hturn, h.calm, h.escalation⟩ rfl rfl ?_
    simp [pending, hcall, h.backlog hcall]

theorem Mail.round_flush (h : s.Mail c) (hopen : s.ended = false) :
    Round c s .flush (s.flush c) := by
  unfold Session.flush
  dsimp only
  split_ifs with hturn
  · have hcall := h.call hturn
    have hstarve : s.starveDeadline = false := by
      by_contra hs
      exact (h.starve (by simpa using hs)).2 hturn
    exact round_promote hopen rfl rfl rfl (List.append_nil _).symm h.ext h.backlog
      (fun _ => hcall) hstarve h.calm h.escalation
  · have htexts : s.texts { s with cancelFlushDeadline := false } .flush = [] := texts_of_same rfl
    refine ⟨⟨le_rfl, Nat.le_add_right _ _⟩, htexts ▸ List.nil_prefix, fun _ => ⟨?_, ?_, ?_⟩⟩
    · rw [htexts]
      rfl
    · rw [htexts]
      exact (List.append_nil _).symm
    · exact ⟨h.ext, h.call, h.backlog, h.starve, fun hno => absurd hno hturn, h.calm, h.escalation⟩

theorem Mail.round_starved (h : s.Mail c) (hstarve : s.starveDeadline = true) :
    Round c s .starved (s.starved c) := by
  have hqueue := (h.starve hstarve).1
  have hq := quiet_close (s := { s with starveDeadline := false, turn := none }) .completed
    s.promptSeq .starved
  unfold Session.starved
  dsimp only
  revert hq
  generalize ({ s with starveDeadline := false, turn := none } : Session).close .completed
    s.promptSeq .starved = u
  intro hq
  cases hended : u.ended with
  | true =>
    have hsame : u.promote c = u := by simp [promote, hended]
    rw [hsame]
    refine round_over hended hq.prompts ?_ List.nil_prefix
    rw [hq.acks]
    exact ⟨le_rfl, Nat.le_add_right _ _⟩
  | false =>
    refine round_promote hended ?_ hq.prompts hq.acks ?_ ?_ ?_ ?_ hq.starve (hq.calm.trans h.calm)
      (hq.escalation.mpr h.escalation)
    · exact congrArg List.head? hq.queue.symm
    · exact hq.pending_eq.trans (List.append_nil _).symm
    · rw [hq.call]
      exact h.ext
    · rw [hq.call, hq.backlog]
      exact h.backlog
    · rw [hq.queue]
      exact fun hno => absurd hno hqueue

theorem round_eof : Round c s .eof s.eof := by
  have hover : ∀ u : Session, u.promptSeq = s.promptSeq → u.acks = s.acks →
      Round c s .eof u.breakMain := by
    intro u hseq hacks
    have hq := quiet_breakMain (s := u)
    refine round_over (breakMain_ended u) (hq.prompts.trans hseq) ?_ List.nil_prefix
    rw [hq.acks, hacks]
    exact ⟨le_rfl, Nat.le_add_right _ _⟩
  unfold Session.eof
  split
  · exact hover s rfl rfl
  · rename_i turn _
    split
    · have hq := quiet_close (s := { s with turn := none })
      exact hover _ (hq _ _ _).prompts (hq _ _ _).acks
    · exact hover _ rfl rfl

/-- **What a step does to the line.** -/
theorem Mail.round {a : Act} (h : s.Mail c) (hno : ∀ target, a ≠ .interrupt target)
    (hfree : ∀ reply, a = .settle reply ∨ a = .steered reply → s.steeringCall ≠ none →
      reply = .injected → s.queuedSteers = []) (hs : s.step c a = some s') : Round c s a s' := by
  have hopen : s.ended = false := by
    by_contra hended
    simp [step, hended] at hs
  have hne : ¬ s.ended = true := by simp [hopen]
  unfold Session.step at hs
  rw [if_neg hne] at hs
  cases a with
  | read line =>
    dsimp only at hs
    split_ifs at hs
    obtain rfl := Option.some_inj.mp hs
    exact h.round_quiet (quiet_read line) rfl rfl
  | settle reply => exact h.round_settle hopen (hfree reply (Or.inl rfl)) hs
  | next =>
    dsimp only at hs
    split at hs
    · simp at hs
    · rename_i inc rest _
      obtain rfl := Option.some_inj.mp hs
      exact h.round_quiet (quiet_next inc rest) rfl rfl
  | eof =>
    obtain ⟨-, rfl⟩ := of_guard hs
    exact round_eof
  | steered reply =>
    obtain ⟨text, hcall, rfl⟩ := Option.map_eq_some_iff.mp hs
    exact h.round_steered hopen hcall (hfree reply (Or.inr rfl) (by simp [hcall]))
  | flush =>
    obtain ⟨-, rfl⟩ := of_guard hs
    exact h.round_flush hopen
  | starved =>
    obtain ⟨⟨hstarve, -⟩, rfl⟩ := of_guard hs
    exact h.round_starved hstarve
  | steer text busy =>
    obtain ⟨-, rfl⟩ := of_guard hs
    exact h.round_steer hopen text busy
  | mailboxClosed =>
    dsimp only at hs
    have hclosed : Quiet s { s with steeringOpen := false } :=
      ⟨rfl, rfl, rfl, Iff.rfl, rfl, rfl, rfl, Iff.rfl, rfl, rfl, id⟩
    split_ifs at hs
    · obtain rfl := Option.some_inj.mp hs
      exact h.round_quiet (hclosed.trans quiet_breakMain) rfl rfl
    · obtain rfl := Option.some_inj.mp hs
      exact h.round_quiet hclosed rfl rfl
  | interrupt target => exact absurd rfl (hno target)
  | stalled =>
    obtain ⟨-, rfl⟩ := of_guard hs
    have hdone : ∀ u : Session, Quiet u { u with doneCurrent := true } :=
      fun u => ⟨rfl, rfl, rfl, Iff.rfl, rfl, rfl, rfl, Iff.rfl, rfl, rfl, id⟩
    have hcontent : Quiet s (s.send .content) := quiet_send (by simp)
    refine h.round_quiet ?_ rfl rfl
    exact ((hcontent.trans (hdone _)).trans (quiet_send (by simp [settled]))).trans quiet_breakMain
  | escalate => simp [h.escalation] at hs
  | childExit =>
    dsimp only at hs
    split_ifs at hs
    obtain rfl := Option.some_inj.mp hs
    refine h.round_quiet ?_ rfl rfl
    exact ⟨rfl, rfl, rfl, Iff.rfl, rfl, rfl, rfl, by simp [h.escalation], rfl, rfl, id⟩
  | exitDrained =>
    obtain ⟨-, rfl⟩ := of_guard hs
    exact h.round_quiet quiet_breakMain rfl rfl
  | hungUp =>
    obtain ⟨-, rfl⟩ := of_guard hs
    exact h.round_quiet quiet_breakMain rfl rfl

end Session

/-! ## Every run -/

namespace Ledger

variable {c : Config} {l l' : Ledger}

/-- While the stream is open the line is whole; what was acknowledged is its front. -/
structure Inv (c : Config) (l : Ledger) : Prop where
  count : l.acked.length = l.session.acks
  order : l.acked <+: l.sent
  once : l.accepted <+: l.sent
  line : l.session.ended = false →
    l.acked ++ l.session.pending = l.sent ∧ l.accepted = l.acked ∧ l.session.Mail c

theorem inv_start (c : Config) (takes : Option ℕ) : (start c takes).Inv c where
  count := rfl
  order := List.nil_prefix
  once := List.nil_prefix
  line _ := ⟨rfl, rfl, fun _ => rfl, fun _ => rfl, fun _ => rfl, by simp [start, Session.start],
    by simp [start, Session.start], rfl, rfl⟩

theorem upright_spec {act : Act × Bool} (h : l.Upright act) :
    (∀ target, act.1 ≠ .interrupt target) ∧
      ∀ reply, act.1 = .settle reply ∨ act.1 = .steered reply → l.Answered reply act.2 := by
  obtain ⟨a, took⟩ := act
  refine ⟨?_, ?_⟩
  · rintro target rfl
    exact h
  · rintro reply (rfl | rfl) <;> exact h

theorem accepted_eq {act : Act × Bool} (h : l.Upright act) :
    (if act.2 then l.session.calledBy act.1 else none) = l.session.injectedBy act.1 := by
  obtain ⟨a, took⟩ := act
  have hreply : ∀ reply : Reply, l.Answered reply took →
      (if took then l.session.steeringCall else none) =
        if reply = .injected then l.session.steeringCall else none := by
    intro reply hanswered
    by_cases hcall : l.session.steeringCall = none
    · simp [hcall]
    · rw [(hanswered hcall).2]
      simp
  cases a with
  | settle reply =>
    refine (hreply reply h).trans ?_
    cases reply <;> rfl
  | steered reply =>
    refine (hreply reply h).trans ?_
    cases reply <;> rfl
  | _ => exact ite_self _

theorem inv_step {act : Act × Bool} (h : l.Inv c) (hg : l.Upright act)
    (hs : l.step c act = some l') : l'.Inv c := by
  obtain ⟨s', hstep, rfl⟩ := Option.map_eq_some_iff.mp hs
  have hopen : l.session.ended = false := by
    by_contra hended
    simp [Session.step, hended] at hstep
  obtain ⟨hline, haccepted, hmail⟩ := h.line hopen
  obtain ⟨hno, hanswered⟩ := upright_spec hg
  have hround := hmail.round hno (fun reply ha hcall => (hanswered reply ha hcall).1) hstep
  have hfront : l.acked ++ l.session.texts s' act.1 <+:
      l.sent ++ (Session.arrival act.1).toList := by
    rw [← hline, List.append_assoc]
    exact (List.prefix_append_right_inj l.acked).mpr hround.front
  have htexts : l.accepted ++ (if act.2 then l.session.calledBy act.1 else none).toList ++
      (l.session.prompted s' act.1).toList = l.acked ++ l.session.texts s' act.1 := by
    rw [accepted_eq hg, haccepted, List.append_assoc]
    rfl
  refine ⟨?_, ?_, ?_, fun hopen' => ?_⟩
  · have hcount := h.count
    have hgrows := hround.grows
    rw [List.length_append, List.length_take]
    show _ = s'.acks
    omega
  · refine List.IsPrefix.trans ?_ hfront
    exact (List.prefix_append_right_inj l.acked).mpr (List.take_prefix _ _)
  · show _ ++ _ ++ _ <+: _
    rw [htexts]
    exact hfront
  · obtain ⟨hacks, hrest, hmail'⟩ := hround.line hopen'
    have htake : (l.session.texts s' act.1).take (s'.acks - l.session.acks) =
        l.session.texts s' act.1 := List.take_of_length_le (by omega)
    refine ⟨?_, ?_, hmail'⟩
    · show l.acked ++ _ ++ s'.pending = _
      rw [htake, List.append_assoc, hrest, ← List.append_assoc, hline]
    · show _ ++ _ ++ _ = _
      rw [htexts, htake]

theorem Inv.inLine (h : l.Inv c) : l.InLine where
  count := h.count
  order := h.order
  once := h.once
  line hopen := ⟨(h.line hopen).1, (h.line hopen).2.1⟩
  waits hopen hne := by
    have hmail := (h.line hopen).2.2
    by_cases hturn : l.session.turn = none
    · have hcall := hmail.call hturn
      have hqueue : l.session.queuedSteers ≠ [] := by
        rw [hmail.backlog hcall, List.append_nil] at hne
        exact hne
      exact Or.inr (Or.inr (hmail.queue hturn hqueue))
    · exact Or.inl hturn

/-- **The n-th `Steered` is for the n-th steer, and no steer is lost, repeated or parked.** -/
theorem steers_in_line {takes : Option ℕ} {acts : List (Act × Bool)}
    (hg : Guarded (step c) Upright (start c takes) acts)
    (he : exec (step c) (start c takes) acts = some l) : l.InLine :=
  (exec_invariant (fun _ _ _ h hg hs => inv_step h hg hs) (inv_start c takes) hg he).inLine

/-- An agent with the steering extension. -/
def steering : Config where
  promptCompleteExtension := false
  promptStall := false
  steerExt := true

/-- An injection, a call that outlives its turn, and a turn that is starved. -/
def threeSteers : List (Act × Bool) :=
  [(.steer "one" false, false), (.steer "two" false, false), (.steered .injected, true),
    (.read (.response 1 (.ok none)), false), (.settle .failed, false),
    (.steer "three" false, false), (.steered (.promptRequired true), false), (.starved, false)]

theorem steers_in_line_three : ∃ l,
    exec (step steering) (start steering none) threeSteers = some l ∧ l.InLine ∧
      l.acked = ["one", "two", "three"] ∧ l.session.promptSeq = 3 := by
  have hrun : (exec (step steering) (start steering none) threeSteers).map
      (fun l => (l.acked, l.session.promptSeq)) = some (["one", "two", "three"], 3) := by
    decide +kernel
  obtain ⟨l, he, hl⟩ := Option.map_eq_some_iff.mp hrun
  simp only [Prod.mk.injEq] at hl
  exact ⟨l, he, steers_in_line (guarded_of_checks (by decide +kernel)) he, hl⟩

/-- The first call fails; the one behind it is answered with an injection. -/
def pushedBack : List (Act × Bool) :=
  [(.steer "one" false, false), (.steer "two" false, false), (.steered .failed, false),
    (.steered .injected, true)]

/-- **An injection passes a steer that was pushed back to the queue.** -/
theorem injection_overtakes : ¬ ∀ (acts : List (Act × Bool)) (l : Ledger),
    (∀ act ∈ acts, act.2 = decide (act.1 = .steered .injected)) →
      exec (step steering) (start steering none) acts = some l → l.InLine := by
  intro hall
  have hrun : (exec (step steering) (start steering none) pushedBack).map
      (fun l => (l.acked, l.sent)) = some (["two"], ["one", "two"]) := by decide +kernel
  obtain ⟨l, he, hl⟩ := Option.map_eq_some_iff.mp hrun
  simp only [Prod.mk.injEq] at hl
  have horder := (hall pushedBack l (by decide) he).order
  rw [hl.1, hl.2] at horder
  exact absurd horder (by decide)

end Ledger

end Zeron.Agent.Acp
