import Zeron.Agent.Acp

/-!
# Every prompt settles once

A prompt has one `Done`, in the order the prompts were sent (`harness/src/acp/mod.rs`). Its own
response settles it, or a completion, or the loop gives it up: it is starved, the agent is silent,
or the stream ends.

* `Own`, `Settled`: what is promised of the cause of a `Done`, and of all of them;
* `Due`, `Mid`: so many prompts are settled, and nothing that was written is lost;
* **`prompts_settled`**; `settled_astray`: a completion without an id settles the prompt it finds,
  and a prompt that was given up may be answered later.
-/

namespace Zeron.Agent.Acp

open Run

/-! ## What is promised -/

def settle? : Event → Option Settle
  | .done settle => some settle
  | _ => none

/-- A response settles its own prompt, and so does a completion that names one; what was written
before it was shown. -/
def Cause.Own (prompt : Option ℕ) (seen : ℕ) : Cause → Prop
  | .response p before => prompt = some p ∧ before ≤ seen
  | .completion c => (c.named = true → prompt = some c.prompt) ∧ c.before ≤ seen
  | _ => True

structure Settle.Good (d : Settle) : Prop where
  own : d.cause.Own d.prompt d.seen
  fired : d.fired = true → d.status = .interrupted

namespace Session

variable (s : Session)

def dones : List Settle := s.out.filterMap settle?

/-- The prompts that were settled. -/
def prompts : List ℕ := s.dones.filterMap Settle.prompt

structure Settled : Prop where
  /-- One `Done` for each prompt, in order. -/
  order : s.prompts = List.range' 1 s.prompts.length
  /-- All but the last prompt are settled. -/
  past : s.prompts.length ≤ s.promptSeq ∧ (s.ended = false → s.promptSeq ≤ s.prompts.length + 1)
  /-- The stream ends with every prompt settled, unless the consumer hung up. -/
  last : s.ended = true → s.takes ≠ some 0 → s.prompts.length = s.promptSeq
  good : ∀ d ∈ s.dones, d.Good

/-- Every completion settles its own prompt. -/
def Owned : Prop := ∀ d ∈ s.dones, ∀ completion, d.cause = .completion completion →
  d.prompt = some completion.prompt

/-- Whatever settled a prompt, what was written before its response was shown. -/
def Shown : Prop := ∀ p res before, s.responses p = some (res, before) →
  ∀ d ∈ s.dones, d.prompt = some p → before ≤ d.seen

/-! ## The invariant -/

def isUpdate : Incoming → Bool
  | .update _ => true
  | _ => false

/-- So many prompts are settled. -/
structure Due (n : ℕ) : Prop where
  order : s.prompts = List.range' 1 n
  good : ∀ d ∈ s.dones, d.Good

/-- Within a round: so many prompts are settled, and these messages wait. -/
structure Mid (n : ℕ) (waiting : List Incoming) : Prop where
  isOpen : s.ended = false
  due : s.Due n
  below : n ≤ s.promptSeq ∧ s.promptSeq ≤ n + 1
  shown : s.seen + waiting.countP isUpdate = s.written
  answered : ∀ p res before, s.responses p = some (res, before) → before ≤ s.written
  before : ∀ completion, .complete completion ∈ waiting → completion.before ≤ s.written

structure Over : Prop where
  ended : s.ended = true
  due : ∃ n ≤ s.promptSeq, s.Due n ∧ (s.takes = some 0 ∨ n = s.promptSeq)

def At (n : ℕ) (waiting : List Incoming) : Prop := s.Mid n waiting ∨ s.Over

/-- The prompt of a turn is the last one; what it was completed by is its own, if it has a name. -/
structure Outstanding (turn : Turn) : Prop where
  prompt : turn.prompt = s.promptSeq
  current : s.doneCurrent = false
  own : ∀ completion, turn.completion = some completion →
    completion.before ≤ s.written ∧ (completion.named = true → completion.prompt = s.promptSeq)

/-- The loop runs. -/
structure Running (c : Config) : Prop where
  mid : s.Mid (if s.doneCurrent then s.promptSeq else s.promptSeq - 1) s.incoming
  pos : 0 < s.promptSeq
  turn : ∀ turn, s.turn = some turn → s.Outstanding turn
  idle : s.turn = none → s.doneCurrent = true ∨ s.interrupted = true
  after : s.doneAfterInterrupt = false
  id : s.turn ≠ none → c.promptCompleteExtension = true →
    s.currentPromptId = some (promptId s.promptSeq)
  escalated : s.escalation ≠ none → s.interrupted = true

def Inv (c : Config) : Prop := s.Running c ∨ s.Over

end Session

/-! ## Events -/

namespace Session

variable {s s' : Session} {n : ℕ} {waiting : List Incoming}

theorem dones_push (s : Session) (e : Event) :
    (s.push e).dones = s.dones ++ (settle? e).toList := by
  unfold dones push
  rw [List.filterMap_append]
  cases e <;> rfl

theorem Due.congr (h : s.Due n) (hout : s'.out = s.out) : s'.Due n := by
  have hdones : s'.dones = s.dones := by rw [dones, hout, dones]
  refine ⟨?_, ?_⟩
  · rw [prompts, hdones]
    exact h.order
  · rw [hdones]
    exact h.good

theorem Due.push (h : s.Due n) {e : Event} (he : settle? e = none) :
    (s.push e).Due n := by
  have hdones : (s.push e).dones = s.dones := by rw [dones_push, he]; exact List.append_nil _
  refine ⟨?_, ?_⟩
  · rw [prompts, hdones]
    exact h.order
  · rw [hdones]
    exact h.good

theorem Due.push_idle (h : s.Due n) {d : Settle} (hd : d.Good) (hprompt : d.prompt = none) :
    (s.push (.done d)).Due n := by
  have hdones : (s.push (.done d)).dones = s.dones ++ [d] := dones_push s _
  refine ⟨?_, fun d' hd' => ?_⟩
  · rw [prompts, hdones, List.filterMap_append, ← h.order, prompts]
    simp [hprompt]
  · rw [hdones, List.mem_append, List.mem_singleton] at hd'
    rcases hd' with hd' | rfl
    · exact h.good d' hd'
    · exact hd

/-- **The `Done` of the next prompt.** -/
theorem Due.push_done (h : s.Due n) {d : Settle} (hd : d.Good)
    (hprompt : d.prompt = some (n + 1)) : (s.push (.done d)).Due (n + 1) := by
  have hdones : (s.push (.done d)).dones = s.dones ++ [d] := dones_push s _
  refine ⟨?_, fun d' hd' => ?_⟩
  · have hlast : [d].filterMap Settle.prompt = [n + 1] := by simp [hprompt]
    rw [prompts, hdones, List.filterMap_append, hlast, List.range'_concat, ← h.order, prompts,
      Nat.one_mul, Nat.add_comm 1]
  · rw [hdones, List.mem_append, List.mem_singleton] at hd'
    rcases hd' with hd' | rfl
    · exact h.good d' hd'
    · exact hd

theorem seen_push (s : Session) (e : Event) :
    (s.push e).seen = s.seen + if e = .update then 1 else 0 := by
  unfold seen push
  rw [List.count_append, List.count_singleton]
  simp only [beq_iff_eq]

/-! ## Sends -/

theorem Mid.congr (h : s.Mid n waiting) (hended : s'.ended = s.ended) (hout : s'.out = s.out)
    (hseq : s'.promptSeq = s.promptSeq) (hwritten : s'.written = s.written)
    (hresponses : s'.responses = s.responses) : s'.Mid n waiting where
  isOpen := hended.trans h.isOpen
  due := h.due.congr hout
  below := by
    rw [hseq]
    exact h.below
  shown := by
    rw [seen, hout, hwritten]
    exact h.shown
  answered := by
    rw [hresponses, hwritten]
    exact h.answered
  before := by
    rw [hwritten]
    exact h.before

theorem Over.congr (h : s.Over) (hended : s'.ended = s.ended) (hout : s'.out = s.out)
    (hseq : s'.promptSeq = s.promptSeq) (htakes : s'.takes = s.takes) : s'.Over := by
  obtain ⟨n, hle, hdue, hlast⟩ := h.due
  exact ⟨hended.trans h.ended, n, hseq ▸ hle, hdue.congr hout, by rwa [hseq, htakes]⟩

theorem Mid.gone (h : s.Mid n waiting) (htakes : s.takes = some 0) :
    ({ s with ended := true } : Session).Over :=
  ⟨rfl, n, h.below.1, h.due.congr rfl, Or.inl htakes⟩

theorem At.send (h : s.At n waiting) {e : Event} (he : settle? e = none)
    (hne : e ≠ .update) : (s.send e).At n waiting := by
  rcases h with h | h
  · rcases send_cases s e with ⟨hended, -⟩ | ⟨-, htakes, hs⟩ | ⟨-, -, hs⟩
    · exact absurd (hended.symm.trans h.isOpen) (by simp)
    · rw [hs]
      exact Or.inr (h.gone htakes)
    · rw [hs]
      refine Or.inl ⟨h.isOpen, h.due.push he, h.below, ?_, h.answered, h.before⟩
      rw [seen_push, if_neg hne, Nat.add_zero]
      exact h.shown
  · rw [send_of_ended h.ended]
    exact Or.inr h

/-- **A message that waited is shown.** -/
theorem At.emit {inc : Incoming} (h : s.At n (inc :: waiting)) :
    (s.emit inc).At n waiting := by
  rcases h with h | h
  swap
  · obtain ⟨out, takes, ended, hs⟩ := emit_same s inc
    cases inc with
    | update boilerplate =>
      rw [Session.emit, send_of_ended h.ended]
      exact Or.inr h
    | complete completion => exact Or.inr h
    | request asks =>
      cases asks with
      | true =>
        rw [Session.emit, if_pos rfl, send_of_ended h.ended]
        exact Or.inr h
      | false => exact Or.inr h
  · have hbefore : ∀ completion, .complete completion ∈ waiting → completion.before ≤ s.written :=
      fun completion hmem => h.before completion (List.mem_cons_of_mem _ hmem)
    have hquiet : isUpdate inc = false → s.Mid n waiting := fun hno => by
      refine ⟨h.isOpen, h.due, h.below, ?_, h.answered, hbefore⟩
      rw [← h.shown, List.countP_cons_of_neg (by simp [hno])]
    cases inc with
    | complete completion => exact Or.inl (hquiet rfl)
    | request asks =>
      cases asks with
      | true => exact At.send (Or.inl (hquiet rfl)) rfl Event.noConfusion
      | false => exact Or.inl (hquiet rfl)
    | update boilerplate =>
      rw [Session.emit]
      rcases send_cases s .update with ⟨hended, -⟩ | ⟨-, htakes, hs⟩ | ⟨-, -, hs⟩
      · exact absurd (hended.symm.trans h.isOpen) (by simp)
      · rw [hs]
        exact Or.inr (h.gone htakes)
      · rw [hs]
        refine Or.inl ⟨h.isOpen, h.due.push rfl, h.below, ?_, h.answered, hbefore⟩
        rw [seen_push, if_pos rfl]
        have hshown := h.shown
        rw [List.countP_cons_of_pos rfl] at hshown
        show s.seen + 1 + waiting.countP isUpdate = s.written
        omega

/-- **All that waits is shown.** -/
theorem At.drain (h : s.At n s.incoming) : s.drain.At n [] := by
  unfold Session.drain
  have hfold : ∀ (l : List Incoming) (s : Session), s.At n l →
      (l.foldl (fun s inc => s.emit inc) s).At n [] := by
    intro l
    induction l with
    | nil => exact fun s h => h
    | cons inc l ih => exact fun s h => ih _ h.emit
  refine hfold s.incoming _ ?_
  rcases h with h | h
  · exact Or.inl (h.congr rfl rfl rfl rfl rfl)
  · exact Or.inr (h.congr rfl rfl rfl rfl)

/-! ## Ends -/

theorem Mid.breakMain_done (h : s.Mid s.promptSeq waiting) (hcur : s.doneCurrent = true) :
    s.breakMain.Over := by
  rcases breakMain_cases h.isOpen with ⟨htakes, hs⟩ | ⟨-, -, hs⟩ | ⟨-, hopen, -⟩ | ⟨-, -, hs⟩
  · rw [hs]
    exact h.gone htakes
  · rw [hs, if_pos hcur]
    exact ⟨rfl, s.promptSeq, Nat.le_refl _,
      (h.due.push_idle (d := ⟨.interrupted, none, .ended, s.seen, s.interrupted⟩)
        ⟨trivial, fun _ => rfl⟩ rfl).congr rfl, Or.inr rfl⟩
  · exact absurd (hopen.symm.trans hcur) (by simp)
  · rw [hs]
    exact ⟨rfl, s.promptSeq, Nat.le_refl _, h.due.congr rfl, Or.inr rfl⟩

theorem Mid.breakMain_open (h : s.Mid n waiting) (hseq : s.promptSeq = n + 1)
    (hcur : s.doneCurrent = false) (hafter : s.doneAfterInterrupt = false) : s.breakMain.Over := by
  have hlast : ∀ status, (s.interrupted = true → status = .interrupted) →
      ({ s.push (s.settled status (some s.promptSeq) .ended) with ended := true } :
        Session).Over := fun status hst =>
    ⟨rfl, n + 1, Nat.le_of_eq hseq.symm,
      (h.due.push_done (d := ⟨status, some s.promptSeq, .ended, s.seen, s.interrupted⟩)
        ⟨trivial, hst⟩ (congrArg some hseq)).congr rfl, Or.inr hseq.symm⟩
  rcases breakMain_cases h.isOpen with ⟨htakes, hs⟩ | ⟨-, -, hs⟩ | ⟨hint, -, hs⟩ | ⟨hint, hno, -⟩
  · rw [hs]
    exact h.gone htakes
  · rw [hs, if_neg (by simp [hcur])]
    exact hlast .interrupted fun _ => rfl
  · rw [hs]
    exact hlast .errored fun hf => absurd (hf.symm.trans hint) (by simp)
  · cases hi : s.interrupted with
    | true => exact absurd ((hint hi).symm.trans hafter) (by simp)
    | false => exact absurd ((hno hi).symm.trans hcur) (by simp)

theorem At.settled (h : s.At n waiting) (hseq : s.promptSeq = n + 1) (status : Status)
    (cause : Cause) (hst : s.interrupted = true → status = .interrupted)
    (hown : s.seen + waiting.countP isUpdate = s.written → cause.Own (some s.promptSeq) s.seen) :
    (s.send (s.settled status (some s.promptSeq) cause)).At (n + 1) waiting := by
  rcases h with h | h
  swap
  · rw [send_of_ended h.ended]
    exact Or.inr h
  have hgood : Settle.Good
      ⟨status, some s.promptSeq, cause, s.seen, s.interrupted⟩ := ⟨hown h.shown, hst⟩
  rcases send_cases s (s.settled status (some s.promptSeq) cause) with ⟨hended, -⟩ |
      ⟨-, htakes, hs⟩ | ⟨-, -, hs⟩
  · exact absurd (hended.symm.trans h.isOpen) (by simp)
  · rw [hs]
    exact Or.inr (h.gone htakes)
  · rw [hs]
    refine Or.inl ⟨h.isOpen, h.due.push_done hgood (congrArg some hseq), ?_, ?_, h.answered,
      h.before⟩
    · exact ⟨Nat.le_of_eq hseq.symm, Nat.le_succ_of_le (Nat.le_of_eq hseq)⟩
    · rw [seen_push, if_neg Event.noConfusion, Nat.add_zero]
      exact h.shown

theorem At.breakMain_done (h : s.At s.promptSeq waiting) (hcur : s.doneCurrent = true) :
    s.breakMain.Over := by
  rcases h with h | h
  · exact h.breakMain_done hcur
  · rwa [breakMain_of_ended h.ended]

theorem close_same (s : Session) (status : Status) (prompt : ℕ) (cause : Cause) :
    ∃ out takes ended, s.close status prompt cause = { s with
      doneCurrent := true, doneAfterInterrupt := s.interrupted || s.doneAfterInterrupt
      out, takes, ended } := by
  unfold Session.close
  obtain ⟨out, takes, ended, hs⟩ := send_same s .content
  rw [hs]
  exact send_same _ _

/-- **A prompt is closed.** -/
theorem At.close (h : s.At n waiting) (hseq : s.promptSeq = n + 1) (status : Status) (cause : Cause)
    (hst : s.interrupted = true → status = .interrupted)
    (hown : ∀ seen, seen + waiting.countP isUpdate = s.written →
      cause.Own (some s.promptSeq) seen) :
    (s.close status s.promptSeq cause).At (n + 1) waiting := by
  have hsent := h.send (e := .content) rfl Event.noConfusion
  obtain ⟨out, takes, ended, hs⟩ := send_same s .content
  unfold Session.close
  rw [hs] at hsent ⊢
  have hset : ({ s with
      doneCurrent := true, doneAfterInterrupt := s.interrupted || s.doneAfterInterrupt
      out, takes, ended } : Session).At n waiting := by
    rcases hsent with hsent | hsent
    · exact Or.inl (hsent.congr rfl rfl rfl rfl rfl)
    · exact Or.inr (hsent.congr rfl rfl rfl rfl)
  exact hset.settled hseq _ _ hst (hown _)

/-! ## Prompts -/

variable {c : Config}

/-- **The next prompt.** -/
theorem At.prompt (h : s.At s.promptSeq s.incoming) (hafter : s.doneAfterInterrupt = false)
    (hesc : s.escalation ≠ none → s.interrupted = true) : (s.prompt c).Inv c := by
  have hsent := h.send (e := .steered) rfl Event.noConfusion
  obtain ⟨out, takes, ended, hs⟩ := send_same s .steered
  unfold Session.prompt
  rw [hs] at hsent ⊢
  dsimp only
  by_cases hended : ended = true
  · rw [if_pos hended]
    exact Or.inr (hsent.resolve_left fun hmid => absurd (hmid.isOpen.symm.trans hended) (by simp))
  · have hmid := hsent.resolve_right fun hover => hended hover.ended
    rw [if_neg hended]
    refine Or.inl ⟨⟨hmid.isOpen, hmid.due.congr rfl, ⟨Nat.le_succ _, Nat.le_refl _⟩, hmid.shown,
      hmid.answered, hmid.before⟩, Nat.succ_pos _, ?_, fun hno => (by cases hno), hafter,
      fun _ hext => ?_, hesc⟩
    swap
    · dsimp only
      rw [if_pos hext]
    rintro turn ⟨⟩
    exact ⟨rfl, rfl, fun completion hcompletion => (by cases hcompletion)⟩

theorem At.promote (h : s.At s.promptSeq s.incoming) (hcur : s.doneCurrent = true)
    (hafter : s.doneAfterInterrupt = false) (hturn : s.turn = none) (hpos : 0 < s.promptSeq)
    (hesc : s.escalation ≠ none → s.interrupted = true) : (s.promote c).Inv c := by
  unfold Session.promote
  by_cases hended : s.ended = true
  · rw [if_pos hended]
    exact Or.inr (h.resolve_left fun hmid => absurd (hmid.isOpen.symm.trans hended) (by simp))
  · have hmid := h.resolve_right fun hover => hended hover.ended
    rw [if_neg hended]
    cases hqueue : s.queuedSteers with
    | cons text rest =>
      exact At.prompt (s := { s with queuedSteers := rest })
        (Or.inl (hmid.congr rfl rfl rfl rfl rfl)) hafter hesc
    | nil =>
      by_cases hmailbox : s.steeringOpen = true
      · dsimp only
        rw [if_pos hmailbox]
        refine Or.inl ⟨?_, hpos, fun turn ht => ?_, fun _ => Or.inl hcur, hafter, fun hne => ?_,
          hesc⟩
        · rw [if_pos hcur]
          exact hmid
        · cases hturn.symm.trans ht
        · exact absurd hturn hne
      · dsimp only
        rw [if_neg hmailbox]
        exact Or.inr (hmid.breakMain_done hcur)

/-! ## Results -/

theorem Running.result_own (h : s.Running c) {turn : Turn} (hturn : s.turn = some turn)
    {res : Response} {cause : Cause} (hres : s.result turn = some (res, cause))
    (hno : ¬ (res = .err ∧ s.closed = true)) :
    cause.Own (some s.promptSeq) s.written := by
  have hout := h.turn turn hturn
  unfold Session.result at hres
  cases hcompletion : turn.completion with
  | some completion =>
    rw [hcompletion] at hres
    cases Option.some_inj.mp hres
    obtain ⟨hbefore, hnamed⟩ := hout.own completion hcompletion
    exact ⟨fun hn => congrArg some (hnamed hn).symm, hbefore⟩
  | none =>
    rw [hcompletion] at hres
    dsimp only at hres
    cases hresponse : s.responses turn.prompt with
    | none =>
      rw [hresponse] at hres
      dsimp only at hres
      split_ifs at hres with hclosed
      cases Option.some_inj.mp hres
      exact absurd ⟨rfl, hclosed⟩ hno
    | some response =>
      rw [hresponse] at hres
      cases Option.some_inj.mp hres
      exact ⟨congrArg some hout.prompt.symm, h.mid.answered _ _ _ hresponse⟩

theorem settleSteering_same (s : Session) (reply : Reply) :
    ∃ out takes ended steeringCall queuedSteers steerBacklog, s.settleSteering reply =
      { s with out, takes, ended, steeringCall, queuedSteers, steerBacklog } := by
  unfold settleSteering
  cases s.steeringCall with
  | none => exact ⟨_, _, _, _, _, _, rfl⟩
  | some text =>
    obtain ⟨out, takes, ended, hs⟩ := send_same { s with steeringCall := none } .steered
    dsimp only
    split_ifs
    · exact ⟨_, _, _, _, _, _, rfl⟩
    · exact ⟨_, _, _, _, _, _, by rw [hs]⟩
    · exact ⟨_, _, _, _, _, _, rfl⟩

theorem At.congr (h : s.At n waiting) (hended : s'.ended = s.ended) (hout : s'.out = s.out)
    (htakes : s'.takes = s.takes) (hseq : s'.promptSeq = s.promptSeq)
    (hwritten : s'.written = s.written) (hresponses : s'.responses = s.responses) :
    s'.At n waiting := by
  rcases h with h | h
  · exact Or.inl (h.congr hended hout hseq hwritten hresponses)
  · exact Or.inr (h.congr hended hout hseq htakes)

theorem At.settleSteering (h : s.At n waiting) (reply : Reply) :
    (s.settleSteering reply).At n waiting := by
  unfold Session.settleSteering
  cases s.steeringCall with
  | none => exact h
  | some text =>
    have hset : ({ s with steeringCall := none } : Session).At n waiting :=
      h.congr rfl rfl rfl rfl rfl rfl
    dsimp only
    split_ifs
    · exact hset.congr rfl rfl rfl rfl rfl rfl
    · exact (hset.send (e := .steered) rfl Event.noConfusion).congr rfl rfl rfl rfl rfl rfl
    · exact hset.congr rfl rfl rfl rfl rfl rfl

theorem Running.outstanding (h : s.Running c) (hcur : s.doneCurrent = false) :
    s.Mid (s.promptSeq - 1) s.incoming ∧ s.promptSeq = s.promptSeq - 1 + 1 := by
  have hmid := h.mid
  rw [if_neg (by simp [hcur])] at hmid
  exact ⟨hmid, (Nat.sub_add_cancel h.pos).symm⟩

theorem Mid.drained (h : s.Mid n s.incoming) (reply : Reply) :
    (s.forget.settleSteering reply).drain.At n [] ∧
      (s.forget.settleSteering reply).drain.promptSeq = s.promptSeq ∧
      (s.forget.settleSteering reply).drain.interrupted = s.interrupted ∧
      (s.forget.settleSteering reply).drain.doneAfterInterrupt = s.doneAfterInterrupt ∧
      (s.forget.settleSteering reply).drain.turn = none ∧
      (s.forget.settleSteering reply).drain.incoming = [] ∧
      (s.forget.settleSteering reply).drain.written = s.written ∧
      (s.forget.settleSteering reply).drain.escalation = s.escalation := by
  have hforget : s.forget.At n s.incoming := Or.inl (h.congr rfl rfl rfl rfl rfl)
  obtain ⟨_, _, _, _, _, _, hsteered⟩ := settleSteering_same s.forget reply
  obtain ⟨_, _, _, hdrain⟩ := drain_same (s.forget.settleSteering reply)
  refine ⟨At.drain ?_, ?_⟩
  · have hat := hforget.settleSteering reply
    rw [hsteered] at hat ⊢
    exact hat
  · rw [hdrain, hsteered]
    exact ⟨rfl, rfl, rfl, rfl, rfl, rfl, rfl⟩

theorem stopOutcome_interrupted (res : Response) {interrupted : Bool} (h : interrupted = true) :
    stopOutcome res interrupted = .interrupted := if_pos h

/-- **The response of the outstanding prompt.** -/
theorem Running.settle (h : s.Running c) {reply : Reply} (hs : s.settle c reply = some s') :
    s'.Inv c := by
  unfold Session.settle at hs
  cases hturn : s.turn with
  | none => simp [hturn] at hs
  | some turn =>
    cases hresult : s.result turn with
    | none => simp [hturn, hresult] at hs
    | some pair =>
      obtain ⟨res, cause⟩ := pair
      simp only [hturn, hresult, Option.bind_eq_bind, Option.bind_some] at hs
      have hout := h.turn turn hturn
      obtain ⟨hmid, hseq⟩ := h.outstanding hout.current
      by_cases hgone : res = .err ∧ s.closed = true
      · rw [if_pos hgone] at hs
        cases Option.some_inj.mp hs
        exact Or.inr (Mid.breakMain_open (s := { s with turn := none })
          (hmid.congr rfl rfl rfl rfl rfl) hseq hout.current h.after)
      · rw [if_neg hgone] at hs
        have hown := h.result_own hturn hresult hgone
        obtain ⟨hdrained, hseq₁, hint₁, hafter₁, hturn₁, hincoming₁, hwritten₁, hesc₁⟩ :=
          hmid.drained reply
        generalize (s.forget.settleSteering reply).drain = s₁ at *
        rw [hout.prompt, ← hseq₁] at hs
        have hclosed := hdrained.close (hseq₁.trans hseq) (stopOutcome res s₁.interrupted) cause
          (fun hint => stopOutcome_interrupted res hint) fun seen hseen => by
            rw [List.countP_nil, Nat.add_zero, hwritten₁] at hseen
            rw [hseen, hseq₁]
            exact hown
        obtain ⟨_, _, _, hsame⟩ :=
          close_same s₁ (stopOutcome res s₁.interrupted) s₁.promptSeq cause
        rw [hsame] at hs hclosed
        rw [← hseq, ← hseq₁] at hclosed
        by_cases hend : s₁.interrupted = true ∨ res = .err
        · rw [if_pos hend] at hs
          cases Option.some_inj.mp hs
          exact Or.inr (hclosed.breakMain_done rfl)
        · rw [if_neg hend] at hs
          cases Option.some_inj.mp hs
          rw [not_or] at hend
          refine At.promote ?_ rfl ?_ hturn₁ (hseq₁ ▸ h.pos) ?_
          · simpa only [hincoming₁] using hclosed
          · rw [hafter₁, h.after, Bool.or_false]
            exact Bool.eq_false_iff.mpr hend.1
          · rw [hesc₁, hint₁]
            exact h.escalated

/-! ## Rounds -/

theorem Outstanding.congr {turn : Turn} (h : s.Outstanding turn) (hseq : s'.promptSeq = s.promptSeq)
    (hcur : s'.doneCurrent = s.doneCurrent) (hwritten : s.written ≤ s'.written) :
    s'.Outstanding turn := by
  refine ⟨h.prompt.trans hseq.symm, hcur.trans h.current, fun completion hc => ?_⟩
  rw [hseq]
  exact ⟨Nat.le_trans (h.own completion hc).1 hwritten, (h.own completion hc).2⟩

theorem Running.congr (h : s.Running c)
    (hmid : s'.Mid (if s.doneCurrent then s.promptSeq else s.promptSeq - 1) s'.incoming)
    (hseq : s'.promptSeq = s.promptSeq) (hwritten : s.written ≤ s'.written)
    (hturn : s'.turn = s.turn) (hcur : s'.doneCurrent = s.doneCurrent)
    (hint : s.interrupted = true → s'.interrupted = true)
    (hafter : s'.doneAfterInterrupt = s.doneAfterInterrupt)
    (hid : s'.currentPromptId = s.currentPromptId)
    (hesc : s'.escalation ≠ none → s'.interrupted = true) : s'.Running c where
  mid := by
    rw [hcur, hseq]
    exact hmid
  pos := hseq ▸ h.pos
  turn turn ht := (h.turn turn (hturn ▸ ht)).congr hseq hcur hwritten
  idle hno := by
    rw [hcur]
    exact (h.idle (hturn ▸ hno)).imp_right hint
  after := hafter.trans h.after
  id hne hext := by
    rw [hid, hseq]
    exact h.id (hturn ▸ hne) hext
  escalated := hesc

theorem Running.same (h : s.Running c) (hended : s'.ended = s.ended) (hout : s'.out = s.out)
    (hseq : s'.promptSeq = s.promptSeq) (hwritten : s'.written = s.written)
    (hresponses : s'.responses = s.responses) (hincoming : s'.incoming = s.incoming)
    (hturn : s'.turn = s.turn) (hcur : s'.doneCurrent = s.doneCurrent)
    (hint : s.interrupted = true → s'.interrupted = true)
    (hafter : s'.doneAfterInterrupt = s.doneAfterInterrupt)
    (hid : s'.currentPromptId = s.currentPromptId)
    (hesc : s'.escalation ≠ none → s'.interrupted = true) : s'.Running c := by
  refine h.congr ?_ hseq (Nat.le_of_eq hwritten.symm) hturn hcur hint hafter hid hesc
  rw [hincoming]
  exact h.mid.congr hended hout hseq hwritten hresponses

theorem Running.breakMain (h : s.Running c) : s.breakMain.Over := by
  have hmid := h.mid
  cases hcur : s.doneCurrent with
  | true =>
    rw [if_pos hcur] at hmid
    exact hmid.breakMain_done hcur
  | false =>
    obtain ⟨hmid, hseq⟩ := h.outstanding hcur
    exact hmid.breakMain_open hseq hcur h.after

theorem Running.arrive (h : s.Running c) {inc : Incoming} (hno : isUpdate inc = false)
    (hbefore : ∀ completion, inc = .complete completion → completion.before ≤ s.written) :
    ({ s with incoming := s.incoming ++ [inc] } : Session).Running c := by
  refine h.congr ⟨h.mid.isOpen, h.mid.due.congr rfl, h.mid.below, ?_, h.mid.answered,
    fun completion hmem => ?_⟩ rfl (Nat.le_refl _) rfl rfl (fun hint => hint) rfl rfl
    h.escalated
  · rw [List.countP_append, List.countP_singleton, if_neg (by simp [hno]), Nat.add_zero]
    exact h.mid.shown
  · rcases List.mem_append.mp hmem with hmem | hmem
    · exact h.mid.before completion hmem
    · exact hbefore completion (List.mem_singleton.mp hmem).symm

theorem Running.read (h : s.Running c) (line : Line) : (s.read line).Running c := by
  cases line with
  | eof => exact h.same rfl rfl rfl rfl rfl rfl rfl rfl (fun hint => hint) rfl rfl h.escalated
  | update boilerplate =>
    refine h.congr ⟨h.mid.isOpen, h.mid.due.congr rfl, h.mid.below, ?_, fun p res before hp => ?_,
      fun completion hmem => ?_⟩ rfl (Nat.le_succ _) rfl rfl (fun hint => hint) rfl rfl
      h.escalated
    · show s.seen + (s.incoming ++ [Incoming.update boilerplate]).countP isUpdate = s.written + 1
      rw [List.countP_append, ← h.mid.shown]
      rfl
    · exact Nat.le_succ_of_le (h.mid.answered p res before hp)
    · rcases List.mem_append.mp hmem with hmem | hmem
      · exact Nat.le_succ_of_le (h.mid.before completion hmem)
      · cases List.mem_singleton.mp hmem
  | complete prompt named stopReason =>
    refine h.arrive rfl fun completion hc => ?_
    cases hc
    exact Nat.le_refl _
  | request asks => exact h.arrive rfl fun completion hc => by cases hc
  | response prompt res =>
    unfold Session.read
    dsimp only
    split_ifs
    · refine h.congr ⟨h.mid.isOpen, h.mid.due.congr rfl, h.mid.below, h.mid.shown,
        fun p res' before hp => ?_, h.mid.before⟩ rfl (Nat.le_refl _) rfl rfl (fun hint => hint)
        rfl rfl h.escalated
      simp only [Function.update_apply] at hp
      split_ifs at hp with he
      · cases Option.some_inj.mp hp
        exact Nat.le_refl _
      · exact h.mid.answered p res' before hp
    · exact h

/-- **A completion**: with an id it settles the prompt it names, or none. -/
theorem Running.complete (h : s.Running c) {completion : Completion}
    (hbefore : completion.before ≤ s.written) : (s.complete c completion).Running c := by
  unfold Session.complete
  dsimp only
  by_cases hlive : c.promptCompleteExtension = true ∧ s.interrupted = false ∧
      ¬ ((∃ p ∈ if completion.named then some (promptId completion.prompt) else none,
          p ∈ s.completedPrompts) ∨
        (if completion.named then some (promptId completion.prompt) else none) ≠ none ∧
          (if completion.named then some (promptId completion.prompt) else none) ≠
            s.currentPromptId)
  swap
  · rw [if_neg hlive]
    exact h
  · rw [if_pos hlive]
    refine ⟨h.mid.congr rfl rfl rfl rfl rfl, h.pos, fun turn ht => ?_, fun hno => ?_, h.after,
      fun hne => ?_, h.escalated⟩
    · obtain ⟨turn', hturn', rfl⟩ := Option.map_eq_some_iff.mp ht
      have hout := h.turn turn' hturn'
      refine ⟨hout.prompt, hout.current, fun completion' hc => ?_⟩
      cases Option.some_inj.mp hc
      refine ⟨hbefore, fun hnamed => ?_⟩
      have hid := h.id (by rw [hturn']; exact Option.some_ne_none _) hlive.1
      have hfresh := (not_or.mp hlive.2.2).2
      rw [if_pos hnamed, not_and, Decidable.not_not, hid] at hfresh
      exact promptId_inj.mp (Option.some_inj.mp (hfresh (Option.some_ne_none _)))
    · exact h.idle (Option.map_eq_none_iff.mp hno)
    · exact h.id fun hno => hne (by rw [hno]; rfl)

theorem Running.emit (h : s.Running c) {inc : Incoming} {rest : List Incoming}
    (hincoming : s.incoming = inc :: rest) : ({ s with incoming := rest }.emit inc).Inv c := by
  have hat : ({ s with incoming := rest } : Session).At
      (if s.doneCurrent then s.promptSeq else s.promptSeq - 1) (inc :: rest) :=
    Or.inl (hincoming ▸ h.mid.congr rfl rfl rfl rfl rfl)
  have hemit := hat.emit
  obtain ⟨_, _, _, hs⟩ := emit_same { s with incoming := rest } inc
  rw [hs] at hemit ⊢
  rcases hemit with hmid | hover
  · exact Or.inl (h.congr hmid rfl (Nat.le_refl _) rfl rfl (fun hint => hint) rfl rfl h.escalated)
  · exact Or.inr hover

theorem Running.next (h : s.Running c) {inc : Incoming} {rest : List Incoming}
    (hincoming : s.incoming = inc :: rest) : ({ s with incoming := rest }.next c inc).Inv c := by
  have hset : ∀ deadline, ({ s with promptStallDeadline := deadline } : Session).Running c :=
    fun deadline => h.same rfl rfl rfl rfl rfl rfl rfl rfl (fun hint => hint) rfl rfl h.escalated
  cases inc with
  | update boilerplate =>
    exact (hset (s.promptStallDeadline && boilerplate)).emit hincoming
  | request asks => exact (hset false).emit hincoming
  | complete completion =>
    have hrun := (hset false).emit hincoming
    have hbefore := h.mid.before completion (by rw [hincoming]; exact List.mem_cons_self)
    exact Or.inl (Running.complete
      (hrun.resolve_right fun hover => absurd (hover.ended.symm.trans h.mid.isOpen) (by simp))
      hbefore)

theorem Running.eof (h : s.Running c) (hempty : s.incoming = []) : s.eof.Over := by
  unfold Session.eof
  cases hturn : s.turn with
  | none => exact h.breakMain
  | some turn =>
    have hout := h.turn turn hturn
    obtain ⟨hmid, hseq⟩ := h.outstanding hout.current
    have hopen : ({ s with turn := none } : Session).breakMain.Over :=
      Mid.breakMain_open (s := { s with turn := none }) (hmid.congr rfl rfl rfl rfl rfl) hseq
        hout.current h.after
    dsimp only
    cases hresult : s.result turn with
    | none => exact hopen
    | some pair =>
      obtain ⟨res, cause⟩ := pair
      cases res with
      | err => exact hopen
      | ok stop =>
        have hown := h.result_own hturn hresult fun hno => by cases hno.1
        have hclosed := At.close (s := { s with turn := none })
          (Or.inl (hmid.congr rfl rfl rfl rfl rfl)) hseq
          (stopOutcome (.ok stop) s.interrupted) cause
          (fun hint => stopOutcome_interrupted _ hint) fun seen hseen => by
            rw [hempty, List.countP_nil, Nat.add_zero] at hseen
            rw [hseen]
            exact hown
        obtain ⟨_, _, _, hsame⟩ := close_same { s with turn := none }
          (stopOutcome (.ok stop) s.interrupted) s.promptSeq cause
        dsimp only at hclosed ⊢
        rw [hout.prompt]
        rw [hsame] at hclosed ⊢
        rw [← hseq] at hclosed
        exact hclosed.breakMain_done rfl

/-! ## Steers -/

theorem Running.between (h : s.Running c) (hturn : s.turn = none) (hint : s.interrupted = false) :
    s.doneCurrent = true ∧ s.Mid s.promptSeq s.incoming := by
  have hcur := (h.idle hturn).resolve_right (by simp [hint])
  have hmid := h.mid
  rw [if_pos hcur] at hmid
  exact ⟨hcur, hmid⟩

theorem Running.queues (h : s.Running c) (steeringCall : Option String)
    (queuedSteers steerBacklog : List String) (starveDeadline cancelFlushDeadline : Bool) :
    ({ s with steeringCall, queuedSteers, steerBacklog, starveDeadline, cancelFlushDeadline } :
      Session).Running c :=
  h.same rfl rfl rfl rfl rfl rfl rfl rfl (fun hint => hint) rfl rfl h.escalated

theorem Running.prompt (h : s.Running c) (hturn : s.turn = none) (hint : s.interrupted = false) :
    (s.prompt c).Inv c :=
  At.prompt (Or.inl (h.between hturn hint).2) h.after h.escalated

theorem Running.injected (h : s.Running c) : (s.drain.send .steered).Inv c := by
  have hdrain : s.drain.At _ [] := At.drain (Or.inl h.mid)
  have hsent := hdrain.send (e := .steered) rfl Event.noConfusion
  obtain ⟨_, _, _, hs⟩ := drain_same s
  obtain ⟨_, _, _, hs'⟩ := send_same s.drain .steered
  rw [hs', hs] at hsent ⊢
  rcases hsent with hmid | hover
  · exact Or.inl (h.congr hmid rfl (Nat.le_refl _) rfl rfl (fun hint => hint) rfl rfl h.escalated)
  · exact Or.inr hover

theorem Inv.followers (h : s.Inv c) :
    (if s.ended then s else s.followers).Inv c := by
  by_cases hended : s.ended = true
  · rwa [if_pos hended]
  · rw [if_neg hended]
    have hrun : s.Running c := h.resolve_right fun hover => hended hover.ended
    unfold Session.followers
    cases hbacklog : s.steerBacklog with
    | nil => exact Or.inl hrun
    | cons text rest =>
      dsimp only
      split_ifs
      · exact Or.inl (hrun.queues (some text) s.queuedSteers rest s.starveDeadline
          s.cancelFlushDeadline)
      · exact Or.inl (hrun.queues s.steeringCall (s.queuedSteers ++ text :: rest) []
          s.starveDeadline s.cancelFlushDeadline)

theorem Running.steered (h : s.Running c) (text : String) (reply : Reply) :
    (s.steered c text reply).Inv c := by
  have hset := h.queues none s.queuedSteers s.steerBacklog s.starveDeadline s.cancelFlushDeadline
  unfold Session.steered
  refine Inv.followers ?_
  dsimp only
  by_cases hfired : s.interrupted = true
  · rw [if_pos hfired]
    exact Or.inl hset
  · have hint : s.interrupted = false := Bool.eq_false_iff.mpr hfired
    rw [if_neg hfired]
    by_cases hturn : s.turn = none
    · cases reply with
      | injected =>
        simp only [if_pos hturn]
        exact Or.inl hset
      | promptRequired noRunningTurn =>
        simp only [if_pos hturn]
        exact hset.prompt hturn hint
      | failed =>
        simp only [if_pos hturn]
        exact hset.prompt hturn hint
    · cases reply with
      | injected =>
        simp only [if_neg hturn]
        exact (h.queues none s.queuedSteers s.steerBacklog false s.cancelFlushDeadline).injected
      | promptRequired noRunningTurn =>
        simp only [if_neg hturn]
        exact Or.inl (h.queues none (s.queuedSteers ++ [text]) s.steerBacklog
          (noRunningTurn || s.starveDeadline) s.cancelFlushDeadline)
      | failed =>
        simp only [if_neg hturn]
        exact Or.inl (h.queues none (s.queuedSteers ++ [text]) s.steerBacklog s.starveDeadline
          s.cancelFlushDeadline)

theorem Running.flush (h : s.Running c) (hint : s.interrupted = false) : (s.flush c).Inv c := by
  have hset := h.queues s.steeringCall s.queuedSteers s.steerBacklog s.starveDeadline false
  unfold Session.flush
  dsimp only
  by_cases hturn : s.turn = none
  · rw [if_pos hturn]
    obtain ⟨hcur, hmid⟩ := hset.between hturn hint
    exact At.promote (Or.inl hmid) hcur h.after hturn h.pos h.escalated
  · rw [if_neg hturn]
    exact Or.inl hset

theorem Running.steer (h : s.Running c) (hint : s.interrupted = false) (text : String)
    (busy : Bool) : (s.steer c text busy).Inv c := by
  unfold Session.steer
  by_cases hturn : s.turn = none
  · rw [if_pos hturn]
    split_ifs
    · exact Or.inl (h.queues s.steeringCall (s.queuedSteers ++ [text]) s.steerBacklog
        s.starveDeadline s.cancelFlushDeadline)
    · exact Or.inl (h.queues s.steeringCall (s.queuedSteers ++ [text]) s.steerBacklog
        s.starveDeadline true)
    · exact h.prompt hturn hint
  · rw [if_neg hturn]
    split_ifs
    · exact Or.inl (h.queues (some text) s.queuedSteers s.steerBacklog s.starveDeadline
        s.cancelFlushDeadline)
    · exact Or.inl (h.queues s.steeringCall s.queuedSteers (s.steerBacklog ++ [text])
        s.starveDeadline s.cancelFlushDeadline)
    · exact Or.inl (h.queues s.steeringCall (s.queuedSteers ++ [text]) s.steerBacklog
        s.starveDeadline s.cancelFlushDeadline)

/-! ## Prompts that are given up -/

theorem Running.starved (h : s.Running c) (hturn : s.turn ≠ none) (hint : s.interrupted = false) :
    (s.starved c).Inv c := by
  obtain ⟨turn, hturn⟩ := Option.ne_none_iff_exists'.mp hturn
  have hout := h.turn turn hturn
  obtain ⟨hmid, hseq⟩ := h.outstanding hout.current
  have hclosed := At.close (s := { s with starveDeadline := false, turn := none })
    (Or.inl (hmid.congr rfl rfl rfl rfl rfl)) hseq .completed .starved
    (fun hfired => absurd (hfired.symm.trans hint) (by simp)) fun _ _ => trivial
  obtain ⟨_, _, _, hsame⟩ := close_same { s with starveDeadline := false, turn := none }
    .completed s.promptSeq .starved
  unfold Session.starved
  dsimp only at hclosed ⊢
  rw [hsame] at hclosed ⊢
  rw [← hseq] at hclosed
  exact At.promote hclosed rfl (by simp [hint, h.after]) rfl h.pos h.escalated

theorem Running.stalled (h : s.Running c) (hturn : s.turn ≠ none) (hint : s.interrupted = false) :
    s.stalled.Over := by
  obtain ⟨turn, hturn⟩ := Option.ne_none_iff_exists'.mp hturn
  have hout := h.turn turn hturn
  obtain ⟨hmid, hseq⟩ := h.outstanding hout.current
  have hsent : (s.send .content).At (s.promptSeq - 1) s.incoming :=
    At.send (Or.inl hmid) rfl Event.noConfusion
  obtain ⟨out, takes, ended, hs⟩ := send_same s .content
  unfold Session.stalled
  rw [hs] at hsent ⊢
  have hset : ({ s with doneCurrent := true, out, takes, ended } : Session).At (s.promptSeq - 1)
      s.incoming := hsent.congr rfl rfl rfl rfl rfl rfl
  have hdone := hset.settled hseq .errored .stalled
    (fun hfired => absurd (hfired.symm.trans hint) (by simp)) fun _ => trivial
  rw [← hseq] at hdone
  obtain ⟨_, _, _, hs'⟩ := send_same { s with doneCurrent := true, out, takes, ended }
    (settled { s with doneCurrent := true, out, takes, ended } .errored (some s.promptSeq) .stalled)
  dsimp only at hdone ⊢
  rw [hs'] at hdone ⊢
  exact hdone.breakMain_done rfl

/-! ## Runs -/

/-- **One round.** -/
theorem inv_step {a : Act} (h : s.Inv c) (hs : s.step c a = some s') : s'.Inv c := by
  unfold step at hs
  by_cases hended : s.ended = true
  · simp [hended] at hs
  rw [if_neg hended] at hs
  have h : s.Running c := h.resolve_right fun hover => hended hover.ended
  cases a with
  | read line =>
    dsimp only at hs
    split_ifs at hs
    cases Option.some_inj.mp hs
    exact Or.inl (h.read line)
  | settle reply => exact h.settle hs
  | next =>
    dsimp only at hs
    cases hincoming : s.incoming with
    | nil => simp [hincoming] at hs
    | cons inc rest =>
      rw [hincoming] at hs
      cases Option.some_inj.mp hs
      exact h.next hincoming
  | eof =>
    dsimp only at hs
    split_ifs at hs with hempty
    cases Option.some_inj.mp hs
    exact Or.inr (h.eof hempty.2)
  | steered reply =>
    obtain ⟨text, -, rfl⟩ := Option.map_eq_some_iff.mp hs
    exact h.steered text reply
  | flush =>
    dsimp only at hs
    split_ifs at hs with hlive
    cases Option.some_inj.mp hs
    exact h.flush hlive.2
  | starved =>
    dsimp only at hs
    split_ifs at hs with hlive
    cases Option.some_inj.mp hs
    exact h.starved hlive.2.1 hlive.2.2
  | steer text busy =>
    dsimp only at hs
    split_ifs at hs with hlive
    cases Option.some_inj.mp hs
    exact h.steer hlive.2 text busy
  | mailboxClosed =>
    dsimp only at hs
    have hset : ({ s with steeringOpen := false } : Session).Running c :=
      h.same rfl rfl rfl rfl rfl rfl rfl rfl (fun hint => hint) rfl rfl h.escalated
    split_ifs at hs <;> cases Option.some_inj.mp hs
    · exact Or.inr hset.breakMain
    · exact Or.inl hset
  | interrupt target =>
    dsimp only at hs
    have hset : ∀ escalation, ({ s with
        interruptSent := true, interrupted := true, escalation } : Session).Running c :=
      fun _ => h.same rfl rfl rfl rfl rfl rfl rfl rfl (fun _ => rfl) rfl rfl fun _ => rfl
    split_ifs at hs <;> cases Option.some_inj.mp hs
    · exact Or.inr (hset s.escalation).breakMain
    · exact Or.inl (hset (some .term))
    · exact Or.inl (hset s.escalation)
  | stalled =>
    dsimp only at hs
    split_ifs at hs with hlive
    cases Option.some_inj.mp hs
    exact Or.inr (h.stalled hlive.2.1 hlive.2.2)
  | escalate =>
    obtain ⟨signal, hsignal, rfl⟩ := Option.map_eq_some_iff.mp hs
    have hint := h.escalated (by rw [hsignal]; exact Option.some_ne_none _)
    exact Or.inl ⟨h.mid.congr rfl rfl rfl rfl rfl, h.pos, fun turn ht => (by cases ht),
      fun _ => Or.inr hint, h.after, fun hne => absurd rfl hne, fun _ => hint⟩
  | childExit =>
    dsimp only at hs
    split_ifs at hs
    cases Option.some_inj.mp hs
    exact Or.inl (h.same rfl rfl rfl rfl rfl rfl rfl rfl (fun hint => hint) rfl rfl
      fun hne => absurd rfl hne)
  | exitDrained =>
    dsimp only at hs
    split_ifs at hs
    cases Option.some_inj.mp hs
    exact Or.inr h.breakMain
  | hungUp =>
    dsimp only at hs
    split_ifs at hs
    cases Option.some_inj.mp hs
    exact Or.inr h.breakMain

theorem inv_start (c : Config) (takes : Option ℕ) : (start c takes).Inv c := by
  refine Or.inl ⟨⟨rfl, ⟨rfl, ?_⟩, ⟨Nat.zero_le _, Nat.le_refl _⟩, rfl, ?_, ?_⟩, Nat.one_pos, ?_, ?_,
    rfl, fun _ hext => if_pos hext, fun hne => absurd rfl hne⟩
  · exact fun d hd => (by cases hd)
  · exact fun p res before hp => (by cases hp)
  · exact fun completion hmem => (by cases hmem)
  · rintro turn ⟨⟩
    exact ⟨rfl, rfl, fun completion hcompletion => (by cases hcompletion)⟩
  · exact fun hno => (by cases hno)

theorem Inv.settled (h : s.Inv c) : s.Settled := by
  have hlength : ∀ n, s.Due n → s.prompts.length = n := fun n hdue => by
    rw [hdue.order, List.length_range']
  rcases h with h | h
  · have hlen := hlength _ h.mid.due
    refine ⟨by rw [hlen]; exact h.mid.due.order, ?_, ?_, h.mid.due.good⟩
    · rw [hlen]
      exact ⟨h.mid.below.1, fun _ => h.mid.below.2⟩
    · exact fun hended => absurd (hended.symm.trans h.mid.isOpen) (by simp)
  · obtain ⟨n, hle, hdue, hlast⟩ := h.due
    have hlen := hlength n hdue
    refine ⟨by rw [hlen]; exact hdue.order, ⟨hlen ▸ hle, ?_⟩, fun _ htakes => ?_, hdue.good⟩
    · exact fun hopen => absurd (hopen.symm.trans h.ended) (by simp)
    · rw [hlen]
      exact hlast.resolve_left htakes

/-- **Every prompt settles once**, in order and by what is its own. -/
theorem prompts_settled (c : Config) (takes : Option ℕ) (acts : List Act) {s : Session}
    (he : exec (step c) (start c takes) acts = some s) : s.Settled := by
  have hg : Guarded (step c) (fun _ _ => True) (start c takes) acts := fun _ _ _ _ _ _ => trivial
  exact (exec_invariant (fun _ _ _ h _ hs => inv_step h hs) (inv_start c takes) hg he).settled

/-- An agent with both extensions, and with neither deadline. -/
def both : Config where
  promptCompleteExtension := true
  promptStall := false
  steerExt := true

/-- The first prompt starves, and the steer becomes the second one; the interrupt ends it. -/
def starvedThenInterrupted : List Act :=
  [.read (.update false), .next, .steer "and then?" false, .steered (.promptRequired true),
    .starved, .read (.complete 1 true none), .next, .read (.update false), .interrupt true,
    .read (.response 2 (.ok (some "cancelled"))), .settle .failed]

theorem prompts_settled_starved : ∃ s,
    exec (step both) (start both none) starvedThenInterrupted = some s ∧ s.ended = true ∧
      s.dones = [⟨.completed, some 1, .starved, 1, false⟩,
        ⟨.interrupted, some 2, .response 2 2, 2, true⟩] ∧ s.Settled :=
  ⟨_, rfl, by decide, by decide, prompts_settled both none starvedThenInterrupted rfl⟩

/-! ## What is not promised -/

/-- The completion of the first prompt is repeated, without an id, while the second is
outstanding. -/
def repeated : List Act :=
  [.read (.response 1 (.ok none)), .settle .failed, .steer "and then?" false,
    .read (.complete 1 false none), .next, .settle .failed]

/-- A prompt is given up; then there is an update, and its response. -/
def givenUp : List Act :=
  [.steer "and then?" false, .steered (.promptRequired true), .starved, .read (.update false),
    .read (.response 1 (.ok none))]

/-- **A completion without an id settles the prompt it finds, and a prompt that was given up may be
answered after all.** -/
theorem settled_astray :
    (∃ s, exec (step both) (start both none) repeated = some s ∧ s.dones = [
        ⟨.completed, some 1, .response 1 0, 0, false⟩,
        ⟨.completed, some 2, .completion ⟨1, false, none, 0⟩, 0, false⟩] ∧ ¬ s.Owned) ∧
      ∃ s, exec (step both) (start both none) givenUp = some s ∧
        s.dones = [⟨.completed, some 1, .starved, 0, false⟩] ∧ ¬ s.Shown := by
  refine ⟨⟨_, rfl, by decide, fun h => ?_⟩, ⟨_, rfl, by decide, fun h => ?_⟩⟩
  · have hown := h ⟨.completed, some 2, .completion ⟨1, false, none, 0⟩, 0, false⟩ (by decide) _ rfl
    exact absurd hown (by decide)
  · exact absurd (h 1 (.ok none) 1 rfl ⟨.completed, some 1, .starved, 0, false⟩ (by decide) rfl)
      (by decide)

end Session

end Zeron.Agent.Acp
