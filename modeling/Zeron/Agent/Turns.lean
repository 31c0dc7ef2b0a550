import Zeron.Agent.Codex

/-!
# Every turn settles once

A turn that is started or adopted has one `Done`: at its end, or as the stream ends
(`harness/src/codex/mod.rs`). The loop takes the end that arrives for the end of the turn it has.

* `ends`, `Settled`: what is promised;
* `Timely`: an end names the active turn, and no turn is started over one that has not ended;
* **`turns_settled`**; `late_end`: the end of an older turn settles the one in flight.
-/

namespace Zeron.Agent.Codex

open Run

/-! ## What is promised -/

def settle? : Event → Option Settle
  | .done settle => some settle
  | _ => none

namespace Session

variable (s : Session)

/-- How often a turn was settled. -/
def ends (turn : String) : ℕ :=
  ((s.out.filterMap settle?).filter (·.turn = some turn)).length

/-- Every turn has one `Done`, and none is sent while another turn is active. -/
structure Settled : Prop where
  once : ∀ turn, s.ends turn ≤ 1
  /-- Only a turn that was started or adopted is settled. -/
  known : ∀ turn, turn ∉ s.begun → s.ends turn = 0
  calm : ∀ d ∈ s.out.filterMap settle?, d.active = none ∨ d.active = d.turn
  fired : ∀ d ∈ s.out.filterMap settle?, d.fired = true → d.status = .interrupted
  /-- A turn that is no longer active was settled. -/
  past : s.ended = false → ∀ turn ∈ s.begun, s.router.active ≠ some turn → s.ends turn = 1
  /-- The stream ends with every turn settled, unless the consumer hung up. -/
  last : s.ended = true → s.takes ≠ some 0 → ∀ turn ∈ s.begun, s.ends turn = 1

/-! ## The condition -/

/-- The answer to a `turn/start` names a new turn. -/
def Fresh : Started → Prop
  | .turn id => id ∉ s.begun
  | _ => True

instance : DecidablePred s.Fresh := fun answer =>
  match answer with
  | .turn id => inferInstanceAs (Decidable (id ∉ s.begun))
  | .goal _ _ | .failed => isTrue trivial

/-- A turn is new when it starts, and starts over no other; an end names the active turn. -/
def Timely : Act → Prop
  | .started id => id ≠ "" ∧ (s.router.active = some id ∨ s.router.isCompleted id = true ∨
      s.router.active = none ∧ id ∉ s.begun)
  | .completed id _ answers => s.router.active = some id ∧ ∀ answer ∈ answers, s.Fresh answer
  | .failed id | .aborted id => s.router.active = some id
  | .steer _ _ answer => s.Fresh answer
  | _ => True

instance (a : Act) : Decidable (s.Timely a) :=
  match a with
  | .started id => inferInstanceAs (Decidable (id ≠ "" ∧ (s.router.active = some id ∨
      s.router.isCompleted id = true ∨ s.router.active = none ∧ id ∉ s.begun)))
  | .completed id _ answers => inferInstanceAs (Decidable (s.router.active = some id ∧
      ∀ answer ∈ answers, s.Fresh answer))
  | .failed id | .aborted id => inferInstanceAs (Decidable (s.router.active = some id))
  | .steer _ _ answer => inferInstanceAs (Decidable (s.Fresh answer))
  | .content | .mailboxClosed | .interrupt | .eof | .hungUp => isTrue trivial

/-! ## The invariant -/

/-- Every turn is settled, but the one that is due. -/
structure Due (due : Option String) : Prop where
  begun : ∀ turn, due = some turn → turn ∈ s.begun
  unsettled : ∀ turn, due = some turn → s.ends turn = 0
  settled : ∀ turn ∈ s.begun, due ≠ some turn → s.ends turn = 1
  known : ∀ turn, turn ∉ s.begun → s.ends turn = 0
  calm : ∀ d ∈ s.out.filterMap settle?, d.active = none ∨ d.active = d.turn
  fired : ∀ d ∈ s.out.filterMap settle?, d.fired = true → d.status = .interrupted

/-- The loop runs: the active turn is due, and no other. -/
structure Running : Prop where
  isOpen : s.ended = false
  due : s.Due s.router.active
  current : s.router.active ≠ none → s.doneCurrent = false
  named : s.router.active ≠ some ""
  live : ∀ turn, s.router.active = some turn → turn ∉ s.router.completed
  past : ∀ turn ∈ s.router.completed, turn ∈ s.begun
  after : s.doneAfterInterrupt = false

/-- The loop is over: nothing is due, or nobody listens. -/
structure Over : Prop where
  ended : s.ended = true
  due : ∃ due, s.Due due ∧ (s.takes = some 0 ∨ due = none)

def Inv : Prop := s.Running ∨ s.Over

end Session

/-! ## Events -/

namespace Session

variable {s s' : Session}

theorem ends_append {turn : String} {e : Event} (hout : s'.out = s.out ++ [e]) :
    s'.ends turn = s.ends turn +
      (((settle? e).toList).filter (·.turn = some turn)).length := by
  unfold ends
  rw [hout, List.filterMap_append, List.filter_append, List.length_append]
  cases e <;> rfl

theorem Due.congr {due : Option String} (h : s.Due due) (hout : s'.out = s.out)
    (hbegun : s'.begun = s.begun) : s'.Due due := by
  have hends : ∀ turn, s'.ends turn = s.ends turn := fun turn => by
    unfold ends
    rw [hout]
  refine ⟨fun turn hd => ?_, fun turn hd => ?_, fun turn hb hd => ?_, fun turn hb => ?_, ?_, ?_⟩
  · rw [hbegun]
    exact h.begun turn hd
  · rw [hends]
    exact h.unsettled turn hd
  · rw [hends]
    exact h.settled turn (hbegun ▸ hb) hd
  · rw [hends]
    exact h.known turn (hbegun ▸ hb)
  · rw [hout]
    exact h.calm
  · rw [hout]
    exact h.fired

/-- An event that settles no turn. -/
def Quiet (e : Event) : Prop := ∀ d, settle? e = some d →
  d.turn = none ∧ d.active = none ∧ (d.fired = true → d.status = .interrupted)

theorem Due.push_quiet {due : Option String} (h : s.Due due) {e : Event} (he : Quiet e) :
    (s.push e).Due due := by
  have hends : ∀ turn, (s.push e).ends turn = s.ends turn := fun turn => by
    rw [ends_append (s := s) (e := e) rfl]
    cases hd : settle? e with
    | none => rfl
    | some d => simp [(he d hd).1]
  have hmem : ∀ d ∈ (s.push e).out.filterMap settle?,
      d ∈ s.out.filterMap settle? ∨ settle? e = some d := fun d hd => by
    simpa [push, List.filterMap_append, List.mem_append] using hd
  refine ⟨h.begun, fun turn hd => ?_, fun turn hb hd => ?_, fun turn hb => ?_, fun d hd => ?_,
    fun d hd hf => ?_⟩
  · rw [hends]
    exact h.unsettled turn hd
  · rw [hends]
    exact h.settled turn hb hd
  · rw [hends]
    exact h.known turn hb
  · rcases hmem d hd with hd | hd
    · exact h.calm d hd
    · exact Or.inl (he d hd).2.1
  · rcases hmem d hd with hd | hd
    · exact h.fired d hd hf
    · exact (he d hd).2.2 hf

/-- **The `Done` of the turn that is due.** -/
theorem Due.push_done {due : Option String} (h : s.Due due) {d : Settle} (hturn : d.turn = due)
    (hactive : d.active = none ∨ d.active = due)
    (hfired : d.fired = true → d.status = .interrupted) : (s.push (.done d)).Due none := by
  have hends : ∀ turn, (s.push (.done d)).ends turn =
      s.ends turn + if due = some turn then 1 else 0 := fun turn => by
    rw [ends_append (s := s) (e := .done d) rfl]
    by_cases hd : due = some turn
    · simp [settle?, hturn, hd]
    · simp [settle?, hturn, hd]
  have hmem : ∀ d' ∈ (s.push (.done d)).out.filterMap settle?,
      d' ∈ s.out.filterMap settle? ∨ d' = d := fun d' hd' => by
    simpa [push, List.filterMap_append, List.mem_append, settle?] using hd'
  refine ⟨fun turn hd => (by cases hd), fun turn hd => (by cases hd), fun turn hb _ => ?_,
    fun turn hb => ?_, fun d' hd => ?_, fun d' hd hf => ?_⟩
  · rw [hends]
    split_ifs with hd
    · rw [h.unsettled turn hd]
    · rw [h.settled turn hb hd]
  · rw [hends, if_neg fun hd => hb (h.begun turn hd), h.known turn hb]
  · rcases hmem d' hd with hd | rfl
    · exact h.calm d' hd
    · rcases hactive with ha | ha
      · exact Or.inl ha
      · exact Or.inr (ha.trans hturn.symm)
  · rcases hmem d' hd with hd | rfl
    · exact h.fired d' hd hf
    · exact hfired hf

theorem Due.begin (h : s.Due none) {turn : String} (hnew : turn ∉ s.begun)
    (hout : s'.out = s.out) (hbegun : s'.begun = s.begun ++ [turn]) : s'.Due (some turn) := by
  have hends : ∀ t, s'.ends t = s.ends t := fun t => by
    unfold ends
    rw [hout]
  refine ⟨fun t ht => ?_, fun t ht => ?_, fun t hb ht => ?_, fun t hb => ?_, ?_, ?_⟩
  · cases ht
    rw [hbegun]
    exact List.mem_append_right _ (List.mem_singleton_self _)
  · cases ht
    rw [hends]
    exact h.known turn hnew
  · rw [hends]
    rw [hbegun, List.mem_append, List.mem_singleton] at hb
    exact h.settled t (hb.resolve_right fun he => ht (congrArg some he.symm)) (by simp)
  · rw [hends]
    exact h.known t fun hb' => hb (hbegun ▸ List.mem_append_left _ hb')
  · rw [hout]
    exact h.calm
  · rw [hout]
    exact h.fired

/-! ## Sends -/

theorem Inv.of_gone {due : Option String} (h : s.Due due) (htakes : s.takes = some 0) :
    ({ s with ended := true } : Session).Inv :=
  Or.inr ⟨rfl, due, h.congr rfl rfl, Or.inl htakes⟩

theorem Inv.send (h : s.Inv) {e : Event} (he : Quiet e) : (s.send e).Inv := by
  rcases send_cases s e with ⟨-, hs⟩ | ⟨hopen, htakes, hs⟩ | ⟨hopen, htakes, hs⟩
  · rwa [hs]
  · rw [hs]
    rcases h with h | h
    · exact Inv.of_gone h.due htakes
    · exact absurd (h.ended.symm.trans hopen) (by simp)
  · rw [hs]
    rcases h with h | h
    · exact Or.inl ⟨h.isOpen, h.due.push_quiet he, h.current, h.named, h.live, h.past, h.after⟩
    · exact absurd (h.ended.symm.trans hopen) (by simp)

theorem Inv.breakMain (h : s.Inv) : s.breakMain.Inv := by
  rcases h with h | h
  swap
  · rw [breakMain_of_ended h.ended]
    exact Or.inr h
  rcases breakMain_cases h.isOpen with ⟨htakes, hs⟩ | ⟨-, hint, -, hs⟩ | ⟨-, hint, -, hs⟩ |
      ⟨hint, hcur, hs⟩
  · rw [hs]
    exact Inv.of_gone h.due htakes
  · rw [hs]
    exact Or.inr ⟨rfl, none, (h.due.push_done rfl (Or.inr rfl) fun _ => rfl).congr rfl rfl,
      Or.inr rfl⟩
  · rw [hs]
    exact Or.inr ⟨rfl, none, (h.due.push_done rfl (Or.inr rfl) fun hf => absurd hf (by
      simp [hint])).congr rfl rfl, Or.inr rfl⟩
  · rw [hs]
    have hnot : s.interrupted = false := by
      cases hi : s.interrupted with
      | false => rfl
      | true => exact absurd (hint hi) (by simp [h.after])
    have hidle : s.router.active = none := by
      by_contra hactive
      exact absurd (h.current hactive) (by simp [hcur hnot])
    exact Or.inr ⟨rfl, none, hidle ▸ h.due.congr rfl rfl, Or.inr rfl⟩

/-! ## New turns -/

theorem Running.begin (h : s.Running) {router : TurnRouter}
    (hcompleted : router.completed = s.router.completed) (hname : router.active ≠ some "")
    (hnew : router.active = s.router.active ∨
      s.router.active = none ∧ ∀ id, router.active = some id → id ∉ s.begun) :
    (s.begin router).Running := by
  cases hactive : router.active with
  | none =>
    refine ⟨h.isOpen, ?_, fun hne => rfl, hname, fun turn ht => ?_, fun turn hmem => ?_, h.after⟩
    · have hold : s.router.active = none := by
        rcases hnew with hsame | ⟨hold, -⟩
        · rw [← hsame, hactive]
        · exact hold
      have hbegun : (s.begin router).begun = s.begun := by rw [Session.begin, hactive]
      show (s.begin router).Due router.active
      rw [hactive]
      exact (hold ▸ h.due).congr rfl hbegun
    · cases hactive.symm.trans ht
    · have hbegun : (s.begin router).begun = s.begun := by rw [Session.begin, hactive]
      rw [hbegun]
      exact h.past turn (hcompleted ▸ hmem)
  | some id =>
    have hlive : ∀ turn, router.active = some turn → turn ∉ router.completed := by
      intro turn ht
      rw [hcompleted]
      rcases hnew with hsame | ⟨-, hnew⟩
      · exact h.live turn (hsame ▸ ht)
      · exact fun hmem => hnew turn ht (h.past turn hmem)
    by_cases hin : id ∈ s.begun
    · have hsame : router.active = s.router.active :=
        hnew.resolve_right fun hn => hn.2 id hactive hin
      have hbegun : (s.begin router).begun = s.begun := by
        simp only [Session.begin, hactive, if_pos hin]
      refine ⟨h.isOpen, ?_, fun _ => rfl, hname, hlive, fun turn hmem => ?_, h.after⟩
      · show (s.begin router).Due router.active
        rw [hsame]
        exact h.due.congr rfl hbegun
      · rw [hbegun]
        exact h.past turn (hcompleted ▸ hmem)
    · have hold : s.router.active = none := by
        rcases hnew with hsame | ⟨hold, -⟩
        · exact absurd (h.due.begun id (hsame ▸ hactive)) hin
        · exact hold
      have hbegun : (s.begin router).begun = s.begun ++ [id] := by
        simp only [Session.begin, hactive, if_neg hin]
      refine ⟨h.isOpen, ?_, fun _ => rfl, hname, hlive, fun turn hmem => ?_, h.after⟩
      · show (s.begin router).Due router.active
        rw [hactive]
        exact Due.begin (hold ▸ h.due) hin rfl hbegun
      · rw [hbegun]
        exact List.mem_append_left _ (h.past turn (hcompleted ▸ hmem))

theorem Running.adopt (h : s.Running) (hidle : s.router.active = none) {id : String}
    (hfresh : id ∉ s.begun) : (s.begin (s.router.adoptStarted id)).Running := by
  refine h.begin rfl ?_ (Or.inr ⟨hidle, fun turn ht => ?_⟩)
  · unfold TurnRouter.adoptStarted
    split_ifs with hid
    · exact fun he => hid.1 (Option.some_inj.mp he)
    · exact fun he => by cases he
  · unfold TurnRouter.adoptStarted at ht
    split_ifs at ht
    exact Option.some_inj.mp ht ▸ hfresh

theorem quiet_content : Quiet .content := fun _ hd => by cases hd

theorem quiet_steered (n : ℕ) : Quiet (.steered n) := fun _ hd => by cases hd

theorem quiet_turnStarted (id : String) : Quiet (.turnStarted id) := fun _ hd => by cases hd

theorem quiet_settle (hidle : s.router.active = none) (hint : s.interrupted = false)
    (status : Status) : Quiet (s.settle status none) := fun _ hd => by
  cases Option.some_inj.mp hd
  exact ⟨rfl, hidle, fun hf => absurd hf (by simp [hint])⟩

theorem Running.between (h : s.Running) (hidle : s.router.active = none) (hout : s'.out = s.out)
    (hbegun : s'.begun = s.begun) (hrouter : s'.router = s.router) (hended : s'.ended = s.ended)
    (hafter : s'.doneAfterInterrupt = s.doneAfterInterrupt) : s'.Running where
  isOpen := hended.trans h.isOpen
  due := by
    rw [hrouter]
    exact h.due.congr hout hbegun
  current hne := absurd (hrouter ▸ hidle) hne
  named := hrouter ▸ h.named
  live := by
    rw [hrouter]
    exact h.live
  past := by
    rw [hrouter, hbegun]
    exact h.past
  after := hafter.trans h.after

/-- **A steer as a new turn.** -/
theorem Running.steerAsNewTurn (h : s.Running) (hidle : s.router.active = none)
    (hint : s.interrupted = false) (n : ℕ) {answer : Started} (hfresh : s.Fresh answer) :
    (s.steerAsNewTurn n answer).Inv := by
  cases answer with
  | turn id =>
    have hbegin := h.adopt hidle hfresh
    have hdeliver : ((s.begin (s.router.adoptStarted id)).deliver n).Running :=
      ⟨hbegin.isOpen, hbegin.due.congr rfl rfl, hbegin.current, hbegin.named, hbegin.live,
        hbegin.past, hbegin.after⟩
    exact Inv.send (Or.inl hdeliver) (quiet_steered n)
  | goal startsTurn message =>
    have hset : ({ s.deliver n with doneCurrent := !startsTurn, currentNative := false } :
        Session).Running := h.between hidle rfl rfl rfl rfl rfl
    have hsent := Inv.send (Inv.send (Or.inl hset) quiet_content) (quiet_steered n)
    unfold Session.steerAsNewTurn
    dsimp only
    cases message with
    | none =>
      cases startsTurn with
      | true => exact hsent
      | false =>
        exact hsent.send
          (quiet_settle (by simpa [deliver] using hidle) (by simpa [deliver] using hint) _)
    | some text =>
      cases startsTurn with
      | true => exact hsent.send quiet_content
      | false =>
        exact (hsent.send quiet_content).send
          (quiet_settle (by simpa [deliver] using hidle) (by simpa [deliver] using hint) _)
  | failed =>
    have hset : ({ s with doneCurrent := true, currentNative := false } : Session).Running :=
      h.between hidle rfl rfl rfl rfl rfl
    exact (Inv.send (Or.inl hset) (quiet_steered n)).send
      (quiet_settle (by simpa using hidle) (by simpa using hint) _)

theorem steerAsNewTurn_idle {n : ℕ} (answer : Started)
    (hdone : (s.steerAsNewTurn n answer).doneCurrent = true) :
    (s.steerAsNewTurn n answer).begun = s.begun ∧
      (s.steerAsNewTurn n answer).interrupted = s.interrupted := by
  cases answer with
  | turn id =>
    simp only [Session.steerAsNewTurn, send_doneCurrent] at hdone
    cases hdone
  | goal startsTurn message =>
    cases message <;> cases startsTurn <;> simp [Session.steerAsNewTurn, deliver]
  | failed => simp [Session.steerAsNewTurn]

/-- **The queue after an end.** -/
theorem Running.drain {command : String → Command} {queue : List (ℕ × String)} (h : s.Running)
    (hidle : s.router.active = none) (hint : s.interrupted = false) {answers : List Started}
    (hfresh : ∀ answer ∈ answers, s.Fresh answer) (hs : s.drain command queue answers = some s') :
    s'.Inv := by
  induction queue generalizing s answers with
  | nil =>
    cases Option.some_inj.mp hs
    exact Or.inl (h.between hidle rfl rfl rfl rfl rfl)
  | cons head queue ih =>
    obtain ⟨n, text⟩ := head
    cases answers with
    | nil => cases hs
    | cons answer answers =>
      have hset : ({ s with queuedSteers := queue, currentNative := isNative command text } :
          Session).Running := h.between hidle rfl rfl rfl rfl rfl
      have hinv := hset.steerAsNewTurn hidle hint n
        (hfresh answer List.mem_cons_self)
      have hsame := steerAsNewTurn_idle (n := n) answer
        (s := { s with queuedSteers := queue, currentNative := isNative command text })
      unfold Session.drain at hs
      dsimp only at hs
      generalize Session.steerAsNewTurn _ n answer = s₁ at hinv hsame hs
      split_ifs at hs with hstop
      · cases Option.some_inj.mp hs
        exact hinv
      · rw [not_or] at hstop
        have hdone : s₁.doneCurrent = true := eq_true_of_ne_false hstop.2
        obtain ⟨hbegun, hint₁⟩ := hsame hdone
        have hrun : s₁.Running := hinv.resolve_right fun hover => hstop.1 hover.ended
        have hidle₁ : s₁.router.active = none := by
          by_contra hne
          exact absurd (hrun.current hne) (by simp [hdone])
        refine ih (s := { s₁ with currentNative := false })
          (hrun.between hidle₁ rfl rfl rfl rfl rfl) hidle₁ (hint₁.trans hint) (fun a ha => ?_) hs
        have hold := hfresh a (List.mem_cons_of_mem _ ha)
        cases a with
        | turn id => exact fun hmem => hold (hbegun ▸ hmem)
        | goal _ _ => trivial
        | failed => trivial

/-! ## Ends -/

theorem Due.breakMain (h : s.Due none) (hidle : s.router.active = none) (hopen : s.ended = false) :
    s.breakMain.Inv := by
  have hpush : ∀ status, (s.interrupted = true → status = .interrupted) →
      ({ s.push (s.settle status s.router.active) with ended := true } : Session).Inv :=
    fun status hst => Or.inr ⟨rfl, none,
      (h.push_done (d := ⟨status, s.router.active, s.router.active, s.interrupted⟩) hidle
        (Or.inl hidle) hst).congr rfl rfl, Or.inr rfl⟩
  rcases breakMain_cases hopen with ⟨htakes, hs⟩ | ⟨-, -, -, hs⟩ | ⟨-, hint, -, hs⟩ | ⟨-, -, hs⟩
  · rw [hs]
    exact Inv.of_gone h htakes
  · rw [hs]
    exact hpush .interrupted fun _ => rfl
  · rw [hs]
    exact hpush .errored fun hf => absurd hf (by simp [hint])
  · rw [hs]
    exact Or.inr ⟨rfl, none, h.congr rfl rfl, Or.inr rfl⟩

theorem Running.past_note (h : s.Running) {id : String} (hactive : s.router.active = some id) :
    (s.router.noteCompleted id).active = none ∧
      ∀ turn ∈ (s.router.noteCompleted id).completed, turn ∈ s.begun := by
  have hid : id ≠ "" := fun he => h.named (he ▸ hactive)
  rw [TurnRouter.noteCompleted_of_active hid hactive]
  refine ⟨rfl, fun turn hmem => ?_⟩
  rcases TurnRouter.mem_rememberCompleted hmem with hmem | rfl
  · exact h.past turn hmem
  · exact h.due.begun _ hactive

/-- **The end of the active turn.** -/
theorem Running.noteEnd (h : s.Running) {id : String} (hactive : s.router.active = some id)
    (after : Bool) {status : Status} (hst : s.interrupted = true → status = .interrupted) :
    (s.noteEnd id status after).Over ∨
      (s.noteEnd id status after).ended = false ∧ (s.noteEnd id status after).Due none := by
  have hidle := (h.past_note hactive).1
  unfold Session.noteEnd
  dsimp only
  have hdue : ({ s with
      router := s.router.noteCompleted id, doneCurrent := true, doneAfterInterrupt := after } :
      Session).Due (some id) := (hactive ▸ h.due).congr rfl rfl
  rcases send_cases { s with
      router := s.router.noteCompleted id, doneCurrent := true, doneAfterInterrupt := after }
      (settle _ status (some id)) with ⟨hended, -⟩ | ⟨-, htakes, hsend⟩ | ⟨hopen, -, hsend⟩
  · exact absurd (hended.symm.trans h.isOpen) (by simp)
  · rw [hsend]
    exact Or.inl ⟨rfl, some id, hdue.congr rfl rfl, Or.inl htakes⟩
  · rw [hsend]
    exact Or.inr ⟨hopen, hdue.push_done rfl (Or.inl hidle) hst⟩

/-- `turn/completed` of the active turn. -/
theorem Running.completed {command : String → Command} (h : s.Running) {id : String}
    (hactive : s.router.active = some id) {error : Bool} {answers : List Started}
    (hfresh : ∀ answer ∈ answers, s.Fresh answer)
    (hs : s.completed command id error answers = some s') : s'.Inv := by
  obtain ⟨hidle, hpast⟩ := h.past_note hactive
  unfold Session.completed at hs
  dsimp only at hs
  generalize hstatus : (if s.interrupted = true then Status.interrupted
    else if error = true then Status.errored else Status.completed) = status at hs
  have hst : s.interrupted = true → status = .interrupted := fun hint => by
    rw [← hstatus, if_pos hint]
  have hend := h.noteEnd hactive s.doneAfterInterrupt hst
  have hrouter : (s.noteEnd id status s.doneAfterInterrupt).router = s.router.noteCompleted id := by
    simp [Session.noteEnd]
  have hbegun : (s.noteEnd id status s.doneAfterInterrupt).begun = s.begun := by
    simp [Session.noteEnd]
  have hafter : (s.noteEnd id status s.doneAfterInterrupt).doneAfterInterrupt = false := by
    simpa [Session.noteEnd] using h.after
  generalize s.noteEnd id status s.doneAfterInterrupt = s₁ at hs hend hrouter hbegun hafter
  split_ifs at hs with hended hint
  · cases Option.some_inj.mp hs
    exact Or.inr (hend.resolve_right fun hno => by simp [hno.1] at hended)
  · cases Option.some_inj.mp hs
    obtain ⟨hopen, hdue⟩ := hend.resolve_left fun hover => hended hover.ended
    have hset : ({ s₁ with doneAfterInterrupt := true } : Session).Due none := hdue.congr rfl rfl
    exact hset.breakMain (by simp [hrouter, hidle]) hopen
  · obtain ⟨hopen, hdue⟩ := hend.resolve_left fun hover => hended hover.ended
    have hidle₁ : s₁.router.active = none := by rw [hrouter, hidle]
    have hrun : s₁.Running := by
      refine ⟨hopen, hidle₁ ▸ hdue, fun hne => absurd hidle₁ hne, ?_, fun turn ht => ?_, ?_, hafter⟩
      · rw [hidle₁]
        exact fun he => by cases he
      · cases hidle₁.symm.trans ht
      · rw [hrouter, hbegun]
        exact hpast
    obtain ⟨s₂, hdrain, rfl⟩ := Option.map_eq_some_iff.mp hs
    have hinv : s₂.Inv := by
      refine Running.drain (s := { s₁ with currentNative := false })
        (hrun.between hidle₁ rfl rfl rfl rfl rfl) hidle₁ (by simpa using hint)
        (fun answer ha => ?_) hdrain
      have hold := hfresh answer ha
      cases answer with
      | turn id => exact fun hmem => hold (hbegun ▸ hmem)
      | goal _ _ => trivial
      | failed => trivial
    split_ifs
    · exact hinv.breakMain
    · exact hinv

theorem Running.cutShort (h : s.Running) {id : String} (hactive : s.router.active = some id)
    {status : Status} (hst : s.interrupted = true → status = .interrupted) :
    (s.cutShort id status).Inv := by
  have hrouter : (s.noteEnd id status (s.interrupted || s.doneAfterInterrupt)).router =
      s.router.noteCompleted id := by simp [Session.noteEnd]
  have hend := h.noteEnd hactive (s.interrupted || s.doneAfterInterrupt) hst
  unfold Session.cutShort
  rcases hend with hover | ⟨hopen, hdue⟩
  · rw [breakMain_of_ended hover.ended]
    exact Or.inr hover
  · exact hdue.breakMain (by rw [hrouter, (h.past_note hactive).1]) hopen

/-! ## Steers -/

theorem Running.congr (h : s.Running) (hout : s'.out = s.out) (hbegun : s'.begun = s.begun)
    (hrouter : s'.router = s.router) (hended : s'.ended = s.ended)
    (hcurrent : s'.doneCurrent = s.doneCurrent)
    (hafter : s'.doneAfterInterrupt = s.doneAfterInterrupt) : s'.Running where
  isOpen := hended.trans h.isOpen
  due := by
    rw [hrouter]
    exact h.due.congr hout hbegun
  current := by
    rw [hrouter, hcurrent]
    exact h.current
  named := hrouter ▸ h.named
  live := by
    rw [hrouter]
    exact h.live
  past := by
    rw [hrouter, hbegun]
    exact h.past
  after := hafter.trans h.after

theorem Running.inject {command : String → Command} (h : s.Running) (hint : s.interrupted = false)
    (n : ℕ) (text : String) (accepted : Bool) {answer : Started} (hfresh : s.Fresh answer) :
    (s.inject command n text accepted answer).Inv := by
  unfold Session.inject
  cases hactive : s.router.active with
  | none =>
    have hset : ({ s with currentNative := isNative command text } : Session).Running :=
      h.congr rfl rfl rfl rfl rfl rfl
    exact hset.steerAsNewTurn hactive hint n hfresh
  | some expected =>
    dsimp only
    have hlive : s.router.isCompleted expected = false := by
      simpa [TurnRouter.isCompleted] using h.live expected hactive
    rw [if_pos hlive]
    cases accepted with
    | true =>
      have hset : (s.deliver n).Running := h.congr rfl rfl rfl rfl rfl rfl
      exact Inv.send (Or.inl hset) (quiet_steered n)
    | false => exact Or.inl (h.congr rfl rfl rfl rfl rfl rfl)

theorem Running.steer {command : String → Command} (h : s.Running) (hint : s.interrupted = false)
    (message : Message) (accepted : Bool) {answer : Started} (hfresh : s.Fresh answer) :
    (s.steer command message accepted answer).Inv := by
  unfold Session.steer
  dsimp only
  split_ifs with hcontrol hqueue
  · exact Inv.send (Or.inl h) quiet_content
  · exact Or.inl (h.congr rfl rfl rfl rfl rfl rfl)
  · have hset : ({ s with received := s.received + 1 } : Session).Running :=
      h.congr rfl rfl rfl rfl rfl rfl
    exact hset.inject hint _ _ accepted hfresh

/-! ## Runs -/

theorem noteStarted_cases {id : String} (hnew : s.router.active = some id ∨
      s.router.isCompleted id = true ∨ s.router.active = none ∧ id ∉ s.begun) :
    s.router.noteStarted id = s.router ∨ s.router.active = none ∧ id ∉ s.begun ∧
      s.router.noteStarted id = { s.router with active := some id } := by
  unfold TurnRouter.noteStarted
  by_cases hdone : id = "" ∨ s.router.isCompleted id = true
  · exact Or.inl (if_pos hdone)
  · rw [if_neg hdone]
    rcases hnew with hactive | hcompleted | ⟨hidle, hnew⟩
    · rw [hactive]
      exact Or.inl (if_pos rfl)
    · exact absurd (Or.inr hcompleted) hdone
    · rw [hidle]
      exact Or.inr ⟨rfl, hnew, rfl⟩

/-- **One round.** -/
theorem inv_step {command : String → Command} {a : Act} (h : s.Inv) (hg : s.Timely a)
    (hs : s.step command a = some s') : s'.Inv := by
  have hrun : s.ended = false → s.Running := fun hopen =>
    h.resolve_right fun hover => by simp [hover.ended] at hopen
  cases a with
  | started id =>
    simp only [step] at hs
    split_ifs at hs with hended hactive <;> cases Option.some_inj.mp hs <;>
      have h := hrun (by simpa using hended) <;>
      rcases noteStarted_cases hg.2 with hsame | ⟨hidle, hnew, hrouter⟩
    · rw [hsame] at hactive ⊢
      exact Inv.send (Or.inl (h.begin rfl h.named (Or.inl rfl))) (quiet_turnStarted id)
    · refine Inv.send (Or.inl (h.begin (by rw [hrouter]) ?_ (Or.inr ⟨hidle, fun id' hid' => ?_⟩)))
        (quiet_turnStarted id)
      · rw [hactive]
        exact fun he => hg.1 (Option.some_inj.mp he)
      · rw [hactive] at hid'
        exact Option.some_inj.mp hid' ▸ hnew
    · exact Or.inl (h.congr rfl rfl hsame rfl rfl rfl)
    · exact absurd (congrArg TurnRouter.active hrouter) hactive
  | completed id error answers =>
    simp only [step] at hs
    split_ifs at hs with hended
    exact (hrun (by simpa using hended)).completed hg.1 hg.2 hs
  | failed id =>
    simp only [step] at hs
    split_ifs at hs with hended hint <;> cases Option.some_inj.mp hs
    · exact (hrun (by simpa using hended)).cutShort hg fun _ => rfl
    · exact (hrun (by simpa using hended)).cutShort hg fun hfired => absurd hfired hint
  | aborted id =>
    simp only [step] at hs
    split_ifs at hs with hended
    cases Option.some_inj.mp hs
    exact (hrun (by simpa using hended)).cutShort hg fun _ => rfl
  | content =>
    simp only [step] at hs
    split_ifs at hs
    cases Option.some_inj.mp hs
    exact h.send quiet_content
  | steer message accepted answer =>
    simp only [step] at hs
    split_ifs at hs with hno
    cases Option.some_inj.mp hs
    simp only [not_or] at hno
    exact (hrun (by simpa using hno.1)).steer (by simpa using hno.2.2) message accepted hg
  | mailboxClosed =>
    simp only [step] at hs
    split_ifs at hs with hno hidle <;> cases Option.some_inj.mp hs <;>
      simp only [not_or] at hno <;>
      have hset : ({ s with steeringOpen := false } : Session).Inv :=
        Or.inl ((hrun (by simpa using hno.1)).congr rfl rfl rfl rfl rfl rfl)
    · exact hset.breakMain
    · exact hset
  | interrupt =>
    simp only [step] at hs
    split_ifs at hs with hno hidle <;> cases Option.some_inj.mp hs <;>
      simp only [not_or] at hno <;>
      have hset : ({ s with interruptSent := true, interrupted := true } : Session).Inv :=
        Or.inl ((hrun (by simpa using hno.1)).congr rfl rfl rfl rfl rfl rfl)
    · exact hset.breakMain
    · exact hset
  | eof =>
    simp only [step] at hs
    split_ifs at hs
    cases Option.some_inj.mp hs
    exact h.breakMain
  | hungUp =>
    simp only [step] at hs
    split_ifs at hs
    cases Option.some_inj.mp hs
    exact h.breakMain

theorem inv_start (command : String → Command) (prompt : String) (takes : Option ℕ)
    (answer : Started) : (start command prompt takes answer).Inv := by
  have hidle : (new takes).router.active = none := rfl
  have hint : (new takes).interrupted = false := rfl
  have h : (new takes).Running := by
    refine ⟨rfl, ⟨?_, ?_, ?_, ?_, ?_, ?_⟩, fun hne => absurd rfl hne, ?_, ?_, ?_, rfl⟩ <;>
      simp [new, ends]
  cases answer with
  | turn id =>
    have hadopt : ((new takes).begin ((new takes).router.adoptStarted id)).Running :=
      h.adopt hidle List.not_mem_nil
    exact Or.inl (hadopt.congr rfl rfl rfl rfl rfl rfl)
  | goal startsTurn message =>
    have hset : ({ new takes with doneCurrent := !startsTurn } : Session).Running :=
      h.between hidle rfl rfl rfl rfl rfl
    have hsent := Inv.send (Or.inl hset) quiet_content
    unfold start
    dsimp only
    cases message with
    | none =>
      cases startsTurn with
      | true => exact hsent
      | false => exact hsent.send (quiet_settle (by simpa using hidle) (by simpa using hint) _)
    | some text =>
      cases startsTurn with
      | true => exact hsent.send quiet_content
      | false =>
        exact (hsent.send quiet_content).send
          (quiet_settle (by simpa using hidle) (by simpa using hint) _)
  | failed =>
    have hset : ({ new takes with doneCurrent := true } : Session).Running :=
      h.between hidle rfl rfl rfl rfl rfl
    exact (Inv.send (Or.inl hset) (quiet_settle hidle hint .errored)).breakMain

theorem Due.once {due : Option String} (h : s.Due due) (turn : String) : s.ends turn ≤ 1 := by
  by_cases hb : turn ∈ s.begun
  · by_cases hd : due = some turn
    · rw [h.unsettled turn hd]
      exact Nat.zero_le 1
    · exact Nat.le_of_eq (h.settled turn hb hd)
  · rw [h.known turn hb]
    exact Nat.zero_le 1

theorem Inv.settled (h : s.Inv) : s.Settled := by
  rcases h with h | h
  · exact ⟨h.due.once, h.due.known, h.due.calm, h.due.fired,
      fun _ turn hb hne => h.due.settled turn hb hne,
      fun hended => absurd (hended.symm.trans h.isOpen) (by simp)⟩
  · obtain ⟨due, hdue, hlast⟩ := h.due
    refine ⟨hdue.once, hdue.known, hdue.calm, hdue.fired,
      fun hopen => absurd (hopen.symm.trans h.ended) (by simp), fun _ htakes turn hb => ?_⟩
    rcases hlast with hgone | rfl
    · exact absurd hgone htakes
    · exact hdue.settled turn hb (by simp)

/-- **Every turn settles once**, in every run in which an end names the active turn and no turn is
started over one that has not ended. -/
theorem turns_settled (command : String → Command) (prompt : String) (takes : Option ℕ)
    (answer : Started) {acts : List Act}
    (hg : Guarded (step command) Timely (start command prompt takes answer) acts) {s : Session}
    (he : exec (step command) (start command prompt takes answer) acts = some s) : s.Settled :=
  (exec_invariant (fun _ _ _ h hg hs => inv_step h hg hs) (inv_start command prompt takes answer) hg
    he).settled

/-- A steer runs into a turn that is ending, is queued and becomes the next turn; the interrupt ends
that one. -/
def followUp : List Act :=
  [.started "t1", .steer (.say "and then?") false .failed, .completed "t1" false [.turn "t2"],
    .started "t2", .interrupt, .aborted "t2"]

theorem turns_settled_followUp : ∃ s,
    exec (step noCommand) (start noCommand "hello" none (.turn "t1")) followUp = some s ∧
      s.ended = true ∧ s.begun = ["t1", "t2"] ∧ s.out.filterMap settle? =
        [⟨.completed, some "t1", none, false⟩, ⟨.interrupted, some "t2", none, true⟩] ∧
      s.Settled := by
  have hg : Guarded (step noCommand) Timely (start noCommand "hello" none (.turn "t1")) followUp :=
    guarded_of_checks (by decide)
  exact ⟨_, rfl, by decide, by decide, by decide, turns_settled noCommand _ _ _ hg rfl⟩

/-! ## A late end -/

/-- The end of the first turn is repeated while the second is active, and the app server exits. -/
def repeated : List Act :=
  [.completed "t1" false [], .steer (.say "and then?") true (.turn "t2"), .completed "t1" false [],
    .eof]

/-- **The first turn is settled twice, the second never.** -/
theorem late_end : ∃ s,
    exec (step noCommand) (start noCommand "hello" none (.turn "t1")) repeated = some s ∧
      s.ended = true ∧ s.takes = none ∧ s.begun = ["t1", "t2"] ∧ s.ends "t1" = 2 ∧
      s.ends "t2" = 0 ∧ ¬ s.Settled := by
  refine ⟨_, rfl, by decide, by decide, by decide, by decide, by decide, fun h => ?_⟩
  exact absurd (h.once "t1") (by decide)

end Session

end Zeron.Agent.Codex
