import Zeron.Delivery.Host
import Zeron.Lib.History
import Zeron.Lib.Run

/-!
# Cancel freezes the queue

The flag `queue_paused` is set by an interrupt and by the opening of a handle that finds rows; sends
clear it, and put it back where they fail.

* `frozen`: an interrupt or such an opening came, and no user send since;
* `Section.owes`, `Section.drains`: a call that holds the flag it swapped out; a drain past its look
  at the flag; `flag_step`: what a step does to the flag;
* `Careful`: the steps that take a freeze away without a send, as a condition on each step;
* **`cancel_freezes_queue`**: in a run of other steps no drain delivers while the queue is frozen;
* `missed_interrupt_thaws`: a Cancel that comes as the run ends.
-/

namespace Zeron.Delivery

open History Session

/-- What an event says about the freeze. -/
def Event.freezes : Event → Option Bool
  | .opened true | .interrupted => some true
  | .sent | .accepted _ .sendNow | .accepted _ .steerNow => some false
  | _ => none

/-- The queue is frozen after a history: by an interrupt or by recovered rows, and no send of the
user has been accepted since. -/
def frozen (log : List Event) : Bool := (latest Event.freezes log).getD false

@[simp] theorem frozen_concat (log : List Event) (e : Event) :
    frozen (log ++ [e]) = e.freezes.getD (frozen log) := by
  rw [frozen, latest_concat]
  cases e.freezes <;> rfl

/-- A drain takes the row, hands it on, or has it accepted. -/
def Event.byDrain : Event → Bool
  | .taken _ .drain | .handed _ .drain | .accepted _ .drain => true
  | _ => false

def Effect.byDrain : Effect → Bool
  | .take _ .drain | .hand _ .drain | .accept _ .drain => true
  | _ => false

/-- No drain delivers while the queue is frozen. -/
def Kept (log : List Event) : Prop := Each (fun pre e => e.byDrain = true → frozen pre = false) log

/-- The call swapped the flag out as `true`, and has neither succeeded nor put it back. -/
def Section.owes : Section → Bool
  | .steer _ was | .interrupt _ was => was
  | .start _ road was | .sent _ road was | .fail _ road was _ => was && road != .drain
  | _ => false

/-- The call clears the flag after an interrupt that stopped no run. -/
def Section.undoes : Section → Bool
  | .cancelUndo _ => true
  | _ => false

/-- The call is a drain that has found the flag clear. -/
def Section.drains : Section → Bool
  | .head | .check _ | .take _ .drain | .start _ .drain _ | .sent _ .drain _ => true
  | _ => false

/-- What a step leaves the lock to. -/
def Section.next (h : Host) (a : Answer) (s : Section) : Option Section := (s.step h a).2.getLeft?

/-! ## What a step does to the flag -/

/-- The effect writes neither the flag nor an event about the freeze. -/
def Effect.Plain : Effect → Prop
  | .pause _ | .interrupted | .accept _ .sendNow | .accept _ .steerNow => False
  | _ => True

/-- A step, by what it does to the flag. -/
inductive FlagStep (h : Host) : Section → Effect → Option Section → Prop
  | plain {s : Section} {e : Effect} {s' : Option Section}
      (he : e.Plain ∧ (e.byDrain = true → s.drains = true))
      (howes : ∀ t ∈ s', t.owes = s.owes ∧ (t.drains = true → s.drains = true) ∧ t ≠ .cancelRun)
      (hnone : s' = none → s.owes = false) : FlagStep h s e s'
  | enter (hpaused : h.queuePaused = false) : FlagStep h .drain .none (some .head)
  | thaw {m : QueuedMessage} {road : Road} {s' : Section} (howes : s'.owes = h.queuePaused)
      (hdrains : s'.drains = false) (hne : s' ≠ .cancelRun) :
      FlagStep h (.thaw m road) (.pause false) (some s')
  | sent {m : QueuedMessage} {road : Road} {was : Bool} (hroad : road ≠ .drain) :
      FlagStep h (.sent m road was) (.accept m.id road) none
  | fail {m : QueuedMessage} {road : Road} {was : Bool} {error : String} {e : Effect}
      (he : e = .pause true ∨ (e = .none ∧ (Section.fail m road was error).owes = false)) :
      FlagStep h (.fail m road was error) e (some (.putBack m road error))
  | pause : FlagStep h .cancelPause (.pause true) (some .cancelRun)
  | interrupted : FlagStep h .cancelRun .interrupted none
  | undo {outcome : Outcome} : FlagStep h (.cancelUndo outcome) (.pause false) none

theorem flag_step (h : Host) (a : Answer) (s : Section) :
    FlagStep h s (s.step h a).1 (s.next h a) := by
  -- most steps go from a call that owes nothing and drains nothing to another, or end
  have hplain : ∀ {s : Section}, s.owes = false →
      ((s.step h a).1.Plain ∧ ((s.step h a).1.byDrain = true → s.drains = true)) →
      (∀ t, (s.step h a).2 = .inl t → t.owes = false ∧ (t.drains = true → s.drains = true) ∧
        t ≠ .cancelRun) → FlagStep h s (s.step h a).1 (s.next h a) := by
    intro s howes he ht
    refine .plain he (fun t hnext => ?_) fun _ => howes
    obtain ⟨ho, hd, hne⟩ := ht t (Sum.getLeft?_eq_some_iff.mp hnext)
    exact ⟨ho.trans howes.symm, hd, hne⟩
  cases s with
  | drain =>
    by_cases hgo : (!a.wired || h.queuePaused) = true
    · refine hplain rfl ?_ fun t ht => ?_
      · simp [Section.step, hgo, Effect.Plain, Effect.byDrain]
      · simp [Section.step, hgo] at ht
    · have hpaused : h.queuePaused = false := by
        simp only [Bool.or_eq_true, not_or, Bool.not_eq_true] at hgo
        exact hgo.2
      have hstep : (Section.drain.step h a) = (.none, .inl .head) := by
        simp only [Section.step, if_neg hgo]
      rw [Section.next, hstep]
      exact .enter hpaused
  | thaw m road => cases road <;> exact .thaw rfl rfl nofun
  | sent m road was =>
    cases road with
    | drain =>
      refine .plain ⟨trivial, fun _ => rfl⟩ (fun t ht => ?_) nofun
      obtain rfl : Section.head = t := Option.some_inj.mp ht
      exact ⟨by simp [Section.owes], fun _ => rfl, nofun⟩
    | sendNow | steerNow => exact .sent nofun
  | fail m road was error =>
    cases road with
    | drain => exact .fail (.inl rfl)
    | sendNow | steerNow => cases was <;> exact .fail (by simp [Section.step, Section.owes])
  | cancelPause => exact .pause
  | cancelRun =>
    cases hreply : a.reply with
    | accepted =>
      simp only [Section.next, Section.step, hreply]
      exact .interrupted
    | _ =>
      refine hplain rfl ?_ fun t ht => ?_
      · simp [Section.step, hreply, Effect.Plain, Effect.byDrain]
      · simp only [Section.step, hreply, Sum.inl.injEq] at ht
        subst ht
        exact ⟨rfl, nofun, nofun⟩
  | cancelUndo outcome => exact .undo
  | steer m was =>
    refine .plain ?_ (fun t ht => ?_) fun hnone => ?_
    · simp only [Section.step]
      split_ifs <;> [exact ⟨trivial, nofun⟩; (split <;> exact ⟨trivial, nofun⟩)]
    · simp only [Section.next, Section.step] at ht
      split_ifs at ht
      · cases ht
        exact ⟨by simp [Section.owes], nofun, nofun⟩
      · split at ht <;> cases ht <;> exact ⟨by simp [Section.owes], nofun, nofun⟩
    · simp only [Section.next, Section.step] at hnone
      split_ifs at hnone
      · cases hnone
      · split at hnone <;> cases hnone
  | interrupt m was =>
    refine .plain ?_ (fun t ht => ?_) fun hnone => ?_
    · simp only [Section.step]
      split_ifs <;> [exact ⟨trivial, nofun⟩; (split <;> exact ⟨trivial, nofun⟩)]
    · simp only [Section.next, Section.step] at ht
      split_ifs at ht
      · cases ht
        exact ⟨by simp [Section.owes], nofun, nofun⟩
      · split at ht <;> cases ht <;> exact ⟨by simp [Section.owes], nofun, nofun⟩
    · simp only [Section.next, Section.step] at hnone
      split_ifs at hnone
      · cases hnone
      · split at hnone <;> cases hnone
  | start m road was =>
    refine .plain ?_ (fun t ht => ?_) fun hnone => ?_
    · simp only [Section.step]
      split_ifs
      · exact ⟨trivial, nofun⟩
      · split <;> exact ⟨trivial, by cases road <;> simp [Effect.byDrain, Section.drains]⟩
    · simp only [Section.next, Section.step] at ht
      split_ifs at ht
      · cases ht
        exact ⟨rfl, nofun, nofun⟩
      · split at ht <;> cases ht <;> exact ⟨rfl, by cases road <;> simp [Section.drains], nofun⟩
    · simp only [Section.next, Section.step] at hnone
      split_ifs at hnone
      · cases hnone
      · split at hnone <;> cases hnone
  | take id road =>
    refine hplain rfl ?_ fun t ht => ?_
    · simp only [Section.step]
      split
      · exact ⟨trivial, nofun⟩
      · exact ⟨trivial, by cases road <;> simp [Effect.byDrain, Section.drains]⟩
    · simp only [Section.step] at ht
      split at ht
      · cases ht
      · cases ht
        cases road <;> exact ⟨rfl, by simp [Section.drains, Section.dispatch], nofun⟩
  | check id =>
    refine hplain rfl ?_ fun t ht => ?_
    · simp only [Section.step]
      split_ifs <;> exact ⟨trivial, nofun⟩
    · simp only [Section.step] at ht
      split_ifs at ht
      cases ht
      exact ⟨rfl, fun _ => rfl, nofun⟩
  | head =>
    refine hplain rfl ?_ fun t ht => ?_
    · simp only [Section.step]
      repeat' split
      all_goals exact ⟨trivial, nofun⟩
    · simp only [Section.step] at ht
      repeat' split at ht
      all_goals cases ht
      · exact ⟨rfl, nofun, nofun⟩
      · exact ⟨rfl, fun _ => rfl, nofun⟩
  | _ =>
    refine hplain rfl ?_ fun t ht => ?_
    · simp only [Section.step]
      repeat' split
      all_goals exact ⟨trivial, nofun⟩
    · simp only [Section.step] at ht
      repeat' split at ht
      all_goals cases ht
      all_goals exact ⟨rfl, nofun, nofun⟩

/-! ## What a step writes -/

theorem frozen_note (log : List Event) {e : Event} (he : e.freezes = none) :
    frozen (log ++ [e]) = frozen log := by
  rw [frozen_concat, he]
  rfl

theorem kept_note {log : List Event} (h : Kept log) {e : Event}
    (he : e.byDrain = true → frozen log = false) : Kept (log ++ [e]) :=
  each_concat.mpr ⟨h, he⟩

/-- A plain effect leaves the flag and the freeze; a delivery by a drain needs it clear. -/
theorem plain_apply {h : Host} {e : Effect} (he : e.Plain) :
    (h.apply e).queuePaused = h.queuePaused ∧ frozen (h.apply e).log = frozen h.log ∧
      (Kept h.log → (e.byDrain = true → frozen h.log = false) → Kept (h.apply e).log) := by
  cases e with
  | pause | interrupted => exact he.elim
  | accept id road =>
    cases road with
    | sendNow | steerNow => exact he.elim
    | drain => exact ⟨rfl, frozen_note _ rfl, fun hk hby => kept_note hk hby⟩
  | hand id road =>
    refine ⟨rfl, frozen_note _ rfl, fun hk hby => kept_note hk fun hroad => hby ?_⟩
    cases road <;> first | rfl | cases hroad
  | take id road =>
    unfold Host.apply
    dsimp only
    split
    · refine ⟨rfl, frozen_note _ rfl, fun hk hby => kept_note hk fun hroad => hby ?_⟩
      cases road <;> first | rfl | cases hroad
    · exact ⟨rfl, rfl, fun hk _ => hk⟩
  | remove id | grant id lease text gate =>
    unfold Host.apply
    dsimp only
    split
    · exact ⟨rfl, frozen_note _ rfl, fun hk _ => kept_note hk nofun⟩
    · exact ⟨rfl, rfl, fun hk _ => hk⟩
  | finish id lease replacement attachments nowMs =>
    unfold Host.apply
    dsimp only
    split
    · have hlast : ∀ ev : Event, ev = (if replacement.any isBlank then .removed id
          else .resolved id replacement attachments) → ev.freezes = none ∧ ev.byDrain = false := by
        rintro ev rfl
        split <;> exact ⟨rfl, rfl⟩
      obtain ⟨hfreezes, hby⟩ := hlast _ rfl
      refine ⟨rfl, (frozen_note _ hfreezes).trans (frozen_note _ rfl), fun hk _ => ?_⟩
      have hended : Kept (h.log ++ [Event.ended id lease]) :=
        kept_note hk nofun
      exact kept_note hended fun hroad => absurd hroad (by rw [hby]; decide)
    · exact ⟨rfl, rfl, fun hk _ => hk⟩
  | acquire t => exact ⟨rfl, frozen_note _ rfl, fun hk _ => kept_note hk nofun⟩
  | save ok => cases ok <;> exact ⟨rfl, rfl, fun hk _ => hk⟩
  | putBack m =>
    unfold Host.apply
    dsimp only
    split <;> exact ⟨rfl, rfl, fun hk _ => hk⟩
  | none | regate | arm => exact ⟨rfl, rfl, fun hk _ => hk⟩

/-! ## The invariant -/

/-- A step that takes no freeze away: an interrupt that stops no run has found the queue unfrozen,
no interrupt came between the acceptance of a prompt and the clearing of the flag, and a handle
frozen by an interrupt is opened again with rows. -/
def Careful (w : World) : Act → Prop
  | .turn _ => ∀ s ∈ w.holder, s.undoes = true → frozen w.host.log = false
  | .thaw => frozen w.host.log = false ∧ w.holder ≠ some .cancelRun
  | .restart => frozen w.host.log = true → readQueue w.host.saved ≠ []
  | _ => True

instance (w : World) : (act : Act) → Decidable (Careful w act)
  | .turn _ => inferInstanceAs (Decidable (∀ s ∈ w.holder, s.undoes = true → _))
  | .thaw => inferInstanceAs (Decidable (_ ∧ _ ≠ _))
  | .restart => inferInstanceAs (Decidable (_ → readQueue w.host.saved ≠ []))
  | .queueMessage _ _ _ _ _ | .holdSteer _ _ _ | .updateText _ _ _ | .move _ _ | .call _ | .fire _
  | .sent | .pauseAll | .save => .isTrue trivial

structure FreezeInv (w : World) : Prop where
  /-- A frozen queue is paused, or the flag is with the call that swapped it out. -/
  paused : frozen w.host.log = true →
    w.host.queuePaused = true ∨ ∃ s, w.holder = some s ∧ s.owes = true
  drains : ∀ s, w.holder = some s → s.drains = true → frozen w.host.log = false
  pausing : w.holder = some .cancelRun → w.host.queuePaused = true
  kept : Kept w.host.log

theorem freezeInv_flag {w : World} (h : FreezeInv w) {s : Section} (hs : w.holder = some s)
    (hg : s.undoes = true → frozen w.host.log = false) {e : Effect} {next : Option Section}
    (hstep : FlagStep w.host s e next) :
    FreezeInv { w with host := w.host.apply e, holder := next } := by
  -- a call that owes nothing finds a frozen queue paused
  have hpaused : s.owes = false → frozen w.host.log = true → w.host.queuePaused = true := by
    intro howes hf
    refine (h.paused hf).resolve_right ?_
    rintro ⟨t, ht, ht'⟩
    cases Option.some_inj.mp (hs.symm.trans ht)
    exact absurd ht' (by rw [howes]; decide)
  cases hstep with
  | plain he howes hnone =>
    obtain ⟨hflag, hfrozen, hkept⟩ := plain_apply (h := w.host) he.1
    constructor
    · intro hf
      dsimp only at hf ⊢
      rw [hfrozen] at hf
      rw [hflag]
      cases next with
      | none => exact .inl (hpaused (hnone rfl) hf)
      | some t =>
        have ht := (howes t rfl).1
        cases hso : s.owes with
        | false => exact .inl (hpaused hso hf)
        | true => exact .inr ⟨t, rfl, ht.trans hso⟩
    · intro t ht hdrains
      exact hfrozen.trans (h.drains s hs ((howes t ht).2.1 hdrains))
    · exact fun hrun => absurd rfl (howes _ hrun).2.2
    · exact hkept h.kept fun hby => h.drains s hs (he.2 hby)
  | enter hclear =>
    have hf : frozen w.host.log = false := by
      by_contra hf
      exact absurd (hpaused rfl (by simpa using hf)) (by rw [hclear]; decide)
    exact ⟨fun hf' => absurd hf' (by rw [Host.apply, hf]; decide), fun _ _ _ => hf,
      (fun ht => by cases ht), h.kept⟩
  | thaw howes hdrains hne =>
    refine ⟨fun hf => .inr ⟨_, rfl, howes.trans (hpaused rfl hf)⟩, fun t ht ht' => ?_,
      fun hrun => absurd (Option.some_inj.mp hrun) hne, h.kept⟩
    cases Option.some_inj.mp ht
    exact absurd ht' (by rw [hdrains]; decide)
  | @sent m road was hroad =>
    have hclear : frozen (w.host.apply (.accept m.id road)).log = false := by
      rw [Host.apply, Host.note, frozen_concat]
      cases road with
      | drain => exact absurd rfl hroad
      | sendNow | steerNow => rfl
    refine ⟨fun hf => absurd hf (by rw [hclear]; decide), (fun _ ht => by cases ht),
      (fun ht => by cases ht), kept_note h.kept ?_⟩
    cases road with
    | drain => exact absurd rfl hroad
    | sendNow | steerNow => nofun
  | fail he =>
    refine ⟨fun hf => .inl ?_, fun t ht ht' => ?_, (fun ht => by cases ht), ?_⟩
    · rcases he with rfl | ⟨rfl, howes⟩
      · rfl
      · exact hpaused howes hf
    · cases Option.some_inj.mp ht
      cases ht'
    · rcases he with rfl | ⟨rfl, -⟩ <;> exact h.kept
  | pause =>
    refine ⟨fun _ => .inl rfl, fun t ht ht' => ?_, fun _ => rfl, h.kept⟩
    cases Option.some_inj.mp ht
    cases ht'
  | interrupted =>
    exact ⟨fun _ => .inl (h.pausing hs), (fun _ ht => by cases ht), (fun ht => by cases ht),
      kept_note h.kept nofun⟩
  | undo =>
    exact ⟨fun hf => absurd hf (by rw [Host.apply, hg rfl]; decide), (fun _ ht => by cases ht),
      (fun ht => by cases ht), h.kept⟩

theorem freezeInv_edit {w : World} (h : FreezeInv w) {host : Host}
    (hflag : host.queuePaused = w.host.queuePaused)
    (hlog : host.log = w.host.log ∨
      ∃ ev : Event, host.log = w.host.log ++ [ev] ∧ ev.freezes = none ∧ ev.byDrain = false) :
    FreezeInv { w with host } := by
  have hfrozen : frozen host.log = frozen w.host.log := by
    rcases hlog with hlog | ⟨ev, hlog, hev, -⟩
    · rw [hlog]
    · rw [hlog, frozen_note _ hev]
  refine ⟨fun hf => ?_, fun s hs hd => hfrozen.trans (h.drains s hs hd), fun hr => ?_, ?_⟩
  · rw [hfrozen] at hf
    dsimp only
    rw [hflag]
    exact h.paused hf
  · exact hflag.trans (h.pausing hr)
  · rcases hlog with hlog | ⟨ev, hlog, -, hev⟩
    · exact hlog ▸ h.kept
    · dsimp only
      rw [hlog]
      exact kept_note h.kept fun hby => absurd hby (by rw [hev]; decide)

theorem push_flag (h : Host) (m : QueuedMessage) :
    (h.push m).queuePaused = h.queuePaused ∧ ((h.push m).log = h.log ∨
      ∃ ev : Event, (h.push m).log = h.log ++ [ev] ∧ ev.freezes = none ∧ ev.byDrain = false) := by
  unfold Host.push
  split
  · exact ⟨rfl, .inr ⟨_, rfl, rfl, rfl⟩⟩
  · exact ⟨rfl, .inl rfl⟩

theorem retype_flag (h : Host) (id text : String) (nowMs : ℤ) :
    (h.retype id text nowMs).queuePaused = h.queuePaused ∧
      ((h.retype id text nowMs).log = h.log ∨ ∃ ev : Event,
        (h.retype id text nowMs).log = h.log ++ [ev] ∧ ev.freezes = none ∧ ev.byDrain = false) := by
  unfold Host.retype
  split
  · refine ⟨rfl, .inr ⟨_, rfl, ?_, ?_⟩⟩ <;> split <;> rfl
  · exact ⟨rfl, .inl rfl⟩

theorem entry_quiet {s : Section} (h : s.entry = true) :
    s.owes = false ∧ s.drains = false ∧ s ≠ .cancelRun := by
  cases s with
  | remove | begin | renew | finish | drain | sendNow | steerNow | cancel =>
    exact ⟨rfl, rfl, fun h => (by cases h)⟩
  | _ => cases h

theorem freezeInv_call {w : World} (h : FreezeInv w) (hfree : w.holder = none) {s : Section}
    (hs : s.owes = false ∧ s.drains = false ∧ s ≠ .cancelRun) {timers : List Timer} :
    FreezeInv { w with host.timers := timers, holder := some s } := by
  obtain ⟨-, hdrains, hne⟩ := hs
  refine ⟨fun hf => .inl ((h.paused hf).resolve_right ?_), fun t ht hd => ?_, fun hr => ?_, h.kept⟩
  · rintro ⟨t, ht, -⟩
    cases hfree.symm.trans ht
  · cases Option.some_inj.mp ht
    exact absurd hd (by rw [hdrains]; decide)
  · exact absurd (Option.some_inj.mp hr) hne

theorem freezeInv_step {w w' : World} {act : Act} (h : FreezeInv w) (hg : Careful w act)
    (hs : w.step act = some w') : FreezeInv w' := by
  cases act with
  | queueMessage id text attachments hold nowMs =>
    simp only [World.step, Option.ite_none_right_eq_some, Option.some_inj] at hs
    obtain ⟨-, rfl⟩ := hs
    exact freezeInv_edit h (push_flag _ _).1 (push_flag _ _).2
  | holdSteer messageId prompt nowMs =>
    obtain rfl := Option.some.inj hs
    exact freezeInv_edit h (push_flag _ _).1 (push_flag _ _).2
  | updateText id text nowMs =>
    obtain rfl := Option.some.inj hs
    exact freezeInv_edit h (retype_flag _ _ _ _).1 (retype_flag _ _ _ _).2
  | move | save =>
    obtain rfl := Option.some.inj hs
    exact ⟨h.paused, h.drains, h.pausing, h.kept⟩
  | call s =>
    simp only [World.step, Option.ite_none_right_eq_some, Option.some_inj] at hs
    obtain ⟨⟨hfree, hentry⟩, rfl⟩ := hs
    exact freezeInv_call h hfree (entry_quiet hentry)
  | fire t =>
    simp only [World.step, Option.ite_none_right_eq_some, Option.some_inj] at hs
    obtain ⟨⟨hfree, -⟩, rfl⟩ := hs
    exact freezeInv_call (s := .expire t) h hfree ⟨rfl, rfl, fun h => (by cases h)⟩
  | turn a =>
    simp only [World.step] at hs
    split at hs
    · rename_i s hholder
      split_ifs at hs
      obtain rfl := Option.some.inj hs
      exact freezeInv_flag h hholder (fun hundo => hg s hholder hundo) (flag_step w.host a s)
    · cases hs
  | sent =>
    obtain rfl := Option.some.inj hs
    have hclear : frozen (w.host.log ++ [Event.sent]) = false := by rw [frozen_concat]; rfl
    exact ⟨fun hf => absurd hf (by rw [Host.note, hclear]; decide), fun _ _ _ => hclear, h.pausing,
      kept_note h.kept nofun⟩
  | thaw =>
    simp only [World.step, Option.ite_none_left_eq_some, Option.some_inj] at hs
    obtain ⟨-, rfl⟩ := hs
    exact ⟨fun hf => absurd hf (by rw [hg.1]; decide), h.drains, fun hr => absurd hr hg.2, h.kept⟩
  | pauseAll =>
    obtain rfl := Option.some.inj hs
    exact ⟨fun _ => .inl rfl, h.drains, fun _ => rfl, h.kept⟩
  | restart =>
    obtain rfl := Option.some.inj hs
    refine ⟨fun hf => .inl ?_, (fun _ ht => by cases ht), (fun ht => by cases ht),
      kept_note h.kept ?_⟩
    · by_contra hopen
      have hempty : (readQueue w.host.saved).isEmpty = true := by simpa [Host.reopen] using hopen
      have hold : frozen w.host.log = true := by
        simpa [Host.reopen, hempty, Event.freezes] using hf
      exact hg hold (List.isEmpty_iff.mp hempty)
    · cases (!(readQueue w.host.saved).isEmpty) <;> simp [Event.byDrain]

theorem freezeInv_boot (deviceId : String) (queueTextHash : String → String) (saved : Queue) :
    FreezeInv (World.boot deviceId queueTextHash saved) := by
  refine ⟨fun hf => .inl ?_, (fun _ ht => by cases ht), (fun ht => by cases ht),
    kept_note (each_nil _) ?_⟩
  · cases hempty : (readQueue saved).isEmpty with
    | false => simp [World.boot, Host.reopen, hempty]
    | true => simp [World.boot, Host.reopen, hempty, frozen, latest, Event.freezes] at hf
  · cases (!(readQueue saved).isEmpty) <;> simp [Event.byDrain]

/-- **Cancel freezes the queue.** In every run of careful steps over any durable queue, no drain
takes, hands on or delivers a row after an interrupt stopped a turn, or after the handle was opened
with rows, until a prompt of the user is accepted. -/
theorem cancel_freezes_queue (deviceId : String) (queueTextHash : String → String) (saved : Queue)
    (acts : List Act) (hg : Run.Guarded World.step Careful (.boot deviceId queueTextHash saved) acts)
    (w : World) (hw : Run.exec World.step (.boot deviceId queueTextHash saved) acts = some w)
    (pre : List Event) (e : Event) (post : List Event) (he : w.host.log = pre ++ e :: post)
    (hby : e.byDrain = true) : frozen pre = false :=
  (Run.exec_invariant (fun _ _ _ => freezeInv_step) (freezeInv_boot deviceId queueTextHash saved) hg
    hw).kept pre e post he hby

/-- The engine is wired, no turn is in flight, and what is asked of it succeeds. -/
def Answer.idle : Answer where
  nowMs := 1
  newId := "n"
  saved := true
  wired := true
  steersMidTurn := true
  turnInFlight := false
  reply := .accepted

/-- A turn is in flight. -/
def Answer.busy : Answer := { idle with turnInFlight := true }

/-- A call with the answers it gets. -/
def calls (s : Section) (answers : List Answer) : List Act := .call s :: answers.map .turn

/-- The durable queue holds a row. The user sends it now; what is queued next is drained. -/
theorem cancel_freezes_queue_sent :
    let acts := calls (.sendNow "q1") (List.replicate 6 .idle) ++
      .queueMessage "q2" "more" [] false 1 :: calls .drain (List.replicate 6 .idle)
    let w := (Run.exec World.step (.boot "a" id [drafted]) acts).get (by decide +kernel)
    w.host.log.getLast? = some (.accepted "q2" .drain) ∧
      ∀ pre e post, w.host.log = pre ++ e :: post → e.byDrain = true → frozen pre = false := by
  intro acts w
  refine ⟨by decide +kernel, fun pre e post he hby => ?_⟩
  exact cancel_freezes_queue "a" id [drafted] acts (Run.guarded_of_checks (by decide +kernel)) w
    (Option.some_get _).symm pre e post he hby

/-- The handle was opened with a row, and is frozen. The run of an answered question ends; the user
cancels when the run has left the table and its status still says that a turn is in flight. The
interrupt stops nothing and clears the flag, and the next drain delivers the row. -/
theorem missed_interrupt_thaws :
    (Run.exec World.step (.boot "a" id [drafted])
      (calls .cancel [.busy, .busy, { Answer.busy with reply := .noRun }, .busy] ++
        calls .drain (List.replicate 6 .idle))).map (·.host.log) =
      some [.opened true, .taken "q1" .drain, .handed "q1" .drain, .accepted "q1" .drain] := by
  decide +kernel

end Zeron.Delivery
