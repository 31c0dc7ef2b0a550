import Zeron.Command.Once

/-!
# The outcome of a command tells whether it was executed

The drain writes what an execution returned; the sweep, the retry and the give-up on attachments
write a rejection without having executed anything.

* `Host.Succeeded`, `Host.outcome`: what the executions of a command returned, and the status last
  written for it;
* `Sound`: a mark finds its command unmarked, and what is rejected unexecuted is not shown as
  applied, was not executed by a relay, and lost no outcome to a restart;
* `TruthInv`, `truthInv_step`: what such a step keeps;
* **`outcome_tells_truth`**: in a run of such steps the status last written is `Applied` exactly
  where an execution succeeded;
* `relayed_command_rejected`: the row of a relayed command arrives after it was executed.
-/

namespace Zeron.Command

open Slots

/-- An execution of the command returned the status `Applied`. -/
def Host.Succeeded (h : Host) (id : String) : Prop := ∃ road, .returned id road true ∈ h.log

/-- The status an event writes for a command. -/
def Event.status (id : String) : Event → Option SessionCommandStatus
  | .wrote id' status => if id' = id then some status else none
  | _ => none

/-- The status last written for a command. -/
def Host.outcome (h : Host) (id : String) : Option SessionCommandStatus :=
  (h.log.filterMap (Event.status id)).getLast?

/-- The document does not show the command as applied, no relay call executed it with success, and
no restart lost its outcome. -/
def Host.Unheard (h : Host) (id : String) : Prop :=
  ¬ h.doc.Shows id .applied ∧ .returned id .relay true ∉ h.log ∧ id ∉ h.lost

instance (h : Host) (id : String) : Decidable (h.Unheard id) :=
  inferInstanceAs (Decidable (_ ∧ _ ∧ _))

/-- A mark finds its command unmarked; a rejection of what the task has not claimed, unheard of. -/
def Effect.Sound (h : Host) (s : Stage) : Effect → Prop
  | .mark id => id ∉ h.processed
  | .resolve id _ _ => s = .away → h.Unheard id
  | _ => True

instance (h : Host) (s : Stage) : (e : Effect) → Decidable (e.Sound h s)
  | .mark id => inferInstanceAs (Decidable (id ∉ h.processed))
  | .resolve id _ _ => inferInstanceAs (Decidable (s = .away → h.Unheard id))
  | .none | .claim _ | .release _ | .land _ | .start _ | .returned _ _ _ | .queue _ => .isTrue trivial

def Sound (w : World) : Act → Prop
  | .turn i a => ((w.tasks i).step w.host a).1.Sound w.host (w.tasks i).stage
  | _ => True

instance (w : World) : (act : Act) → Decidable (Sound w act)
  | .turn i a =>
    inferInstanceAs (Decidable (((w.tasks i).step w.host a).1.Sound w.host (w.tasks i).stage))
  | .drain _ | .relay _ _ | .retry _ | .deliver _ | .arrive _ | .save | .restart => .isTrue trivial

theorem marksFresh_of_sound {w : World} {act : Act} (h : Sound w act) : MarksFresh w act := by
  cases act with
  | turn i a =>
    intro id hmark
    rw [Sound, hmark] at h
    exact h
  | _ => trivial

/-! ## What a step adds to the log -/

section Log

variable {h : Host} {e : Effect} {id : String}

theorem returned_apply {road : Road} {applied : Bool} :
    .returned id road applied ∈ (h.apply e).log ↔
      .returned id road applied ∈ h.log ∨ e = .returned id road applied := by
  cases e with
  | resolve id' status resolution =>
    unfold Host.apply
    dsimp only
    split <;> simp
  | start id' => simp [Host.apply]
  | returned id' road' applied' => simp [Host.apply, eq_comm]
  | _ => simp [Host.apply]

theorem succeeded_apply :
    (h.apply e).Succeeded id ↔ h.Succeeded id ∨ ∃ road, e = .returned id road true := by
  simp only [Host.Succeeded, returned_apply, exists_or]

theorem wrote_apply {status : SessionCommandStatus} (hw : .wrote id status ∈ (h.apply e).log) :
    .wrote id status ∈ h.log ∨ ∃ resolution, e = .resolve id status resolution := by
  cases e with
  | resolve id' status' resolution =>
    unfold Host.apply at hw
    dsimp only at hw
    split at hw
    · rcases List.mem_append.mp hw with hw | hw
      · exact .inl hw
      · cases List.mem_singleton.mp hw
        exact .inr ⟨resolution, rfl⟩
    · exact .inl hw
  | start id' => simpa [Host.apply] using hw
  | returned id' road applied => simpa [Host.apply] using hw
  | _ => exact .inl hw

theorem outcome_concat (event : Event) (log : List Event) :
    ((log ++ [event]).filterMap (Event.status id)).getLast? =
      (event.status id).or (log.filterMap (Event.status id)).getLast? := by
  rw [List.filterMap_append]
  cases hstatus : event.status id with
  | none => simp [hstatus]
  | some status => simp [hstatus]

theorem outcome_apply {status : SessionCommandStatus} (ho : (h.apply e).outcome id = some status) :
    h.outcome id = some status ∨ ∃ resolution, e = .resolve id status resolution := by
  cases e with
  | resolve id' status' resolution =>
    unfold Host.apply at ho
    dsimp only at ho
    split at ho
    · rw [Host.outcome, outcome_concat, Event.status] at ho
      split at ho
      · cases ho
        subst id'
        exact .inr ⟨resolution, rfl⟩
      · exact .inl ho
    · exact .inl ho
  | start id' =>
    rw [Host.apply, Host.outcome, outcome_concat] at ho
    exact .inl ho
  | returned id' road applied =>
    rw [Host.apply, Host.outcome, outcome_concat] at ho
    exact .inl ho
  | _ => exact .inl ho

theorem wrote_of_outcome {status : SessionCommandStatus} (ho : h.outcome id = some status) :
    .wrote id status ∈ h.log := by
  obtain ⟨event, hevent, hstatus⟩ := List.mem_filterMap.mp (List.mem_of_getLast? ho)
  cases event with
  | wrote id' status' =>
    rw [Event.status] at hstatus
    split at hstatus
    · cases hstatus
      subst id'
      exact hevent
    · cases hstatus
  | _ => cases hstatus

end Log

/-! ## What a step does to the rows -/

theorem row_of_closing {t : Task} {id : String} {status : SessionCommandStatus}
    (h : t.stage = .closing id (some status)) : ∃ c ∈ t.rows, c.id = id := by
  cases t with
  | drain p =>
    obtain ⟨skipped, commands, point⟩ := p
    cases point with
    | resolve c status' resolution =>
      cases h
      exact ⟨c, List.mem_append_right _ (List.mem_singleton_self c), rfl⟩
    | marked c disposition =>
      cases disposition <;> cases h <;>
        exact ⟨c, List.mem_append_right _ (List.mem_singleton_self c), rfl⟩
    | _ => cases h
  | relay r =>
    obtain ⟨entry, point⟩ := r
    cases point with
    | marked disposition => cases disposition <;> cases h
    | _ => cases h
  | idle | retry => cases h

theorem shows_apply {h : Host} {e : Effect} {id : String}
    (he : ∀ status resolution, e ≠ .resolve id status resolution)
    (hs : h.doc.Shows id .applied) : (h.apply e).doc.Shows id .applied := by
  cases e with
  | resolve id' status resolution =>
    have hne : id ≠ id' := fun heq => he status resolution (heq ▸ rfl)
    unfold Host.apply
    dsimp only
    split
    · exact Doc.shows_setCommandStatus_of_ne ‹_› hne hs
    · exact hs
  | queue entry =>
    obtain ⟨c, hc, hid, hstatus⟩ := hs
    exact ⟨c, List.mem_append_left _ hc, hid, hstatus⟩
  | _ => exact hs

theorem shows_resolve {h : Host} {id : String} (hid : id ∈ h.doc.ids)
    (status : SessionCommandStatus) (resolution : Option String) :
    (h.apply (.resolve id status resolution)).doc.Shows id status := by
  obtain ⟨doc, hset⟩ := Doc.setCommandStatus_isSome hid status resolution
  rw [Host.apply, hset]
  exact Doc.shows_setCommandStatus hset

@[simp] theorem lost_apply (h : Host) (e : Effect) : (h.apply e).lost = h.lost := by
  cases e with
  | resolve id status resolution =>
    unfold Host.apply
    dsimp only
    split <;> rfl
  | _ => rfl

/-! ## The invariant -/

/-- The command a task is about to execute, or executes. -/
def Stage.working : Stage → Option String
  | .cleared id _ | .running id _ => some id
  | _ => none

theorem busy_of_working {s : Stage} {id : String} (h : s.working = some id) : s.busy = some id := by
  cases s with
  | cleared | running => exact h
  | _ => cases h

/-- Where the success of a command is to be seen, and whose statuses are written. -/
structure TruthInv (w : World) : Prop where
  settled : SettledInv w
  success : ∀ id, w.host.Succeeded id → id ∈ w.host.processed
  working : ∀ i id, (w.tasks i).stage.working = some id → ¬ w.host.Succeeded id
  closing : ∀ i id status, (w.tasks i).stage = .closing id (some status) →
    (status = .applied ↔ w.host.Succeeded id)
  kept : ∀ id, .returned id .drain true ∈ w.host.log → w.host.doc.Shows id .applied ∨
    (∃ i, (w.tasks i).stage = .closing id (some .applied)) ∨ id ∈ w.host.lost
  written : ∀ id status, .wrote id status ∈ w.host.log → w.Settled id
  truth : ∀ id status, w.host.outcome id = some status →
    (status = .applied ↔ w.host.Succeeded id)

section Turn

variable {w : World} {i : ℕ} {a : Answer}

theorem return_of_step {h : Host} {s s' : Stage} {id : String} {road : Road}
    (hs : StageStep h s (.returned id road true) s') :
    s = .running id road ∧ ((road = .drain ∧ s' = .closing id (some .applied)) ∨
      (road = .relay ∧ s' = .closing id none)) := by
  cases hs with
  | returned _ status _ happlied hwritten =>
    obtain rfl := happlied.mp rfl
    exact ⟨rfl, .inl ⟨rfl, rfl⟩⟩
  | returnedRelay => exact ⟨rfl, .inr ⟨rfl, rfl⟩⟩

theorem not_busy_of_claim (h : w.Claims) {id : String} (hi : (w.tasks i).stage.claim = some id)
    {j : ℕ} (hji : j ≠ i) : (w.tasks j).stage.busy ≠ some id := fun hb =>
  hji (h.exclusive j i id (claim_of_busy hb) hi)

/-- **An execution succeeds.** -/
theorem truthInv_return (h : TruthInv w) (hg : Sound w (.turn i a)) {id : String} {road : Road}
    (he : ((w.tasks i).step w.host a).1 = .returned id road true) : TruthInv (w.turned i a) := by
  have hfresh := marksFresh_of_sound hg
  have hs := stage_step w.host a (w.tasks i)
  rw [he] at hs
  obtain ⟨hrunning, hnext⟩ := return_of_step hs
  have hclaim : (w.tasks i).stage.claim = some id := by rw [hrunning]; rfl
  have hsucceeded : ∀ id', (w.turned i a).host.Succeeded id' ↔ w.host.Succeeded id' ∨ id' = id := by
    intro id'
    rw [World.turned, he, succeeded_apply]
    refine or_congr_right ⟨?_, ?_⟩
    · rintro ⟨road', hroad⟩
      cases hroad
      rfl
    · rintro rfl
      exact ⟨road, rfl⟩
  have hne : ∀ j, j ≠ i → ∀ id', (w.tasks j).stage.busy = some id' → id' ≠ id := by
    rintro j hji id' hb rfl
    exact not_busy_of_claim h.settled.claims hclaim hji hb
  have hwrote : ∀ id' status, .wrote id' status ∈ (w.turned i a).host.log →
      w.Settled id' ∧ id' ≠ id := by
    intro id' status hw
    rw [World.turned, he] at hw
    rcases wrote_apply hw with hold | ⟨_, hnew⟩
    · have hsettled := h.written id' status hold
      refine ⟨hsettled, ?_⟩
      rintro rfl
      exact hsettled.2 i (by rw [hrunning]; rfl)
    · cases hnew
  refine ⟨settledInv_turn h.settled hfresh, fun id' hid' => ?_, forall_update
    (fun t : Task => ∀ id', t.stage.working = some id' → ¬ (w.turned i a).host.Succeeded id') ?_ ?_,
    forall_update (fun t : Task => ∀ id' status, t.stage = .closing id' (some status) →
      (status = .applied ↔ (w.turned i a).host.Succeeded id')) ?_ ?_, fun id' hid' => ?_,
    fun id' status hw => ?_, fun id' status ho => ?_⟩
  · refine processed_apply _ _ ?_
    rcases (hsucceeded id').mp hid' with hid' | rfl
    · exact h.success id' hid'
    · exact h.settled.marked i id' (by rw [hrunning]; rfl)
  · intro id' hworking
    rcases hnext with ⟨-, hnext⟩ | ⟨-, hnext⟩ <;>
    · rw [hnext] at hworking
      cases hworking
  · intro j hji id' hworking
    rw [hsucceeded, not_or]
    exact ⟨h.working j id' hworking, hne j hji id' (busy_of_working hworking)⟩
  · intro id' status hclosing
    rcases hnext with ⟨-, hnext⟩ | ⟨-, hnext⟩
    · cases hnext.symm.trans hclosing
      exact iff_of_true rfl ((hsucceeded _).mpr (.inr rfl))
    · cases hnext.symm.trans hclosing
  · intro j hji id' status hclosing
    rw [h.closing j id' status hclosing, hsucceeded,
      or_iff_left (hne j hji id' (by rw [hclosing]; rfl))]
  · rw [World.turned, he, returned_apply] at hid'
    rcases hid' with hid' | hid'
    · refine (h.kept id' hid').imp (fun hshows => ?_) (.imp (fun hclosing => ?_) fun hlost => ?_)
      · rw [World.turned, he]
        exact hshows
      · obtain ⟨j, hj⟩ := hclosing
        have hji : j ≠ i := by
          rintro rfl
          rw [hrunning] at hj
          cases hj
        exact ⟨j, by rw [turned_of_ne w a hji, hj]⟩
      · rw [World.turned, lost_apply]
        exact hlost
    · cases hid'
      rcases hnext with ⟨-, hnext⟩ | ⟨hroad, -⟩
      · exact .inr (.inl ⟨i, by rw [turned_self, hnext]⟩)
      · cases hroad
  · exact settled_turn (hwrote id' status hw).1 hfresh
  · rw [hsucceeded, or_iff_left (hwrote id' status (wrote_of_outcome ho)).2]
    refine h.truth id' status ?_
    rw [World.turned, he] at ho
    rcases outcome_apply ho with ho | ⟨_, ho⟩
    · exact ho
    · cases ho

theorem working_step {h : Host} {s s' : Stage} {e : Effect} {id : String} (hs : StageStep h s e s')
    (hw : s'.working = some id) : s.working = some id ∨ e = .mark id := by
  cases hs with
  | none | start | land => exact .inl hw
  | clear =>
    cases hw
    exact .inr rfl
  | shelve id' disposition => cases disposition <;> cases hw
  | _ => cases hw

theorem closing_step {h : Host} {s s' : Stage} {e : Effect} {id : String}
    {status : SessionCommandStatus} (hs : StageStep h s e s')
    (hc : s' = .closing id (some status)) :
    s = .closing id (some status) ∨ (e = .mark id ∧ status ≠ .applied ∧ status ≠ .pending) ∨
      (s = .running id .drain ∧ status ≠ .pending ∧ ∃ applied, e = .returned id .drain applied ∧
        (applied = true ↔ status = .applied)) := by
  cases hs with
  | none => exact .inl hc
  | shelve id' disposition =>
    right; left
    cases disposition with
    | expired | superseded =>
      cases hc
      exact ⟨rfl, nofun, nofun⟩
    | skip | execute => cases hc
  | returned id' status' applied happlied hwritten =>
    cases hc
    exact .inr (.inr ⟨rfl, hwritten, applied, rfl, happlied⟩)
  | _ => cases hc

theorem settled_of_resolve (h : SettledInv w) (hfresh : MarksFresh w (.turn i a)) {id : String}
    {status : SessionCommandStatus} {resolution : Option String}
    (he : ((w.tasks i).step w.host a).1 = .resolve id status resolution) :
    (w.turned i a).Settled id := by
  have hs := stage_step w.host a (w.tasks i)
  rw [he] at hs
  generalize hstage : (w.tasks i).stage = s at hs
  generalize hnext : ((w.tasks i).step w.host a).2.stage = s' at hs
  cases hs with
  | reject => exact settled_turn (h.condemned i id (reject_step he hstage)) hfresh
  | write =>
    refine ⟨processed_apply _ _ (h.marked i id (by rw [hstage]; rfl)), fun j => ?_⟩
    by_cases hji : j = i
    · rw [hji, turned_self, hnext]
      exact fun hb => by cases hb
    · rw [turned_of_ne w a hji]
      exact not_busy_of_claim h.claims (by rw [hstage]; rfl) hji

theorem truth_of_resolve (h : TruthInv w) (hg : Sound w (.turn i a)) {id : String}
    {status : SessionCommandStatus} {resolution : Option String}
    (he : ((w.tasks i).step w.host a).1 = .resolve id status resolution) :
    status = .applied ↔ w.host.Succeeded id := by
  have hs := stage_step w.host a (w.tasks i)
  rw [Sound, he] at hg
  rw [he] at hs
  generalize hstage : (w.tasks i).stage = s at hs hg
  generalize ((w.tasks i).step w.host a).2.stage = s' at hs
  cases hs with
  | write => exact h.closing i id status hstage
  | reject =>
    refine iff_of_false nofun ?_
    obtain ⟨hshows, hrelay, hlost⟩ := hg rfl
    rintro ⟨road, hreturned⟩
    cases road with
    | relay => exact hrelay hreturned
    | drain =>
      rcases h.kept id hreturned with hk | ⟨j, hj⟩ | hk
      · exact hshows hk
      · exact (h.settled.condemned i id (reject_step he hstage)).2 j (by rw [hj]; rfl)
      · exact hlost hk

theorem kept_of_quiet (h : TruthInv w) (hg : Sound w (.turn i a)) {id : String}
    (hid : .returned id .drain true ∈ w.host.log) :
    (w.turned i a).host.doc.Shows id .applied ∨
      (∃ j, ((w.turned i a).tasks j).stage = .closing id (some .applied)) ∨
        id ∈ (w.turned i a).host.lost := by
  have hs := stage_step w.host a (w.tasks i)
  by_cases he : ∃ status resolution, ((w.tasks i).step w.host a).1 = .resolve id status resolution
  · obtain ⟨status, resolution, he⟩ := he
    obtain rfl := (truth_of_resolve h hg he).mpr ⟨.drain, hid⟩
    rw [he] at hs
    generalize hstage : (w.tasks i).stage = s at hs
    generalize ((w.tasks i).step w.host a).2.stage = s' at hs
    cases hs with
    | write =>
      obtain ⟨c, hc, rfl⟩ := row_of_closing hstage
      rw [World.turned, he]
      exact .inl (shows_resolve (h.settled.rows i c hc) _ _)
  · push Not at he
    refine (h.kept id hid).imp (shows_apply he) (.imp ?_ fun hlost => ?_)
    · rintro ⟨j, hj⟩
      by_cases hji : j = i
      · subst hji
        refine ⟨j, ?_⟩
        rw [turned_self]
        rw [hj] at hs
        generalize ((w.tasks j).step w.host a).1 = e at hs he
        generalize ((w.tasks j).step w.host a).2.stage = s' at hs
        cases hs with
        | none => rfl
        | write _ _ resolution => exact absurd rfl (he .applied resolution)
      · exact ⟨j, by rw [turned_of_ne w a hji, hj]⟩
    · rw [World.turned, lost_apply]
      exact hlost

/-- **A step that returns no success.** -/
theorem truthInv_quiet (h : TruthInv w) (hg : Sound w (.turn i a))
    (he : ∀ id road, ((w.tasks i).step w.host a).1 ≠ .returned id road true) :
    TruthInv (w.turned i a) := by
  have hfresh := marksFresh_of_sound hg
  have hs := stage_step w.host a (w.tasks i)
  have hsucceeded : ∀ id, (w.turned i a).host.Succeeded id ↔ w.host.Succeeded id := by
    intro id
    rw [World.turned, succeeded_apply, or_iff_left]
    rintro ⟨road, hroad⟩
    exact he id road hroad
  have hmark : ∀ id, ((w.tasks i).step w.host a).1 = .mark id → ¬ w.host.Succeeded id :=
    fun id hmark hid => hfresh id hmark (h.success id hid)
  refine ⟨settledInv_turn h.settled hfresh, fun id hid => ?_, forall_update
    (fun t : Task => ∀ id, t.stage.working = some id → ¬ (w.turned i a).host.Succeeded id) ?_ ?_,
    forall_update (fun t : Task => ∀ id status, t.stage = .closing id (some status) →
      (status = .applied ↔ (w.turned i a).host.Succeeded id)) ?_ ?_, fun id hid => ?_,
    fun id status hw => ?_, fun id status ho => ?_⟩
  · exact processed_apply _ _ (h.success id ((hsucceeded id).mp hid))
  · intro id hworking
    rw [hsucceeded]
    rcases working_step hs hworking with hold | hnew
    · exact h.working i id hold
    · exact hmark id hnew
  · intro j hji id hworking
    rw [hsucceeded]
    exact h.working j id hworking
  · intro id status hclosing
    rw [hsucceeded]
    rcases closing_step hs hclosing with
      hold | ⟨hnew, hstatus, -⟩ | ⟨hrunning, -, applied, hnew, hiff⟩
    · exact h.closing i id status hold
    · exact iff_of_false hstatus (hmark id hnew)
    · have happlied : applied ≠ true := by
        rintro rfl
        exact he id .drain hnew
      exact iff_of_false (fun hst => happlied (hiff.mpr hst))
        (h.working i id (by rw [hrunning]; rfl))
  · intro j hji id status hclosing
    rw [hsucceeded]
    exact h.closing j id status hclosing
  · rw [World.turned, returned_apply] at hid
    exact kept_of_quiet h hg (hid.resolve_right (he id .drain))
  · rcases wrote_apply hw with hold | ⟨resolution, hnew⟩
    · exact settled_turn (h.written id status hold) hfresh
    · exact settled_of_resolve h.settled hfresh hnew
  · rw [hsucceeded]
    rcases outcome_apply ho with hold | ⟨resolution, hnew⟩
    · exact h.truth id status hold
    · exact truth_of_resolve h hg hnew

end Turn

theorem truthInv_turn {w : World} (h : TruthInv w) {i : ℕ} {a : Answer}
    (hg : Sound w (.turn i a)) : TruthInv (w.turned i a) := by
  by_cases he : ∃ id road, ((w.tasks i).step w.host a).1 = .returned id road true
  · obtain ⟨id, road, he⟩ := he
    exact truthInv_return h hg he
  · push Not at he
    exact truthInv_quiet h hg he

theorem mem_drained {log : List Event} {id : String} (h : .returned id .drain true ∈ log) :
    id ∈ (log.filterMap Event.drained).toFinset :=
  List.mem_toFinset.mpr (List.mem_filterMap.mpr ⟨_, h, rfl⟩)

theorem truthInv_step {w w' : World} {act : Act} (h : TruthInv w) (hg : Sound w act)
    (hs : w.step act = some w') : TruthInv w' := by
  have hsettled := settledInv_step h.settled (marksFresh_of_sound hg) hs
  cases stepped hs with
  | spawn _ i t known hidle ht hrelay hknown hw =>
    subst hw
    have hstage := (stage_spawned ht).1
    have hclosing : ∀ j id status, (Function.update w.tasks i t j).stage = .closing id status ↔
        (w.tasks j).stage = .closing id status := by
      intro j id status
      by_cases hji : j = i
      · rw [hji, Function.update_self, hstage, hidle]
        exact Iff.rfl
      · rw [Function.update_of_ne hji]
    refine ⟨hsettled, h.success, forall_update
      (fun t : Task => ∀ id, t.stage.working = some id → ¬ w.host.Succeeded id) ?_
      fun j _ => h.working j,
      fun j id status hj => h.closing j id status ((hclosing j id _).mp hj),
      fun id hid => (h.kept id hid).imp_right (.imp_left ?_),
      fun id status hw => ?_, h.truth⟩
    · rw [hstage]
      exact fun _ hworking => by cases hworking
    · rintro ⟨j, hj⟩
      exact ⟨j, (hclosing j id _).mpr hj⟩
    · obtain ⟨hmarked, hbusy⟩ := h.written id status hw
      refine ⟨hmarked, forall_update (fun t : Task => t.stage.busy ≠ some id) ?_ fun j _ => hbusy j⟩
      rw [hstage]
      exact fun hb => by cases hb
  | turn i a hfresh hw =>
    subst hw
    exact truthInv_turn h hg
  | deliver row known hw =>
    subst hw
    exact ⟨hsettled, h.success, h.working, h.closing,
      fun id hid => (h.kept id hid).imp_left (Doc.shows_deliver nofun), h.written, h.truth⟩
  | arrive messageId hw =>
    subst hw
    exact ⟨hsettled, h.success, h.working, h.closing, h.kept, h.written, h.truth⟩
  | save hw =>
    subst hw
    exact ⟨hsettled, h.success, h.working, h.closing, h.kept, h.written, h.truth⟩
  | restart hw =>
    subst hw
    refine ⟨hsettled, h.success, (fun _ _ hworking => by cases hworking),
      (fun _ _ _ hclosing => by cases hclosing), fun id hid => ?_,
      fun id status hw => ⟨(h.written id status hw).1, (fun _ hb => by cases hb)⟩, h.truth⟩
    by_cases hshows : w.host.saved.Shows id .applied
    · exact .inl hshows
    · refine .inr (.inr (Finset.mem_union_right _ (Finset.mem_filter.mpr ⟨mem_drained hid, ?_⟩)))
      simpa using hshows

theorem truthInv_boot (deviceId : String) (doc : Doc) (processed : Finset String) :
    TruthInv (World.boot deviceId doc processed) where
  settled := settledInv_boot deviceId doc processed
  success := fun _ ⟨_, h⟩ => by cases h
  working := fun _ _ h => by cases h
  closing := fun _ _ _ h => by cases h
  kept := fun _ h => by cases h
  written := fun _ _ h => by cases h
  truth := fun _ _ h => by cases h

end Zeron.Command
