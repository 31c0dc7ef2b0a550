import Zeron.Command.Outcome

/-!
# A retry sends no message twice

`retry_delivery` mints a fresh attempt for a message when an attempt is dead and no other is
pending and unconsumed. An attempt that is being executed is consumed, and its message may not have
landed.

* `Active`, `Over`: an attempt is pending or executing; is rejected, expired or dead;
* `Orderly`: what the check of a retry leaves out, as a condition on each step;
* `RetryInv`, `retryInv_step`: what such a step keeps;
* **`retry_sends_once`**: in a run of such steps a message has one active attempt at most, and a new
  one is minted where every other is over;
* `slow_execution_sent_again`: a second retry, while the attempt of the first is executing.
-/

namespace Zeron.Command

open Slots

/-- The attempt is pending and unconsumed, or executing. -/
def SessionCommandEntry.Active (h : Host) (r : SessionCommandEntry) : Prop :=
  (r.status = .pending ∧ r.id ∉ h.processed) ∨ r.id ∈ h.executing

/-- The attempt is rejected, expired, or dead: consumed without an outcome, and not executing. -/
def SessionCommandEntry.Over (h : Host) (r : SessionCommandEntry) : Prop :=
  r.id ∉ h.executing ∧
    (r.status = .rejected ∨ r.status = .expired ∨ (r.status = .pending ∧ r.id ∈ h.processed))

instance (h : Host) (r : SessionCommandEntry) : Decidable (r.Active h) :=
  inferInstanceAs (Decidable (_ ∨ _))

theorem not_active_of_over {h : Host} {r : SessionCommandEntry} (ho : r.Over h) : ¬ r.Active h := by
  obtain ⟨hfree, hstatus⟩ := ho
  rintro (⟨hpending, hnew⟩ | hexecuting)
  · rcases hstatus with hs | hs | ⟨-, hmarked⟩
    · cases hpending.symm.trans hs
    · cases hpending.symm.trans hs
    · exact hnew hmarked
  · exact hfree hexecuting

/-- A message has one active attempt at most. -/
def Host.SentOnce (h : Host) : Prop :=
  ∀ r ∈ h.doc.commands, ∀ r' ∈ h.doc.commands, r.messageId ≠ none → r.messageId = r'.messageId →
    r.Active h → r'.Active h → r.id = r'.id

/-- Every attempt to send the message is over. -/
def Host.Spent (h : Host) (message : Option String) : Prop :=
  ∀ r ∈ h.doc.commands, r.messageId = message → r.Over h

/-- The attempts a retry has found dead, and not issued again yet. -/
def RetryPoint.inHand : RetryPoint → List SessionCommandEntry
  | .check _ _ _ dead | .settle _ dead => dead
  | .mint _ old dead => old :: dead
  | _ => []

def Task.inHand : Task → List SessionCommandEntry
  | .retry p => p.inHand
  | _ => []

/-- The messages a task is about to send again. -/
def Task.pursued (t : Task) : List (Option String) := t.inHand.map (·.messageId)

/-! ## The condition -/

/-- What a retry does not check before it takes `c` for the message to send: no attempt to send it is
executing, the document has no attempt that the retry has not read, none that is pending and
unconsumed is of the other kind, and none is applied, superseded or cancelled. -/
def Host.Judged (h : Host) (commands : List SessionCommandEntry) (c : SessionCommandEntry) : Prop :=
  ∀ r ∈ h.doc.commands, r.messageId = c.messageId → r.id ∉ h.executing ∧
    r.id ∈ commands.map (·.id) ∧
      (r.status = .pending → r.id ∉ h.processed → r.kind = c.kind) ∧
      (r.status = .pending ∨ r.status = .rejected ∨ r.status = .expired)

/-- A retry that takes an attempt has judged it rightly. -/
def Task.Judges (h : Host) (a : Answer) : Task → Prop
  | .retry (.check commands landed (c :: _) _) =>
    h.reissues a commands landed c = true → h.Judged commands c
  | _ => True

/-- A claim and a mark find their command out of the ledger, and no other retry is about to send
the message of a minted attempt. -/
def World.Allows (w : World) (i : ℕ) : Effect → Prop
  | .claim id | .mark id => id ∉ w.host.processed
  | .queue entry => ∀ j < w.slots, j ≠ i → entry.messageId ∉ (w.tasks j).pursued
  | _ => True

/-- An import brings no second row and no foreign outcome for a command, and nothing for a message
that is about to be sent again, or that has an active attempt besides. -/
def World.Receives (w : World) (row : SessionCommandEntry) : Prop :=
  (∀ c ∈ w.host.doc.commands, c.id = row.id → c.payload = row.payload) ∧
    (row.id ∈ w.host.doc.ids → row.status ≠ .pending → row.id ∈ w.host.processed) ∧
      (row.messageId ≠ none → (∀ j < w.slots, row.messageId ∉ (w.tasks j).pursued) ∧
        (row.id ∉ w.host.doc.ids → row.Active w.host →
          ∀ r ∈ w.host.doc.commands, r.messageId = row.messageId → ¬ r.Active w.host))

/-- Drains and retries, executions, imports and restarts; no relay. -/
def Orderly (w : World) : Act → Prop
  | .relay _ _ => False
  | .deliver row => w.Receives row
  | .turn i a => w.Allows i ((w.tasks i).step w.host a).1 ∧ (w.tasks i).Judges w.host a
  | _ => True

instance (h : Host) (commands : List SessionCommandEntry) (c : SessionCommandEntry) :
    Decidable (h.Judged commands c) :=
  inferInstanceAs (Decidable (∀ r ∈ h.doc.commands, _ → _ ∧ _ ∧ (_ → _ → _) ∧ (_ ∨ _ ∨ _)))

instance (h : Host) (a : Answer) : (t : Task) → Decidable (t.Judges h a)
  | .retry (.check commands landed (c :: _) _) =>
    inferInstanceAs (Decidable (h.reissues a commands landed c = true → h.Judged commands c))
  | .retry (.check _ _ [] _) | .retry .read | .retry (.messages _) | .retry (.settle _ _)
  | .retry (.mint _ _ _) | .idle | .drain _ | .relay _ => .isTrue trivial

instance (w : World) (i : ℕ) : (e : Effect) → Decidable (w.Allows i e)
  | .claim id | .mark id => inferInstanceAs (Decidable (id ∉ w.host.processed))
  | .queue entry =>
    inferInstanceAs (Decidable (∀ j < w.slots, j ≠ i → entry.messageId ∉ (w.tasks j).pursued))
  | .none | .resolve _ _ _ | .release _ | .land _ | .start _ | .returned _ _ _ => .isTrue trivial

instance (w : World) (row : SessionCommandEntry) : Decidable (w.Receives row) :=
  haveI : Decidable (∀ r ∈ w.host.doc.commands, r.messageId = row.messageId → ¬ r.Active w.host) :=
    inferInstance
  haveI : Decidable (∀ c ∈ w.host.doc.commands, c.id = row.id → c.payload = row.payload) :=
    inferInstance
  inferInstanceAs (Decidable (_ ∧ (_ → _ → _) ∧ (_ → (∀ j < w.slots, _) ∧ (_ → _ → _))))

instance (w : World) : (act : Act) → Decidable (Orderly w act)
  | .relay _ _ => .isFalse id
  | .deliver row => inferInstanceAs (Decidable (w.Receives row))
  | .turn i a => inferInstanceAs (Decidable (w.Allows i _ ∧ (w.tasks i).Judges w.host a))
  | .drain _ | .retry _ | .arrive _ | .save | .restart => .isTrue trivial

/-! ## The command a pass has taken -/

/-- The row a pass has found pending. -/
def PassPoint.taken : PassPoint → Option SessionCommandEntry
  | .messages c | .evaluate c _ | .gate c | .giveUp c | .giveUpReject c | .claim c _ | .mark c _
  | .halt c | .marked c _ | .execute c _ | .resolve c _ _ | .release c => some c
  | _ => none

def Task.taken : Task → Option SessionCommandEntry
  | .drain p => p.point.taken
  | _ => none

theorem mem_rows_of_taken {t : Task} {c : SessionCommandEntry} (h : t.taken = some c) :
    c ∈ t.rows := by
  cases t with
  | drain p =>
    refine List.mem_append_right _ ?_
    obtain ⟨skipped, commands, point⟩ := p
    cases point with
    | read | sweep | sweepClaims | sweepReject | find => cases h
    | _ =>
      cases h
      exact List.mem_singleton_self c
  | _ => cases h

theorem taken_step {h : Host} {a : Answer} {t : Task} {c : SessionCommandEntry}
    (hc : (t.step h a).2.taken = some c) : t.taken = some c ∨ c.status = .pending := by
  cases t with
  | idle => cases hc
  | relay r =>
    have hnone : ((Task.relay r).step h a).2.taken = none := by
      rw [Task.step, Prod.map_snd]
      cases (r.step h a).2 <;> rfl
    cases hnone.symm.trans hc
  | retry p =>
    have hnone : ((Task.retry p).step h a).2.taken = none := by
      rw [Task.step, Prod.map_snd]
      cases (p.step h a).2 <;> rfl
    cases hnone.symm.trans hc
  | drain p =>
    obtain ⟨skipped, commands, point⟩ := p
    cases point with
    | find rest =>
      cases rest with
      | nil => cases hc
      | cons d rest =>
        simp only [Task.step, Pass.step] at hc
        split at hc
        · rename_i hd
          cases hc
          exact .inr hd.1
        · cases hc
    | sweep rest =>
      cases rest with
      | nil => cases hc
      | cons d rest =>
        simp only [Task.step, Pass.step] at hc
        split at hc <;> cases hc
    | marked d disposition => cases disposition <;> exact .inl hc
    | gate d =>
      simp only [Task.step, Pass.step] at hc
      split at hc
      · split at hc
        · cases hc
        · exact .inl hc
      · exact .inl hc
    | read | sweepClaims =>
      simp only [Task.step, Pass.step] at hc
      split at hc <;> cases hc
    | evaluate | mark | execute =>
      simp only [Task.step, Pass.step] at hc
      split at hc <;> exact .inl hc
    | giveUp =>
      simp only [Task.step, Pass.step] at hc
      split at hc
      · exact .inl hc
      · cases hc
    | claim =>
      simp only [Task.step, Pass.step] at hc
      split at hc
      · cases hc
      · exact .inl hc
    | messages | resolve => exact .inl hc
    | sweepReject | giveUpReject | halt | release => cases hc

theorem taken_of_claims {h : Host} {a : Answer} {t : Task} {id : String}
    (he : (t.step h a).1 = .claim id) : (∃ r, t = .relay r) ∨ ∃ c, t.taken = some c ∧ c.id = id := by
  cases t with
  | relay r => exact .inl ⟨r, rfl⟩
  | idle => cases he
  | retry p =>
    have hs := stage_step h a (.retry p)
    cases p with
    | check commands landed rest dead => cases rest <;> cases he
    | settle landed dead =>
      cases dead with
      | nil => cases he
      | cons old dead =>
        simp only [Task.step, RetryPoint.step, Prod.map_fst, id_eq] at he
        split at he <;> cases he
    | read | mint =>
      simp only [Task.step, RetryPoint.step] at he
      split at he <;> cases he
    | messages => cases he
  | drain p =>
    obtain ⟨skipped, commands, point⟩ := p
    cases point with
    | claim c disposition =>
      simp only [Task.step, Pass.step] at he
      split at he
      · cases he
      · cases he
        exact .inr ⟨c, rfl, rfl⟩
    | sweep rest | find rest =>
      cases rest with
      | nil => cases he
      | cons d rest =>
        simp only [Task.step, Pass.step] at he
        split at he <;> cases he
    | gate c =>
      simp only [Task.step, Pass.step] at he
      split at he
      · split at he <;> cases he
      · cases he
    | execute c stage =>
      simp only [Task.step, Pass.step] at he
      split at he
      · cases stage with
        | write =>
          simp only [executeEffect] at he
          split at he
          · cases hm : c.payload.messageId <;> rw [hm] at he <;> cases he
          · cases he
        | _ => cases he
      · cases he
    | marked c disposition => cases disposition <;> cases he
    | read | sweepClaims | evaluate | giveUp | mark =>
      simp only [Task.step, Pass.step] at he
      split at he <;> cases he
    | messages | sweepReject | giveUpReject | halt | resolve | release => cases he

theorem outcome_step {h : Host} {a : Answer} {t : Task} {id : String}
    {status : SessionCommandStatus} (hc : (t.step h a).2.stage = .closing id (some status)) :
    t.stage = .closing id (some status) ∨ status ≠ .pending := by
  rcases closing_step (stage_step h a t) hc with hold | ⟨-, -, hstatus⟩ | ⟨-, hstatus, -⟩
  · exact .inl hold
  · exact .inr hstatus
  · exact .inr hstatus

/-! ## The rows after a step -/

theorem mem_apply {h : Host} {e : Effect} {r' : SessionCommandEntry}
    (hr : r' ∈ (h.apply e).doc.commands) :
    (∃ r ∈ h.doc.commands, r'.id = r.id ∧ r'.payload = r.payload ∧
      (r' = r ∨ ∃ resolution, e = .resolve r.id r'.status resolution)) ∨
    ∃ entry, e = .queue entry ∧ r' = { entry with resolution := none } := by
  cases e with
  | resolve id status resolution =>
    left
    unfold Host.apply at hr
    dsimp only at hr
    split at hr
    · rename_i doc hset
      obtain ⟨-, pre, c, post, hsplit, hid, hsplit'⟩ := Doc.setCommandStatus_split hset
      dsimp only at hr
      rw [hsplit', List.mem_append, List.mem_cons] at hr
      rw [hsplit]
      rcases hr with hr | rfl | hr
      · exact ⟨r', List.mem_append_left _ hr, rfl, rfl, .inl rfl⟩
      · refine ⟨c, List.mem_append_right _ List.mem_cons_self, rfl, rfl, .inr ⟨resolution, ?_⟩⟩
        rw [hid]
      · exact ⟨r', List.mem_append_right _ (List.mem_cons_of_mem _ hr), rfl, rfl, .inl rfl⟩
    · exact ⟨r', hr, rfl, rfl, .inl rfl⟩
  | queue entry =>
    rcases List.mem_append.mp hr with hr | hr
    · exact .inl ⟨r', hr, rfl, rfl, .inl rfl⟩
    · exact .inr ⟨entry, rfl, List.mem_singleton.mp hr⟩
  | _ => exact .inl ⟨r', hr, rfl, rfl, .inl rfl⟩

theorem mem_apply_or {h : Host} (e : Effect) {r : SessionCommandEntry} (hr : r ∈ h.doc.commands) :
    r ∈ (h.apply e).doc.commands ∨ ∃ status resolution, e = .resolve r.id status resolution := by
  cases e with
  | resolve id status resolution =>
    unfold Host.apply
    dsimp only
    split
    · rename_i doc hset
      obtain ⟨-, pre, c, post, hsplit, hid, hsplit'⟩ := Doc.setCommandStatus_split hset
      by_cases hrc : r = c
      · exact .inr ⟨status, resolution, by rw [hrc, hid]⟩
      · left
        dsimp only
        rw [hsplit, List.mem_append, List.mem_cons] at hr
        rw [hsplit', List.mem_append, List.mem_cons]
        exact hr.imp_right fun hr => .inr (hr.resolve_left hrc)
    · exact .inl hr
  | queue entry => exact .inl (List.mem_append_left _ hr)
  | _ => exact .inl hr

theorem nodup_apply {h : Host} {e : Effect} (hids : h.doc.ids.Nodup)
    (hknown : ∀ id ∈ h.doc.ids, id ∈ h.known) (hfresh : e.Fresh h) :
    (h.apply e).doc.ids.Nodup := by
  cases e with
  | resolve id status resolution =>
    unfold Host.apply
    dsimp only
    split
    · exact (Doc.ids_setCommandStatus ‹_›).symm ▸ hids
    · exact hids
  | queue entry =>
    change ((h.doc.commands ++ [_]).map _).Nodup
    rw [List.map_append]
    refine List.nodup_append.mpr ⟨hids, List.nodup_singleton _, ?_⟩
    rintro id hid _ hid' rfl
    rw [List.mem_singleton.mp hid'] at hid
    exact hfresh.1 (hknown entry.id hid)
  | _ => exact hids

theorem known_mono (h : Host) (e : Effect) : h.known ⊆ (h.apply e).known := by
  cases e with
  | queue entry => exact Finset.subset_insert _ _
  | resolve =>
    unfold Host.apply
    dsimp only
    split <;> exact Finset.Subset.refl _
  | _ => exact Finset.Subset.refl _

theorem known_apply {h : Host} {e : Effect} (hknown : ∀ id ∈ h.doc.ids, id ∈ h.known) :
    ∀ id ∈ (h.apply e).doc.ids, id ∈ (h.apply e).known := by
  intro id hid
  obtain ⟨r', hr', rfl⟩ := List.mem_map.mp hid
  rcases mem_apply hr' with ⟨r, hr, hid, -⟩ | ⟨entry, rfl, rfl⟩
  · exact known_mono h e (hknown _ (hid ▸ List.mem_map.mpr ⟨r, hr, rfl⟩))
  · exact Finset.mem_insert_self _ _

@[simp] theorem saved_apply (h : Host) (e : Effect) : (h.apply e).saved = h.saved := by
  cases e with
  | resolve =>
    unfold Host.apply
    dsimp only
    split <;> rfl
  | _ => rfl

/-! ## What a retry has in hand -/

theorem messages_latestDead (c : SessionCommandEntry) (dead : List SessionCommandEntry) :
    (latestDead c dead).map (·.messageId) = if c.messageId ∈ dead.map (·.messageId) then
      dead.map (·.messageId) else dead.map (·.messageId) ++ [c.messageId] := by
  induction dead with
  | nil => rfl
  | cons old rest ih =>
    rw [latestDead]
    by_cases heq : old.messageId = c.messageId
    · have hmessage : (if c.issuedAt > old.issuedAt then c else old).messageId = old.messageId := by
        split
        · exact heq.symm
        · rfl
      rw [if_pos heq, List.map_cons, List.map_cons, hmessage]
      exact (if_pos (by simp [heq])).symm
    · rw [if_neg heq, List.map_cons, ih]
      simp only [List.map_cons, List.mem_cons, Ne.symm heq, false_or]
      split <;> rfl

/-- A step puts at most one more message in hand: that of an attempt it has judged. -/
theorem pursued_step (h : Host) (a : Answer) (t : Task) :
    (t.step h a).2.pursued.Sublist t.pursued ∨
      ∃ commands landed c rest dead, t = .retry (.check commands landed (c :: rest) dead) ∧
        h.reissues a commands landed c = true ∧
        (t.step h a).2.pursued = (latestDead c dead).map (·.messageId) := by
  cases t with
  | idle => exact .inl (.refl _)
  | drain p =>
    left
    have hnil : ((Task.drain p).step h a).2.pursued = [] := by
      rw [Task.step, Prod.map_snd]
      cases (p.step h a).2 <;> rfl
    rw [hnil]
    exact List.nil_sublist _
  | relay r =>
    left
    have hnil : ((Task.relay r).step h a).2.pursued = [] := by
      rw [Task.step, Prod.map_snd]
      cases (r.step h a).2 <;> rfl
    rw [hnil]
    exact List.nil_sublist _
  | retry p =>
    cases p with
    | read =>
      left
      simp only [Task.step, RetryPoint.step]
      split <;> exact .refl _
    | messages => exact .inl (.refl _)
    | check commands landed rest dead =>
      cases rest with
      | nil => exact .inl (.refl _)
      | cons c rest =>
        by_cases hre : h.reissues a commands landed c = true
        · refine .inr ⟨commands, landed, c, rest, dead, rfl, hre, ?_⟩
          simp only [Task.step, RetryPoint.step, if_pos hre]
          rfl
        · left
          simp only [Task.step, RetryPoint.step, if_neg hre]
          exact .refl _
    | settle landed dead => cases dead <;> exact .inl (.refl _)
    | mint landed old dead =>
      left
      simp only [Task.step, RetryPoint.step]
      split
      · exact List.sublist_cons_self _ _
      · exact List.nil_sublist _

/-- A minted attempt is for the message the retry has come to, which is then in hand no longer. -/
theorem queue_step {h : Host} {a : Answer} {t : Task} {entry : SessionCommandEntry}
    (he : (t.step h a).1 = .queue entry) :
    entry.status = .pending ∧ t.pursued = entry.messageId :: (t.step h a).2.pursued := by
  cases t with
  | idle => cases he
  | drain p =>
    have hs := stage_step h a (.drain p)
    obtain ⟨skipped, commands, point⟩ := p
    cases point with
    | execute c stage =>
      rw [he] at hs
      cases hs
    | sweep rest | find rest =>
      cases rest with
      | nil => cases he
      | cons d rest =>
        simp only [Task.step, Pass.step] at he
        split at he <;> cases he
    | gate c =>
      simp only [Task.step, Pass.step] at he
      split at he
      · split at he <;> cases he
      · cases he
    | marked c disposition => cases disposition <;> cases he
    | read | sweepClaims | evaluate | giveUp | claim | mark =>
      simp only [Task.step, Pass.step] at he
      split at he <;> cases he
    | messages | sweepReject | giveUpReject | halt | resolve | release => cases he
  | relay r =>
    have hs := stage_step h a (.relay r)
    obtain ⟨relayed, point⟩ := r
    cases point with
    | execute stage =>
      rw [he] at hs
      cases hs
    | attachments | commands | evaluate | claim | mark =>
      simp only [Task.step, Relay.step] at he
      split at he <;> cases he
    | messages | release => cases he
    | marked disposition => cases disposition <;> cases he
  | retry p =>
    cases p with
    | check commands landed rest dead => cases rest <;> cases he
    | settle landed dead =>
      cases dead with
      | nil => cases he
      | cons old dead =>
        simp only [Task.step, RetryPoint.step, Prod.map_fst, id_eq] at he
        split at he <;> cases he
    | mint landed old dead =>
      simp only [Task.step, RetryPoint.step] at he ⊢
      split at he
      · rename_i hok
        cases he
        rw [if_pos hok]
        exact ⟨rfl, rfl⟩
      · cases he
    | read =>
      simp only [Task.step, RetryPoint.step] at he
      split at he <;> cases he
    | messages => cases he

theorem relay_step {h : Host} {a : Answer} {t : Task} {r : Relay}
    (ht : (t.step h a).2 = .relay r) : ∃ r', t = .relay r' := by
  cases t with
  | relay r' => exact ⟨r', rfl⟩
  | idle => cases ht
  | drain p =>
    rw [Task.step, Prod.map_snd] at ht
    cases hp : (p.step h a).2 <;> rw [hp] at ht <;> cases ht
  | retry p =>
    rw [Task.step, Prod.map_snd] at ht
    cases hp : (p.step h a).2 <;> rw [hp] at ht <;> cases ht

/-! ## The invariant -/

/-- What holds in every orderly run. A row that a task has read is in the document as it was read,
until its command is in the ledger. -/
structure RetryInv (w : World) : Prop where
  settled : SettledInv w
  noRelay : ∀ i r, w.tasks i ≠ .relay r
  slots : ∀ i, w.slots ≤ i → w.tasks i = .idle
  nodup : w.host.doc.ids.Nodup
  savedNodup : w.host.saved.ids.Nodup
  known : ∀ id ∈ w.host.doc.ids, id ∈ w.host.known
  savedKnown : ∀ id ∈ w.host.saved.ids, id ∈ w.host.known
  fresh : ∀ i, ∀ c ∈ (w.tasks i).rows, c.id ∈ w.host.processed ∨ c ∈ w.host.doc.commands
  taken : ∀ i c, (w.tasks i).taken = some c → c.status = .pending
  outcome : ∀ i id status, (w.tasks i).stage = .closing id (some status) → status ≠ .pending
  once : w.host.SentOnce
  savedOnce : ∀ r ∈ w.host.saved.commands, ∀ r' ∈ w.host.saved.commands, r.messageId ≠ none →
    r.messageId = r'.messageId → (r.status = .pending ∧ r.id ∉ w.host.processed) →
      (r'.status = .pending ∧ r'.id ∉ w.host.processed) → r.id = r'.id
  hand : ∀ i, (w.tasks i).pursued.Nodup ∧ none ∉ (w.tasks i).pursued
  spent : ∀ i, ∀ m ∈ (w.tasks i).pursued, w.host.Spent m

theorem eq_of_id {doc : Doc} (h : doc.ids.Nodup) {r s : SessionCommandEntry}
    (hr : r ∈ doc.commands) (hs : s ∈ doc.commands) (hid : r.id = s.id) : r = s :=
  List.inj_on_of_nodup_map h hr hs hid

theorem sameMessage_of {p q : SessionCommandPayload} (hkind : p.kind = q.kind)
    (hm : p.messageId = q.messageId) (hsome : q.messageId ≠ none) : sameMessage p q = true := by
  cases p <;> cases q <;> simp_all [sameMessage, SessionCommandPayload.kind,
    SessionCommandPayload.messageId]

section Turn

variable {w : World} {i : ℕ} {a : Answer}

/-- **What the check of a retry is for**: the message it takes has no attempt that is not over. -/
theorem spent_of_judged (h : RetryInv w) {commands rest dead : List SessionCommandEntry}
    {landed : List String} {c : SessionCommandEntry}
    (ht : w.tasks i = .retry (.check commands landed (c :: rest) dead))
    (hre : w.host.reissues a commands landed c = true) (hj : w.host.Judged commands c) :
    w.host.Spent c.messageId := by
  intro r hr hm
  obtain ⟨hfree, hread, hkind, hstatus⟩ := hj r hr hm
  refine ⟨hfree, ?_⟩
  rcases hstatus with hpending | hrejected | hexpired
  · refine .inr (.inr ⟨hpending, ?_⟩)
    by_contra hnew
    have hsame : ∀ s ∈ (w.tasks i).rows, s.id = r.id → s = r := by
      intro s hs hid
      rcases h.fresh i s hs with hmarked | hdoc
      · exact absurd (hid ▸ hmarked) hnew
      · exact eq_of_id h.nodup hdoc hr hid
    rw [ht] at hsame
    obtain ⟨s, hs, hid⟩ := List.mem_map.mp hread
    obtain rfl := hsame s (List.mem_append_left _ hs) hid
    by_cases hc : s.id = c.id
    · obtain rfl := hsame c (List.mem_append_right _ (List.mem_append_left _ List.mem_cons_self))
        hc.symm
      exact hnew (dead_of_reissues hre hpending).1
    · unfold Host.reissues at hre
      split at hre
      · rename_i messageId hmessage
        simp only [Bool.and_eq_true, Bool.not_eq_true', Host.liveAttempt] at hre
        have hlive := List.any_eq_false.mp hre.2 s hs
        refine hlive ?_
        have hsent : sameMessage s.payload c.payload = true :=
          sameMessage_of (hkind hpending hnew) hm (by
            rw [← SessionCommandEntry.messageId, hmessage]
            exact Option.some_ne_none _)
        simp [hc, hpending, Host.isProcessed, hnew, hsent]
      · cases hre
  · exact .inl hrejected
  · exact .inr (.inl hexpired)

theorem marksFresh_of_orderly {act : Act} (hg : Orderly w act) : MarksFresh w act := by
  cases act with
  | turn i a =>
    intro id hmark
    have hallows := hg.1
    rw [hmark] at hallows
    exact hallows
  | _ => trivial

/-- An attempt that is active after a step was active before it. -/
theorem active_of_turn (h : RetryInv w) (hg : Orderly w (.turn i a)) {r r' : SessionCommandEntry}
    (hr : r ∈ w.host.doc.commands) (hid : r'.id = r.id)
    (hor : r' = r ∨ ∃ resolution,
      ((w.tasks i).step w.host a).1 = .resolve r.id r'.status resolution)
    (ha : r'.Active (w.turned i a).host) : r.Active w.host := by
  have hs := stage_step w.host a (w.tasks i)
  rcases ha with ⟨hpending, hnew⟩ | hexecuting
  · rcases hor with rfl | ⟨resolution, he⟩
    · exact .inl ⟨hpending, fun hmarked => hnew (processed_apply _ _ hmarked)⟩
    · rw [he, hpending] at hs
      generalize hstage : (w.tasks i).stage = s at hs
      generalize ((w.tasks i).step w.host a).2.stage = s' at hs
      cases hs with
      | write => exact absurd rfl (h.outcome i _ _ hstage)
  · rw [hid, World.turned] at hexecuting
    have hclaim := claim_step hs
    have hallows := hg.1
    generalize hstep : (w.tasks i).step w.host a = out at hclaim hallows hexecuting
    obtain ⟨e, t'⟩ := out
    dsimp only at hclaim hallows hexecuting
    cases hclaim with
    | claim id hfree hnone hsome =>
      rcases Finset.mem_insert.mp hexecuting with rfl | hold
      · rcases taken_of_claims (congrArg Prod.fst hstep) with ⟨relay, ht⟩ | ⟨c, hc, hcid⟩
        · exact absurd ht (h.noRelay i relay)
        · rcases h.fresh i c (mem_rows_of_taken hc) with hmarked | hdoc
          · exact absurd (hcid ▸ hmarked) hallows
          · obtain rfl := eq_of_id h.nodup hdoc hr hcid
            exact .inl ⟨h.taken i c hc, hallows⟩
      · exact .inr hold
    | release id => exact .inr (Finset.mem_of_mem_erase hexecuting)
    | keep _ hset =>
      rw [hset] at hexecuting
      exact .inr hexecuting

theorem over_of_turn (h : RetryInv w) (hg : Orderly w (.turn i a)) {r r' : SessionCommandEntry}
    (hr : r ∈ w.host.doc.commands) (hid : r'.id = r.id)
    (hor : r' = r ∨ ∃ resolution,
      ((w.tasks i).step w.host a).1 = .resolve r.id r'.status resolution)
    (ho : r.Over w.host) : r'.Over (w.turned i a).host := by
  refine ⟨fun hexecuting =>
    not_active_of_over ho (active_of_turn h hg hr hid hor (.inr hexecuting)), ?_⟩
  rcases hor with rfl | ⟨resolution, he⟩
  · exact ho.2.imp_right (.imp_right fun hdead =>
      ⟨hdead.1, processed_apply _ _ hdead.2⟩)
  · have hs := stage_step w.host a (w.tasks i)
    rw [he] at hs
    generalize hstage : (w.tasks i).stage = s at hs
    generalize ((w.tasks i).step w.host a).2.stage = s' at hs
    generalize r'.status = status at hs
    cases hs with
    | reject => exact .inl rfl
    | write =>
      refine absurd ((h.settled.claims.held r.id).mpr ⟨i, ?_⟩) ho.1
      rw [Task.claim, hstage]
      rfl

theorem spent_of_turn (h : RetryInv w) (hg : Orderly w (.turn i a)) {m : Option String}
    (hm : w.host.Spent m)
    (hq : ∀ entry, ((w.tasks i).step w.host a).1 = .queue entry → entry.messageId ≠ m) :
    (w.turned i a).host.Spent m := by
  intro r' hr' hrm
  rcases mem_apply hr' with ⟨r, hr, hid, hpayload, hor⟩ | ⟨entry, he, rfl⟩
  · refine over_of_turn h hg hr hid hor (hm r hr ?_)
    rw [← hrm, SessionCommandEntry.messageId, SessionCommandEntry.messageId, hpayload]
  · exact absurd hrm (hq entry he)

theorem hand_turn (h : RetryInv w) :
    ((w.tasks i).step w.host a).2.pursued.Nodup ∧
      none ∉ ((w.tasks i).step w.host a).2.pursued := by
  rcases pursued_step w.host a (w.tasks i) with hsub | ⟨commands, landed, c, rest, dead, ht, hre, hp⟩
  · exact ⟨(h.hand i).1.sublist hsub, fun hnone => (h.hand i).2 (hsub.subset hnone)⟩
  · have hhand := h.hand i
    rw [ht] at hhand
    change (dead.map (·.messageId)).Nodup ∧ none ∉ dead.map (·.messageId) at hhand
    have hsome : c.messageId ≠ none := by
      intro hnone
      rw [Host.reissues, hnone] at hre
      cases hre
    rw [hp, messages_latestDead]
    split
    · exact hhand
    · rename_i hnew
      refine ⟨List.nodup_append.mpr ⟨hhand.1, List.nodup_singleton _, ?_⟩, fun hmem => ?_⟩
      · rintro m hm _ hm' rfl
        exact hnew (List.mem_singleton.mp hm' ▸ hm)
      · rcases List.mem_append.mp hmem with hmem | hmem
        · exact hhand.2 hmem
        · exact hsome (List.mem_singleton.mp hmem).symm

theorem spent_self (h : RetryInv w) (hg : Orderly w (.turn i a)) {m : Option String}
    (hm : m ∈ ((w.tasks i).step w.host a).2.pursued) : (w.turned i a).host.Spent m := by
  refine spent_of_turn h hg ?_ fun entry he heq => ?_
  · rcases pursued_step w.host a (w.tasks i) with
      hsub | ⟨commands, landed, c, rest, dead, ht, hre, hp⟩
    · exact h.spent i m (hsub.subset hm)
    · have hold : ∀ m ∈ dead.map (·.messageId), w.host.Spent m := by
        intro m hm
        refine h.spent i m ?_
        rw [ht]
        exact hm
      have hjudges := hg.2
      rw [ht] at hjudges
      rw [hp, messages_latestDead] at hm
      split at hm
      · exact hold m hm
      · rcases List.mem_append.mp hm with hm | hm
        · exact hold m hm
        · rw [List.mem_singleton.mp hm]
          exact spent_of_judged h ht hre (hjudges hre)
  · -- the message of a minted attempt is in hand no longer
    have hnodup := (h.hand i).1
    rw [(queue_step he).2, heq] at hnodup
    exact (List.nodup_cons.mp hnodup).1 hm

theorem spent_other (h : RetryInv w) (hg : Orderly w (.turn i a)) {j : ℕ} (hji : j ≠ i)
    {m : Option String} (hm : m ∈ (w.tasks j).pursued) : (w.turned i a).host.Spent m := by
  refine spent_of_turn h hg (h.spent j m hm) fun entry he heq => ?_
  have hallows := hg.1
  rw [he] at hallows
  have hj : j < w.slots := by
    by_contra hj
    rw [h.slots j (not_lt.mp hj)] at hm
    cases hm
  exact hallows j hj hji (heq ▸ hm)

theorem once_turn (h : RetryInv w) (hg : Orderly w (.turn i a)) :
    (w.turned i a).host.SentOnce := by
  -- a minted attempt is for a message whose attempts are all over
  have hminted : ∀ entry, ((w.tasks i).step w.host a).1 = .queue entry →
      ∀ r ∈ w.host.doc.commands, r.messageId = entry.messageId → ¬ r.Active w.host := by
    intro entry he r hr hm
    refine not_active_of_over (h.spent i entry.messageId ?_ r hr hm)
    rw [(queue_step he).2]
    exact List.mem_cons_self
  have hmessage : ∀ {r r' : SessionCommandEntry}, r'.payload = r.payload →
      r'.messageId = r.messageId := fun hp => congrArg SessionCommandPayload.messageId hp
  intro r' hr' s' hs' hsome hsame hra hsa
  rcases mem_apply hr' with ⟨r, hr, hrid, hrp, hror⟩ | ⟨entry, he, rfl⟩ <;>
    rcases mem_apply hs' with ⟨s, hs, hsid, hsp, hsor⟩ | ⟨entry', he', rfl⟩
  · rw [hrid, hsid]
    refine h.once r hr s hs ?_ ?_ (active_of_turn h hg hr hrid hror hra)
      (active_of_turn h hg hs hsid hsor hsa)
    · rwa [← hmessage hrp]
    · rw [← hmessage hrp, ← hmessage hsp, hsame]
  · refine absurd (active_of_turn h hg hr hrid hror hra) (hminted entry' he' r hr ?_)
    rw [← hmessage hrp, hsame]
    rfl
  · refine absurd (active_of_turn h hg hs hsid hsor hsa) (hminted entry he s hs ?_)
    rw [← hmessage hsp, ← hsame]
    rfl
  · cases he.symm.trans he'
    rfl

theorem retryInv_turn (h : RetryInv w) (hg : Orderly w (.turn i a))
    (hfresh : ((w.tasks i).step w.host a).1.Fresh w.host) : RetryInv (w.turned i a) := by
  have hmarks := marksFresh_of_orderly hg
  have hmono := processed_apply w.host ((w.tasks i).step w.host a).1
  -- a row that has been read stays, or its command is in the ledger
  have hrow : ∀ c, c.id ∈ w.host.processed ∨ c ∈ w.host.doc.commands →
      c.id ∈ (w.turned i a).host.processed ∨ c ∈ (w.turned i a).host.doc.commands := by
    rintro c (hmarked | hdoc)
    · exact .inl (hmono hmarked)
    · rcases mem_apply_or ((w.tasks i).step w.host a).1 hdoc with hdoc | ⟨status, resolution, he⟩
      · exact .inr hdoc
      · exact .inl (settled_of_resolve h.settled hmarks he).1
  constructor
  case settled => exact settledInv_turn h.settled hmarks
  case noRelay =>
    refine forall_update (fun t : Task => ∀ r, t ≠ .relay r) ?_ fun j _ => h.noRelay j
    intro r hr
    obtain ⟨r', ht⟩ := relay_step hr
    exact h.noRelay i r' ht
  case slots =>
    intro j hj
    by_cases hji : j = i
    · rw [hji, turned_self, h.slots i (hji ▸ hj)]
      rfl
    · rw [turned_of_ne w a hji]
      exact h.slots j hj
  case nodup => exact nodup_apply h.nodup h.known hfresh
  case savedNodup =>
    rw [World.turned, saved_apply]
    exact h.savedNodup
  case known => exact known_apply h.known
  case savedKnown =>
    rw [World.turned, saved_apply]
    exact fun id hid => known_mono _ _ (h.savedKnown id hid)
  case fresh =>
    refine forall_update (fun t : Task => ∀ c ∈ t.rows, c.id ∈ (w.turned i a).host.processed ∨
      c ∈ (w.turned i a).host.doc.commands) ?_ fun j _ c hc => hrow c (h.fresh j c hc)
    exact fun c hc => hrow c ((rows_step hc).elim (h.fresh i c) .inr)
  case taken =>
    refine forall_update (fun t : Task => ∀ c, t.taken = some c → c.status = .pending) ?_
      fun j _ => h.taken j
    exact fun c hc => (taken_step hc).elim (h.taken i c) fun hpending => hpending
  case outcome =>
    refine forall_update (fun t : Task => ∀ id status, t.stage = .closing id (some status) →
      status ≠ .pending) ?_ fun j _ => h.outcome j
    exact fun id status hc => (outcome_step hc).elim (h.outcome i id status) fun hne => hne
  case once => exact once_turn h hg
  case savedOnce =>
    rw [World.turned, saved_apply]
    intro r hr s hs hsome hsame hra hsa
    exact h.savedOnce r hr s hs hsome hsame ⟨hra.1, fun hmarked => hra.2 (hmono hmarked)⟩
      ⟨hsa.1, fun hmarked => hsa.2 (hmono hmarked)⟩
  case hand =>
    exact forall_update (fun t : Task => t.pursued.Nodup ∧ none ∉ t.pursued) (hand_turn h)
      fun j _ => h.hand j
  case spent =>
    exact forall_update (fun t : Task => ∀ m ∈ t.pursued, (w.turned i a).host.Spent m)
      (fun m hm => spent_self h hg hm) fun j hji m hm => spent_other h hg hji hm

end Turn

/-- A row that an import brings. -/
theorem retryInv_deliver {w w' : World} (h : RetryInv w) {row : SessionCommandEntry}
    (hg : w.Receives row) (hs : w.step (.deliver row) = some w') : RetryInv w' := by
  obtain ⟨hsame, houtcome, hmessage⟩ := hg
  have hmarks : MarksFresh w (.deliver row) := trivial
  have hsettled := settledInv_step h.settled hmarks hs
  cases hs
  -- what a row becomes, and what comes of its being active or over
  have hrows : ∀ c ∈ (w.host.doc.deliver row).commands,
      (∃ d ∈ w.host.doc.commands, c.id = d.id ∧ c.messageId = d.messageId ∧
        (c = d ∨ (d.id = row.id ∧ d.messageId = row.messageId ∧ c.status ≠ .pending))) ∨
      (c = row ∧ row.id ∉ w.host.doc.ids) := by
    intro c hc
    rcases Doc.mem_deliver hc with hc | hnew | ⟨d, hd, hid, hpending, hstatus, rfl⟩
    · exact .inl ⟨c, hc, rfl, rfl, .inl rfl⟩
    · exact .inr hnew
    · exact .inl ⟨d, hd, rfl, rfl,
        .inr ⟨hid, congrArg SessionCommandPayload.messageId (hsame d hd hid), hstatus⟩⟩
  have hpursued : ∀ i, ∀ m ∈ (w.tasks i).pursued, row.messageId ≠ m := by
    rintro i _ hm rfl
    by_cases hi : i < w.slots
    · refine (hmessage ?_).1 i hi hm
      intro hnone
      exact (h.hand i).2 (hnone ▸ hm)
    · rw [h.slots i (not_lt.mp hi)] at hm
      cases hm
  constructor
  case settled => exact hsettled
  case noRelay => exact h.noRelay
  case slots => exact h.slots
  case nodup => exact Doc.nodup_deliver h.nodup row
  case savedNodup => exact h.savedNodup
  case known =>
    intro id hid
    obtain ⟨c, hc, rfl⟩ := List.mem_map.mp hid
    rcases hrows c hc with ⟨d, hd, hcd, -⟩ | ⟨rfl, -⟩
    · exact Finset.mem_insert_of_mem (h.known _ (hcd ▸ List.mem_map.mpr ⟨d, hd, rfl⟩))
    · exact Finset.mem_insert_self _ _
  case savedKnown => exact fun id hid => Finset.mem_insert_of_mem (h.savedKnown id hid)
  case fresh =>
    intro i c hc
    rcases h.fresh i c hc with hmarked | hdoc
    · exact .inl hmarked
    · rcases Doc.mem_deliver_or row hdoc with hdoc' | ⟨hid, -, hstatus⟩
      · exact .inr hdoc'
      · exact .inl (hid ▸ houtcome (hid ▸ List.mem_map.mpr ⟨c, hdoc, rfl⟩) hstatus)
  case taken => exact h.taken
  case outcome => exact h.outcome
  case once =>
    have hactive : ∀ {c d : SessionCommandEntry}, c.id = d.id →
        (c = d ∨ (d.id = row.id ∧ d.messageId = row.messageId ∧ c.status ≠ .pending)) →
          c.Active w.host → d.Active w.host := by
      rintro c d hid (rfl | ⟨-, -, hstatus⟩) (⟨hpending, hnew⟩ | hexecuting)
      · exact .inl ⟨hpending, hnew⟩
      · exact .inr hexecuting
      · exact absurd hpending hstatus
      · exact .inr (hid ▸ hexecuting)
    intro r hr s hs hsome heq hra hsa
    rcases hrows r hr with ⟨r₀, hr₀, hrid, hrm, hror⟩ | ⟨rfl, hrnew⟩ <;>
      rcases hrows s hs with ⟨s₀, hs₀, hsid, hsm, hsor⟩ | ⟨rfl, hsnew⟩
    · rw [hrid, hsid]
      exact h.once r₀ hr₀ s₀ hs₀ (hrm ▸ hsome) (hrm.symm.trans (heq.trans hsm))
        (hactive hrid hror hra) (hactive hsid hsor hsa)
    · exact absurd (hactive hrid hror hra)
        ((hmessage (heq ▸ hsome)).2 hsnew hsa r₀ hr₀ (hrm.symm.trans heq))
    · exact absurd (hactive hsid hsor hsa)
        ((hmessage hsome).2 hrnew hra s₀ hs₀ (hsm.symm.trans heq.symm))
    · rfl
  case savedOnce => exact h.savedOnce
  case hand => exact h.hand
  case spent =>
    intro i m hm r hr hrm
    rcases hrows r hr with ⟨d, hd, hid, hdm, rfl | ⟨-, hrow, -⟩⟩ | ⟨rfl, -⟩
    · exact h.spent i m hm r hd hrm
    · exact absurd (hrow.symm.trans (hdm.symm.trans hrm)) (hpursued i m hm)
    · exact absurd hrm (hpursued i m hm)

theorem pursued_spawned {t : Task} (ht : t.Spawned) :
    t.pursued = [] ∧ t.taken = none := by
  rcases ht with rfl | ⟨entry, rfl⟩ | rfl <;> exact ⟨rfl, rfl⟩

theorem retryInv_step {w w' : World} {act : Act} (h : RetryInv w) (hg : Orderly w act)
    (hs : w.step act = some w') : RetryInv w' := by
  have hsettled := settledInv_step h.settled (marksFresh_of_orderly hg) hs
  cases stepped hs with
  | spawn _ i t known hidle ht hrelay hknown hw =>
    subst hw
    obtain ⟨hstage, hrows, -, -⟩ := stage_spawned ht
    obtain ⟨hpursued, htaken⟩ := pursued_spawned ht
    exact { h with
      settled := hsettled
      noRelay := forall_update (fun t : Task => ∀ r, t ≠ .relay r)
        (fun r hr => by rw [hrelay r hr] at hg; exact hg) fun j _ => h.noRelay j
      slots := fun j hj => by
        have hji : j ≠ i := by
          rintro rfl
          exact absurd (le_max_right w.slots (j + 1)) (by dsimp only at hj; omega)
        exact (Function.update_of_ne hji _ _).trans (h.slots j ((le_max_left _ _).trans hj))
      known := fun id hid => hknown (h.known id hid)
      savedKnown := fun id hid => hknown (h.savedKnown id hid)
      fresh := forall_update (fun t : Task => ∀ c ∈ t.rows, c.id ∈ w.host.processed ∨
        c ∈ w.host.doc.commands) (by rw [hrows]; exact List.forall_mem_nil _) fun j _ => h.fresh j
      taken := forall_update (fun t : Task => ∀ c, t.taken = some c → c.status = .pending)
        (fun c hc => by rw [htaken] at hc; cases hc) fun j _ => h.taken j
      outcome := forall_update (fun t : Task => ∀ id status,
        t.stage = .closing id (some status) → status ≠ .pending)
        (fun id status hc => by rw [hstage] at hc; cases hc) fun j _ => h.outcome j
      hand := forall_update (fun t : Task => t.pursued.Nodup ∧ none ∉ t.pursued)
        (by rw [hpursued]; exact ⟨List.nodup_nil, List.not_mem_nil⟩) fun j _ => h.hand j
      spent := forall_update (fun t : Task => ∀ m ∈ t.pursued, w.host.Spent m)
        (by rw [hpursued]; exact List.forall_mem_nil _) fun j _ => h.spent j }
  | turn i a hfresh hw =>
    subst hw
    exact retryInv_turn h hg hfresh
  | deliver row known hw => exact retryInv_deliver h hg hs
  | arrive messageId hw =>
    subst hw
    exact { h with settled := hsettled }
  | save hw =>
    subst hw
    exact { h with
      settled := hsettled
      savedNodup := h.nodup
      savedKnown := h.known
      savedOnce := fun r hr s hs hsome hsame hra hsa =>
        h.once r hr s hs hsome hsame (.inl hra) (.inl hsa) }
  | restart hw =>
    subst hw
    have hidle : ∀ {r : SessionCommandEntry}, r.Active w.host.restart →
        r.status = .pending ∧ r.id ∉ w.host.processed := fun ha =>
      ha.resolve_right (Finset.notMem_empty _)
    exact {
      settled := hsettled
      noRelay := fun _ _ ht => by cases ht
      slots := fun _ _ => rfl
      nodup := h.savedNodup
      savedNodup := h.savedNodup
      known := h.savedKnown
      savedKnown := h.savedKnown
      fresh := fun _ => List.forall_mem_nil _
      taken := fun _ _ ht => by cases ht
      outcome := fun _ _ _ ht => by cases ht
      once := fun r hr s hs hsome hsame hra hsa =>
        h.savedOnce r hr s hs hsome hsame (hidle hra) (hidle hsa)
      savedOnce := h.savedOnce
      hand := fun _ => ⟨List.nodup_nil, List.not_mem_nil⟩
      spent := fun _ => List.forall_mem_nil _ }

/-- A message has one pending attempt at most that is not in the ledger. -/
def Doc.SentOnce (doc : Doc) (processed : Finset String) : Prop :=
  ∀ r ∈ doc.commands, ∀ r' ∈ doc.commands, r.messageId ≠ none → r.messageId = r'.messageId →
    (r.status = .pending ∧ r.id ∉ processed) → (r'.status = .pending ∧ r'.id ∉ processed) →
      r.id = r'.id

instance (doc : Doc) (processed : Finset String) : Decidable (doc.SentOnce processed) :=
  inferInstanceAs (Decidable (∀ r ∈ doc.commands, ∀ r' ∈ doc.commands, _ → _ → _ → _ → _ = _))

theorem retryInv_boot (deviceId : String) {doc : Doc} {processed : Finset String}
    (hids : doc.ids.Nodup) (honce : doc.SentOnce processed) :
    RetryInv (World.boot deviceId doc processed) where
  settled := settledInv_boot deviceId doc processed
  noRelay := fun _ _ ht => by cases ht
  slots := fun _ _ => rfl
  nodup := hids
  savedNodup := hids
  known := fun _ hid => List.mem_toFinset.mpr hid
  savedKnown := fun _ hid => List.mem_toFinset.mpr hid
  fresh := fun _ => List.forall_mem_nil _
  taken := fun _ _ ht => by cases ht
  outcome := fun _ _ _ ht => by cases ht
  once := fun r hr s hs hsome hsame hra hsa =>
    honce r hr s hs hsome hsame (hra.resolve_right (Finset.notMem_empty _))
      (hsa.resolve_right (Finset.notMem_empty _))
  savedOnce := honce
  hand := fun _ => ⟨List.nodup_nil, List.not_mem_nil⟩
  spent := fun _ => List.forall_mem_nil _

/-- **A retry sends no message twice.** In every orderly run over a document with one row for each
command, and one unconsumed pending attempt for each message at most, a message has one active
attempt at most in every state, and where a fresh one is minted every other is over. -/
theorem retry_sends_once (deviceId : String) (doc : Doc) (processed : Finset String)
    (hids : doc.ids.Nodup) (honce : doc.SentOnce processed) (acts : List Act)
    (hg : Run.Guarded World.step Orderly (.boot deviceId doc processed) acts) (w : World)
    (hw : Run.exec World.step (.boot deviceId doc processed) acts = some w) :
    w.host.SentOnce ∧ ∀ i landed old dead, w.tasks i = .retry (.mint landed old dead) →
      w.host.Spent old.messageId := by
  have h := Run.exec_invariant (fun _ _ _ => retryInv_step) (retryInv_boot deviceId hids honce) hg hw
  refine ⟨h.once, fun i landed old dead ht => h.spent i old.messageId ?_⟩
  rw [ht]
  exact List.mem_cons_self

/-- An attempt whose attachments never arrived. -/
def rejectedRun : SessionCommandEntry := { sentRun with id := "c₁", status := .rejected }

/-- The id `n` is minted where one is. -/
def Answer.minting : Answer := { fine with newId := "n" }

/-- A retry issues a rejected attempt again, and a drain executes the fresh one. -/
theorem retry_sends_once_rejected :
    let w := (Run.exec World.step (.boot "host" ⟨[rejectedRun], []⟩ ∅)
      (.retry 0 :: List.replicate 7 (.turn 0 .minting) ++ .drain 1 :: turns 1 12)).get
        (by decide +kernel)
    w.host.doc.ids = ["c₁", "n"] ∧ w.host.SentOnce := by
  intro w
  refine ⟨by decide +kernel, ?_⟩
  exact (retry_sends_once "host" ⟨[rejectedRun], []⟩ ∅ (by decide) (by decide) _
    (Run.guarded_of_checks (by decide +kernel)) w (Option.some_get _).symm).1

/-- The first attempt is rejected, and a drain is executing the second, whose message has not landed.
A retry finds the first dead, and the second in the ledger and so not live, and issues the first
again. -/
theorem slow_execution_sent_again :
    (Run.exec World.step (.boot "host" ⟨[rejectedRun, sentRun], []⟩ ∅)
      (.drain 0 :: turns 0 12 ++ .retry 1 :: List.replicate 7 (.turn 1 .minting))).map
        (fun w => ((w.host.doc.commands.filter (·.Active w.host)).map (fun r => (r.id, r.messageId)),
          w.host.doc.messages)) =
      some ([("c", some "m"), ("n", some "m")], []) := by
  decide +kernel

end Zeron.Command
