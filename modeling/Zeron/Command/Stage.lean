import Zeron.Command.Host

/-!
# The stages of a command

Four steps guard an execution: the evaluation, the claim in the `executing` set, the mark in the
ledger, and the end of the claim. All a task does between is seen from here as a stage.

* `Stage`, `Task.stage`: the command a task has claimed, and how far it is with it;
* `StageStep`, **`stage_step`**: what a step of a task does to its stage, and to the host;
* `Stepped`, `stepped`: what an action of the host can do;
* `World.Claims`, **`claims_step`**: the `executing` set is what the tasks claim, each command once.
-/

namespace Zeron.Command

open Slots

/-- How far a task is with the command it has claimed. -/
inductive Stage where
  | away
  /-- The mark is next. -/
  | claimed (id : String) (road : Road) (disposition : CommandDisposition)
  /-- `execute` is next. -/
  | cleared (id : String) (road : Road)
  | running (id : String) (road : Road)
  /-- The status is to be written, if there is one, and the claim dropped. -/
  | closing (id : String) (writes : Option SessionCommandStatus)
  deriving DecidableEq, Repr

def Stage.claim : Stage → Option String
  | .away => none
  | .claimed id _ _ | .cleared id _ | .running id _ | .closing id _ => some id

/-- The stage of a command that was marked without being executed. -/
def Stage.shelved (id : String) : CommandDisposition → Stage
  | .expired => .closing id (some .expired)
  | .superseded => .closing id (some .superseded)
  | _ => .closing id none

def Task.stage : Task → Stage
  | .drain p =>
    match p.point with
    | .mark c disposition => .claimed c.id .drain disposition
    | .marked c .execute => .cleared c.id .drain
    | .marked c disposition => .shelved c.id disposition
    | .execute c _ => .running c.id .drain
    | .resolve c status _ => .closing c.id (some status)
    | .halt c | .release c => .closing c.id none
    | _ => .away
  | .relay r =>
    match r.point with
    | .mark disposition => .claimed r.entry.id .relay disposition
    | .marked .execute => .cleared r.entry.id .relay
    | .execute _ => .running r.entry.id .relay
    | .marked _ | .release => .closing r.entry.id none
    | _ => .away
  | _ => .away

/-- The command a task has claimed. -/
def Task.claim (t : Task) : Option String := t.stage.claim

/-- What a step does, by the stage of its task. -/
inductive StageStep (h : Host) : Stage → Effect → Stage → Prop where
  | none (s : Stage) : StageStep h s .none s
  /-- Attachments never arrived. -/
  | giveUp (id : String) : StageStep h .away (.mark id) .away
  /-- A rejection by the sweep, by a retry, or for attachments. -/
  | reject (id : String) (resolution : Option String) :
      StageStep h .away (.resolve id .rejected resolution) .away
  | queue (entry : SessionCommandEntry) : StageStep h .away (.queue entry) .away
  | claim (id : String) (road : Road) (disposition : CommandDisposition)
      (hfree : id ∉ h.executing) :
      StageStep h .away (.claim id) (.claimed id road disposition)
  | drop (id : String) (road : Road) (disposition : CommandDisposition) :
      StageStep h (.claimed id road disposition) .none (.closing id none)
  | shelve (id : String) (disposition : CommandDisposition) (hd : disposition ≠ .execute) :
      StageStep h (.claimed id .drain disposition) (.mark id) (.shelved id disposition)
  | shelveRelay (id : String) (disposition : CommandDisposition) (hd : disposition ≠ .execute) :
      StageStep h (.claimed id .relay disposition) (.mark id) (.closing id none)
  | clear (id : String) (road : Road) (hnew : road = .relay → id ∉ h.processed) :
      StageStep h (.claimed id road .execute) (.mark id) (.cleared id road)
  | start (id : String) (road : Road) :
      StageStep h (.cleared id road) (.start id) (.running id road)
  | land (id : String) (road : Road) (messageId : String) :
      StageStep h (.running id road) (.land messageId) (.running id road)
  | returned (id : String) (status : SessionCommandStatus) (applied : Bool)
      (happlied : applied = true ↔ status = .applied) (hwritten : status ≠ .pending) :
      StageStep h (.running id .drain) (.returned id .drain applied) (.closing id (some status))
  | returnedRelay (id : String) (applied : Bool) :
      StageStep h (.running id .relay) (.returned id .relay applied) (.closing id none)
  | write (id : String) (status : SessionCommandStatus) (resolution : Option String) :
      StageStep h (.closing id (some status)) (.resolve id status resolution) (.closing id none)
  | release (id : String) : StageStep h (.closing id none) (.release id) .away

theorem stage_executeEffect (h : Host) (id : String) (road : Road)
    (payload : SessionCommandPayload) (a : Answer) (stage : ExecuteStage) :
    StageStep h (.running id road) (executeEffect payload a stage) (.running id road) := by
  unfold executeEffect
  split
  · split
    · cases payload.messageId with
      | none => exact .none _
      | some messageId => exact .land id road messageId
    · exact .none _
  · exact .none _

theorem applied_written (out : Outcome) : out.applied = true ↔ out.written.1 = .applied := by
  rcases out with error | ⟨status, resolution⟩
  · simp [Outcome.applied, Outcome.written]
  · cases status <;> simp [Outcome.applied, Outcome.written]

theorem written_ne_pending {payload : SessionCommandPayload} {reply : Reply}
    {stage : ExecuteStage} {out : Outcome} (h : execute payload reply stage = .inr out) :
    out.written.1 ≠ .pending := by
  cases stage <;> cases payload <;> cases reply <;> cases h <;> exact nofun

theorem stage_step_drain (h : Host) (a : Answer) (p : Pass) :
    StageStep h (Task.drain p).stage ((Task.drain p).step h a).1
      ((Task.drain p).step h a).2.stage := by
  obtain ⟨skipped, commands, point⟩ := p
  cases point with
  | sweepReject c rest => exact .reject c.id _
  | giveUpReject c => exact .reject c.id _
  | giveUp c =>
    simp only [Task.step, Pass.step]
    split
    · exact .giveUp c.id
    · exact .none _
  | claim c disposition =>
    simp only [Task.step, Pass.step]
    split
    · exact .none _
    · exact .claim c.id .drain disposition ‹_›
  | mark c disposition =>
    simp only [Task.step, Pass.step]
    split
    · cases disposition with
      | execute => exact .clear c.id .drain fun h => by cases h
      | skip | expired | superseded => exact .shelve c.id _ nofun
    · exact .drop c.id .drain disposition
  | marked c disposition =>
    cases disposition with
    | execute => exact .start c.id .drain
    | skip | expired | superseded => exact .none _
  | execute c stage =>
    simp only [Task.step, Pass.step]
    split
    · exact stage_executeEffect ..
    · exact .returned c.id _ _ (applied_written _) (written_ne_pending ‹_›)
  | resolve c status resolution => exact .write c.id status resolution
  | halt c => exact .release c.id
  | release c => exact .release c.id
  | sweep rest | find rest =>
    cases rest with
    | nil => exact .none _
    | cons c rest =>
      simp only [Task.step, Pass.step]
      split <;> exact .none _
  | gate c =>
    simp only [Task.step, Pass.step]
    split
    · split <;> exact .none _
    · exact .none _
  | read | sweepClaims | evaluate =>
    simp only [Task.step, Pass.step]
    split <;> exact .none _
  | messages c => exact .none _

theorem stage_step_relay (h : Host) (a : Answer) (r : Relay) :
    StageStep h (Task.relay r).stage ((Task.relay r).step h a).1
      ((Task.relay r).step h a).2.stage := by
  obtain ⟨entry, point⟩ := r
  cases point with
  | claim disposition =>
    simp only [Task.step, Relay.step]
    split
    · exact .none _
    · exact .claim entry.id .relay disposition ‹_›
  | mark disposition =>
    simp only [Task.step, Relay.step]
    split
    · rename_i hnew
      cases disposition with
      | execute => exact .clear entry.id .relay fun _ => hnew.2
      | skip | expired | superseded => exact .shelveRelay entry.id _ nofun
    · exact .drop entry.id .relay disposition
  | marked disposition =>
    cases disposition with
    | execute => exact .start entry.id .relay
    | skip | expired | superseded => exact .none _
  | execute stage =>
    simp only [Task.step, Relay.step]
    split
    · exact stage_executeEffect ..
    · exact .returnedRelay entry.id _
  | release => exact .release entry.id
  | attachments | commands | evaluate =>
    simp only [Task.step, Relay.step]
    split <;> exact .none _
  | messages commands => exact .none _

theorem stage_step_retry (h : Host) (a : Answer) (p : RetryPoint) :
    StageStep h (Task.retry p).stage ((Task.retry p).step h a).1
      ((Task.retry p).step h a).2.stage := by
  cases p with
  | check commands messages rest dead => cases rest <;> exact .none _
  | settle messages dead =>
    cases dead with
    | nil => exact .none _
    | cons old dead =>
      simp only [Task.step, RetryPoint.step, Prod.map_fst, id_eq]
      split
      · exact .reject old.id _
      · exact .none _
  | mint messages old dead =>
    simp only [Task.step, RetryPoint.step]
    split
    · exact .queue _
    · exact .none _
  | read =>
    simp only [Task.step, RetryPoint.step]
    split <;> exact .none _
  | messages commands => exact .none _

/-- **What a step does, by the stage of its task.** -/
theorem stage_step (h : Host) (a : Answer) (t : Task) :
    StageStep h t.stage (t.step h a).1 (t.step h a).2.stage := by
  cases t with
  | idle => exact .none _
  | drain p => exact stage_step_drain h a p
  | relay r => exact stage_step_relay h a r
  | retry p => exact stage_step_retry h a p

@[simp] theorem claim_shelved (id : String) (disposition : CommandDisposition) :
    (Stage.shelved id disposition).claim = some id := by
  cases disposition <;> rfl

@[simp] theorem executing_resolve (h : Host) (id : String) (status : SessionCommandStatus)
    (resolution : Option String) :
    (h.apply (.resolve id status resolution)).executing = h.executing := by
  unfold Host.apply
  dsimp only
  split <;> rfl

/-- What a step does to the claim of its task. -/
inductive ClaimStep (h : Host) (s s' : Stage) : Effect → Prop where
  | claim (id : String) (hfree : id ∉ h.executing) (hnone : s.claim = none)
      (hsome : s'.claim = some id) : ClaimStep h s s' (.claim id)
  | release (id : String) (hsome : s.claim = some id) (hnone : s'.claim = none) :
      ClaimStep h s s' (.release id)
  | keep (e : Effect) (hset : (h.apply e).executing = h.executing) (hkeep : s'.claim = s.claim) :
      ClaimStep h s s' e

theorem claim_step {h : Host} {s s' : Stage} {e : Effect} (hs : StageStep h s e s') :
    ClaimStep h s s' e := by
  cases hs with
  | claim id road disposition hfree => exact .claim id hfree rfl rfl
  | release id => exact .release id rfl rfl
  | reject | write => exact .keep _ (executing_resolve ..) rfl
  | shelve id disposition => exact .keep _ rfl (claim_shelved id disposition)
  | _ => exact .keep _ rfl rfl

/-- The `executing` set has the claims of the tasks, and no two tasks claim one command. -/
structure World.Claims (w : World) : Prop where
  exclusive : Exclusive Task.claim w.tasks
  held : Held Task.claim w.tasks w.host.executing

theorem claims_boot (deviceId : String) (doc : Doc) (processed : Finset String) :
    (World.boot deviceId doc processed).Claims :=
  ⟨exclusive_of_none fun _ => rfl, held_empty fun _ => rfl⟩

@[simp] theorem turned_self (w : World) (i : ℕ) (a : Answer) :
    (w.turned i a).tasks i = ((w.tasks i).step w.host a).2 := Function.update_self ..

@[simp] theorem turned_of_ne (w : World) {i j : ℕ} (a : Answer) (h : j ≠ i) :
    (w.turned i a).tasks j = w.tasks j := Function.update_of_ne h ..

theorem claims_turn {w : World} (h : w.Claims) (i : ℕ) (a : Answer) : (w.turned i a).Claims := by
  have hstep := claim_step (stage_step w.host a (w.tasks i))
  rw [World.turned]
  generalize (w.tasks i).step w.host a = out at hstep ⊢
  obtain ⟨e, t'⟩ := out
  dsimp only at hstep ⊢
  cases hstep with
  | claim id hfree hnone hsome =>
    have hother : ∀ j, (w.tasks j).claim ≠ some id := fun j hj => hfree ((h.held id).mpr ⟨j, hj⟩)
    exact ⟨h.exclusive.take hsome hother, h.held.take hsome hnone⟩
  | release id hsome hnone =>
    refine ⟨h.exclusive.keep fun k hk => ?_, h.held.drop h.exclusive hnone hsome⟩
    cases hnone.symm.trans hk
  | keep _ hset hkeep =>
    refine ⟨h.exclusive.keep fun k hk => hkeep.symm.trans hk, ?_⟩
    change Held _ _ (w.host.apply e).executing
    rw [hset]
    exact h.held.keep hkeep

theorem spawn_eq {w w' : World} {i : ℕ} {t : Task} (h : w.spawn i t = some w') :
    w.tasks i = .idle ∧
      w' = { w with tasks := Function.update w.tasks i t, slots := max w.slots (i + 1) } := by
  unfold World.spawn at h
  split at h
  · cases h
    exact ⟨‹_›, rfl⟩
  · cases h

/-- A task as it is spawned. -/
def Task.Spawned (t : Task) : Prop :=
  t = .drain .start ∨ (∃ entry, t = .relay { entry, point := .attachments }) ∨ t = .retry .read

/-- **What an action can do**: start a task, let one go on, or change what is shared. -/
inductive Stepped (w w' : World) : Act → Prop where
  | spawn (act : Act) (i : ℕ) (t : Task) (known : Finset String) (hidle : w.tasks i = .idle)
      (ht : t.Spawned) (hrelay : ∀ r, t = .relay r → act = .relay i r.entry)
      (hknown : w.host.known ⊆ known)
      (hw : w' = { host := { w.host with known }, tasks := Function.update w.tasks i t
                   slots := max w.slots (i + 1) }) :
      Stepped w w' act
  | turn (i : ℕ) (a : Answer) (hfresh : ((w.tasks i).step w.host a).1.Fresh w.host)
      (hw : w' = w.turned i a) : Stepped w w' (.turn i a)
  | deliver (row : SessionCommandEntry) (known : Finset String)
      (hw : w' = { w with host := { w.host with doc := w.host.doc.deliver row, known } }) :
      Stepped w w' (.deliver row)
  | arrive (messageId : String)
      (hw : w' = { w with host := { w.host with doc := w.host.doc.writeUserMessage messageId } }) :
      Stepped w w' (.arrive messageId)
  | save (hw : w' = { w with host := { w.host with saved := w.host.doc } }) : Stepped w w' .save
  | restart (hw : w' = { host := w.host.restart, tasks := fun _ => .idle, slots := 0 }) :
      Stepped w w' .restart

theorem stepped {w w' : World} {act : Act} (h : w.step act = some w') : Stepped w w' act := by
  cases act with
  | drain i =>
    obtain ⟨hidle, hw⟩ := spawn_eq h
    exact .spawn _ i _ w.host.known hidle (.inl rfl) (fun _ h => by cases h)
      (Finset.Subset.refl _) hw
  | relay i entry =>
    obtain ⟨hidle, hw⟩ := spawn_eq h
    exact .spawn _ i _ (insert entry.id w.host.known) hidle (.inr (.inl ⟨entry, rfl⟩))
      (by rintro r ⟨⟩; rfl) (Finset.subset_insert _ _) hw
  | retry i =>
    obtain ⟨hidle, hw⟩ := spawn_eq h
    exact .spawn _ i _ w.host.known hidle (.inr (.inr rfl)) (fun _ h => by cases h)
      (Finset.Subset.refl _) hw
  | turn i a =>
    rw [World.step] at h
    split at h
    · cases h
      exact .turn i a ‹_› rfl
    · cases h
  | deliver row =>
    cases h
    exact .deliver row _ rfl
  | arrive messageId =>
    cases h
    exact .arrive messageId rfl
  | save =>
    cases h
    exact .save rfl
  | restart =>
    cases h
    exact .restart rfl

theorem claim_spawned {t : Task} (ht : t.Spawned) : t.claim = none := by
  rcases ht with rfl | ⟨entry, rfl⟩ | rfl <;> rfl

theorem claims_step {w w' : World} {act : Act} (h : w.Claims) (hs : w.step act = some w') :
    w'.Claims := by
  cases stepped hs with
  | spawn _ i t known hidle ht hrelay hknown hw =>
    subst hw
    have hnone := claim_spawned ht
    refine ⟨h.exclusive.keep fun k hk => ?_, h.held.keep ?_⟩
    · rw [hnone] at hk
      cases hk
    · rw [hnone, hidle]
      rfl
  | turn i a hfresh hw =>
    subst hw
    exact claims_turn h i a
  | deliver row known hw =>
    subst hw
    exact ⟨h.exclusive, h.held⟩
  | arrive messageId hw =>
    subst hw
    exact ⟨h.exclusive, h.held⟩
  | save hw =>
    subst hw
    exact ⟨h.exclusive, h.held⟩
  | restart hw =>
    subst hw
    exact ⟨exclusive_of_none fun _ => rfl, held_empty fun _ => rfl⟩

end Zeron.Command
