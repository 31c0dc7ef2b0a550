import Zeron.Command.Stage

/-!
# Settled commands

A command in the ledger that no task is busy with is never executed again, where a mark always
finds its command unmarked. The sweep, the retry and the give-up on attachments reject only such
commands.

* `MarksFresh`: a mark finds its command unmarked; `World.Settled`;
* `Task.rows`, `rows_step`: the rows a task speaks of were in the document;
* `Task.condemned`, `condemned_step`, `reject_step`: the commands a task may reject unexecuted;
* `SettledInv`, **`settledInv_step`**: what is condemned is settled.
-/

namespace Zeron.Command

open Slots

/-- Every mark finds its command unmarked. -/
def MarksFresh (w : World) : Act → Prop
  | .turn i a => ∀ id, ((w.tasks i).step w.host a).1 = .mark id → id ∉ w.host.processed
  | _ => True

/-- The command that is marked and has not reached its outcome. -/
def Stage.busy : Stage → Option String
  | .cleared id _ | .running id _ | .closing id (some _) => some id
  | _ => none

/-- The command is in the ledger, and no task is busy with it. -/
def World.Settled (w : World) (id : String) : Prop :=
  id ∈ w.host.processed ∧ ∀ i, (w.tasks i).stage.busy ≠ some id

theorem claim_of_busy {s : Stage} {id : String} (h : s.busy = some id) : s.claim = some id := by
  cases s with
  | closing id' writes =>
    cases writes with
    | none => cases h
    | some status => exact h
  | cleared | running => exact h
  | away | claimed => cases h

theorem busy_step {h : Host} {s s' : Stage} {e : Effect} {id : String} (hs : StageStep h s e s')
    (hb : s'.busy = some id) : s.busy = some id ∨ e = .mark id := by
  cases hs with
  | none | start | land | returned => exact .inl hb
  | shelve id' disposition =>
    right
    cases disposition with
    | expired | superseded =>
      cases hb
      rfl
    | skip | execute => cases hb
  | clear =>
    cases hb
    exact .inr rfl
  | _ => cases hb

@[simp] theorem processed_resolve (h : Host) (id : String) (status : SessionCommandStatus)
    (resolution : Option String) :
    (h.apply (.resolve id status resolution)).processed = h.processed := by
  unfold Host.apply
  dsimp only
  split <;> rfl

theorem processed_apply (h : Host) (e : Effect) :
    h.processed ⊆ (h.apply e).processed := by
  cases e with
  | mark id => exact Finset.subset_insert id h.processed
  | resolve => rw [processed_resolve]
  | _ => exact Finset.Subset.refl _

section Turn

variable {w : World} {i : ℕ} {a : Answer} {id : String}

theorem busy_turn (h : (w.tasks i).stage.busy ≠ some id)
    (hmark : ((w.tasks i).step w.host a).1 ≠ .mark id) :
    ((w.tasks i).step w.host a).2.stage.busy ≠ some id := fun hb =>
  (busy_step (stage_step w.host a (w.tasks i)) hb).elim h hmark

theorem settled_turn (h : w.Settled id) (hg : MarksFresh w (.turn i a)) :
    (w.turned i a).Settled id := by
  refine ⟨processed_apply _ _ h.1, fun j => ?_⟩
  rw [World.turned]
  dsimp only
  by_cases hji : j = i
  · rw [hji, Function.update_self]
    exact busy_turn (h.2 i) fun hmark => hg id hmark h.1
  · rw [Function.update_of_ne hji]
    exact h.2 j

end Turn

/-! ## The rows a task speaks of -/

def PassPoint.rows : PassPoint → List SessionCommandEntry
  | .read => []
  | .sweep rest | .find rest => rest
  | .sweepClaims c rest | .sweepReject c rest => c :: rest
  | .messages c | .evaluate c _ | .gate c | .giveUp c | .giveUpReject c | .claim c _ | .mark c _
  | .halt c | .marked c _ | .execute c _ | .resolve c _ _ | .release c => [c]

def RetryPoint.rows : RetryPoint → List SessionCommandEntry
  | .read => []
  | .messages commands => commands
  | .check commands _ rest dead => commands ++ (rest ++ dead)
  | .settle _ dead => dead
  | .mint _ old dead => old :: dead

/-- The rows a drain or a retry has read. -/
def Task.rows : Task → List SessionCommandEntry
  | .drain p => p.commands ++ p.point.rows
  | .retry p => p.rows
  | _ => []

theorem mem_latestDead {c d : SessionCommandEntry} {dead : List SessionCommandEntry}
    (h : d ∈ latestDead c dead) : d = c ∨ d ∈ dead := by
  induction dead with
  | nil => exact .inl (List.mem_singleton.mp h)
  | cons old rest ih =>
    unfold latestDead at h
    split at h
    · rcases List.mem_cons.mp h with rfl | h
      · split
        · exact .inl rfl
        · exact .inr List.mem_cons_self
      · exact .inr (List.mem_cons_of_mem _ h)
    · rcases List.mem_cons.mp h with rfl | h
      · exact .inr List.mem_cons_self
      · exact (ih h).imp_right (List.mem_cons_of_mem _)

theorem rows_step_drain {h : Host} {a : Answer} {p : Pass} {c : SessionCommandEntry}
    (hc : c ∈ ((Task.drain p).step h a).2.rows) :
    c ∈ (Task.drain p).rows ∨ c ∈ h.doc.commands := by
  obtain ⟨skipped, commands, point⟩ := p
  cases point with
  | read =>
    simp only [Task.step, Pass.step] at hc
    split at hc
    · exact .inr (by simpa [Task.rows, PassPoint.rows] using hc)
    · simp [Task.rows] at hc
  | sweep rest | find rest =>
    left
    cases rest with
    | nil => simp_all [Task.step, Pass.step, Pass.goto, Task.rows, PassPoint.rows]
    | cons d rest =>
      simp only [Task.step, Pass.step] at hc
      split at hc <;> simp_all [Pass.goto, Task.rows, PassPoint.rows] <;> tauto
  | marked d disposition =>
    left
    cases disposition <;>
      simp_all [Task.step, Pass.step, Pass.goto, Pass.skip, Task.rows, PassPoint.rows]
  | gate d =>
    left
    simp only [Task.step, Pass.step] at hc
    split at hc
    · split at hc <;> simp_all [Pass.goto, Task.rows, PassPoint.rows]
    · simp_all [Pass.goto, Task.rows, PassPoint.rows]
  | evaluate | sweepClaims | giveUp | claim | mark | execute =>
    left
    simp only [Task.step, Pass.step] at hc
    split at hc <;> simp_all [Pass.goto, Pass.skip, Task.rows, PassPoint.rows] <;> tauto
  | sweepReject | messages | giveUpReject | halt | resolve | release =>
    left
    simp_all [Task.step, Pass.step, Pass.goto, Pass.skip, Task.rows, PassPoint.rows]
    try tauto

theorem rows_step_retry {h : Host} {a : Answer} {p : RetryPoint} {c : SessionCommandEntry}
    (hc : c ∈ ((Task.retry p).step h a).2.rows) :
    c ∈ (Task.retry p).rows ∨ c ∈ h.doc.commands := by
  cases p with
  | read =>
    simp only [Task.step, RetryPoint.step] at hc
    split at hc
    · exact .inr (by simpa [Task.rows, RetryPoint.rows] using hc)
    · simp [Task.rows] at hc
  | messages commands => left; simpa [Task.step, RetryPoint.step, Task.rows, RetryPoint.rows] using hc
  | check commands landed rest dead =>
    left
    cases rest with
    | nil => simp_all [Task.step, RetryPoint.step, Task.rows, RetryPoint.rows]
    | cons d rest =>
      simp only [Task.step, RetryPoint.step, Prod.map_snd, Option.elim_some, Task.rows,
        RetryPoint.rows, List.mem_append, List.mem_cons] at hc ⊢
      split at hc
      · have : c ∈ latestDead d dead → c = d ∨ c ∈ dead := mem_latestDead
        tauto
      · tauto
  | settle landed dead =>
    left
    cases dead <;> simp_all [Task.step, RetryPoint.step, Task.rows, RetryPoint.rows]
  | mint landed old dead =>
    left
    simp only [Task.step, RetryPoint.step] at hc
    split at hc <;> simp_all [Task.rows, RetryPoint.rows]

/-- **The rows a task speaks of were in the document when it read them.** -/
theorem rows_step {h : Host} {a : Answer} {t : Task} {c : SessionCommandEntry}
    (hc : c ∈ (t.step h a).2.rows) : c ∈ t.rows ∨ c ∈ h.doc.commands := by
  cases t with
  | idle => cases hc
  | drain p => exact rows_step_drain hc
  | retry p => exact rows_step_retry hc
  | relay r =>
    have hrows : ((Task.relay r).step h a).2.rows = [] := by
      rw [Task.step, Prod.map_snd]
      cases (r.step h a).2 <;> rfl
    rw [hrows] at hc
    cases hc

/-! ## The commands a task may reject unexecuted -/

/-- The sweep has found the command in the ledger. -/
def Task.suspected : Task → Option String
  | .drain p =>
    match p.point with
    | .sweepClaims c _ => some c.id
    | _ => none
  | _ => none

/-- The attempts that a retry rejects when it comes to them. -/
def RetryPoint.condemned : RetryPoint → List SessionCommandEntry
  | .check _ _ _ dead | .settle _ dead | .mint _ _ dead => dead
  | _ => []

/-- The commands a task rejects when it comes to them. -/
def Task.Condemns (t : Task) (id : String) : Prop :=
  match t with
  | .drain p =>
    match p.point with
    | .sweepReject c _ | .giveUpReject c => c.id = id
    | _ => False
  | .retry p => ∃ old ∈ p.condemned, old.id = id ∧ old.status = .pending
  | _ => False

theorem suspected_step {h : Host} {a : Answer} {t : Task} {id : String}
    (hs : (t.step h a).2.suspected = some id) : id ∈ h.processed := by
  cases t with
  | idle => cases hs
  | relay r =>
    have hnone : ((Task.relay r).step h a).2.suspected = none := by
      rw [Task.step, Prod.map_snd]
      cases (r.step h a).2 <;> rfl
    cases hnone.symm.trans hs
  | retry p =>
    have hnone : ((Task.retry p).step h a).2.suspected = none := by
      rw [Task.step, Prod.map_snd]
      cases (p.step h a).2 <;> rfl
    cases hnone.symm.trans hs
  | drain p =>
    obtain ⟨skipped, commands, point⟩ := p
    cases point with
    | sweep rest =>
      cases rest with
      | nil => cases hs
      | cons c rest =>
        simp only [Task.step, Pass.step] at hs
        split at hs
        · rename_i hc
          cases hs
          exact Host.mem_of_isProcessed hc.2.2
        · cases hs
    | find rest =>
      cases rest with
      | nil => cases hs
      | cons c rest =>
        simp only [Task.step, Pass.step] at hs
        split at hs <;> cases hs
    | marked c disposition => cases disposition <;> cases hs
    | gate c =>
      simp only [Task.step, Pass.step] at hs
      split at hs
      · split at hs <;> cases hs
      · cases hs
    | read | evaluate | sweepClaims | giveUp | claim | mark | execute =>
      simp only [Task.step, Pass.step] at hs
      split at hs <;> cases hs
    | sweepReject | messages | giveUpReject | halt | resolve | release => cases hs

theorem dead_of_reissues {h : Host} {a : Answer} {commands : List SessionCommandEntry}
    {landed : List String} {c : SessionCommandEntry}
    (hre : h.reissues a commands landed c = true) (hpending : c.status = .pending) :
    c.id ∈ h.processed ∧ c.id ∉ h.executing := by
  unfold Host.reissues at hre
  split at hre
  · simp only [Bool.and_eq_true, Host.dead, hpending, decide_eq_true_eq] at hre
    exact ⟨Host.mem_of_isProcessed hre.1.2.1, hre.1.2.2⟩
  · cases hre

/-- How a task comes to condemn a command: it is in the ledger and claimed by no task, or the step
marks it. -/
theorem condemns_step {h : Host} {a : Answer} {t : Task} {id : String}
    (hc : (t.step h a).2.Condemns id) :
    t.Condemns id ∨ ((t.suspected = some id ∨ id ∈ h.processed) ∧ id ∉ h.executing) ∨
      ((t.step h a).1 = .mark id ∧ t.stage = .away) := by
  cases t with
  | idle => cases hc
  | relay r =>
    have hnone : ((Task.relay r).step h a).2.Condemns id = False := by
      rw [Task.step, Prod.map_snd]
      cases (r.step h a).2 <;> rfl
    rw [hnone] at hc
    cases hc
  | retry p =>
    cases p with
    | read =>
      simp only [Task.step, RetryPoint.step] at hc
      split at hc
      · obtain ⟨old, hold, -⟩ := hc
        cases hold
      · cases hc
    | messages commands =>
      obtain ⟨old, hold, -⟩ := hc
      cases hold
    | check commands landed rest dead =>
      cases rest with
      | nil => exact .inl hc
      | cons d rest =>
        simp only [Task.step, RetryPoint.step, Prod.map_snd, Option.elim_some] at hc
        obtain ⟨old, hold, hid, hpending⟩ := hc
        rw [RetryPoint.condemned] at hold
        split at hold
        · rename_i hre
          rcases mem_latestDead hold with rfl | hold
          · obtain ⟨hmarked, hfree⟩ := dead_of_reissues hre hpending
            exact .inr (.inl ⟨.inr (hid ▸ hmarked), hid ▸ hfree⟩)
          · exact .inl ⟨old, hold, hid, hpending⟩
        · exact .inl ⟨old, hold, hid, hpending⟩
    | settle landed dead =>
      cases dead with
      | nil => cases hc
      | cons old dead =>
        obtain ⟨d, hd, hid, hpending⟩ := hc
        exact .inl ⟨d, List.mem_cons_of_mem _ hd, hid, hpending⟩
    | mint landed old dead =>
      simp only [Task.step, RetryPoint.step] at hc
      split at hc
      · exact .inl hc
      · cases hc
  | drain p =>
    obtain ⟨skipped, commands, point⟩ := p
    cases point with
    | sweepClaims c rest =>
      simp only [Task.step, Pass.step] at hc
      split at hc
      · cases hc
      · cases hc
        exact .inr (.inl ⟨.inl rfl, ‹_›⟩)
    | giveUp c =>
      simp only [Task.step, Pass.step] at hc ⊢
      split at hc
      · rename_i hok
        cases hc
        rw [if_pos hok]
        exact .inr (.inr ⟨rfl, rfl⟩)
      · cases hc
    | sweep rest | find rest =>
      cases rest with
      | nil => cases hc
      | cons c rest =>
        simp only [Task.step, Pass.step] at hc
        split at hc <;> cases hc
    | marked c disposition => cases disposition <;> cases hc
    | gate c =>
      simp only [Task.step, Pass.step] at hc
      split at hc
      · split at hc <;> cases hc
      · cases hc
    | read | evaluate | claim | mark | execute =>
      simp only [Task.step, Pass.step] at hc
      split at hc <;> cases hc
    | sweepReject | messages | giveUpReject | halt | resolve | release => cases hc

/-- A rejection by a task that has claimed nothing is of a command it condemns. -/
theorem reject_step {h : Host} {a : Answer} {t : Task} {id : String}
    {status : SessionCommandStatus} {resolution : Option String}
    (he : (t.step h a).1 = .resolve id status resolution) (haway : t.stage = .away) :
    t.Condemns id := by
  cases t with
  | idle => cases he
  | relay r =>
    have hs := stage_step h a (.relay r)
    obtain ⟨entry, point⟩ := r
    cases point with
    | attachments | commands | evaluate | claim | mark =>
      simp only [Task.step, Relay.step] at he
      split at he <;> cases he
    | messages | release => cases he
    | marked disposition => cases disposition <;> cases he
    | execute => cases haway
  | retry p =>
    cases p with
    | settle landed dead =>
      cases dead with
      | nil => cases he
      | cons old dead =>
        simp only [Task.step, RetryPoint.step, Prod.map_fst, id_eq] at he
        split at he
        · cases he
          exact ⟨old, List.mem_cons_self, rfl, ‹_›⟩
        · cases he
    | check commands landed rest dead => cases rest <;> cases he
    | read | mint =>
      simp only [Task.step, RetryPoint.step] at he
      split at he <;> cases he
    | messages => cases he
  | drain p =>
    obtain ⟨skipped, commands, point⟩ := p
    cases point with
    | sweepReject c rest | giveUpReject c =>
      cases he
      rfl
    | sweep rest | find rest =>
      cases rest with
      | nil => cases he
      | cons c rest =>
        simp only [Task.step, Pass.step] at he
        split at he <;> cases he
    | gate c =>
      simp only [Task.step, Pass.step] at he
      split at he
      · split at he <;> cases he
      · cases he
    | read | sweepClaims | evaluate | giveUp | claim =>
      simp only [Task.step, Pass.step] at he
      split at he <;> cases he
    | messages => cases he
    | marked c disposition => cases disposition <;> cases haway
    | mark | halt | execute | resolve | release => cases haway

/-! ## The invariant -/

/-- What a mark that finds its command unmarked keeps. -/
structure SettledInv (w : World) : Prop where
  claims : w.Claims
  rows : ∀ i, ∀ c ∈ (w.tasks i).rows, c.id ∈ w.host.doc.ids
  marked : ∀ i id, (w.tasks i).stage.busy = some id → id ∈ w.host.processed
  suspected : ∀ i id, (w.tasks i).suspected = some id → id ∈ w.host.processed
  condemned : ∀ i id, (w.tasks i).Condemns id → w.Settled id

theorem settled_of_free {w : World} (h : w.Claims) {id : String} (hmarked : id ∈ w.host.processed)
    (hfree : id ∉ w.host.executing) : w.Settled id :=
  ⟨hmarked, fun i hb => hfree ((h.held id).mpr ⟨i, claim_of_busy hb⟩)⟩

theorem ids_apply (h : Host) (e : Effect) {id : String} (hid : id ∈ h.doc.ids) :
    id ∈ (h.apply e).doc.ids := by
  cases e with
  | resolve id' status resolution =>
    unfold Host.apply
    dsimp only
    split
    · rename_i doc hset
      exact (Doc.ids_setCommandStatus hset).symm ▸ hid
    · exact hid
  | queue entry =>
    obtain ⟨c, hc, rfl⟩ := List.mem_map.mp hid
    exact List.mem_map.mpr ⟨c, List.mem_append_left _ hc, rfl⟩
  | _ => exact hid

section Turn

variable {w : World} {i : ℕ} {a : Answer}

theorem settled_of_giveUp (h : SettledInv w) (hg : MarksFresh w (.turn i a)) {id : String}
    (hmark : ((w.tasks i).step w.host a).1 = .mark id) (haway : (w.tasks i).stage = .away) :
    (w.turned i a).Settled id := by
  have hnew := hg id hmark
  refine ⟨?_, forall_update (fun t : Task => t.stage.busy ≠ some id) (fun hb => ?_)
    fun k _ hb => hnew (h.marked k id hb)⟩
  · rw [World.turned, hmark]
    exact Finset.mem_insert_self _ _
  · have hs := stage_step w.host a (w.tasks i)
    rw [hmark, haway] at hs
    generalize ((w.tasks i).step w.host a).2.stage = s' at hs hb
    cases hs
    cases hb

theorem settledInv_turn (h : SettledInv w) (hg : MarksFresh w (.turn i a)) :
    SettledInv (w.turned i a) := by
  have hold : ∀ id, w.Settled id → (w.turned i a).Settled id := fun id hid => settled_turn hid hg
  have hmono := processed_apply w.host ((w.tasks i).step w.host a).1
  refine ⟨claims_turn h.claims i a,
    forall_update (fun t : Task => ∀ c ∈ t.rows, c.id ∈ (w.turned i a).host.doc.ids) ?_ ?_,
    forall_update (fun t : Task => ∀ id, t.stage.busy = some id → id ∈ (w.turned i a).host.processed) ?_ ?_,
    forall_update (fun t : Task => ∀ id, t.suspected = some id → id ∈ (w.turned i a).host.processed) ?_ ?_,
    forall_update (fun t : Task => ∀ id, t.Condemns id → (w.turned i a).Settled id) ?_ ?_⟩
  · intro c hc
    refine ids_apply _ _ ?_
    rcases rows_step hc with hc | hc
    · exact h.rows i c hc
    · exact List.mem_map.mpr ⟨c, hc, rfl⟩
  · exact fun j _ c hc => ids_apply _ _ (h.rows j c hc)
  · intro id hb
    rcases busy_step (stage_step w.host a (w.tasks i)) hb with hb | he
    · exact hmono (h.marked i id hb)
    · rw [World.turned, he]
      exact Finset.mem_insert_self _ _
  · exact fun j _ id hb => hmono (h.marked j id hb)
  · exact fun id hs => hmono (suspected_step hs)
  · exact fun j _ id hs => hmono (h.suspected j id hs)
  · intro id hc
    rcases condemns_step hc with hc | ⟨hmarked, hfree⟩ | ⟨hmark, haway⟩
    · exact hold id (h.condemned i id hc)
    · exact hold id (settled_of_free h.claims (hmarked.elim (h.suspected i id) fun hm => hm) hfree)
    · exact settled_of_giveUp h hg hmark haway
  · exact fun j _ id hc => hold id (h.condemned j id hc)

end Turn

theorem stage_spawned {t : Task} (ht : t.Spawned) :
    t.stage = .away ∧ t.rows = [] ∧ t.suspected = none ∧ ∀ id, ¬ t.Condemns id := by
  rcases ht with rfl | ⟨entry, rfl⟩ | rfl
  · exact ⟨rfl, rfl, rfl, fun _ => id⟩
  · exact ⟨rfl, rfl, rfl, fun _ => id⟩
  · exact ⟨rfl, rfl, rfl, by rintro id ⟨old, hold, -⟩; cases hold⟩

theorem settledInv_step {w w' : World} {act : Act} (h : SettledInv w) (hg : MarksFresh w act)
    (hs : w.step act = some w') : SettledInv w' := by
  have hclaims := claims_step h.claims hs
  cases stepped hs with
  | spawn _ i t known hidle ht hrelay hknown hw =>
    subst hw
    obtain ⟨hstage, hrows, hsuspected, hcondemns⟩ := stage_spawned ht
    have hbusy : ∀ id, t.stage.busy ≠ some id := by
      rw [hstage]
      exact fun _ h => by cases h
    refine ⟨hclaims,
      forall_update (fun t : Task => ∀ c ∈ t.rows, c.id ∈ w.host.doc.ids) ?_ fun j _ => h.rows j,
      forall_update (fun t : Task => ∀ id, t.stage.busy = some id → id ∈ w.host.processed)
        (fun id hb => absurd hb (hbusy id)) fun j _ => h.marked j,
      forall_update (fun t : Task => ∀ id, t.suspected = some id → id ∈ w.host.processed) ?_
        fun j _ => h.suspected j,
      forall_update (fun t : Task => ∀ id, t.Condemns id → World.Settled _ id)
        (fun id hc => absurd hc (hcondemns id)) fun j _ id hc => ?_⟩
    · rw [hrows]
      exact List.forall_mem_nil _
    · rw [hsuspected]
      exact fun _ h => by cases h
    · exact ⟨(h.condemned j id hc).1, forall_update (fun t : Task => t.stage.busy ≠ some id)
        (hbusy id) fun k _ => (h.condemned j id hc).2 k⟩
  | turn i a hfresh hw =>
    subst hw
    exact settledInv_turn h hg
  | deliver row known hw =>
    subst hw
    exact ⟨hclaims, fun i c hc => Doc.ids_deliver (h.rows i c hc), h.marked, h.suspected,
      h.condemned⟩
  | arrive messageId hw =>
    subst hw
    exact ⟨hclaims, h.rows, h.marked, h.suspected, h.condemned⟩
  | save hw =>
    subst hw
    exact ⟨hclaims, h.rows, h.marked, h.suspected, h.condemned⟩
  | restart hw =>
    subst hw
    exact ⟨hclaims, fun _ => List.forall_mem_nil _, (fun _ _ h => by cases h),
      (fun _ _ h => by cases h), fun _ _ h => h.elim⟩

theorem settledInv_boot (deviceId : String) (doc : Doc) (processed : Finset String) :
    SettledInv (World.boot deviceId doc processed) :=
  ⟨claims_boot deviceId doc processed, fun _ => List.forall_mem_nil _, (fun _ _ h => by cases h),
    (fun _ _ h => by cases h), fun _ _ h => h.elim⟩

end Zeron.Command
