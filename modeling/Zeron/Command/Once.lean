import Zeron.Command.Settled

/-!
# A command is executed at most once

The claim keeps two executions of a command apart in time; that the second does not come after the
first rests on the ledger alone.

* `MarksNew`: the drain marks no command, on its way to execute it, that is in the ledger;
* `OnceInv`, `onceInv_step`: what such a step keeps;
* **`executed_once`**: in a run of such steps no command is started twice;
* `stale_evaluation_runs_twice`: a pass that evaluated before another finished.
-/

namespace Zeron.Command

open Slots

/-- How often a command has been started. -/
def Host.starts (h : Host) (id : String) : ℕ := h.log.count (.started id)

/-- The command a pass marks next on its way to execute it. -/
def Stage.marks : Stage → Option String
  | .claimed id .drain .execute => some id
  | _ => none

/-- No pass marks, on its way to execute it, a command that is in the ledger. -/
def MarksNew (w : World) : Act → Prop
  | .turn i a => ∀ id ∈ (w.tasks i).stage.marks,
      ((w.tasks i).step w.host a).1 = .mark id → id ∉ w.host.processed
  | _ => True

instance (w : World) : (act : Act) → Decidable (MarksNew w act)
  | .turn i a => inferInstanceAs (Decidable (∀ id ∈ (w.tasks i).stage.marks,
      ((w.tasks i).step w.host a).1 = .mark id → id ∉ w.host.processed))
  | .drain _ | .relay _ _ | .retry _ | .deliver _ | .arrive _ | .save | .restart => .isTrue trivial

/-- What has been started is in the ledger, once; what is about to be is there too. -/
structure OnceInv (w : World) : Prop where
  claims : w.Claims
  once : ∀ id, w.host.starts id ≤ 1
  marked : ∀ id, w.host.starts id ≠ 0 → id ∈ w.host.processed
  cleared : ∀ i id road, (w.tasks i).stage = .cleared id road →
    id ∈ w.host.processed ∧ w.host.starts id = 0

theorem starts_start (h : Host) (id id' : String) :
    (h.apply (.start id)).starts id' = h.starts id' + if id = id' then 1 else 0 := by
  simp only [Host.starts, Host.apply, List.count_append, List.count_singleton, beq_iff_eq,
    Event.started.injEq]

theorem starts_of_ne (h : Host) {e : Effect} (he : ∀ id, e ≠ .start id) (id : String) :
    (h.apply e).starts id = h.starts id := by
  cases e with
  | start id => exact absurd rfl (he id)
  | resolve id' status resolution =>
    unfold Host.apply
    dsimp only
    split
    · simp [Host.starts]
    · rfl
  | returned id' road applied => simp [Host.starts, Host.apply]
  | _ => rfl

theorem clear_of_step {h : Host} {s s' : Stage} {e : Effect} {id : String} {road : Road}
    (hs : StageStep h s e s') (hs' : s' = .cleared id road)
    (hg : ∀ id ∈ s.marks, e = .mark id → id ∉ h.processed) :
    s = .cleared id road ∨ (e = .mark id ∧ id ∉ h.processed) := by
  cases hs with
  | none => exact .inl hs'
  | clear id' road' hnew =>
    cases hs'
    cases road with
    | drain => exact .inr ⟨rfl, hg id rfl rfl⟩
    | relay => exact .inr ⟨rfl, hnew rfl⟩
  | shelve id' disposition hd => cases disposition <;> cases hs'
  | _ => cases hs'

theorem start_of_step {h : Host} {s s' : Stage} {id : String} (hs : StageStep h s (.start id) s') :
    ∃ road, s = .cleared id road ∧ s' = .running id road := by
  cases hs with
  | start _ road => exact ⟨road, rfl, rfl⟩

theorem onceInv_turn {w : World} (h : OnceInv w) {i : ℕ} {a : Answer}
    (hg : MarksNew w (.turn i a)) : OnceInv (w.turned i a) := by
  have hclaims := claims_turn h.claims i a
  have hs := stage_step w.host a (w.tasks i)
  rw [MarksNew] at hg
  rw [World.turned] at hclaims ⊢
  generalize (w.tasks i).step w.host a = out at hs hg hclaims
  obtain ⟨e, t'⟩ := out
  dsimp only at hs hg hclaims ⊢
  by_cases he : ∃ id, e = .start id
  · obtain ⟨id, rfl⟩ := he
    obtain ⟨road, hcleared, hrunning⟩ := start_of_step hs
    obtain ⟨hmarked, hzero⟩ := h.cleared i id road hcleared
    refine ⟨hclaims, fun id' => ?_, fun id' hid' => ?_, fun j id' road' hj => ?_⟩
    · rw [starts_start]
      have := h.once id'
      split
      · subst id'
        omega
      · omega
    · rw [starts_start] at hid'
      by_cases heq : id = id'
      · exact heq ▸ hmarked
      · rw [if_neg heq] at hid'
        exact h.marked id' hid'
    · dsimp only at hj ⊢
      by_cases hji : j = i
      · subst hji
        rw [Function.update_self, hrunning] at hj
        cases hj
      · rw [Function.update_of_ne hji] at hj
        obtain ⟨hmarked', hzero'⟩ := h.cleared j id' road' hj
        have hne : id ≠ id' := by
          rintro rfl
          exact hji (h.claims.exclusive j i id (by rw [Task.claim, hj]; rfl)
            (by rw [Task.claim, hcleared]; rfl))
        exact ⟨hmarked', by rw [starts_start, if_neg hne, hzero']⟩
  · have hsame := starts_of_ne w.host fun id he' => he ⟨id, he'⟩
    refine ⟨hclaims, fun id => ?_, fun id hid => ?_, fun j id road hj => ?_⟩
    · rw [hsame]
      exact h.once id
    · rw [hsame] at hid
      exact processed_apply _ _ (h.marked id hid)
    · dsimp only at hj ⊢
      rw [hsame]
      have hold : ∀ j, (w.tasks j).stage = .cleared id road →
          id ∈ (w.host.apply e).processed ∧ w.host.starts id = 0 := fun j hj =>
        ⟨processed_apply _ _ (h.cleared j id road hj).1, (h.cleared j id road hj).2⟩
      by_cases hji : j = i
      · subst hji
        rw [Function.update_self] at hj
        rcases clear_of_step hs hj hg with hstage | ⟨rfl, hnew⟩
        · exact hold j hstage
        · refine ⟨Finset.mem_insert_self _ _, ?_⟩
          by_contra hne
          exact hnew (h.marked id hne)
      · rw [Function.update_of_ne hji] at hj
        exact hold j hj

theorem onceInv_step {w w' : World} {act : Act} (h : OnceInv w) (hg : MarksNew w act)
    (hs : w.step act = some w') : OnceInv w' := by
  have hclaims := claims_step h.claims hs
  cases stepped hs with
  | spawn _ i t known hidle ht hrelay hknown hw =>
    subst hw
    refine ⟨hclaims, h.once, h.marked, fun j id road hj => ?_⟩
    dsimp only at hj
    by_cases hji : j = i
    · subst hji
      rw [Function.update_self] at hj
      have hnone := claim_spawned ht
      rw [Task.claim, hj] at hnone
      cases hnone
    · rw [Function.update_of_ne hji] at hj
      exact h.cleared j id road hj
  | turn i a hfresh hw =>
    subst hw
    exact onceInv_turn h hg
  | deliver | arrive | save =>
    subst w'
    exact ⟨hclaims, h.once, h.marked, h.cleared⟩
  | restart hw =>
    subst hw
    exact ⟨hclaims, h.once, h.marked, fun _ _ _ h => (by cases h)⟩

theorem onceInv_boot (deviceId : String) (doc : Doc) (processed : Finset String) :
    OnceInv (World.boot deviceId doc processed) :=
  ⟨claims_boot deviceId doc processed, fun _ => Nat.zero_le _, fun _ h => absurd rfl h,
    fun _ _ _ h => (by cases h)⟩

/-- **A command is executed at most once** in every run, over any document and ledger, in which no
pass that evaluated a command marks it after another road has. -/
theorem executed_once (deviceId : String) (doc : Doc) (processed : Finset String) (acts : List Act)
    (hg : Run.Guarded World.step MarksNew (.boot deviceId doc processed) acts) (w : World)
    (hw : Run.exec World.step (.boot deviceId doc processed) acts = some w) (id : String) :
    w.host.starts id ≤ 1 :=
  (Run.exec_invariant (fun _ _ _ => onceInv_step) (onceInv_boot deviceId doc processed) hg hw).once
    id

/-- A run of one prompt, as its sender queued it. -/
def sentRun : SessionCommandEntry where
  id := "c"
  payload := .run "go" "m"
  issuedBy := "viewer"
  issuedAt := 0
  basedOn := none
  expiresAt := none
  status := .pending
  resolution := none

/-- The store answers, the attachments are there, and the dispatch succeeds. -/
def Answer.fine : Answer where
  ok := true
  nowMs := 1
  missing := false
  reply := .done
  newId := ""

/-- Task `i` takes its next `n` steps. -/
def turns (i n : ℕ) : List Act := List.replicate n (.turn i .fine)

/-- A second pass comes to the command while the first executes it. -/
theorem executed_once_overlapping :
    (((Run.exec World.step (.boot "host" ⟨[sentRun], []⟩ ∅)
      (.drain 0 :: turns 0 11 ++ .drain 1 :: turns 1 9 ++ turns 0 6)).get
        (by decide +kernel)).host.starts "c" ≤ 1) :=
  executed_once "host" ⟨[sentRun], []⟩ ∅ _ (Run.guarded_of_checks (by decide +kernel)) _
    (Option.some_get _).symm "c"

/-- The second pass has evaluated the command when the first comes to it, and goes on when the first
has executed it and dropped its claim. -/
theorem stale_evaluation_runs_twice :
    (Run.exec World.step (.boot "host" ⟨[sentRun], []⟩ ∅)
      (.drain 1 :: turns 1 7 ++ .drain 0 :: turns 0 15 ++ turns 1 3)).map
        (·.host.starts "c") = some 2 := by
  decide +kernel

end Zeron.Command
