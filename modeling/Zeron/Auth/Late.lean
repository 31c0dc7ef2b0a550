import Zeron.Auth.Refresh

/-!
# Late answers do not change who is signed in

A token belongs to a grant of the sign-in service, and so does the refresh token it was got for.

* `Late`, `Sound`: an answer for another session or an older token; what is promised;
* `Served`, `Prompt`: what the service answers; when a refreshed token is handed out;
* **`late_answers_harmless`**; `handed_to_next`: a token of the session before the one stored.
-/

namespace Zeron.Auth.AuthInner

open Run

variable {γ : Type} {grant : String → γ} {jwtClaims : String → Option JwtClaims} {s s' : AuthInner}

/-! ## What is promised -/

/-- A refresh request is in flight. -/
def InFlight (s : AuthInner) (t : ℕ) (refreshToken : String) : Prop :=
  ∃ generation retry, (s.tasks t).stage = .sent generation refreshToken retry

/-- An answer for an older generation, or for a refresh token that is not the stored one. -/
def Late (s : AuthInner) : Act → Prop
  | .exchanged i _ _ => ∃ generation, s.exchanges i = some generation ∧ generation ≠ s.generation
  | .answer t _ _ => ∃ generation refreshToken retry,
      (s.tasks t).stage = .sent generation refreshToken retry ∧ s.Stale generation refreshToken
  | _ => False

/-- A token of the session's grant. -/
def Belongs (grant : String → γ) (token : String) (stored : Option StoredSession) : Prop :=
  ∃ session, stored = some session ∧ grant token = grant session.refreshToken

/-- The state is that of the stored session, late answers change nothing, one refresh is in flight,
and each token was returned for the session stored then. -/
structure Sound (grant : String → γ) (jwtClaims : String → Option JwtClaims) (s : AuthInner) :
    Prop where
  signedOut : s.state = .signedOut ↔ s.stored = none
  names : ∀ session, s.stored = some session → s.state.user = some session.user
  late : ∀ a s', s.Late a → s.step jwtClaims a = some s' →
    s'.stored = s.stored ∧ s'.state = s.state ∧ s'.file = s.file ∧ s'.access = s.access
  single : ∀ t t' r r', s.InFlight t r → s.InFlight t' r' → t = t'
  returned : ∀ reply ∈ s.returned, ∀ token, reply.1 = .token token → Belongs grant token reply.2

/-- The tokens of an answer are of the grant of the refresh token that was sent. -/
def ServedFor (grant : String → γ) (accessToken refreshToken : String) : Stage → Prop
  | .sent _ sent _ => grant accessToken = grant sent ∧ grant refreshToken = grant sent
  | .idle | .queued | .done _ _ | .cancelled => True

instance [DecidableEq γ] (accessToken refreshToken : String) (stage : Stage) :
    Decidable (ServedFor grant accessToken refreshToken stage) :=
  match stage with
  | .sent _ _ _ => inferInstanceAs (Decidable (_ ∧ _))
  | .idle | .queued | .done _ _ | .cancelled => isTrue trivial

/-- The service issues the tokens of an answer for one grant. -/
def Served (grant : String → γ) (s : AuthInner) : Act → Prop
  | .exchanged _ (some result) _ => grant result.accessToken = grant result.refreshToken
  | .answer t (.status _ (.tokens accessToken refreshToken)) _ =>
    ServedFor grant accessToken refreshToken (s.tasks t).stage
  | _ => True

instance [DecidableEq γ] (a : Act) : Decidable (s.Served grant a) :=
  match a with
  | .exchanged _ (some result) _ =>
    inferInstanceAs (Decidable (grant result.accessToken = grant result.refreshToken))
  | .answer t (.status _ (.tokens accessToken refreshToken)) _ =>
    inferInstanceAs (Decidable (ServedFor grant accessToken refreshToken (s.tasks t).stage))
  | .beginSignIn _ | .expire _ | .takePending _ _ | .exchanged _ none _ | .signOut _
  | .retryRefresh | .accessToken _ _ | .refresh _ | .selectOrg _ _ | .enter _ _
  | .answer _ (.unreachable _) _ | .answer _ (.status _ (.malformed _)) _ | .endFlight
  | .cancel _ | .return _ | .clock _ => isTrue trivial

/-- A refresh's token is of the last sign-in, or there is no use for it: no session is stored, or a
cached token is live. -/
def PromptFor (s : AuthInner) : Option Stage → Prop
  | some (.done (.token _) epoch) =>
    epoch = s.epoch ∨ s.stored = none ∨ s.liveToken.isSome = true
  | some (.done .nothing _) | some (.done (.failed _) _) | some .idle | some .queued
  | some (.sent _ _ _) | some .cancelled | none => True

instance (stage : Option Stage) : Decidable (s.PromptFor stage) :=
  match stage with
  | some (.done (.token _) _) => inferInstanceAs (Decidable (_ ∨ _ ∨ _))
  | some (.done .nothing _) | some (.done (.failed _) _) | some .idle | some .queued
  | some (.sent _ _ _) | some .cancelled | none => isTrue trivial

/-- A refreshed token is handed out before the next sign-in or sign-out, if it is. -/
def Prompt (s : AuthInner) : Act → Prop
  | .return c => s.PromptFor ((s.callers c).map fun t => (s.tasks t).stage)
  | _ => True

instance (a : Act) : Decidable (s.Prompt a) :=
  match a with
  | .return c =>
    inferInstanceAs (Decidable (s.PromptFor ((s.callers c).map fun t => (s.tasks t).stage)))
  | .beginSignIn _ | .expire _ | .takePending _ _ | .exchanged _ _ _ | .signOut _
  | .retryRefresh | .accessToken _ _ | .refresh _ | .selectOrg _ _ | .enter _ _
  | .answer _ _ _ | .endFlight | .cancel _ | .clock _ => isTrue trivial

/-! ## The invariant -/

structure Inv (grant : String → γ) (s : AuthInner) : Prop where
  state : s.state = stateOf s.stored
  access : ∀ e, s.access = some e → Belongs grant e.token s.stored
  gate : ∀ t r, s.InFlight t r → s.refreshGate = some t
  ages : ∀ t outcome epoch, (s.tasks t).stage = .done outcome epoch → epoch ≤ s.epoch
  /-- A token that was got since the last sign-in. -/
  tokens : ∀ t token, (s.tasks t).stage = .done (.token token) s.epoch → ∀ session,
    s.stored = some session → grant token = grant session.refreshToken
  returned : ∀ reply ∈ s.returned, ∀ token, reply.1 = .token token → Belongs grant token reply.2

theorem inv_new (stored : Option StoredSession) (file : SessionFile) :
    (new stored file).Inv grant where
  state := rfl
  access e he := by simp [new] at he
  gate t r hf := by simp [InFlight, new] at hf
  ages t outcome epoch ht := by simp [new] at ht
  tokens t token ht := by simp [new] at ht
  returned p hp := by simp [new] at hp

theorem token_of_live {token : String} (h : s.liveToken = some token) :
    ∃ e, s.access = some e ∧ e.token = token := by
  simp only [liveToken, Option.map_eq_some_iff, Option.filter_eq_some_iff] at h
  obtain ⟨e, ⟨he, -⟩, ht⟩ := h
  exact ⟨e, he, ht⟩

theorem settleRetry_eq (retry : UInt64) (organizationId : Option String) (outcome : Outcome) :
    ∃ retry', s.settleRetry retry organizationId outcome = { s with retry := retry' } := by
  simp only [settleRetry]
  split_ifs
  · exact ⟨_, rfl⟩
  · split <;> exact ⟨_, rfl⟩

namespace Inv

theorem live (h : s.Inv grant) {token : String} (ht : s.liveToken = some token) :
    Belongs grant token s.stored := by
  obtain ⟨e, he, rfl⟩ := token_of_live ht
  exact h.access e he

theorem retryRefresh (h : s.Inv grant) : s.retryRefresh.Inv grant :=
  ⟨h.state, h.access, h.gate, h.ages, h.tokens, h.returned⟩

theorem clearSession (h : s.Inv grant) (disk : Disk) : (s.clearSession disk).Inv grant where
  state := rfl
  access e he := by simp [AuthInner.clearSession] at he
  gate := h.gate
  ages t outcome epoch ht := (h.ages t outcome epoch ht).trans (Nat.le_succ _)
  tokens t token ht := absurd (h.ages t _ _ ht) (Nat.not_succ_le_self _)
  returned := h.returned

theorem finishSignIn (h : s.Inv grant) {result : SignInResult} (generation : UInt64) (disk : Disk)
    (hserved : grant result.accessToken = grant result.refreshToken) :
    (s.finishSignIn jwtClaims result generation disk).Inv grant := by
  simp only [AuthInner.finishSignIn]
  split_ifs
  · exact h
  · refine ⟨rfl, fun e he => ?_, h.gate, fun t outcome epoch ht => ?_, fun t token ht => ?_,
      h.returned⟩
    · obtain rfl := Option.some_inj.mp he
      exact ⟨_, rfl, hserved⟩
    · exact (h.ages t outcome epoch ht).trans (Nat.le_succ _)
    · exact absurd (h.ages t _ _ ht) (Nat.not_succ_le_self _)

theorem refreshed (h : s.Inv grant) {session : StoredSession} (hstored : s.stored = some session)
    {accessToken refreshToken : String} (disk : Disk)
    (haccess : grant accessToken = grant session.refreshToken)
    (hrefresh : grant refreshToken = grant session.refreshToken) :
    (s.refreshed jwtClaims session accessToken refreshToken disk).Inv grant where
  state := by
    have hstate := h.state
    simp only [AuthInner.refreshed]
    split_ifs with horg
    · rfl
    · simp only [hstate, hstored, stateOf]
      rw [not_not.mp horg]
  access e he := by
    obtain rfl := Option.some_inj.mp he
    exact ⟨_, rfl, haccess.trans hrefresh.symm⟩
  gate := h.gate
  ages := h.ages
  tokens t token ht session' hs := by
    obtain rfl := Option.some_inj.mp hs
    exact (h.tokens t token ht session hstored).trans hrefresh.symm
  returned := h.returned

theorem setTask (h : s.Inv grant) (t : ℕ) (task : Task) (gate : Option ℕ)
    (hgate : ∀ t' r, t' ≠ t → s.InFlight t' r → gate = some t')
    (hsent : ∀ g r rg, task.stage = .sent g r rg → gate = some t)
    (hage : ∀ outcome epoch, task.stage = .done outcome epoch → epoch ≤ s.epoch)
    (htoken : ∀ token, task.stage = .done (.token token) s.epoch →
      ∀ session, s.stored = some session → grant token = grant session.refreshToken) :
    ({ s with tasks := Function.update s.tasks t task, refreshGate := gate } : AuthInner).Inv
      grant where
  state := h.state
  access := h.access
  gate t' r hf := by
    simp only [InFlight, Function.update_apply] at hf ⊢
    split_ifs at hf with ht
    · obtain ⟨g, rg, hs⟩ := hf
      rw [ht]
      exact hsent g r rg hs
    · exact hgate t' r ht hf
  ages t' outcome epoch hs := by
    simp only [Function.update_apply] at hs
    split_ifs at hs with ht
    · exact hage outcome epoch hs
    · exact h.ages t' outcome epoch hs
  tokens t' token hs := by
    simp only [Function.update_apply] at hs
    split_ifs at hs with ht
    · exact htoken token hs
    · exact h.tokens t' token hs
  returned := h.returned

theorem finish (h : s.Inv grant) {t : ℕ} (retry : UInt64) {outcome : Outcome}
    (hgate : ∀ t' r, t' ≠ t → ¬ s.InFlight t' r)
    (htoken : ∀ token, outcome = .token token →
      ∀ session, s.stored = some session → grant token = grant session.refreshToken) :
    (s.finish t retry outcome).Inv grant := by
  obtain ⟨retry', he⟩ := settleRetry_eq (s := s) retry (s.tasks t).organizationId outcome
  simp only [AuthInner.finish, he, AuthInner.setTask]
  have hr : ({ s with retry := retry' } : AuthInner).Inv grant :=
    ⟨h.state, h.access, h.gate, h.ages, h.tokens, h.returned⟩
  refine hr.setTask t _ none (fun t' r ht hf => absurd hf (hgate t' r ht)) ?_ ?_ ?_
  · intro g r rg hs
    simp at hs
  · intro o epoch hs
    simp only [Stage.done.injEq] at hs
    exact hs.2 ▸ le_rfl
  · intro token hs
    simp only [Stage.done.injEq, and_true] at hs
    exact htoken token hs

theorem give (h : s.Inv grant) {r : Reply}
    (hr : ∀ token, r = .token token → Belongs grant token s.stored) : (s.give r).Inv grant where
  state := h.state
  access := h.access
  gate := h.gate
  ages := h.ages
  tokens := h.tokens
  returned p hp token ht := by
    simp only [AuthInner.give, List.mem_append, List.mem_singleton] at hp
    rcases hp with hp | rfl
    · exact h.returned p hp token ht
    · exact hr token ht

/-- The answer's part of a refresh. -/
theorem refreshLocked (h : s.Inv grant) (organizationId : Option String) (generation : UInt64)
    (refreshToken : String) (answer : Answer) (disk : Disk)
    (hserved : ∀ code a r, answer = .status code (.tokens a r) →
      grant a = grant refreshToken ∧ grant r = grant refreshToken) {s' : AuthInner}
    {outcome : Outcome}
    (hs : s.refreshLocked jwtClaims organizationId generation refreshToken answer disk =
      (s', outcome)) :
    s'.Inv grant ∧ s'.tasks = s.tasks ∧ ∀ token, outcome = .token token →
      ∀ session, s'.stored = some session → grant token = grant session.refreshToken := by
  have hsame : ∀ {o : Outcome}, (∀ token, o ≠ .token token) → (s, o) = (s', outcome) →
      s'.Inv grant ∧ s'.tasks = s.tasks ∧ ∀ token, outcome = .token token →
        ∀ session, s'.stored = some session → grant token = grant session.refreshToken := by
    intro o ho he
    obtain ⟨rfl, rfl⟩ := Prod.mk.inj he
    exact ⟨h, rfl, fun token ht => absurd ht (ho token)⟩
  cases answer with
  | unreachable detail => exact hsame (by simp) hs
  | status code body =>
    simp only [AuthInner.refreshLocked] at hs
    by_cases hrej : rejected code ∧ organizationId = none
    · rw [if_pos hrej] at hs
      split_ifs at hs with hstale
      · exact hsame (by simp) hs
      · obtain ⟨rfl, rfl⟩ := Prod.mk.inj hs
        exact ⟨h.clearSession disk, rfl, by simp⟩
    by_cases hok : isSuccess code
    · rw [if_neg hrej, if_neg (not_not.mpr hok)] at hs
      cases body with
      | malformed detail => exact hsame (by simp) hs
      | tokens a r =>
        obtain ⟨ha, hr⟩ := hserved code a r rfl
        cases hstored : s.stored with
        | none => exact hsame (o := .nothing) (by simp) (by simpa [hstored] using hs)
        | some session =>
          simp only [hstored] at hs
          split_ifs at hs with hstale
          · exact hsame (by simp) hs
          · obtain ⟨rfl, rfl⟩ := Prod.mk.inj hs
            have htoken : session.refreshToken = refreshToken := by
              simp only [Stale, hstored, Option.map_some, not_or, not_not] at hstale
              exact Option.some_inj.mp hstale.2
            rw [← htoken] at ha hr
            refine ⟨h.refreshed hstored disk ha hr, rfl, fun token ht session' hs' => ?_⟩
            obtain rfl := Outcome.token.inj ht
            obtain rfl := Option.some_inj.mp hs'
            exact ha.trans hr.symm
    · rw [if_neg hrej, if_pos hok] at hs
      exact hsame (by simp) hs

theorem enter (h : s.Inv grant) {t : ℕ} (hfree : s.refreshGate = none) (cooled : Bool) :
    (s.enter t cooled).Inv grant := by
  have hnone : ∀ t' r, ¬ s.InFlight t' r := by
    intro t' r hf
    have := h.gate t' r hf
    simp [hfree] at this
  have hdone : ∀ o : Outcome, (∀ token, o = .token token → Belongs grant token s.stored) →
      (s.setTask t (.done o s.epoch)).Inv grant := by
    intro o ho
    refine h.setTask t _ s.refreshGate (fun t' r _ => h.gate t' r) (by simp) ?_ ?_
    · intro o' epoch he
      simp only [Stage.done.injEq] at he
      exact he.2 ▸ le_rfl
    · intro token he session hs
      simp only [Stage.done.injEq, and_true] at he
      obtain ⟨session', hs', hg⟩ := ho token he
      rw [hs, Option.some_inj] at hs'
      exact hs' ▸ hg
  simp only [AuthInner.enter]
  split
  · rename_i token hlive
    refine hdone _ fun token' ht => ?_
    split_ifs at hlive with hshared
    obtain rfl := Outcome.token.inj ht
    exact h.live hlive
  · exact hdone _ (by simp)
  · split
    · exact h.finish _ (fun t' r _ => hnone t' r) (by simp)
    · refine h.setTask t _ (some t) (fun t' r _ hf => absurd hf (hnone t' r)) (fun _ _ _ _ => rfl)
        ?_ ?_ <;> simp

/-- A reply has a token of the stored session, if the refresh's token is of that session where it
is the one handed out. -/
theorem reply_belongs (h : s.Inv grant) {outcome : Outcome} {token : String}
    (ht : s.reply outcome = .token token)
    (hown : outcome = .token token → (∀ session, s.stored = some session →
      grant token = grant session.refreshToken) ∨ s.stored = none ∨ s.liveToken.isSome = true) :
    Belongs grant token s.stored := by
  simp only [AuthInner.reply] at ht
  split at ht
  · simp at ht
  · rename_i hlive
    exact h.live (Reply.token.inj ht ▸ hlive)
  · rename_i session token' hstored hlive
    obtain rfl := Reply.token.inj ht
    rcases hown rfl with ho | ho | ho
    · exact ⟨session, hstored, ho session hstored⟩
    · simp [hstored] at ho
    · simp [hlive] at ho
  · simp at ht
  · simp at ht

theorem joinFlight (h : s.Inv grant) {t flight : ℕ} (hs : s.joinFlight t = some (s', flight)) :
    s'.Inv grant := by
  simp only [AuthInner.joinFlight] at hs
  split at hs
  · simp only [Option.some_inj, Prod.mk.injEq] at hs
    exact hs.1 ▸ h
  · split_ifs at hs with hidle
    simp only [Option.some_inj, Prod.mk.injEq] at hs
    obtain ⟨rfl, -⟩ := hs
    have := h.setTask t ⟨none, .queued⟩ s.refreshGate (fun t' r _ => h.gate t' r) (by simp)
      (by simp) (by simp)
    exact ⟨this.state, this.access, this.gate, this.ages, this.tokens, this.returned⟩

end Inv

theorem inv_step {a : Act} (h : s.Inv grant) (hserved : s.Served grant a) (hprompt : s.Prompt a)
    (hs : s.step jwtClaims a = some s') : s'.Inv grant := by
  cases a with
  | beginSignIn state =>
    obtain rfl := Option.some_inj.mp hs
    exact ⟨h.state, h.access, h.gate, h.ages, h.tokens, h.returned⟩
  | expire state =>
    obtain rfl := Option.some_inj.mp hs
    exact ⟨h.state, h.access, h.gate, h.ages, h.tokens, h.returned⟩
  | takePending state i =>
    obtain ⟨-, rfl⟩ := of_guard hs
    exact ⟨h.state, h.access, h.gate, h.ages, h.tokens, h.returned⟩
  | exchanged i answer disk =>
    simp only [step] at hs
    split at hs
    · simp at hs
    · rename_i generation hi
      obtain rfl := Option.some_inj.mp hs
      have hi : Inv grant { s with exchanges := Function.update s.exchanges i none } :=
        ⟨h.state, h.access, h.gate, h.ages, h.tokens, h.returned⟩
      cases answer with
      | none => exact hi
      | some result => exact hi.finishSignIn generation disk hserved
  | signOut disk =>
    obtain rfl := Option.some_inj.mp hs
    exact h.clearSession disk
  | retryRefresh =>
    obtain rfl := Option.some_inj.mp hs
    exact h.retryRefresh
  | accessToken c t =>
    simp only [step] at hs
    split_ifs at hs
    split at hs
    · rename_i token hlive
      obtain rfl := Option.some_inj.mp hs
      exact h.give fun token' ht => Reply.token.inj ht ▸ h.live hlive
    · obtain ⟨⟨s₁, flight⟩, hjoin, rfl⟩ := Option.map_eq_some_iff.mp hs
      have := h.joinFlight hjoin
      exact ⟨this.state, this.access, this.gate, this.ages, this.tokens, this.returned⟩
  | refresh t =>
    obtain ⟨⟨s₁, flight⟩, hjoin, rfl⟩ := Option.map_eq_some_iff.mp hs
    exact h.joinFlight hjoin
  | selectOrg t organizationId =>
    obtain ⟨-, rfl⟩ := of_guard hs
    exact h.setTask t _ s.refreshGate (fun t' r _ => h.gate t' r) (by simp) (by simp) (by simp)
  | enter t cooled =>
    obtain ⟨⟨hfree, -⟩, rfl⟩ := of_guard hs
    exact h.enter hfree cooled
  | answer t answer disk =>
    simp only [step] at hs
    split at hs
    · rename_i generation refreshToken retry hstage
      obtain rfl := Option.some_inj.mp hs
      obtain ⟨hinv, htasks, htoken⟩ := h.refreshLocked (s.tasks t).organizationId
        generation refreshToken answer disk
        (by
          rintro code a r rfl
          simpa only [Served, ServedFor, hstage] using hserved)
        (rfl : s.refreshLocked jwtClaims _ _ _ _ _ = _)
      refine hinv.finish retry (fun t' r ht hf => ht ?_) htoken
      have hf : s.InFlight t' r := by simpa only [InFlight, htasks] using hf
      have := (h.gate t' r hf).symm.trans (h.gate t _ ⟨_, _, hstage⟩)
      exact Option.some_inj.mp this
    · simp at hs
  | endFlight =>
    simp only [step] at hs
    split at hs
    · obtain rfl := Option.some_inj.mp hs
      exact ⟨h.state, h.access, h.gate, h.ages, h.tokens, h.returned⟩
    · simp at hs
  | cancel t =>
    simp only [step] at hs
    split at hs
    · obtain rfl := Option.some_inj.mp hs
      exact h.setTask t _ s.refreshGate (fun t' r _ => h.gate t' r) (by simp) (by simp) (by simp)
    · rename_i g r rg _ hstage
      obtain rfl := Option.some_inj.mp hs
      refine h.setTask t _ none (fun t' r' ht hf => absurd ?_ ht) (by simp) (by simp) (by simp)
      exact Option.some_inj.mp ((h.gate t' r' hf).symm.trans (h.gate t _ ⟨_, _, hstage⟩))
    · simp at hs
  | «return» c =>
    simp only [step] at hs
    split at hs
    · simp at hs
    · rename_i t hc
      split at hs
      · rename_i outcome epoch hstage
        obtain rfl := Option.some_inj.mp hs
        have hgive := h.give (r := s.reply outcome) fun token ht => h.reply_belongs ht fun he => by
          subst he
          simp only [Prompt, PromptFor, hc, Option.map_some, hstage] at hprompt
          rcases hprompt with hep | hor
          · rw [hep] at hstage
            exact .inl (h.tokens t token hstage)
          · exact .inr hor
        exact ⟨hgive.state, hgive.access, hgive.gate, hgive.ages, hgive.tokens, hgive.returned⟩
      · simp at hs
  | clock elapsed =>
    obtain rfl := Option.some_inj.mp hs
    refine ⟨h.state, fun e he => ?_, h.gate, h.ages, h.tokens, h.returned⟩
    obtain ⟨e', he', rfl⟩ := Option.map_eq_some_iff.mp he
    exact h.access e' he'

/-! ## Late answers -/

theorem refreshLocked_stale {generation : UInt64} {refreshToken : String}
    (hstale : s.Stale generation refreshToken) (organizationId : Option String) (answer : Answer)
    (disk : Disk) : (s.refreshLocked jwtClaims organizationId generation refreshToken answer
      disk).1 = s := by
  cases answer with
  | unreachable detail => rfl
  | status code body =>
    simp only [refreshLocked]
    split
    · rfl
    · split
      · rfl
      · split <;> rfl

theorem late_same {a : Act} (hlate : s.Late a) (hs : s.step jwtClaims a = some s') :
    s'.stored = s.stored ∧ s'.state = s.state ∧ s'.file = s.file ∧ s'.access = s.access := by
  cases a with
  | exchanged i answer disk =>
    obtain ⟨generation, hi, hg⟩ := hlate
    simp only [step, hi, Option.some_inj] at hs
    rw [← hs]
    cases answer with
    | none => exact ⟨rfl, rfl, rfl, rfl⟩
    | some result =>
      simp only [finishSignIn]
      rw [if_pos hg.symm]
      exact ⟨rfl, rfl, rfl, rfl⟩
  | answer t answer disk =>
    obtain ⟨generation, refreshToken, retry, hstage, hstale⟩ := hlate
    simp only [step, hstage, Option.some_inj] at hs
    rw [← hs, refreshLocked_stale hstale]
    obtain ⟨retry', he⟩ := settleRetry_eq (s := s) retry (s.tasks t).organizationId
      (s.refreshLocked jwtClaims (s.tasks t).organizationId generation refreshToken answer disk).2
    simp [finish, he, setTask]
  | _ => exact hlate.elim

theorem Inv.sound (h : s.Inv grant) : s.Sound grant jwtClaims where
  signedOut := by
    rw [h.state]
    cases s.stored with
    | none => simp [stateOf]
    | some session => cases horg : session.orgId <;> simp [stateOf, stateFor, horg]
  names session hs := by simp [h.state, hs, stateOf]
  late a s' hlate hs := late_same hlate hs
  single t t' r r' ht ht' := Option.some_inj.mp ((h.gate t r ht).symm.trans (h.gate t' r' ht'))
  returned := h.returned

/-! ## Every run -/

/-- **Late answers change nothing, and every token is one of the session stored then.** -/
theorem late_answers_harmless {stored : Option StoredSession} {file : SessionFile} {acts : List Act}
    (hg : Guarded (step jwtClaims) (fun s a => s.Served grant a ∧ s.Prompt a) (new stored file)
      acts)
    (he : exec (step jwtClaims) (new stored file) acts = some s) : s.Sound grant jwtClaims :=
  (exec_invariant (fun _ _ _ h hg hs => inv_step h hg.1 hg.2 hs) (inv_new stored file) hg he).sound

/-- Tokens that tell their grant by their first letter, and live for ten minutes. -/
def letter (token : String) : Option Char := token.toList.head?

def tenMinutes (_ : String) : Option JwtClaims :=
  some { exp := some 600, iat := some 0, orgId := some "org" }

def alice : StoredSession :=
  { refreshToken := "a0", user := { id := "alice", email := "", name := none }
    orgId := some "org" }

def bob : SignInResult :=
  { user := { id := "bob", email := "", name := none }, accessToken := "b1", refreshToken := "b0" }

/-- A refresh for Alice, and one more that is overtaken by Bob's sign-in. -/
def overtaken : List Act :=
  [.accessToken 0 0, .enter 0 true, .answer 0 (.status 200 (.tokens "a1" "a2")) .ok, .endFlight,
    .return 0, .beginSignIn "x", .takePending "x" 0, .clock 1000, .refresh 1, .enter 1 true,
    .exchanged 0 (some bob) .refused, .answer 1 (.status 200 (.tokens "a3" "a4")) .ok,
    .accessToken 1 2]

theorem late_answers_harmless_two : ∃ s,
    exec (step tenMinutes) (new (some alice) .absent) overtaken = some s ∧
      s.Sound letter tenMinutes ∧ s.state = .signedIn bob.user (some "org") ∧
      s.returned.map (·.1) = [.token "a1", .token "b1"] := by
  have hrun : (exec (step tenMinutes) (new (some alice) .absent) overtaken).map
      (fun s => (s.state, s.returned.map (·.1))) =
      some (.signedIn bob.user (some "org"), [.token "a1", .token "b1"]) := by decide +kernel
  obtain ⟨s, he, hs⟩ := Option.map_eq_some_iff.mp hrun
  simp only [Prod.mk.injEq] at hs
  exact ⟨s, he, late_answers_harmless (guarded_of_checks (by decide +kernel)) he, hs⟩

/-- Bob signs in between Alice's refresh and the return of her call, and his token is old by
then. -/
def handedOver : List Act :=
  [.accessToken 0 0, .enter 0 true, .answer 0 (.status 200 (.tokens "a1" "a2")) .ok, .endFlight,
    .beginSignIn "x", .takePending "x" 0, .exchanged 0 (some bob) .ok, .clock 1000, .return 0]

/-- **A token of the session before is returned for the one stored.** -/
theorem handed_to_next : ¬ ∀ (acts : List Act) (s : AuthInner),
    Guarded (step tenMinutes) (fun s a => s.Served letter a) (new (some alice) .absent) acts →
      exec (step tenMinutes) (new (some alice) .absent) acts = some s →
        s.Sound letter tenMinutes := by
  intro hall
  have hrun : (exec (step tenMinutes) (new (some alice) .absent) handedOver).map
      (fun s => s.returned.map fun p => (p.1, p.2.map (·.refreshToken))) =
      some [(.token "a1", some "b0")] := by decide +kernel
  obtain ⟨s, he, hs⟩ := Option.map_eq_some_iff.mp hrun
  have hsound := hall handedOver s (guarded_of_checks (by decide +kernel)) he
  obtain ⟨p, hp, hreply⟩ := List.mem_map.mp (hs ▸ List.mem_singleton_self _)
  simp only [Prod.mk.injEq] at hreply
  obtain ⟨session, hsession, hgrant⟩ := hsound.returned p hp "a1" hreply.1
  rw [hsession, Option.map_some, Option.some_inj] at hreply
  rw [hreply.2] at hgrant
  exact absurd hgrant (by decide)

end Zeron.Auth.AuthInner
