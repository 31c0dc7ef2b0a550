import Zeron.Lib.Run

/-!
# The session of the signed-in user

`Auth` of `engine/src/auth.rs`, where a WorkOS client is configured. The tokens come from requests
that are awaited; what is done with an answer is done under the `sign_in` lock. A cached token is
read without it, before or after a commit's write to the cache.

* `StoredSession`, `AccessEntry`, `AuthState`: the session, the cached token, what is published;
* `Task`: a call of `refresh_serialized`, shared by its callers or an organisation's;
* `AuthInner`: the variables; `clearSession`, `finishSignIn`, `refreshed`: the commits;
* `Act`, `step`: one step of a caller, of a task or of the clock.
-/

namespace Zeron.Auth

/-! ## Values -/

structure AuthUser where
  id : String
  email : String
  name : Option String
  deriving DecidableEq

inductive AuthState where
  | signedOut
  | needsOrganization (user : AuthUser)
  | signedIn (user : AuthUser) (orgId : Option String)
  deriving DecidableEq

def AuthState.user : AuthState → Option AuthUser
  | .signedOut => none
  | .needsOrganization user | .signedIn user _ => some user

def stateFor (user : AuthUser) (orgId : Option String) : AuthState :=
  match orgId with
  | some orgId => .signedIn user (some orgId)
  | none => .needsOrganization user

@[simp] theorem stateFor_user (user : AuthUser) (orgId : Option String) :
    (stateFor user orgId).user = some user := by
  cases orgId <;> rfl

structure StoredSession where
  refreshToken : String
  user : AuthUser
  orgId : Option String
  deriving DecidableEq

/-- `session.json`; a write that fails halfway leaves what does not parse. -/
inductive SessionFile where
  | absent
  | session (s : StoredSession)
  | damaged
  deriving DecidableEq

/-- How a write of the file goes: it fails before or after the file was truncated. -/
inductive Disk where
  | ok
  | refused
  | torn
  deriving DecidableEq

def persist (file : SessionFile) (session : Option StoredSession) (disk : Disk) : SessionFile :=
  match disk, session with
  | .ok, some s => .session s
  | .ok, none => .absent
  | .refused, _ => file
  | .torn, some _ => .damaged
  | .torn, none => file

structure JwtClaims where
  exp : Option ℤ
  iat : Option ℤ
  orgId : Option String
  deriving DecidableEq

/-- The cached token, with its life and its age in seconds. -/
structure AccessEntry where
  token : String
  ttl : ℕ
  elapsed : ℕ
  deriving DecidableEq

namespace AccessEntry

def lifetime (claims : Option JwtClaims) : ℕ :=
  match claims.bind (·.exp), claims.bind (·.iat) with
  | some exp, some iat => if iat < exp then (exp - iat).toNat else 240
  | _, _ => 240

def remaining (e : AccessEntry) : ℕ := e.ttl - e.elapsed

end AccessEntry

def tokenSlack : ℕ := 30

structure SignInResult where
  user : AuthUser
  accessToken : String
  refreshToken : String
  deriving DecidableEq

/-! ## Refreshes -/

/-- `Result<Option<String>, _>`. -/
inductive Outcome where
  | token (token : String)
  | nothing
  | failed (message : String)
  deriving DecidableEq

/-- The body of an answer. -/
inductive Body where
  | malformed (detail : String)
  | tokens (accessToken refreshToken : String)
  deriving DecidableEq

inductive Answer where
  | unreachable (detail : String)
  | status (code : ℕ) (body : Body)
  deriving DecidableEq

/-- A rejected refresh; timeouts and rate limits are not. -/
def rejected (code : ℕ) : Prop := 400 ≤ code ∧ code < 500 ∧ code ≠ 408 ∧ code ≠ 429

def isSuccess (code : ℕ) : Prop := 200 ≤ code ∧ code < 300

instance (code : ℕ) : Decidable (rejected code) := inferInstanceAs (Decidable (_ ∧ _))

instance (code : ℕ) : Decidable (isSuccess code) := inferInstanceAs (Decidable (_ ∧ _))

inductive Stage where
  | idle
  /-- Waits for the gate. -/
  | queued
  /-- Its request is in flight, for the session's generation and refresh token; `retry` is the
  generation of the cooldown. -/
  | sent (generation : UInt64) (refreshToken : String) (retry : UInt64)
  /-- It has returned; `epoch` counts the sign-ins and sign-outs so far. -/
  | done (outcome : Outcome) (epoch : ℕ)
  | cancelled
  deriving DecidableEq

/-- A call of `refresh_serialized`. -/
structure Task where
  organizationId : Option String
  stage : Stage
  deriving DecidableEq

structure RefreshRetry where
  generation : UInt64
  failures : ℕ
  failure : Option String
  deriving DecidableEq

/-- What `access_token` returns. -/
inductive Reply where
  | token (token : String)
  | signedOut
  | temporarilyUnavailable (message : String)
  deriving DecidableEq

/-- The variables of `AuthInner`, the exchanges by the generation they hold, the refreshes, and the
calls of `access_token` by the refresh they await. `epoch` counts the sign-ins and sign-outs, and
`returned` keeps each reply with the session stored at that time. -/
structure AuthInner where
  stored : Option StoredSession
  access : Option AccessEntry
  state : AuthState
  file : SessionFile
  generation : UInt64
  pending : List String
  retry : RefreshRetry
  exchanges : ℕ → Option UInt64
  tasks : ℕ → Task
  refreshFlight : Option ℕ
  refreshGate : Option ℕ
  callers : ℕ → Option ℕ
  epoch : ℕ
  returned : List (Reply × Option StoredSession)

inductive Act where
  | beginSignIn (state : String)
  /-- A sign-in state outlives its time. -/
  | expire (state : String)
  | takePending (state : String) (i : ℕ)
  /-- The exchange ends, with the answer's session or an error. -/
  | exchanged (i : ℕ) (answer : Option SignInResult) (disk : Disk)
  | signOut (disk : Disk)
  | retryRefresh
  | accessToken (caller task : ℕ)
  /-- `refresh(None)` of the background loop. -/
  | refresh (task : ℕ)
  | selectOrg (task : ℕ) (organizationId : String)
  /-- The refresh takes the gate; `cooled`: no delay of an earlier failure is left. -/
  | enter (task : ℕ) (cooled : Bool)
  | answer (task : ℕ) (answer : Answer) (disk : Disk)
  /-- The shared refresh is forgotten. -/
  | endFlight
  /-- The caller of an organisation's refresh goes. -/
  | cancel (task : ℕ)
  | return (caller : ℕ)
  | clock (elapsed : ℕ)
  deriving DecidableEq

namespace AuthInner

/-- The published state of a session. -/
def stateOf (stored : Option StoredSession) : AuthState :=
  match stored with
  | some session => stateFor session.user session.orgId
  | none => .signedOut

/-- `Auth::new`, with the session that the file holds. -/
def new (stored : Option StoredSession) (file : SessionFile) : AuthInner :=
  { stored, access := none, state := stateOf stored, file, generation := 0, pending := []
    retry := { generation := 0, failures := 0, failure := none }
    exchanges := fun _ => none, tasks := fun _ => { organizationId := none, stage := .idle }
    refreshFlight := none, refreshGate := none, callers := fun _ => none, epoch := 0
    returned := [] }

variable (s : AuthInner)

/-- The cached token, where it has more than the slack left. -/
def liveToken : Option String :=
  (s.access.filter fun e => tokenSlack < e.remaining).map (·.token)

/-- `retry_refresh`. -/
def retryRefresh : AuthInner :=
  { s with retry := { generation := s.retry.generation + 1, failures := 0, failure := none } }

/-- `clear_session`. -/
def clearSession (disk : Disk) : AuthInner :=
  { s.retryRefresh with
    generation := s.generation + 1
    pending := []
    stored := none
    access := none
    file := persist s.file none disk
    state := .signedOut
    epoch := s.epoch + 1 }

section

variable (jwtClaims : String → Option JwtClaims)

/-- `AccessEntry::fresh`. -/
def freshEntry (token : String) : AccessEntry :=
  { token, ttl := AccessEntry.lifetime (jwtClaims token), elapsed := 0 }

/-- `finish_sign_in`. -/
def finishSignIn (result : SignInResult) (generation : UInt64) (disk : Disk) : AuthInner :=
  if s.generation ≠ generation then s
  else
    let orgId := (jwtClaims result.accessToken).bind (·.orgId)
    let session := { refreshToken := result.refreshToken, user := result.user, orgId }
    { s.retryRefresh with
      access := some (freshEntry jwtClaims result.accessToken)
      file := persist s.file (some session) disk
      stored := some session
      state := stateFor result.user orgId
      epoch := s.epoch + 1 }

/-- The commit of a refresh, for the session that is stored. -/
def refreshed (session : StoredSession) (accessToken refreshToken : String) (disk : Disk) :
    AuthInner :=
  let orgId := (jwtClaims accessToken).bind (·.orgId)
  let stored := { session with refreshToken, orgId }
  { s with
    access := some (freshEntry jwtClaims accessToken)
    stored := some stored
    file := persist s.file (some stored) disk
    state := if session.orgId ≠ orgId then stateFor session.user orgId else s.state }

end

def setTask (t : ℕ) (stage : Stage) : AuthInner :=
  { s with tasks := Function.update s.tasks t { s.tasks t with stage } }

/-- The cooldown after a refresh that was sent, or had no session. -/
def settleRetry (retry : UInt64) (organizationId : Option String) (outcome : Outcome) : AuthInner :=
  if s.retry.generation ≠ retry then s
  else
    match outcome, organizationId with
    | .failed message, none =>
      { s with
        retry :=
          { s.retry with
            failures := min (s.retry.failures + 1) (2 ^ 32 - 1), failure := some message } }
    | .failed _, some _ => s
    | _, _ => { s with retry := { s.retry with failures := 0, failure := none } }

/-- The task returns, and the gate is free. -/
def finish (t : ℕ) (retry : UInt64) (outcome : Outcome) : AuthInner :=
  { (s.settleRetry retry (s.tasks t).organizationId outcome).setTask t (.done outcome s.epoch) with
    refreshGate := none }

/-- A task of the gate, up to its request. -/
def enter (t : ℕ) (cooled : Bool) : AuthInner :=
  let shared := (s.tasks t).organizationId.isNone
  match if shared then s.liveToken else none,
    if shared ∧ cooled = false then s.retry.failure else none with
  | some token, _ => s.setTask t (.done (.token token) s.epoch)
  | none, some message => s.setTask t (.done (.failed message) s.epoch)
  | none, none =>
    match s.stored with
    | none => s.finish t s.retry.generation .nothing
    | some session =>
      { s.setTask t (.sent s.generation session.refreshToken s.retry.generation) with
        refreshGate := some t }

/-- The answer is for another session, or for an older token of this one. -/
def Stale (generation : UInt64) (refreshToken : String) : Prop :=
  s.generation ≠ generation ∨ s.stored.map (·.refreshToken) ≠ some refreshToken

instance (generation : UInt64) (refreshToken : String) :
    Decidable (s.Stale generation refreshToken) :=
  inferInstanceAs (Decidable (_ ∨ _))

/-- The rest of `refresh_locked`: the variables after the answer, and what is returned. -/
def refreshLocked (jwtClaims : String → Option JwtClaims) (organizationId : Option String)
    (generation : UInt64) (refreshToken : String) (answer : Answer) (disk : Disk) :
    AuthInner × Outcome :=
  match answer with
  | .unreachable detail => (s, .failed ("could not reach the edge during refresh: " ++ detail))
  | .status code body =>
    if rejected code ∧ organizationId = none then
      (if s.Stale generation refreshToken then s else s.clearSession disk, .nothing)
    else if ¬ isSuccess code then (s, .failed ("refresh failed (" ++ toString code ++ ")"))
    else
      match body, s.stored with
      | .malformed detail, _ => (s, .failed ("malformed refresh response: " ++ detail))
      | .tokens _ _, none => (s, .nothing)
      | .tokens accessToken refreshToken', some session =>
        if s.Stale generation refreshToken then (s, .nothing)
        else (s.refreshed jwtClaims session accessToken refreshToken' disk, .token accessToken)

/-- `refresh(None)`: the shared refresh that runs, or a new one. -/
def joinFlight (t : ℕ) : Option (AuthInner × ℕ) :=
  match s.refreshFlight with
  | some flight => some (s, flight)
  | none =>
    if (s.tasks t).stage = .idle then
      some ({ s with
        tasks := Function.update s.tasks t { organizationId := none, stage := .queued }
        refreshFlight := some t }, t)
    else none

/-- The reply of `access_token` after its refresh. -/
def reply (outcome : Outcome) : Reply :=
  match s.stored, s.liveToken, outcome with
  | none, _, _ => .signedOut
  | some _, some token, _ => .token token
  | some _, none, .token token => .token token
  | some _, none, .nothing => .temporarilyUnavailable "session changed during refresh; retry"
  | some _, none, .failed message => .temporarilyUnavailable message

def give (r : Reply) : AuthInner := { s with returned := s.returned ++ [(r, s.stored)] }

def step (jwtClaims : String → Option JwtClaims) (s : AuthInner) : Act → Option AuthInner
  | .beginSignIn state => some { s with pending := state :: s.pending }
  | .expire state => some { s with pending := s.pending.filter (· ≠ state) }
  | .takePending state i =>
    if state ∈ s.pending ∧ s.exchanges i = none then
      some { s with
        pending := s.pending.filter (· ≠ state)
        exchanges := Function.update s.exchanges i (some s.generation) }
    else none
  | .exchanged i answer disk =>
    match s.exchanges i with
    | none => none
    | some generation =>
      let s := { s with exchanges := Function.update s.exchanges i none }
      some (match answer with
        | some result => s.finishSignIn jwtClaims result generation disk
        | none => s)
  | .signOut disk => some (s.clearSession disk)
  | .retryRefresh => some s.retryRefresh
  | .accessToken c t =>
    if s.callers c = none then
      match s.liveToken with
      | some token => some (s.give (.token token))
      | none =>
        (s.joinFlight t).map fun p =>
          { p.1 with callers := Function.update p.1.callers c (some p.2) }
    else none
  | .refresh t => (s.joinFlight t).map (·.1)
  | .selectOrg t organizationId =>
    if (s.tasks t).stage = .idle then
      some { s with
        tasks := Function.update s.tasks t
          { organizationId := some organizationId, stage := .queued } }
    else none
  | .enter t cooled =>
    if s.refreshGate = none ∧ (s.tasks t).stage = .queued then some (s.enter t cooled) else none
  | .answer t answer disk =>
    match (s.tasks t).stage with
    | .sent generation refreshToken retry =>
      let (s', outcome) :=
        s.refreshLocked jwtClaims (s.tasks t).organizationId generation refreshToken answer disk
      some (s'.finish t retry outcome)
    | _ => none
  | .endFlight =>
    match s.refreshFlight.map fun t => (s.tasks t).stage with
    | some (.done _ _) => some { s with refreshFlight := none }
    | _ => none
  | .cancel t =>
    match (s.tasks t).organizationId, (s.tasks t).stage with
    | some _, .queued => some (s.setTask t .cancelled)
    | some _, .sent _ _ _ => some { s.setTask t .cancelled with refreshGate := none }
    | _, _ => none
  | .return c =>
    match s.callers c with
    | none => none
    | some t =>
      match (s.tasks t).stage with
      | .done outcome _ =>
        some { s.give (s.reply outcome) with callers := Function.update s.callers c none }
      | _ => none
  | .clock elapsed => some { s with access := s.access.map fun e => { e with elapsed } }

end AuthInner

end Zeron.Auth
