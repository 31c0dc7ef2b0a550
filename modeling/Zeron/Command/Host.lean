import Zeron.Command.Entry
import Zeron.Lib.Run
import Zeron.Lib.Slots

/-!
# The command plane of a chat host

`drain_commands`, `ingest_relayed_command` and `retry_delivery` of `doc_host.rs`, each as a task
that makes one read or write of what it shares with the others at a time.

* `Host`: the document, the snapshot a restart opens, the processed ledger, the `executing` set;
* `Pass`, `Relay`, `Retry`: where a call of the three functions stands; `Task.step`: what it does
  next, an `Effect` on the host and where it stands then;
* `World.step`: any number of tasks beside each other, imports, snapshots, and restarts.

What the code learns from outside (the clock, whether the store answers, which attachments have
arrived, how a dispatch ends) is the `Answer` a step is given.
-/

namespace Zeron.Command

/-- `ATTACHMENT_WAIT_MAX_MS`. -/
def attachmentWaitMaxMs : ℤ := 15 * 60 * 1000

/-- Which road a command was executed on. -/
inductive Road where
  | drain
  | relay
  deriving DecidableEq, Repr

/-- What happened, in order. -/
inductive Event where
  | started (id : String)
  /-- `execute` returned; `applied` if with the status `Applied`. -/
  | returned (id : String) (road : Road) (applied : Bool)
  /-- `resolve_command` wrote a status. -/
  | wrote (id : String) (status : SessionCommandStatus)
  deriving DecidableEq, Repr

/-- The command that a drain has executed with success. -/
def Event.drained : Event → Option String
  | .returned id .drain true => some id
  | _ => none

structure Host where
  deviceId : String
  doc : Doc
  /-- The document as a restart finds it. -/
  saved : Doc
  /-- The table `processed_commands`. -/
  processed : Finset String
  executing : Finset String
  /-- The command ids in use: a minted id is none of them. -/
  known : Finset String
  log : List Event
  /-- The commands that a drain executed with success, and that a restart found without the
  status `Applied`. -/
  lost : Finset String

/-- How the work of a command ends, or goes on. -/
inductive Reply where
  | failed (error : String)
  | held
  | noInput
  | noConfig
  | newTurn
  | done
  deriving DecidableEq, Repr

/-- What a step learns from outside the host. -/
structure Answer where
  /-- The store, or the document, answers. -/
  ok : Bool
  nowMs : ℤ
  /-- `missing_attachments` names one. -/
  missing : Bool
  reply : Reply
  newId : String
  deriving DecidableEq, Repr

/-- What a step does to what the tasks share. -/
inductive Effect where
  | none
  | resolve (id : String) (status : SessionCommandStatus) (resolution : Option String)
  | mark (id : String)
  | claim (id : String)
  | release (id : String)
  | land (messageId : String)
  | start (id : String)
  | returned (id : String) (road : Road) (applied : Bool)
  | queue (entry : SessionCommandEntry)
  deriving DecidableEq, Repr

namespace Host

def apply (h : Host) : Effect → Host
  | .none => h
  | .resolve id status resolution =>
    match h.doc.setCommandStatus id status resolution with
    | some doc => { h with doc, log := h.log ++ [.wrote id status] }
    | none => h
  | .mark id => { h with processed := insert id h.processed }
  | .claim id => { h with executing := insert id h.executing }
  | .release id => { h with executing := h.executing.erase id }
  | .land messageId => { h with doc := h.doc.writeUserMessage messageId }
  | .start id => { h with log := h.log ++ [.started id] }
  | .returned id road applied => { h with log := h.log ++ [.returned id road applied] }
  | .queue entry =>
    { h with doc := h.doc.queueCommand entry, known := insert entry.id h.known }

/-- `is_processed(id).unwrap_or(false)`. -/
def isProcessed (h : Host) (a : Answer) (id : String) : Bool := a.ok && decide (id ∈ h.processed)

theorem mem_of_isProcessed {h : Host} {a : Answer} {id : String} (hp : h.isProcessed a id = true) :
    id ∈ h.processed := by
  rw [isProcessed, Bool.and_eq_true, decide_eq_true_iff] at hp
  exact hp.2

end Host

/-- The evaluation of an entry against the rows and the transcript that were read. -/
def Host.disposition (h : Host) (a : Answer) (entry : SessionCommandEntry)
    (commands : List SessionCommandEntry) (messages : List String) : CommandDisposition :=
  evaluateCommand entry {
    isProcessed := h.isProcessed a
    nowMs := a.nowMs
    entries := commands
    currentTurnId := messages.getLast?
    turnIsPast := fun turnId => decide (turnId ∈ messages) }

/-! ## Executing a command -/

/-- How far `execute` has come: before the message is written, before the dispatch. -/
inductive ExecuteStage where
  | prepare
  | write
  | dispatch
  deriving DecidableEq, Repr

abbrev Outcome := Except String (SessionCommandStatus × Option String)

def Outcome.applied : Outcome → Bool
  | .ok (.applied, _) => true
  | _ => false

/-- The next of the steps of `execute`: another, or its result. -/
def execute (payload : SessionCommandPayload) (reply : Reply) : ExecuteStage → ExecuteStage ⊕ Outcome
  | .prepare =>
    match payload, reply with
    | _, .failed error => .inr (.error error)
    | .run _ _, _ => .inl .write
    | .steer _ _, .held => .inr (.ok (.applied, some "held until the turn ends"))
    | .steer _ _, _ => .inl .write
    | .interrupt, _ => .inr (.ok (.applied, none))
    | .respondInput _, .noInput => .inr (.ok (.rejected, some "no pending input request"))
    | .respondInput _, .noConfig =>
      .inr (.ok (.rejected, some "no pending input request and no prior run config"))
    | .respondInput _, .newTurn => .inr (.ok (.applied, some "answered as new turn"))
    | .respondInput _, _ => .inr (.ok (.applied, none))
  | .write => .inl .dispatch
  | .dispatch =>
    match payload, reply with
    | _, .failed error => .inr (.error error)
    | .steer _ _, .noConfig => .inr (.ok (.rejected, some "no live run and no prior run config"))
    | .steer _ _, .newTurn => .inr (.ok (.applied, some "queued as new turn"))
    | _, _ => .inr (.ok (.applied, none))

/-- What a step of `execute` writes: the canonical user message. -/
def executeEffect (payload : SessionCommandPayload) (a : Answer) : ExecuteStage → Effect
  | .write => if a.ok then payload.messageId.elim .none .land else .none
  | _ => .none

/-- The status and resolution the drain writes for a result. -/
def Outcome.written : Outcome → SessionCommandStatus × Option String
  | .ok out => out
  | .error error => (.rejected, some error)

/-! ## `drain_commands` -/

inductive PassPoint where
  /-- The head of the loop: the rows are read next. -/
  | read
  /-- The dead-command sweep: the rows it has not come to. -/
  | sweep (rest : List SessionCommandEntry)
  /-- `c` is in the ledger; the `executing` set is read next. -/
  | sweepClaims (c : SessionCommandEntry) (rest : List SessionCommandEntry)
  | sweepReject (c : SessionCommandEntry) (rest : List SessionCommandEntry)
  | find (rest : List SessionCommandEntry)
  | messages (c : SessionCommandEntry)
  | evaluate (c : SessionCommandEntry) (messages : List String)
  | gate (c : SessionCommandEntry)
  /-- The attachments never arrived: `c` is marked next, then rejected. -/
  | giveUp (c : SessionCommandEntry)
  | giveUpReject (c : SessionCommandEntry)
  | claim (c : SessionCommandEntry) (disposition : CommandDisposition)
  | mark (c : SessionCommandEntry) (disposition : CommandDisposition)
  /-- The ledger write failed: the claim is dropped and the pass halts. -/
  | halt (c : SessionCommandEntry)
  | marked (c : SessionCommandEntry) (disposition : CommandDisposition)
  | execute (c : SessionCommandEntry) (stage : ExecuteStage)
  | resolve (c : SessionCommandEntry) (status : SessionCommandStatus) (resolution : Option String)
  | release (c : SessionCommandEntry)
  deriving DecidableEq, Repr

/-- A call of `drain_commands`. -/
structure Pass where
  skipped : List String
  commands : List SessionCommandEntry
  point : PassPoint
  deriving DecidableEq, Repr

namespace Pass

def start : Pass := { skipped := [], commands := [], point := .read }

def goto (p : Pass) (point : PassPoint) : Option Pass := some { p with point }

def skip (p : Pass) (id : String) (point : PassPoint) : Option Pass :=
  some { p with skipped := id :: p.skipped, point }

/-- The next step of a pass; no pass is left where `drain_commands` returns. -/
def step (h : Host) (p : Pass) (a : Answer) : Effect × Option Pass :=
  match p.point with
  | .read =>
    if a.ok then
      (.none, some { p with commands := h.doc.commands, point := .sweep h.doc.commands })
    else (.none, none)
  | .sweep [] => (.none, p.goto (.find p.commands))
  | .sweep (c :: rest) =>
    if c.status = .pending ∧ c.id ∉ p.skipped ∧ h.isProcessed a c.id = true then
      (.none, p.goto (.sweepClaims c rest))
    else (.none, p.goto (.sweep rest))
  | .sweepClaims c rest =>
    if c.id ∈ h.executing then (.none, p.goto (.sweep rest))
    else (.none, p.goto (.sweepReject c rest))
  | .sweepReject c rest =>
    (.resolve c.id .rejected (some "interrupted before completion — retry to send again"),
      p.skip c.id (.sweep rest))
  | .find [] => (.none, none)
  | .find (c :: rest) =>
    if c.status = .pending ∧ c.id ∉ p.skipped ∧ h.isProcessed a c.id = false then
      (.none, p.goto (.messages c))
    else (.none, p.goto (.find rest))
  | .messages c => (.none, p.goto (.evaluate c (if a.ok then h.doc.messages else [])))
  | .evaluate c messages =>
    match h.disposition a c p.commands messages with
    | .execute => (.none, p.goto (.gate c))
    | disposition => (.none, p.goto (.claim c disposition))
  | .gate c =>
    if a.missing then
      if a.nowMs - c.issuedAt < attachmentWaitMaxMs then (.none, none)
      else (.none, p.goto (.giveUp c))
    else (.none, p.goto (.claim c .execute))
  | .giveUp c => if a.ok then (.mark c.id, p.goto (.giveUpReject c)) else (.none, none)
  | .giveUpReject c =>
    (.resolve c.id .rejected (some "attachments never arrived"), p.goto .read)
  | .claim c disposition =>
    if c.id ∈ h.executing then (.none, p.skip c.id .read)
    else (.claim c.id, p.goto (.mark c disposition))
  | .mark c disposition =>
    -- whether the id was there before is not asked
    if a.ok then (.mark c.id, p.goto (.marked c disposition)) else (.none, p.goto (.halt c))
  | .halt c => (.release c.id, none)
  | .marked c .skip => (.none, p.skip c.id (.release c))
  | .marked c .expired => (.none, p.goto (.resolve c .expired none))
  | .marked c .superseded => (.none, p.goto (.resolve c .superseded none))
  | .marked c .execute => (.start c.id, p.goto (.execute c .prepare))
  | .execute c stage =>
    match Command.execute c.payload a.reply stage with
    | .inl stage' => (executeEffect c.payload a stage, p.goto (.execute c stage'))
    | .inr out => (.returned c.id .drain out.applied, p.goto (.resolve c out.written.1 out.written.2))
  | .resolve c status resolution => (.resolve c.id status resolution, p.goto (.release c))
  | .release c => (.release c.id, p.goto .read)

end Pass

/-! ## `ingest_relayed_command` -/

inductive RelayPoint where
  | attachments
  | commands
  | messages (commands : List SessionCommandEntry)
  | evaluate (commands : List SessionCommandEntry) (messages : List String)
  | claim (disposition : CommandDisposition)
  | mark (disposition : CommandDisposition)
  | marked (disposition : CommandDisposition)
  | execute (stage : ExecuteStage)
  | release
  deriving DecidableEq, Repr

/-- A call of `ingest_relayed_command`. -/
structure Relay where
  entry : SessionCommandEntry
  point : RelayPoint
  deriving DecidableEq, Repr

namespace Relay

def goto (r : Relay) (point : RelayPoint) : Option Relay := some { r with point }

def step (h : Host) (r : Relay) (a : Answer) : Effect × Option Relay :=
  match r.point with
  | .attachments => if a.missing then (.none, none) else (.none, r.goto .commands)
  | .commands => if a.ok then (.none, r.goto (.messages h.doc.commands)) else (.none, none)
  | .messages commands =>
    (.none, r.goto (.evaluate commands (if a.ok then h.doc.messages else [])))
  | .evaluate commands messages =>
    match h.disposition a r.entry commands messages with
    | .skip => (.none, none)
    | disposition => (.none, r.goto (.claim disposition))
  | .claim disposition =>
    if r.entry.id ∈ h.executing then (.none, none)
    else (.claim r.entry.id, r.goto (.mark disposition))
  | .mark disposition =>
    -- an id that was there before is a duplicate
    if a.ok ∧ r.entry.id ∉ h.processed then (.mark r.entry.id, r.goto (.marked disposition))
    else (.none, r.goto .release)
  | .marked .execute => (.start r.entry.id, r.goto (.execute .prepare))
  | .marked _ => (.none, r.goto .release)
  | .execute stage =>
    match Command.execute r.entry.payload a.reply stage with
    | .inl stage' => (executeEffect r.entry.payload a stage, r.goto (.execute stage'))
    | .inr out => (.returned r.entry.id .relay out.applied, r.goto .release)
  | .release => (.release r.entry.id, none)

end Relay

/-! ## `retry_delivery` -/

/-- Two attempts to send one message. -/
def sameMessage : SessionCommandPayload → SessionCommandPayload → Bool
  | .run _ a, .run _ b => a == b
  | .steer _ a, .steer _ b => a == b
  | _, _ => false

/-- An attempt that can never execute again. -/
def Host.dead (h : Host) (a : Answer) (c : SessionCommandEntry) : Bool :=
  match c.status with
  | .rejected | .expired => true
  | .pending => h.isProcessed a c.id && decide (c.id ∉ h.executing)
  | _ => false

/-- A pending attempt beside `c` that no one has consumed. -/
def Host.liveAttempt (h : Host) (a : Answer) (commands : List SessionCommandEntry)
    (c : SessionCommandEntry) : Bool :=
  commands.any fun o => o.id ≠ c.id && decide (o.status = .pending) && !h.isProcessed a o.id &&
    sameMessage o.payload c.payload

/-- `latest_dead`: an attempt takes the slot of its message from an older one. -/
def latestDead (c : SessionCommandEntry) : List SessionCommandEntry → List SessionCommandEntry
  | [] => [c]
  | old :: rest =>
    if old.messageId = c.messageId then (if c.issuedAt > old.issuedAt then c else old) :: rest
    else old :: latestDead c rest

inductive RetryPoint where
  | read
  | messages (commands : List SessionCommandEntry)
  /-- The rows that have not been judged, and the dead attempts found. -/
  | check (commands : List SessionCommandEntry) (messages : List String)
      (rest dead : List SessionCommandEntry)
  | settle (messages : List String) (dead : List SessionCommandEntry)
  | mint (messages : List String) (old : SessionCommandEntry) (dead : List SessionCommandEntry)
  deriving DecidableEq, Repr

/-- The fresh attempt. -/
def reissue (h : Host) (a : Answer) (messages : List String) (old : SessionCommandEntry) :
    SessionCommandEntry where
  id := a.newId
  payload := old.payload
  issuedBy := h.deviceId
  issuedAt := a.nowMs
  basedOn := messages.getLast?.map fun turnId => ⟨some turnId⟩
  expiresAt := some (a.nowMs + commandDefaultTtlMs)
  status := .pending
  resolution := none

/-- Whether the retry takes `c` for the message it sends: it has not landed, `c` is dead, and no
other attempt is live. -/
def Host.reissues (h : Host) (a : Answer) (commands : List SessionCommandEntry)
    (messages : List String) (c : SessionCommandEntry) : Bool :=
  match c.messageId with
  | some messageId => decide (messageId ∉ messages) && h.dead a c && !h.liveAttempt a commands c
  | none => false

/-- The next step of a call of `retry_delivery`. -/
def RetryPoint.step (h : Host) (a : Answer) : RetryPoint → Effect × Option RetryPoint
  | .read => if a.ok then (.none, some (.messages h.doc.commands)) else (.none, none)
  | .messages commands =>
    (.none, some (.check commands (if a.ok then h.doc.messages else []) commands []))
  | .check _ landed [] dead => (.none, some (.settle landed dead))
  | .check commands landed (c :: rest) dead =>
    (.none, some (.check commands landed rest
      (if h.reissues a commands landed c then latestDead c dead else dead)))
  | .settle _ [] => (.none, none)
  | .settle landed (old :: dead) =>
    (if old.status = .pending then
      .resolve old.id .rejected (some "interrupted before completion — superseded by retry")
    else .none, some (.mint landed old dead))
  | .mint landed old dead =>
    if a.ok then (.queue (reissue h a landed old), some (.settle landed dead))
    else (.none, none)

/-! ## The host and its tasks -/

inductive Task where
  | idle
  | drain (p : Pass)
  | relay (r : Relay)
  | retry (p : RetryPoint)
  deriving DecidableEq, Repr

def Task.step (h : Host) (a : Answer) : Task → Effect × Task
  | .idle => (.none, .idle)
  | .drain p => (p.step h a).map id (·.elim .idle .drain)
  | .relay r => (r.step h a).map id (·.elim .idle .relay)
  | .retry p => (p.step h a).map id (·.elim .idle .retry)

structure World where
  host : Host
  tasks : ℕ → Task
  /-- The slots below are in use, or have been. -/
  slots : ℕ

inductive Act where
  | drain (i : ℕ)
  | relay (i : ℕ) (entry : SessionCommandEntry)
  | retry (i : ℕ)
  /-- Task `i` goes on. -/
  | turn (i : ℕ) (a : Answer)
  /-- A row that an import brings, or this device's composer appends. -/
  | deliver (row : SessionCommandEntry)
  /-- A transcript entry that an import brings. -/
  | arrive (messageId : String)
  | save
  | restart
  deriving DecidableEq, Repr

/-- What a process that starts again finds. -/
def Host.restart (h : Host) : Host :=
  { h with
    doc := h.saved
    executing := ∅
    lost := h.lost ∪ (h.log.filterMap Event.drained).toFinset.filter (¬ h.saved.Shows · .applied) }

/-- A minted id is fresh. -/
def Effect.Fresh (h : Host) : Effect → Prop
  | .queue entry => entry.id ∉ h.known ∧ entry.id ∉ h.processed
  | _ => True

instance (h : Host) (e : Effect) : Decidable (e.Fresh h) := by
  cases e <;> unfold Effect.Fresh <;> infer_instance

namespace World

/-- The host opens over what is durable. -/
def boot (deviceId : String) (doc : Doc) (processed : Finset String) : World where
  host := {
    deviceId, doc, processed
    saved := doc
    executing := ∅
    known := (doc.commands.map (·.id)).toFinset
    log := []
    lost := ∅ }
  tasks _ := .idle
  slots := 0

def spawn (w : World) (i : ℕ) (t : Task) : Option World :=
  if w.tasks i = .idle then
    some { w with tasks := Function.update w.tasks i t, slots := max w.slots (i + 1) }
  else none

/-- The world after task `i` has gone on. -/
def turned (w : World) (i : ℕ) (a : Answer) : World :=
  { w with
    host := w.host.apply ((w.tasks i).step w.host a).1
    tasks := Function.update w.tasks i ((w.tasks i).step w.host a).2 }

def step (w : World) : Act → Option World
  | .drain i => w.spawn i (.drain .start)
  | .relay i entry =>
    { w with host.known := insert entry.id w.host.known }.spawn i
      (.relay { entry, point := .attachments })
  | .retry i => w.spawn i (.retry .read)
  | .turn i a => if ((w.tasks i).step w.host a).1.Fresh w.host then some (w.turned i a) else none
  | .deliver row =>
    some { w with
      host.doc := w.host.doc.deliver row
      host.known := insert row.id w.host.known }
  | .arrive messageId => some { w with host.doc := w.host.doc.writeUserMessage messageId }
  | .save => some { w with host.saved := w.host.doc }
  | .restart => some { host := w.host.restart, tasks := fun _ => .idle, slots := 0 }

end World

end Zeron.Command
