import Zeron.Lib.Run

/-!
# The push queue of a chat

`ChatRoomClient` keeps local updates in `pending` until the room has answered them, and any other
call may run at an `await` (`Zeron/Sync/ChatRoomClient.swift`).

* `Queue`, `pushFrom`: the queue and the loop of `pushPending`, which reads its indices once;
* `Client`: the socket's life around it, and the calls that stand at an `await`;
* `Act`, `step`, `Sound`: what may happen, and what must not;
* **`queue_survives`**: what every run of sound steps keeps; `queue_fails`: four runs that are not.
-/

namespace Zeron.Phone.ChatRoom

open Run

/-! ## The queue -/

structure Batch where
  batchId : String
  bytes : List UInt8
  deriving DecidableEq

/-- Not of the code: `sentOn`, the socket there was when the batch was last marked. -/
structure PendingPush extends Batch where
  inFlight : Bool
  sentOn : Option ℕ
  deriving DecidableEq

/-- A loop of `pushPending` at its `await`: the batches at its indices when it read them, and how
many indices are left. -/
structure PushLoop where
  meant : List Batch
  left : ℕ
  deriving DecidableEq

/-- What marking a batch did: the batch that was meant, the one marked, and what went out on which
socket. -/
structure Mark where
  meant : Option Batch
  marked : Batch
  sent : Option (ℕ × Batch)
  deriving DecidableEq

/-- `trapped`: an index was out of range. -/
structure Queue where
  pending : List PendingPush
  loops : List PushLoop
  marks : List Mark
  trapped : Bool

namespace Queue

variable (q : Queue) (socket : Option ℕ)

def batches : List Batch := q.pending.map (·.toBatch)

def append (batch : Batch) : Queue :=
  { q with pending := q.pending ++ [⟨batch, false, none⟩] }

def removeAll (batchId : String) : Queue :=
  { q with pending := q.pending.filter (·.batchId ≠ batchId) }

/-- No batch is in flight. -/
def clearFlags : Queue :=
  { q with pending := q.pending.map fun push => { push with inFlight := false } }

/-- `pending[ix]`, which is `push`, is marked and sent. -/
def mark (ix : ℕ) (meant : Option Batch) (push : PendingPush) : Queue :=
  { q with
    pending := q.pending.set ix { push with inFlight := true, sentOn := socket }
    marks := q.marks ++ [⟨meant, push.toBatch, socket.map fun k => (k, push.toBatch)⟩] }

/-- The loop of `pushPending` with `left` indices to go, up to its next `await`. -/
def pushFrom (meant : List Batch) : ℕ → Queue → Queue
  | 0, q => q
  | left + 1, q =>
    let ix := meant.length - (left + 1)
    match q.pending[ix]? with
    | none => { q with trapped := true }
    | some push =>
      if push.inFlight then pushFrom meant left q
      else
        let q := q.mark socket ix meant[ix]? push
        if socket.isSome then { q with loops := q.loops ++ [⟨meant, left⟩] }
        else pushFrom meant left q

end Queue

/-! ## The client -/

/-- `quotaTask` has the generation of a quota retry that sleeps, `heads` those of the `pushHead`
calls to come. Also to come: `due` calls of `pushPending`, `planning` of `handleState` that stand at
an `await`, `pulls` of `pullSync` with the batches they have left, `redials` of `connect`. `dialing`
holds from `connect` until the socket of its generation is there, `opened` from then on. Not of the
code: `sockets` counts the sockets, `probe` is the batch of a quota retry that has no answer. -/
structure Client where
  queue : Queue
  socket : Option ℕ
  generation : ℕ
  closed : Bool
  joined : Bool
  stateReceived : Bool
  helloSent : Bool
  backfillStarted : Bool
  quotaTask : Option ℕ
  heads : List ℕ
  due : ℕ
  planning : ℕ
  pulls : List (List Batch)
  redials : ℕ
  dialing : Bool
  opened : Bool
  sockets : ℕ
  probe : Option String

inductive ErrorCode where
  | tooLarge
  | empty
  | badPush
  | quota
  | helloFirst
  | other
  deriving DecidableEq

/-- The verdict is on the batch, and final. -/
def ErrorCode.permanent : ErrorCode → Bool
  | .tooLarge | .empty | .badPush => true
  | _ => false

/-- How a push over HTTPS ends. -/
inductive PullAnswer where
  | acked
  | refused
  | retry
  deriving DecidableEq

def maxPushBytes : ℕ := 1024 * 1024 - 4096

namespace Client

def new : Client where
  queue := ⟨[], [], [], false⟩
  socket := none
  generation := 0
  closed := false
  joined := false
  stateReceived := false
  helloSent := false
  backfillStarted := false
  quotaTask := none
  heads := []
  due := 0
  planning := 0
  pulls := []
  redials := 0
  dialing := false
  opened := false
  sockets := 0
  probe := none

variable (c : Client)

def connect : Client :=
  if c.closed then c
  else
    { c with
      generation := c.generation + 1
      joined := false
      stateReceived := false
      helloSent := false
      backfillStarted := false
      queue := c.queue.clearFlags
      dialing := true
      opened := false
      probe := none }

def start : Client := { c with closed := false }.connect

def stop : Client :=
  { c with
    closed := true
    generation := c.generation + 1
    quotaTask := none
    socket := none
    joined := false
    dialing := false
    opened := false }

def scheduleReconnect : Client :=
  if c.closed then c
  else { c with socket := none, quotaTask := none, redials := c.redials + 1 }

/-- `onSocketError` of the current generation. -/
def onSocketError : Client :=
  if c.closed then c else { c with joined := false }.scheduleReconnect

/-- `openSocket` of the current generation. -/
def openSocket : Client :=
  { c with
    socket := some (c.sockets + 1)
    sockets := c.sockets + 1
    helloSent := true
    dialing := false
    opened := true }

def kick : Client :=
  if c.closed then c
  else if c.socket = none then c.connect
  else if c.joined = false ∧ c.helloSent = false ∧ c.backfillStarted = false then c.connect
  else c

def enqueue (batch : Batch) : Client :=
  if batch.bytes.length ≤ maxPushBytes then
    { c with
      queue := c.queue.append batch
      due := if c.stateReceived then c.due + 1 else c.due }
  else c

def pushPending : Client :=
  if c.stateReceived then
    { c with
      queue := c.queue.pushFrom c.socket c.queue.batches c.queue.pending.length }
  else c

/-- The loop `loop`, the `i`-th, goes on. -/
def resume (i : ℕ) (loop : PushLoop) : Client :=
  { c with
    queue := { c.queue with loops := c.queue.loops.eraseIdx i }.pushFrom c.socket loop.meant
      loop.left }

def pushHead (gen : ℕ) : Client :=
  if gen = c.generation ∧ c.joined then
    match c.queue.pending[0]? with
    | none => c
    | some head =>
      { c with
        queue := c.queue.mark c.socket 0 (some head.toBatch) head
        probe := if c.socket.isSome then some head.batchId else c.probe }
  else c

def handleState : Client :=
  if c.helloSent then
    { c with helloSent := false, backfillStarted := true, planning := c.planning + 1 }
  else c

/-- `handleState` behind its plan, up to `pushPending`. -/
def planned : Client :=
  { c with stateReceived := true, planning := c.planning - 1, due := c.due + 1 }

def rowsDone : Client :=
  if c.backfillStarted then
    { c with backfillStarted := false, joined := true, due := c.due + 1 }
  else c

def ack (batchId : String) : Client :=
  { c with queue := c.queue.removeAll batchId, probe := none, due := c.due + 1 }

def handleErrorFrame (code : ErrorCode) (batchId : String) : Client :=
  if code.permanent then
    if batchId = "" then c
    else
      { c with
        queue := c.queue.removeAll batchId
        probe := if c.probe = some batchId then none else c.probe }
  else
    match code with
    | .quota =>
      { c with queue := c.queue.clearFlags, quotaTask := some c.generation, probe := none }
    | .helloFirst => c.onSocketError
    | _ => c

/-- The answer of `pullSync`'s push of `push`, which has `rest` left, is there. -/
def pulled (i : ℕ) (push : Batch) (rest : List Batch) : PullAnswer → Client
  | .retry => { c with pulls := c.pulls.eraseIdx i }
  | _ => { c with queue := c.queue.removeAll push.batchId, pulls := c.pulls.set i rest }

end Client

/-! ## Steps -/

/-- `start`, `stop`, `kick`, `enqueue` and `pullSync` are called from outside. A call that stands at
an `await` goes on: `pushPending` to `noUrl`. A frame of the current socket is handled: `state`,
`rowsDone` (also of a pull, or kept back during a download), `ack`, `error`; or it fails. -/
inductive Act where
  | start
  | stop
  | kick
  | enqueue (batch : Batch)
  | pullSync
  | pushPending
  | resume (i : ℕ)
  | quotaFires
  | pushHead (i : ℕ)
  | planned
  | pulled (i : ℕ) (answer : PullAnswer)
  | redial
  | openSocket
  | noUrl
  | state
  | rowsDone
  | ack (batchId : String)
  | error (code : ErrorCode) (batchId : String)
  | socketError

namespace Client

variable (c : Client)

/-- One step. After a trap there is none. -/
def act : Act → Option Client
  | .start => some c.start
  | .stop => some c.stop
  | .kick => some c.kick
  | .enqueue batch => some (c.enqueue batch)
  | .pullSync =>
    some (if c.closed then c else { c with pulls := c.pulls ++ [c.queue.batches] })
  | .pushPending => if 0 < c.due then some { c with due := c.due - 1 }.pushPending else none
  | .resume i => (c.queue.loops[i]?).map (c.resume i)
  | .quotaFires =>
    (c.quotaTask).map fun gen => { c with quotaTask := none, heads := c.heads ++ [gen] }
  | .pushHead i => (c.heads[i]?).map { c with heads := c.heads.eraseIdx i }.pushHead
  | .planned => if 0 < c.planning then some c.planned else none
  | .pulled i answer => (c.pulls[i]?).bind fun
    | [] => none
    | push :: rest => some (c.pulled i push rest answer)
  | .redial => if 0 < c.redials then some { c with redials := c.redials - 1 }.connect else none
  | .openSocket => if c.dialing then some c.openSocket else none
  | .noUrl => if c.dialing then some { c with dialing := false }.scheduleReconnect else none
  | .state => if c.opened then some c.handleState else none
  | .rowsDone => some c.rowsDone
  | .ack batchId => if c.opened then some (c.ack batchId) else none
  | .error code batchId => if c.opened then some (c.handleErrorFrame code batchId) else none
  | .socketError => some c.onSocketError

def step (a : Act) : Option Client := if c.queue.trapped then none else c.act a

/-- The batch that an answer names for good. -/
def names : Act → Option String
  | .ack batchId => some batchId
  | .error code batchId => if code.permanent ∧ batchId ≠ "" then some batchId else none
  | .pulled i answer =>
    if answer = .retry then none else ((c.pulls[i]?).bind (·.head?)).map (·.batchId)
  | _ => none

end Client

/-! ## What is kept -/

/-- The batch that was meant is the one that was marked, and what was sent. -/
def Mark.Right (m : Mark) : Prop := m.meant = some m.marked ∧ ∀ sent ∈ m.sent, sent.2 = m.marked

instance (m : Mark) : Decidable m.Right := by unfold Mark.Right; infer_instance

namespace Client

variable (c : Client)

/-- A quota retry sleeps, or its `pushHead` is to come. -/
def Armed : Prop := c.quotaTask = some c.generation ∨ c.generation ∈ c.heads

/-- The batch is in flight on the current socket. -/
def InFlight (push : PendingPush) : Prop :=
  push.inFlight = true ∧ c.socket.isSome = true ∧ push.sentOn = c.socket

/-- A call that pushes the `k`-th batch is to come: `pushPending`, the end of `handleState`, a new
connection, or the rest of a loop. -/
def Pushes (k : ℕ) : Prop :=
  (0 < c.due ∧ c.stateReceived = true) ∨ 0 < c.planning ∨ (c.socket = none ∧ 0 < c.redials) ∨
    ∃ loop ∈ c.queue.loops, loop.meant.length - loop.left ≤ k ∧ k < loop.meant.length

instance (k : ℕ) : Decidable (c.Pushes k) := inferInstanceAs (Decidable (_ ∨ _))

/-- A push is scheduled, be it behind the answer to a quota retry. -/
def Scheduled (k : ℕ) : Prop := c.Pushes k ∨ c.probe.isSome = true

/-- Every queued batch of a joined client is in flight, or its push is scheduled. -/
def Held : Prop :=
  c.joined = true → ¬ c.Armed → ∀ x ∈ c.queue.pending.zipIdx, c.InFlight x.1 ∨ c.Scheduled x.2

instance : Decidable c.Armed := inferInstanceAs (Decidable (_ ∨ _))

instance (push : PendingPush) : Decidable (c.InFlight push) := inferInstanceAs (Decidable (_ ∧ _))

instance (k : ℕ) : Decidable (c.Scheduled k) := inferInstanceAs (Decidable (_ ∨ _))

instance : Decidable c.Held := by unfold Held; infer_instance

/-- No batch goes that a loop still counts. -/
def Undisturbed (a : Act) : Prop :=
  ∀ batchId ∈ c.names a, ∀ loop ∈ c.queue.loops, 0 < loop.left →
    ∀ batch ∈ loop.meant, batch.batchId ≠ batchId

/-- No batch is marked between `connect` and the opening of its socket; the batch of a quota retry
is not refused while others wait for its answer; and no catch-up ends after `stop`. -/
def Timely : Act → Prop
  | .pushPending => c.dialing = true → c.stateReceived = true → c.queue.pending = []
  | .resume i => c.dialing = true → ∀ loop ∈ c.queue.loops[i]?, loop.left = 0
  | .rowsDone => c.closed = true → c.backfillStarted = false
  | .error code batchId => c.joined = true → code.permanent = true → c.probe = some batchId →
    ∀ x ∈ c.queue.pending.zipIdx, x.1.batchId = batchId ∨ x.1.inFlight = true ∨ c.Pushes x.2
  | _ => True

instance (a : Act) : Decidable (c.Timely a) := by
  cases a <;> unfold Timely <;> infer_instance

def Sound (a : Act) : Prop := c.Undisturbed a ∧ c.Timely a

instance (a : Act) : Decidable (c.Undisturbed a) := by unfold Undisturbed; infer_instance

instance (a : Act) : Decidable (c.Sound a) := inferInstanceAs (Decidable (_ ∧ _))

end Client

/-- Every loop counts batches that are still at their indices. -/
structure Queue.Fits (q : Queue) : Prop where
  trapped : q.trapped = false
  left : ∀ loop ∈ q.loops, loop.left ≤ loop.meant.length
  meant : ∀ loop ∈ q.loops, 0 < loop.left → loop.meant <+: q.batches
  marks : ∀ m ∈ q.marks, m.Right

namespace Client

variable (c : Client)

/-- `start` was not called. -/
def Fresh : Prop :=
  c.stateReceived = false ∧ c.backfillStarted = false ∧ c.opened = false ∧ c.planning = 0 ∧
    c.queue.loops = []

/-- There is a socket, or one will come. -/
def Linked : Prop := c.dialing = true ∨ c.closed = true ∨ c.socket.isSome = true ∨ 0 < c.redials

structure Inv : Prop where
  fits : c.queue.Fits
  linked : c.Fresh ∨ c.Linked
  idle : c.dialing = true → ∀ push ∈ c.queue.pending, push.inFlight = false
  sent : c.dialing = false → c.closed = false → ∀ push ∈ c.queue.pending, push.inFlight = true →
    c.InFlight push ∨ c.socket = none ∧ 0 < c.redials
  dialing : c.dialing = true → c.joined = false ∧ c.backfillStarted = false ∧ c.opened = false
  closed : c.joined = true → c.closed = false
  state : c.joined = true ∨ c.backfillStarted = true → c.stateReceived = true ∨ 0 < c.planning
  covered : c.joined = true → ¬ c.Armed → ∀ k push, c.queue.pending[k]? = some push →
    push.inFlight = true ∨ c.Scheduled k

end Client

/-! ## The loop -/

namespace Queue

variable {q : Queue} {socket : Option ℕ} {meant : List Batch}

theorem batches_getElem? (q : Queue) (k : ℕ) :
    q.batches[k]? = (q.pending[k]?).map (·.toBatch) := List.getElem?_map

theorem mark_batches {ix : ℕ} {b : Option Batch} {push : PendingPush}
    (h : q.pending[ix]? = some push) : (q.mark socket ix b push).batches = q.batches := by
  apply List.ext_getElem?
  intro k
  rw [batches_getElem?, batches_getElem?]
  by_cases hk : ix = k
  · subst hk
    rw [mark, List.getElem?_set_self', h]
    rfl
  · simp [mark, List.getElem?_set_ne hk]

theorem mark_getElem? {ix k : ℕ} {b : Option Batch} {push p : PendingPush}
    (hp : (q.mark socket ix b push).pending[k]? = some p) :
    (k ≠ ix ∧ q.pending[k]? = some p) ∨ k = ix ∧ p.inFlight = true ∧ p.sentOn = socket := by
  by_cases hk : ix = k
  · subst hk
    rw [mark, List.getElem?_set_self'] at hp
    obtain ⟨-, -, rfl⟩ := Option.map_eq_some_iff.mp hp
    exact Or.inr ⟨rfl, rfl, rfl⟩
  · rw [mark, List.getElem?_set_ne hk] at hp
    exact Or.inl ⟨Ne.symm hk, hp⟩

/-- What a loop with `left` indices to go did. -/
structure Pushed (socket : Option ℕ) (meant : List Batch) (left : ℕ) (q q' : Queue) : Prop where
  trapped : q'.trapped = q.trapped
  batches : q'.batches = q.batches
  flags : ∀ (k : ℕ) (push : PendingPush), q'.pending[k]? = some push →
    q.pending[k]? = some push ∨ push.inFlight = true ∧ push.sentOn = socket
  visited : ∀ (k : ℕ) (push : PendingPush), q'.pending[k]? = some push →
    meant.length - left ≤ k → k < meant.length → push.inFlight = true ∨
      ∃ loop ∈ q'.loops, loop.meant = meant ∧ loop.meant.length - loop.left ≤ k
  loops : ∀ loop ∈ q'.loops, loop ∈ q.loops ∨ loop.meant = meant ∧ loop.left ≤ left
  kept : ∀ loop ∈ q.loops, loop ∈ q'.loops
  marks : ∀ m ∈ q'.marks, m ∈ q.marks ∨ m.Right
  still : left = 0 → q' = q

theorem pushed_zero (socket : Option ℕ) (meant : List Batch) (q : Queue) :
    Pushed socket meant 0 q q where
  trapped := rfl
  batches := rfl
  flags _ _ hp := Or.inl hp
  visited k _ _ hle hlt := by omega
  loops _ hl := Or.inl hl
  kept _ hl := hl
  marks _ hm := Or.inl hm
  still _ := rfl

theorem mark_right {ix : ℕ} {push : PendingPush} (hm : meant[ix]? = some push.toBatch) :
    ∀ m ∈ (q.mark socket ix meant[ix]? push).marks, m ∈ q.marks ∨ m.Right := by
  intro m hmem
  rcases List.mem_append.mp hmem with hold | hnew
  · exact Or.inl hold
  · rw [List.mem_singleton.mp hnew]
    refine Or.inr ⟨hm, fun sent hsent => ?_⟩
    obtain ⟨k, -, rfl⟩ := Option.map_eq_some_iff.mp hsent
    rfl

/-- **One run of the loop**, up to its next `await`. -/
theorem pushFrom_spec {left : ℕ} (hm : meant <+: q.batches) (hl : left ≤ meant.length) :
    Pushed socket meant left q (q.pushFrom socket meant left) := by
  induction left generalizing q with
  | zero => exact pushed_zero socket meant q
  | succ left ih =>
    have hix : meant.length - (left + 1) < meant.length := by omega
    have hmeant := List.prefix_iff_getElem?.mp hm _ hix
    obtain ⟨push, hpush, hbatch⟩ : ∃ push, q.pending[meant.length - (left + 1)]? = some push ∧
        push.toBatch = meant[meant.length - (left + 1)] := by
      rw [batches_getElem?, Option.map_eq_some_iff] at hmeant
      exact hmeant
    simp only [pushFrom, hpush]
    generalize hixd : meant.length - (left + 1) = ix at *
    have hget : meant[ix]? = some push.toBatch := by rw [hbatch]; exact List.getElem?_eq_getElem hix
    by_cases hf : push.inFlight = true
    · rw [if_pos hf]
      have h := ih hm (by omega)
      refine { h with
        visited := fun k p hp hle hlt => ?_
        loops := fun loop hloop => ?_
        still := fun h0 => by omega }
      · by_cases hk : k = ix
        · subst hk
          rcases h.flags k p hp with hold | hnew
          · rw [hpush, Option.some_inj] at hold
            exact Or.inl (hold ▸ hf)
          · exact Or.inl hnew.1
        · exact h.visited k p hp (by omega) hlt
      · exact (h.loops loop hloop).imp id fun hn => ⟨hn.1, by omega⟩
    · rw [if_neg hf]
      have hmb := @mark_batches _ socket _ meant[ix]? _ hpush
      by_cases hs : socket.isSome = true
      · rw [if_pos hs]
        have hflag : ∀ k p, (q.mark socket ix meant[ix]? push).pending[k]? = some p → _ :=
          fun k p => mark_getElem?
        refine ⟨rfl, hmb, fun k p hp => ?_, fun k p hp hle hlt => ?_, fun loop hloop => ?_,
          fun loop hloop => List.mem_append_left _ hloop, mark_right hget, fun h0 => by omega⟩
        · exact (hflag k p hp).imp And.right And.right
        · rcases hflag k p hp with hold | hnew
          · refine Or.inr ⟨⟨meant, left⟩, List.mem_append_right _ (List.mem_singleton.mpr rfl), rfl,
              ?_⟩
            show meant.length - left ≤ k
            omega
          · exact Or.inl hnew.2.1
        · rcases List.mem_append.mp hloop with hold | hnew
          · exact Or.inl hold
          · rw [List.mem_singleton.mp hnew]
            exact Or.inr ⟨rfl, Nat.le_succ left⟩
      · rw [if_neg hs]
        have h := ih (q := q.mark socket ix meant[ix]? push) (by rw [hmb]; exact hm) (by omega)
        refine ⟨h.trapped, h.batches.trans hmb, fun k p hp => ?_, fun k p hp hle hlt => ?_,
          fun loop hloop => ?_, h.kept, fun m hm' => ?_, fun h0 => by omega⟩
        · rcases h.flags k p hp with hold | hnew
          · exact (mark_getElem? hold).imp And.right And.right
          · exact Or.inr hnew
        · by_cases hk : k = ix
          · rcases h.flags k p hp with hold | hnew
            · rcases mark_getElem? hold with hold | hnew
              · exact absurd hk hold.1
              · exact Or.inl hnew.2.1
            · exact Or.inl hnew.1
          · exact h.visited k p hp (by omega) hlt
        · exact (h.loops loop hloop).imp id fun hn => ⟨hn.1, by omega⟩
        · rcases h.marks m hm' with hold | hright
          · exact mark_right hget m hold
          · exact Or.inr hright

theorem batches_eq_nil : q.batches = [] ↔ q.pending = [] := List.map_eq_nil_iff

theorem batches_append (q : Queue) (batch : Batch) :
    (q.append batch).batches = q.batches ++ [batch] := List.map_append

theorem batches_clearFlags (q : Queue) : q.clearFlags.batches = q.batches := by
  simp [batches, clearFlags, Function.comp_def]

theorem clearFlags_inFlight (q : Queue) : ∀ push ∈ q.clearFlags.pending, push.inFlight = false := by
  intro push hpush
  obtain ⟨p, -, rfl⟩ := List.mem_map.mp hpush
  rfl

theorem batches_removeAll (q : Queue) (batchId : String) :
    (q.removeAll batchId).batches = q.batches.filter (·.batchId ≠ batchId) := by
  rw [batches, batches, List.filter_map]
  rfl

theorem prefix_filter {batchId : String} (hm : meant <+: q.batches)
    (hne : ∀ batch ∈ meant, batch.batchId ≠ batchId) :
    meant <+: (q.removeAll batchId).batches := by
  obtain ⟨rest, hrest⟩ := hm
  rw [batches_removeAll, ← hrest, List.filter_append,
    List.filter_eq_self.mpr fun batch hb => decide_eq_true (hne batch hb)]
  exact List.prefix_append _ _

theorem removeAll_ge {batchId : String} {k : ℕ} {push : PendingPush}
    (hp : (q.removeAll batchId).pending[k]? = some push) :
    push.batchId ≠ batchId ∧ ∃ j, k ≤ j ∧ q.pending[j]? = some push := by
  refine ⟨of_decide_eq_true (List.mem_filter.mp (List.mem_of_getElem? hp)).2, ?_⟩
  have hsub : List.Sublist (q.removeAll batchId).pending q.pending := List.filter_sublist
  obtain ⟨f, hf⟩ := List.sublist_iff_exists_orderEmbedding_getElem?_eq.mp hsub
  exact ⟨f k, f.strictMono.le_apply, by rw [← hf, hp]⟩

theorem removeAll_eq {batchId : String} {k : ℕ} (hm : meant <+: q.batches)
    (hne : ∀ batch ∈ meant, batch.batchId ≠ batchId) (hk : k < meant.length) :
    (q.removeAll batchId).pending[k]? = q.pending[k]? := by
  have htake : (q.pending.take meant.length).map (·.toBatch) = meant := by
    rw [List.map_take]
    exact (List.prefix_iff_eq_take.mp hm).symm
  have hlen : (q.pending.take meant.length).length = meant.length := by
    rw [← List.length_map (·.toBatch), htake]
  have hfilter : (q.pending.take meant.length).filter (·.batchId ≠ batchId) =
      q.pending.take meant.length := by
    refine List.filter_eq_self.mpr fun push hpush => decide_eq_true (hne push.toBatch ?_)
    rw [← htake]
    exact List.mem_map_of_mem hpush
  calc (q.removeAll batchId).pending[k]?
      = ((q.pending.take meant.length ++ q.pending.drop meant.length).filter
          (·.batchId ≠ batchId))[k]? := by rw [List.take_append_drop]; rfl
    _ = (q.pending.take meant.length)[k]? := by
      rw [List.filter_append, hfilter, List.getElem?_append_left (by omega)]
    _ = q.pending[k]? := List.getElem?_take_of_lt hk

namespace Fits

theorem append (h : q.Fits) (batch : Batch) : (q.append batch).Fits where
  trapped := h.trapped
  left := h.left
  meant loop hl h0 := by
    rw [batches_append]
    exact (h.meant loop hl h0).trans (List.prefix_append _ _)
  marks := h.marks

theorem clearFlags (h : q.Fits) : q.clearFlags.Fits where
  trapped := h.trapped
  left := h.left
  meant loop hl h0 := by
    rw [batches_clearFlags]
    exact h.meant loop hl h0
  marks := h.marks

theorem removeAll (h : q.Fits) {batchId : String} (hund : ∀ loop ∈ q.loops, 0 < loop.left →
    ∀ batch ∈ loop.meant, batch.batchId ≠ batchId) : (q.removeAll batchId).Fits where
  trapped := h.trapped
  left := h.left
  meant loop hl h0 := prefix_filter (h.meant loop hl h0) (hund loop hl h0)
  marks := h.marks

theorem markHead (h : q.Fits) {push : PendingPush} (hp : q.pending[0]? = some push) :
    (q.mark socket 0 (some push.toBatch) push).Fits where
  trapped := h.trapped
  left := h.left
  meant loop hl h0 := by
    rw [mark_batches hp]
    exact h.meant loop hl h0
  marks m hm := by
    rcases @mark_right _ _ [push.toBatch] 0 _ rfl m hm with hold | hright
    · exact h.marks m hold
    · exact hright

theorem erase (h : q.Fits) (i : ℕ) : ({ q with loops := q.loops.eraseIdx i } : Queue).Fits where
  trapped := h.trapped
  left loop hl := h.left loop (List.mem_of_mem_eraseIdx hl)
  meant loop hl := h.meant loop (List.mem_of_mem_eraseIdx hl)
  marks := h.marks

theorem pushed (h : q.Fits) {q' : Queue} {left : ℕ} (hm : 0 < left → meant <+: q.batches)
    (hl : left ≤ meant.length) (hp : Pushed socket meant left q q') : q'.Fits where
  trapped := hp.trapped.trans h.trapped
  left loop hloop := by
    rcases hp.loops loop hloop with hold | hnew
    · exact h.left loop hold
    · rw [hnew.1]
      exact hnew.2.trans hl
  meant loop hloop h0 := by
    rw [hp.batches]
    rcases hp.loops loop hloop with hold | hnew
    · exact h.meant loop hold h0
    · rw [hnew.1]
      exact hm (h0.trans_le hnew.2)
  marks m hm' := (hp.marks m hm').elim (h.marks m) id

end Fits

end Queue

/-! ## The client's steps -/

namespace Client

variable {c : Client}

theorem Inv.linked_of (h : c.Inv) (hnot : ¬ c.Fresh) : c.Linked := h.linked.resolve_left hnot

theorem Inv.linked_of_state (h : c.Inv) (hs : c.stateReceived = true) : c.Linked :=
  h.linked_of fun hf => Bool.false_ne_true (hf.1.symm.trans hs)

theorem pushes_of_due (hs : c.stateReceived = true ∨ 0 < c.planning) (hd : 0 < c.due) (k : ℕ) :
    c.Pushes k := by
  rcases hs with hs | hp
  · exact Or.inl ⟨hd, hs⟩
  · exact Or.inr (Or.inl hp)

theorem Scheduled.of_due (hs : c.stateReceived = true ∨ 0 < c.planning) (hd : 0 < c.due) (k : ℕ) :
    c.Scheduled k := Or.inl (pushes_of_due hs hd k)

theorem Linked.sent (hl : c.Linked) (hd : c.dialing = false) (ho : c.closed = false)
    {push : PendingPush} (hf : push.inFlight = true) (hs : push.sentOn = c.socket) :
    c.InFlight push ∨ c.socket = none ∧ 0 < c.redials := by
  by_cases hsock : c.socket.isSome = true
  · exact Or.inl ⟨hf, hsock, hs⟩
  · have hnone : c.socket = none := by simpa using hsock
    rcases hl with hl | hl | hl | hl
    · rw [hd] at hl
      exact absurd hl Bool.false_ne_true
    · rw [ho] at hl
      exact absurd hl Bool.false_ne_true
    · exact absurd hl hsock
    · exact Or.inr ⟨hnone, hl⟩

theorem inv_connect (hf : c.queue.Fits) (ho : c.closed = false) : c.connect.Inv := by
  rw [connect, ho, if_neg Bool.false_ne_true]
  exact {
    fits := hf.clearFlags
    linked := Or.inr (Or.inl rfl)
    idle := fun _ => c.queue.clearFlags_inFlight
    sent := fun hd => by cases hd
    dialing := fun _ => ⟨rfl, rfl, rfl⟩
    closed := fun hj => by cases hj
    state := fun hj => by simp at hj
    covered := fun hj => by cases hj }

theorem Inv.connect (h : c.Inv) : c.connect.Inv := by
  by_cases ho : c.closed = true
  · rw [Client.connect, if_pos ho]
    exact h
  · exact inv_connect h.fits (by simpa using ho)

theorem Inv.redial (h : c.Inv) : ({ c with redials := c.redials - 1 } : Client).connect.Inv := by
  by_cases ho : c.closed = true
  · rw [Client.connect, if_pos ho]
    exact {
      fits := h.fits
      linked := Or.inr (Or.inr (Or.inl ho))
      idle := h.idle
      sent := fun _ hn => absurd (hn.symm.trans ho) Bool.false_ne_true
      dialing := h.dialing
      closed := h.closed
      state := h.state
      covered := fun hj => absurd ((h.closed hj).symm.trans ho) Bool.false_ne_true }
  · exact inv_connect h.fits (by simpa using ho)

theorem Inv.stop (h : c.Inv) : c.stop.Inv where
  fits := h.fits
  linked := Or.inr (Or.inr (Or.inl rfl))
  idle hd := by cases hd
  sent _ ho := by cases ho
  dialing hd := by cases hd
  closed hj := by cases hj
  state hj := h.state (hj.imp (fun hn => by cases hn) id)
  covered hj := by cases hj

theorem Inv.scheduleReconnect (h : c.Inv) {dialing joined : Bool} (ho : c.closed = false)
    (hd : dialing = true → c.dialing = true) (hj : joined = false) :
    ({ c with dialing, joined } : Client).scheduleReconnect.Inv := by
  subst hj
  rw [Client.scheduleReconnect, ho, if_neg Bool.false_ne_true]
  exact {
    fits := h.fits
    linked := Or.inr (Or.inr (Or.inr (Or.inr (Nat.succ_pos _))))
    idle := fun hdial => h.idle (hd hdial)
    sent := fun _ _ _ _ _ => Or.inr ⟨rfl, Nat.succ_pos _⟩
    dialing := fun hdial => ⟨rfl, (h.dialing (hd hdial)).2⟩
    closed := fun hn => by cases hn
    state := fun hn => h.state (hn.imp (fun hn => by cases hn) id)
    covered := fun hn => by cases hn }

theorem Inv.onSocketError (h : c.Inv) : c.onSocketError.Inv := by
  by_cases ho : c.closed = true
  · rw [Client.onSocketError, if_pos ho]
    exact h
  · rw [Client.onSocketError, if_neg ho]
    exact @Inv.scheduleReconnect _ h c.dialing _ (by simpa using ho) id rfl

theorem Inv.noUrl (h : c.Inv) (hd : c.dialing = true) :
    ({ c with dialing := false } : Client).scheduleReconnect.Inv := by
  by_cases ho : c.closed = true
  · rw [Client.scheduleReconnect, if_pos ho]
    exact {
      fits := h.fits
      linked := Or.inr (Or.inr (Or.inl ho))
      idle := fun hn => by cases hn
      sent := fun _ hn => absurd (hn.symm.trans ho) Bool.false_ne_true
      dialing := fun hn => by cases hn
      closed := h.closed
      state := h.state
      covered := h.covered }
  · exact @Inv.scheduleReconnect _ h _ c.joined (by simpa using ho) (fun hn => by cases hn)
      (h.dialing hd).1

theorem Inv.openSocket (h : c.Inv) (hd : c.dialing = true) : c.openSocket.Inv where
  fits := h.fits
  linked := Or.inr (Or.inr (Or.inr (Or.inl rfl)))
  idle hn := by cases hn
  sent _ _ push hpush hf := absurd ((h.idle hd push hpush).symm.trans hf) Bool.false_ne_true
  dialing hn := by cases hn
  closed := h.closed
  state := h.state
  covered hj := absurd ((h.dialing hd).1.symm.trans hj) Bool.false_ne_true

theorem Inv.kick (h : c.Inv) : c.kick.Inv := by
  unfold Client.kick
  split_ifs
  · exact h
  · exact h.connect
  · exact h.connect
  · exact h

theorem Inv.enqueue (h : c.Inv) (batch : Batch) : (c.enqueue batch).Inv := by
  have hmem : ∀ push ∈ (c.queue.append batch).pending, push.inFlight = true →
      push ∈ c.queue.pending := by
    intro push hpush hf
    rcases List.mem_append.mp hpush with hold | hnew
    · exact hold
    · rw [List.mem_singleton.mp hnew] at hf
      cases hf
  by_cases hs : batch.bytes.length ≤ maxPushBytes
  · rw [Client.enqueue, if_pos hs]
    refine {
      fits := h.fits.append batch
      linked := h.linked
      idle := fun hd push hpush => ?_
      sent := fun hd ho push hpush hf => h.sent hd ho push (hmem push hpush hf) hf
      dialing := h.dialing
      closed := h.closed
      state := h.state
      covered := fun hj _ k push hpush => Or.inr (Or.inl ?_) }
    · by_contra hf
      rw [Bool.not_eq_false] at hf
      rw [h.idle hd push (hmem push hpush hf)] at hf
      cases hf
    · rcases h.state (Or.inl hj) with hsr | hp
      · refine Or.inl ⟨?_, hsr⟩
        show 0 < if c.stateReceived = true then c.due + 1 else c.due
        rw [if_pos hsr]
        exact Nat.succ_pos _
      · exact Or.inr (Or.inl hp)
  · rw [Client.enqueue, if_neg hs]
    exact h

/-- **Marking**, by a loop or at the head. -/
theorem Inv.marked (h : c.Inv) (hl : c.Linked) {due : ℕ} {heads : List ℕ} {probe : Option String}
    {q : Queue} (hq : q.Fits)
    (hflags : ∀ (k : ℕ) (push : PendingPush), q.pending[k]? = some push →
      c.queue.pending[k]? = some push ∨ push.inFlight = true ∧ push.sentOn = c.socket)
    (hidle : c.dialing = true → ∀ push ∈ q.pending, push.inFlight = false)
    (hcov : c.joined = true → ¬ ({ c with due, heads, probe, queue := q } : Client).Armed →
      ∀ k push, q.pending[k]? = some push → push.inFlight = true ∨
        ({ c with due, heads, probe, queue := q } : Client).Scheduled k) :
    ({ c with due, heads, probe, queue := q } : Client).Inv where
  fits := hq
  linked := Or.inr hl
  idle := hidle
  sent hd ho push hpush hf := by
    obtain ⟨k, hk⟩ := List.getElem?_of_mem hpush
    rcases hflags k push hk with hold | hnew
    · exact h.sent hd ho push (List.mem_of_getElem? hold) hf
    · exact hl.sent hd ho hf hnew.2
  dialing := h.dialing
  closed := h.closed
  state := h.state
  covered := hcov

theorem Inv.pushPending (h : c.Inv) (ht : c.Timely .pushPending) :
    ({ c with due := c.due - 1 } : Client).pushPending.Inv := by
  by_cases hs : c.stateReceived = true
  · rw [Client.pushPending, if_pos hs]
    have hlen : c.queue.pending.length = c.queue.batches.length := (List.length_map _).symm
    have hp := @Queue.pushFrom_spec _ c.socket _ _ (List.prefix_refl c.queue.batches) hlen.le
    refine h.marked (h.linked_of_state hs) (h.fits.pushed (fun _ => List.prefix_refl _) hlen.le hp)
      hp.flags (fun hdial push hpush => ?_) fun _ _ k push hpush => ?_
    · have hnil := hp.batches.trans (Queue.batches_eq_nil.mpr (ht hdial hs))
      exact absurd hpush (List.eq_nil_iff_forall_not_mem.mp (Queue.batches_eq_nil.mp hnil) push)
    · have hk : k < c.queue.batches.length := by
        rw [← hp.batches, Queue.batches, List.length_map]
        exact (List.getElem?_eq_some_iff.mp hpush).1
      refine (hp.visited k push hpush (by omega) hk).imp id ?_
      rintro ⟨loop, hloop, hmeant, hle⟩
      exact Or.inl (Or.inr (Or.inr (Or.inr ⟨loop, hloop, hle, hmeant ▸ hk⟩)))
  · rw [Client.pushPending, if_neg hs]
    refine {
      fits := h.fits
      linked := h.linked
      idle := h.idle
      sent := h.sent
      dialing := h.dialing
      closed := h.closed
      state := h.state
      covered := fun hj _ k push _ => Or.inr (Or.inl (Or.inr (Or.inl ?_))) }
    exact (h.state (Or.inl hj)).resolve_left hs

theorem Inv.resume (h : c.Inv) {i : ℕ} {loop : PushLoop} (hi : c.queue.loops[i]? = some loop)
    (ht : c.Timely (.resume i)) : (c.resume i loop).Inv := by
  have hmem := List.mem_of_getElem? hi
  have hl : c.Linked := h.linked_of fun hf => by
    rw [hf.2.2.2.2] at hmem
    exact absurd hmem List.not_mem_nil
  have hfits := h.fits.erase i
  have hle := h.fits.left loop hmem
  have hmeant := h.fits.meant loop hmem
  have hp : Queue.Pushed c.socket loop.meant loop.left
      { c.queue with loops := c.queue.loops.eraseIdx i } (c.resume i loop).queue := by
    by_cases h0 : loop.left = 0
    · rw [Client.resume, h0]
      exact Queue.pushed_zero _ _ _
    · exact Queue.pushFrom_spec (hmeant (Nat.pos_of_ne_zero h0)) hle
  refine h.marked hl (hfits.pushed hmeant hle hp) hp.flags (fun hd push hpush => ?_)
    fun hj ha k push hpush => ?_
  · have hpend := congrArg Queue.pending (hp.still (ht hd loop hi))
    exact h.idle hd push ((congrArg (push ∈ ·) hpend).mp hpush)
  · by_cases hin : loop.meant.length - loop.left ≤ k ∧ k < loop.meant.length
    · refine (hp.visited k push hpush hin.1 hin.2).imp id ?_
      rintro ⟨l, hl, hm, hlk⟩
      exact Or.inl (Or.inr (Or.inr (Or.inr ⟨l, hl, hlk, hm ▸ hin.2⟩)))
    · rcases hp.flags k push hpush with hold | hnew
      · refine (h.covered hj ha k push hold).imp id fun hs => hs.imp (fun hpu => ?_) id
        refine hpu.imp id fun hpu => hpu.imp id fun hpu => hpu.imp id ?_
        rintro ⟨l, hl, hlk⟩
        refine ⟨l, hp.kept l ?_, hlk⟩
        exact (mem_eraseIdx hi hl).resolve_left fun he => hin (he ▸ hlk)
      · exact Or.inl hnew.1

theorem Inv.quotaFires (h : c.Inv) {gen : ℕ} (hq : c.quotaTask = some gen) :
    ({ c with quotaTask := none, heads := c.heads ++ [gen] } : Client).Inv where
  fits := h.fits
  linked := h.linked
  idle := h.idle
  sent := h.sent
  dialing := h.dialing
  closed := h.closed
  state := h.state
  covered hj ha := h.covered hj fun harm => ha <| by
    rcases harm with harm | harm
    · rw [hq, Option.some_inj] at harm
      exact Or.inr (List.mem_append_right _ (List.mem_singleton.mpr harm.symm))
    · exact Or.inr (List.mem_append_left _ harm)

theorem Inv.pushHead (h : c.Inv) {i gen : ℕ} (hi : c.heads[i]? = some gen) :
    (({ c with heads := c.heads.eraseIdx i } : Client).pushHead gen).Inv := by
  by_cases hg : gen = c.generation ∧ c.joined = true
  · have hd : c.dialing = false := by
      by_contra hd
      rw [Bool.not_eq_false] at hd
      exact Bool.false_ne_true ((h.dialing hd).1.symm.trans hg.2)
    cases hp : c.queue.pending[0]? with
    | none =>
      rw [Client.pushHead, if_pos hg]
      simp only [hp]
      have hnil : c.queue.pending = [] := by simpa using hp
      exact {
        fits := h.fits
        linked := h.linked
        idle := h.idle
        sent := h.sent
        dialing := h.dialing
        closed := h.closed
        state := h.state
        covered := fun _ _ k push hpush => by simp [hnil] at hpush }
    | some head =>
      rw [Client.pushHead, if_pos hg]
      simp only [hp]
      have hl : c.Linked := h.linked_of fun hf => by
        have hst := h.state (Or.inl hg.2)
        rw [hf.1, hf.2.2.2.1] at hst
        simp at hst
      refine h.marked hl (h.fits.markHead hp) (fun k push hpush => ?_) (fun hdial => ?_)
        fun _ _ k push hpush => Or.inr ?_
      · exact (Queue.mark_getElem? hpush).imp And.right And.right
      · rw [hd] at hdial
        cases hdial
      · by_cases hsock : c.socket.isSome = true
        · refine Or.inr ?_
          show (if c.socket.isSome = true then some head.batchId else c.probe).isSome = true
          rw [if_pos hsock]
          rfl
        · refine Or.inl (Or.inr (Or.inr (Or.inl ⟨by simpa using hsock, ?_⟩)))
          rcases hl with hl | hl | hl | hl
          · exact absurd (hd.symm.trans hl) Bool.false_ne_true
          · exact absurd ((h.closed hg.2).symm.trans hl) Bool.false_ne_true
          · exact absurd hl hsock
          · exact hl
  · rw [Client.pushHead, if_neg hg]
    exact {
      fits := h.fits
      linked := h.linked
      idle := h.idle
      sent := h.sent
      dialing := h.dialing
      closed := h.closed
      state := h.state
      covered := fun hj ha => h.covered hj fun harm => ha <| harm.imp id fun hmem =>
        (mem_eraseIdx hi hmem).resolve_left fun he => hg ⟨he.symm, hj⟩ }

theorem Inv.planned (h : c.Inv) (hp : 0 < c.planning) : c.planned.Inv where
  fits := h.fits
  linked := Or.inr (h.linked_of fun hf => by simp [hf.2.2.2.1] at hp)
  idle := h.idle
  sent := h.sent
  dialing := h.dialing
  closed := h.closed
  state _ := Or.inl rfl
  covered _ _ k _ _ := Or.inr (Scheduled.of_due (Or.inl rfl) (Nat.succ_pos _) k)

theorem Inv.handleState (h : c.Inv) (ho : c.opened = true) : c.handleState.Inv := by
  unfold Client.handleState
  split_ifs
  · exact {
      fits := h.fits
      linked := Or.inr (h.linked_of fun hf => by simp [hf.2.2.1] at ho)
      idle := h.idle
      sent := h.sent
      dialing := fun hd => absurd ((h.dialing hd).2.2.symm.trans ho) Bool.false_ne_true
      closed := h.closed
      state := fun _ => Or.inr (Nat.succ_pos _)
      covered := fun _ _ _ _ _ => Or.inr (Or.inl (Or.inr (Or.inl (Nat.succ_pos _)))) }
  · exact h

theorem Inv.rowsDone (h : c.Inv) (ht : c.Timely .rowsDone) : c.rowsDone.Inv := by
  by_cases hb : c.backfillStarted = true
  · rw [Client.rowsDone, if_pos hb]
    have hst := h.state (Or.inr hb)
    exact {
      fits := h.fits
      linked := Or.inr (h.linked_of fun hf => by simp [hf.2.1] at hb)
      idle := h.idle
      sent := h.sent
      dialing := fun hd => absurd ((h.dialing hd).2.1.symm.trans hb) Bool.false_ne_true
      closed := fun _ => by
        by_contra ho
        rw [Bool.not_eq_false] at ho
        exact Bool.false_ne_true ((ht ho).symm.trans hb)
      state := fun _ => hst
      covered := fun _ _ k _ _ => Or.inr (Scheduled.of_due (by exact hst) (Nat.succ_pos _) k) }
  · rw [Client.rowsDone, if_neg hb]
    exact h

/-- **A removal**, with what covers the batches that stay. -/
theorem Inv.removed (h : c.Inv) {batchId : String} (hu : ∀ loop ∈ c.queue.loops, 0 < loop.left →
      ∀ batch ∈ loop.meant, batch.batchId ≠ batchId) {due : ℕ} {pulls : List (List Batch)}
    {probe : Option String}
    (hcov : c.joined = true → ¬ c.Armed → ∀ (k : ℕ) (push : PendingPush),
      c.queue.pending[k]? = some push → push.batchId ≠ batchId → push.inFlight = true ∨
        ({ c with due, pulls, probe } : Client).Scheduled k) :
    ({ c with queue := c.queue.removeAll batchId, due, pulls, probe } : Client).Inv := by
  have hmem : ∀ push ∈ (c.queue.removeAll batchId).pending, push ∈ c.queue.pending :=
    fun push hpush => (List.mem_filter.mp hpush).1
  refine {
    fits := h.fits.removeAll hu
    linked := h.linked
    idle := fun hd push hpush => h.idle hd push (hmem push hpush)
    sent := fun hd ho push hpush => h.sent hd ho push (hmem push hpush)
    dialing := h.dialing
    closed := h.closed
    state := h.state
    covered := fun hj ha k push hpush => ?_ }
  -- a place that a loop still counts has not moved; other places may, and are not covered by one
  obtain ⟨hne, j, hkj, hold⟩ := Queue.removeAll_ge hpush
  by_cases hin : ∃ loop ∈ c.queue.loops, 0 < loop.left ∧ k < loop.meant.length
  · obtain ⟨loop, hloop, h0, hk⟩ := hin
    refine hcov hj ha k push ?_ hne
    rw [← Queue.removeAll_eq (h.fits.meant loop hloop h0) (hu loop hloop h0) hk]
    exact hpush
  · refine (hcov hj ha j push hold hne).imp id fun hs => hs.imp (fun hpu => ?_) id
    refine hpu.imp id fun hpu => hpu.imp id fun hpu => hpu.imp id ?_
    rintro ⟨loop, hloop, hle, hlt⟩
    exact absurd ⟨loop, hloop, by omega, by omega⟩ hin

theorem Inv.ack (h : c.Inv) {batchId : String} (hu : c.Undisturbed (.ack batchId)) :
    (c.ack batchId).Inv :=
  h.removed (hu batchId rfl) fun hj _ k _ _ _ =>
    Or.inr (Scheduled.of_due (by exact h.state (Or.inl hj)) (Nat.succ_pos _) k)

theorem Inv.pulled (h : c.Inv) {i : ℕ} {push : Batch} {rest : List Batch}
    (hi : c.pulls[i]? = some (push :: rest)) {answer : PullAnswer}
    (hu : c.Undisturbed (.pulled i answer)) : (c.pulled i push rest answer).Inv := by
  have hremoved : answer ≠ .retry →
      ({ c with
        queue := c.queue.removeAll push.batchId
        pulls := c.pulls.set i rest } : Client).Inv := by
    intro hne
    refine h.removed (hu push.batchId ?_) fun hj ha k p hp _ => h.covered hj ha k p hp
    rw [names, if_neg hne, hi]
    rfl
  cases answer with
  | acked => exact hremoved (by simp)
  | refused => exact hremoved (by simp)
  | retry =>
    exact {
      fits := h.fits
      linked := h.linked
      idle := h.idle
      sent := h.sent
      dialing := h.dialing
      closed := h.closed
      state := h.state
      covered := h.covered }

theorem Inv.handleErrorFrame (h : c.Inv) {code : ErrorCode} {batchId : String}
    (hs : c.Sound (.error code batchId)) : (c.handleErrorFrame code batchId).Inv := by
  unfold Client.handleErrorFrame
  by_cases hp : code.permanent = true
  · rw [if_pos hp]
    by_cases he : batchId = ""
    · rw [if_pos he]
      exact h
    · rw [if_neg he]
      refine h.removed (hs.1 batchId (if_pos ⟨hp, he⟩)) fun hj ha k push hpush hne => ?_
      by_cases hprobe : c.probe = some batchId
      · have hmem : (push, k) ∈ c.queue.pending.zipIdx := List.mem_zipIdx_iff_getElem?.mpr hpush
        rcases hs.2 hj hp hprobe (push, k) hmem with hid | hf | hpu
        · exact absurd hid hne
        · exact Or.inl hf
        · exact Or.inr (Or.inl hpu)
      · rw [if_neg hprobe]
        exact h.covered hj ha k push hpush
  · rw [if_neg hp]
    cases code with
    | tooLarge => exact absurd rfl hp
    | empty => exact absurd rfl hp
    | badPush => exact absurd rfl hp
    | quota =>
      exact {
        fits := h.fits.clearFlags
        linked := h.linked
        idle := fun _ => c.queue.clearFlags_inFlight
        sent := fun _ _ push hpush hf =>
          absurd ((c.queue.clearFlags_inFlight push hpush).symm.trans hf) Bool.false_ne_true
        dialing := h.dialing
        closed := h.closed
        state := h.state
        covered := fun _ ha => absurd (Or.inl rfl) ha }
    | helloFirst => exact h.onSocketError
    | other => exact h

/-- **What every sound step keeps.** -/
theorem inv_step {a : Act} {c' : Client} (h : c.Inv) (hs : c.Sound a) (he : c.step a = some c') :
    c'.Inv := by
  rw [step, h.fits.trapped, if_neg Bool.false_ne_true] at he
  cases a with
  | start => cases he; exact inv_connect h.fits rfl
  | stop => cases he; exact h.stop
  | kick => cases he; exact h.kick
  | enqueue batch => cases he; exact h.enqueue batch
  | pullSync =>
    cases he
    split_ifs
    · exact h
    · exact {
        fits := h.fits
        linked := h.linked
        idle := h.idle
        sent := h.sent
        dialing := h.dialing
        closed := h.closed
        state := h.state
        covered := h.covered }
  | pushPending =>
    obtain ⟨-, rfl⟩ := of_guard he
    exact h.pushPending hs.2
  | resume i =>
    obtain ⟨loop, hi, rfl⟩ := Option.map_eq_some_iff.mp he
    exact h.resume hi hs.2
  | quotaFires =>
    obtain ⟨gen, hq, rfl⟩ := Option.map_eq_some_iff.mp he
    exact h.quotaFires hq
  | pushHead i =>
    obtain ⟨gen, hi, rfl⟩ := Option.map_eq_some_iff.mp he
    exact h.pushHead hi
  | planned =>
    obtain ⟨hp, rfl⟩ := of_guard he
    exact h.planned hp
  | pulled i answer =>
    obtain ⟨pull, hi, he⟩ := Option.bind_eq_some_iff.mp he
    cases pull with
    | nil => cases he
    | cons push rest =>
      cases he
      exact h.pulled hi hs.1
  | redial =>
    obtain ⟨-, rfl⟩ := of_guard he
    exact h.redial
  | openSocket =>
    obtain ⟨hd, rfl⟩ := of_guard he
    exact h.openSocket hd
  | noUrl =>
    obtain ⟨hd, rfl⟩ := of_guard he
    exact h.noUrl hd
  | state =>
    obtain ⟨ho, rfl⟩ := of_guard he
    exact h.handleState ho
  | rowsDone => cases he; exact h.rowsDone hs.2
  | ack batchId =>
    obtain ⟨-, rfl⟩ := of_guard he
    exact h.ack hs.1
  | error code batchId =>
    obtain ⟨-, rfl⟩ := of_guard he
    exact h.handleErrorFrame hs
  | socketError => cases he; exact h.onSocketError

theorem Inv.held (h : c.Inv) : c.Held := by
  intro hj ha x hx
  have hpush := List.mem_zipIdx_iff_getElem?.mp hx
  have hd : c.dialing = false := by
    by_contra hd
    rw [Bool.not_eq_false] at hd
    exact Bool.false_ne_true ((h.dialing hd).1.symm.trans hj)
  rcases h.covered hj ha x.2 x.1 hpush with hf | hs
  · refine (h.sent hd (h.closed hj) x.1 (List.mem_of_getElem? hpush) hf).imp id fun hr => ?_
    exact Or.inl (Or.inr (Or.inr (Or.inl hr)))
  · exact Or.inr hs

/-! ## What a step takes out of the queue -/

theorem batches_connect (c : Client) : c.connect.queue.batches = c.queue.batches := by
  unfold connect
  split_ifs
  · rfl
  · exact c.queue.batches_clearFlags

theorem queue_scheduleReconnect (c : Client) : c.scheduleReconnect.queue = c.queue := by
  unfold scheduleReconnect
  split_ifs <;> rfl

theorem queue_onSocketError (c : Client) : c.onSocketError.queue = c.queue := by
  unfold onSocketError
  split_ifs
  · rfl
  · exact queue_scheduleReconnect _

theorem batches_kick (c : Client) : c.kick.queue.batches = c.queue.batches := by
  unfold kick
  split_ifs
  · rfl
  · exact c.batches_connect
  · exact c.batches_connect
  · rfl

theorem batches_pushPending (c : Client) : c.pushPending.queue.batches = c.queue.batches := by
  unfold pushPending
  split_ifs
  · exact (Queue.pushFrom_spec (List.prefix_refl _) (List.length_map _).ge).batches
  · rfl

theorem Inv.batches_resume (h : c.Inv) {i : ℕ} {loop : PushLoop}
    (hi : c.queue.loops[i]? = some loop) : (c.resume i loop).queue.batches = c.queue.batches := by
  have hmem := List.mem_of_getElem? hi
  by_cases h0 : loop.left = 0
  · rw [Client.resume, h0]
    rfl
  · exact (Queue.pushFrom_spec (q := { c.queue with loops := c.queue.loops.eraseIdx i })
      (h.fits.meant loop hmem (Nat.pos_of_ne_zero h0)) (h.fits.left loop hmem)).batches

theorem batches_pushHead (c : Client) (gen : ℕ) :
    (c.pushHead gen).queue.batches = c.queue.batches := by
  unfold pushHead
  by_cases hg : gen = c.generation ∧ c.joined = true
  · rw [if_pos hg]
    cases hp : c.queue.pending[0]? with
    | none => rfl
    | some head => exact Queue.mark_batches hp
  · rw [if_neg hg]

theorem mem_removeAll {batch : Batch} {batchId : String} (hb : batch ∈ c.queue.batches)
    (hne : some batchId ≠ some batch.batchId) : batch ∈ (c.queue.removeAll batchId).batches := by
  rw [Queue.batches_removeAll]
  exact List.mem_filter.mpr ⟨hb, decide_eq_true fun he => hne (congrArg some he.symm)⟩

theorem mem_pulled {batch : Batch} {i : ℕ} {push : Batch} {rest : List Batch}
    (hi : c.pulls[i]? = some (push :: rest)) {answer : PullAnswer} (hb : batch ∈ c.queue.batches)
    (hne : c.names (.pulled i answer) ≠ some batch.batchId) :
    batch ∈ (c.pulled i push rest answer).queue.batches := by
  have hnames : answer ≠ .retry → c.names (.pulled i answer) = some push.batchId := by
    intro ha
    rw [names, if_neg ha, hi]
    rfl
  cases answer with
  | acked => exact mem_removeAll hb (hnames (by simp) ▸ hne)
  | refused => exact mem_removeAll hb (hnames (by simp) ▸ hne)
  | retry => exact hb

theorem mem_handleErrorFrame {batch : Batch} {code : ErrorCode} {batchId : String}
    (hb : batch ∈ c.queue.batches) (hne : c.names (.error code batchId) ≠ some batch.batchId) :
    batch ∈ (c.handleErrorFrame code batchId).queue.batches := by
  unfold handleErrorFrame
  by_cases hp : code.permanent = true
  · rw [if_pos hp]
    by_cases he : batchId = ""
    · rw [if_pos he]
      exact hb
    · rw [if_neg he]
      rw [names, if_pos ⟨hp, he⟩] at hne
      exact mem_removeAll hb hne
  · rw [if_neg hp]
    cases code with
    | quota =>
      show batch ∈ c.queue.clearFlags.batches
      rwa [Queue.batches_clearFlags]
    | helloFirst =>
      show batch ∈ c.onSocketError.queue.batches
      rwa [queue_onSocketError]
    | tooLarge | empty | badPush | other => exact hb

/-- **A batch stays queued** until an answer names it. -/
theorem Inv.stays (h : c.Inv) {a : Act} {c' : Client} (he : c.step a = some c') {batch : Batch}
    (hb : batch ∈ c.queue.batches) (hne : c.names a ≠ some batch.batchId) :
    batch ∈ c'.queue.batches := by
  rw [step, h.fits.trapped, if_neg Bool.false_ne_true] at he
  cases a with
  | start => cases he; exact (batches_connect { c with closed := false }).symm ▸ hb
  | stop => cases he; exact hb
  | kick => cases he; exact c.batches_kick.symm ▸ hb
  | enqueue b =>
    cases he
    by_cases hs : b.bytes.length ≤ maxPushBytes
    · rw [Client.enqueue, if_pos hs]
      exact (c.queue.batches_append b).symm ▸ List.mem_append_left _ hb
    · rw [Client.enqueue, if_neg hs]
      exact hb
  | pullSync =>
    cases he
    split_ifs <;> exact hb
  | pushPending =>
    obtain ⟨-, rfl⟩ := of_guard he
    exact (batches_pushPending { c with due := c.due - 1 }).symm ▸ hb
  | resume i =>
    obtain ⟨loop, hi, rfl⟩ := Option.map_eq_some_iff.mp he
    exact (h.batches_resume hi).symm ▸ hb
  | quotaFires =>
    obtain ⟨gen, -, rfl⟩ := Option.map_eq_some_iff.mp he
    exact hb
  | pushHead i =>
    obtain ⟨gen, -, rfl⟩ := Option.map_eq_some_iff.mp he
    exact (batches_pushHead { c with heads := c.heads.eraseIdx i } gen).symm ▸ hb
  | planned =>
    obtain ⟨-, rfl⟩ := of_guard he
    exact hb
  | pulled i answer =>
    obtain ⟨pull, hi, he⟩ := Option.bind_eq_some_iff.mp he
    cases pull with
    | nil => cases he
    | cons push rest =>
      cases he
      exact mem_pulled hi hb hne
  | redial =>
    obtain ⟨-, rfl⟩ := of_guard he
    exact (batches_connect { c with redials := c.redials - 1 }).symm ▸ hb
  | openSocket =>
    obtain ⟨-, rfl⟩ := of_guard he
    exact hb
  | noUrl =>
    obtain ⟨-, rfl⟩ := of_guard he
    rw [queue_scheduleReconnect]
    exact hb
  | state =>
    obtain ⟨-, rfl⟩ := of_guard he
    unfold Client.handleState
    split_ifs <;> exact hb
  | rowsDone =>
    cases he
    unfold Client.rowsDone
    split_ifs <;> exact hb
  | ack batchId =>
    obtain ⟨-, rfl⟩ := of_guard he
    exact mem_removeAll hb hne
  | error code batchId =>
    obtain ⟨-, rfl⟩ := of_guard he
    exact mem_handleErrorFrame hb hne
  | socketError =>
    cases he
    rw [queue_onSocketError]
    exact hb

/-! ## Over all runs -/

theorem inv_new : new.Inv where
  fits := ⟨rfl, by simp [new], by simp [new], by simp [new]⟩
  linked := Or.inl ⟨rfl, rfl, rfl, rfl, rfl⟩
  idle hd := by cases hd
  sent _ _ push hpush := absurd hpush List.not_mem_nil
  dialing hd := by cases hd
  closed hj := by cases hj
  state hj := by simp [new] at hj
  covered hj := by cases hj

/-- **In every run of sound steps**, at each of its states: no index was out of range; what was
marked and sent is what was meant; whatever comes next, a batch stays queued until an answer names
it; and every queued batch of a joined client is in flight, or its push is scheduled. -/
theorem queue_survives {acts : List Act} (hg : Guarded step Sound new acts) {c : Client}
    (he : exec step new acts = some c) :
    c.queue.trapped = false ∧ (∀ m ∈ c.queue.marks, m.Right) ∧
      (∀ a c', c.step a = some c' → ∀ batch ∈ c.queue.batches,
        c.names a ≠ some batch.batchId → batch ∈ c'.queue.batches) ∧
      c.Held := by
  have h : c.Inv := exec_invariant (fun _ _ _ h hs he => inv_step h hs he) inv_new hg he
  exact ⟨h.fits.trapped, h.fits.marks, fun a c' ha batch hb hne => h.stays ha hb hne, h.held⟩

end Client

/-- The client has joined. -/
def joins : List Act :=
  [.start, .openSocket, .state, .planned, .pushPending, .rowsDone, .pushPending]

def batchA : Batch := ⟨"a", [1]⟩

def batchB : Batch := ⟨"b", [2]⟩

/-- Two batches are queued, and the first is on its way. -/
def pushing : List Act := joins ++ [Act.enqueue batchA, .enqueue batchB, .pushPending]

/-- The client at that `await`. -/
def pushingClient : Client :=
  { Client.new with
    queue := ⟨[⟨batchA, true, some 1⟩, ⟨batchB, false, none⟩], [⟨[batchA, batchB], 1⟩],
      [⟨some batchA, batchA, some (1, batchA)⟩], false⟩
    socket := some 1
    generation := 1
    joined := true
    stateReceived := true
    due := 1
    opened := true
    sockets := 1 }

theorem exec_pushing : exec Client.step .new pushing = some pushingClient := rfl

/-- What comes of the client after `pushing`. -/
def pushed (acts : List Act) : Option Client := exec Client.step .new (pushing ++ acts)

theorem pushed_eq (acts : List Act) : pushed acts = exec Client.step pushingClient acts := by
  rw [pushed, exec_append, exec_pushing, Option.bind_some]

/-- Both are sent and answered, the second after a quota error and a new connection. -/
theorem queue_survives_quota :
    ∃ c, pushed [.resume 0, .resume 0, .pushPending, .ack "a", .error .quota "", .quotaFires,
        .pushHead 0, .socketError, .redial, .openSocket, .state, .planned, .pushPending, .rowsDone,
        .resume 0, .ack "b"] = some c ∧
      c.queue.trapped = false ∧ (∀ m ∈ c.queue.marks, m.Right) ∧
      (∀ a c', c.step a = some c' → ∀ batch ∈ c.queue.batches,
        c.names a ≠ some batch.batchId → batch ∈ c'.queue.batches) ∧
      c.Held := by
  have hpushing : Guarded Client.step Client.Sound .new pushing :=
    guarded_of_checks (by decide +kernel)
  generalize hacts : [Act.resume 0, .resume 0, .pushPending, .ack "a", .error .quota "",
    .quotaFires, .pushHead 0, .socketError, .redial, .openSocket, .state, .planned, .pushPending,
    .rowsDone, .resume 0, .ack "b"] = acts
  have hrest : Guarded Client.step Client.Sound pushingClient acts := by
    subst hacts
    exact guarded_of_checks (by decide +kernel)
  have hsome : (pushed acts).isSome = true := by
    rw [pushed_eq]
    subst hacts
    decide +kernel
  obtain ⟨c, hc⟩ := Option.isSome_iff_exists.mp hsome
  exact ⟨c, hc, Client.queue_survives (hpushing.append exec_pushing hrest) hc⟩

/-- **Runs in which the queue fails**: the room answers for the first batch while the loop still
counts two; so it does with a third batch queued, which is then sent for the second; the batch of a
quota retry is refused; and a loop of the old connection goes on before the new socket is there. -/
theorem queue_fails :
    (pushed [.ack "a", .resume 0]).any (·.queue.trapped) = true ∧
    (pushed [.enqueue ⟨"c", [3]⟩, .ack "a", .resume 0]).any
      (fun c => decide (∃ m ∈ c.queue.marks, ¬ m.Right)) = true ∧
    (pushed [.resume 0, .resume 0, .pushPending, .error .quota "", .quotaFires, .pushHead 0,
      .error .badPush "a"]).any (fun c => decide (¬ c.Held)) = true ∧
    (pushed [.socketError, .redial, .resume 0, .openSocket, .state, .planned, .pushPending,
      .resume 0, .rowsDone, .pushPending, .pushPending]).any
      (fun c => decide (¬ c.Held)) = true := by
  rw [pushed_eq, pushed_eq, pushed_eq, pushed_eq]
  decide +kernel

end Zeron.Phone.ChatRoom
