import Zeron.Registry.Backed
import Zeron.Registry.Cursor
import Zeron.Seen.Mark

/-!
# Last-seen marks on their way

One device and the room: what its replica, its queue and the frames on their way to it say of a
chat.

* `Within`, **`within_step`**: only points of the set are anywhere, over either transport;
* `Flows`: frames that bring a row up to the room's, newer with each, and acks of what it has;
* `Steady`, **`steady_step`**: over the socket they do;
* **`shown_step`**: and then no step lowers what the device shows.
-/

namespace Zeron.Seen

open Registry Lww Sidebar
open Cover (Covers)

variable {H : Set (WithBot Hlc × WithBot ℤ)} {key : RowKey} {s s' : Net} {a : Act}

/-! ## Points of the set -/

/-- The rows and ops of the chat that the room, the device and the frames between them have. -/
structure Within (H : Set (WithBot Hlc × WithBot ℤ)) (key : RowKey) (s : Net) : Prop where
  room : ∃ r, s.room.row key = some r ∧ RowIn H r
  keyed : s.doc.Keyed
  doc : ∀ r, s.doc.row key = some r → RowIn H r
  incoming : ∀ r, s.Incoming r → r.key = key → RowIn H r
  ops : ∀ b ∈ s.queue, ∀ op ∈ b.ops, op.key = key → OpIn H op

/-- **A batch leaves the chat's row in the room no older**, and no older than its own ops. -/
theorem row_push_in {room : Room} (batch : String) {ops : List RowOp} {r : RegistryRow}
    (hrow : room.row key = some r) (hr : RowIn H r)
    (hops : ∀ op ∈ ops, op.key = key → OpIn H op) :
    ∃ r', (room.push batch ops).row key = some r' ∧ RowIn H r' ∧
      (point (some r)).1 ≤ (point (some r')).1 ∧
      (checkBatch batch ops = none → ∀ op ∈ ops, op.key = key →
        ∀ w, op.writeAt lastSeenAt = some w → (w.1 : WithBot Hlc) ≤ (point (some r')).1) := by
  have hat : ∀ op ∈ opsAt ops key, OpIn H op := by
    intro op hop
    obtain ⟨hop, hk⟩ := List.mem_filter.mp hop
    exact hops op hop (of_decide_eq_true hk)
  cases hc : checkBatch batch ops with
  | none =>
    obtain ⟨r', he, hfold⟩ := folded_rowAfter (room.storage.seq + 1) hr hat
    have hrows := (applyPushBatch_spec room.wf hc).rows key
    rw [show room.storage.row key = some r from hrow, he] at hrows
    refine ⟨r', hrows, hfold.row, hfold.le, fun _ op hop hk => hfold.ops_le op ?_⟩
    exact List.mem_filter.mpr ⟨hop, by simpa using hk⟩
  | some error =>
    refine ⟨r, ?_, hr, le_rfl, fun h => by cases h⟩
    rw [Room.row, Room.push]
    simp only [applyPushBatch_refused hc]
    exact hrow

theorem row_alarm_live {room : Room} {nowMs : ℕ} {r : RegistryRow} (hrow : room.row key = some r)
    (hlive : r.deleted = false) : (room.alarm nowMs).row key = some r := by
  rcases alarm_spec room.wf nowMs with he | hc
  · rw [← hrow]
    exact congrArg (·.row key) he
  · refine (hc.row key).trans ?_
    rw [show room.storage.row key = some r from hrow]
    exact Option.filter_some_pos (by simp [expired, hlive])

/-- The batch a step brings to the room. -/
inductive Brings (s : Net) : Act → String → List RowOp → Prop where
  | peer (batch : String) (ops : List RowOp) : Brings s (.peerPush batch ops) batch ops
  | socket {pushDue b outbox inbox} (h : s.link = .joined pushDue (b :: outbox) inbox) :
    Brings s .servePush b.batch b.ops
  | http {b rest} (h : s.http = .pushing (b :: rest)) : Brings s .httpServe b.batch b.ops

/-- The ops of a write or of another client are of the set. -/
def ActIn (H : Set (WithBot Hlc × WithBot ℤ)) (key : RowKey) : Act → Prop
  | .enqueue _ _ ops => ∀ op ∈ ops, op.key = key → OpIn H op
  | .peerPush _ ops => ∀ op ∈ ops, op.key = key → OpIn H op
  | _ => True

theorem Within.brings (h : Within H key s) (ha : ActIn H key a) {batch : String}
    {ops : List RowOp} (hb : Brings s a batch ops) : ∀ op ∈ ops, op.key = key → OpIn H op := by
  cases hb with
  | peer => exact ha
  | socket hl =>
    exact h.ops _ (mem_queue.mpr (Or.inr (Or.inl (by rw [hl]; exact List.mem_cons_self))))
  | http hh =>
    exact h.ops _ (mem_queue.mpr (Or.inr (Or.inr (by rw [hh]; exact List.mem_cons_self))))

theorem room_step (hs : Step s a s') : s'.room = s.room ∨ (∃ nowMs, s'.room = s.room.alarm nowMs) ∨
    ∃ batch ops, Brings s a batch ops ∧ s'.room = s.room.push batch ops := by
  cases hs with
  | peerPush => exact Or.inr (Or.inr ⟨_, _, .peer _ _, rfl⟩)
  | servePush hl => exact Or.inr (Or.inr ⟨_, _, .socket hl, rfl⟩)
  | httpServe hh => exact Or.inr (Or.inr ⟨_, _, .http hh, rfl⟩)
  | alarm => exact Or.inr (Or.inl ⟨_, rfl⟩)
  | _ => exact Or.inl rfl

/-- **The room's row gets no older.** -/
theorem row_step (h : Within H key s) (ha : ActIn H key a) (hs : Step s a s') {r : RegistryRow}
    (hrow : s.room.row key = some r) :
    ∃ r', s'.room.row key = some r' ∧ RowIn H r' ∧ (point (some r)).1 ≤ (point (some r')).1 := by
  obtain ⟨r₀, he, hr⟩ := h.room
  obtain rfl : r = r₀ := Option.some.inj (hrow.symm.trans he)
  rcases room_step hs with he | ⟨nowMs, he⟩ | ⟨batch, ops, hb, he⟩
  · exact ⟨r, by rw [he]; exact hrow, hr, le_rfl⟩
  · exact ⟨r, by rw [he]; exact row_alarm_live hrow hr.live, hr, le_rfl⟩
  · obtain ⟨r', he', hr', hle, -⟩ := row_push_in batch hrow hr (h.brings ha hb)
    exact ⟨r', by rw [he]; exact he', hr', hle⟩

theorem mem_enqueued {op : RowOp} (h : op ∈ s.enqueued a) :
    (∃ clock now ops, a = .enqueue clock now ops ∧ op ∈ ops) ∨
      ∃ state r key, s.applied a = some state ∧ s.doc.row key = some r ∧ op = rowToSeedOp r := by
  cases a with
  | enqueue clock now ops => exact Or.inl ⟨clock, now, ops, rfl, h⟩
  | _ =>
    simp only [Net.enqueued] at h
    split at h
    case h_1 state happ =>
      obtain ⟨r, hr, rfl⟩ := List.mem_map.mp h
      obtain ⟨-, key, hrow, -⟩ := mem_seedRows.mp hr
      exact Or.inr ⟨state, r, key, happ, hrow, rfl⟩
    case h_2 => cases h

theorem Within.enqueued (h : Within H key s) (ha : ActIn H key a) :
    ∀ op ∈ s.enqueued a, op.key = key → OpIn H op := by
  intro op hop hk
  obtain ⟨clock, now, ops, rfl, hop⟩ | ⟨state, r, key', -, hrow, rfl⟩ := mem_enqueued hop
  · exact ha op hop hk
  · rw [key_rowToSeedOp] at hk
    refine (h.doc r ?_).seed
    rw [← hk, h.keyed key' r hrow]
    exact hrow

/-- **A step leaves points of the set.** -/
theorem within_step (h : Within H key s) (ha : ActIn H key a) (hs : Step s a s') :
    Within H key s' := by
  obtain ⟨r, hrow, -⟩ := h.room
  obtain ⟨r', hrow', hr', -⟩ := row_step h ha hs hrow
  obtain ⟨batches, hadds⟩ := queue_step hs
  refine ⟨⟨r', hrow', hr'⟩, keyed_step hs h.keyed, fun r₁ hr₁ => ?_, fun r₁ hin hk => ?_,
    fun b hb op hop hk => ?_⟩
  · rcases rows_step hs hr₁ with hr₁ | ⟨hin, hk⟩
    · exact h.doc r₁ hr₁
    · exact h.incoming r₁ hin hk
  · rcases incoming_step hs hin with hin | hroom
    · exact h.incoming r₁ hin hk
    · rw [hk, hrow'] at hroom
      cases hroom
      exact hr'
  · rcases hadds.queue b hb with ⟨b₀, hb₀, hcopy⟩ | hnew
    · rw [← hcopy.2] at hop
      exact h.ops b₀ hb₀ op hop hk
    · exact h.enqueued ha op (hadds.ops b hnew op hop) hk

/-! ## Frames in order -/

/-- The row under a key, once a list of rows is applied. -/
def after (key : RowKey) (row : Option RegistryRow) (rows : List RegistryRow) :
    Option RegistryRow := Cover.put RegistryRow.key (fun _ => row) rows key

theorem put_eq_after (view : RowKey → Option RegistryRow) (rows : List RegistryRow) :
    Cover.put RegistryRow.key view rows key = after key (view key) rows := by
  induction rows using List.reverseRecOn with
  | nil => rfl
  | append_singleton rows r ih =>
    rw [after, Cover.put, Cover.put, List.foldl_append, List.foldl_append]
    by_cases hk : r.key = key
    · simp [hk]
    · simp only [List.foldl_cons, List.foldl_nil, Function.update_of_ne (Ne.symm hk)]
      exact ih

theorem after_cases (key : RowKey) (row : Option RegistryRow) (rows : List RegistryRow) :
    (after key row rows = row ∧ ∀ r ∈ rows, r.key ≠ key) ∨
      ∃ r ∈ rows, r.key = key ∧ after key row rows = some r :=
  Cover.put_cases (fun _ => row) rows key

theorem after_some (r : RegistryRow) (rows : List RegistryRow) :
    ∃ r', after key (some r) rows = some r' := by
  rcases after_cases key (some r) rows with ⟨he, -⟩ | ⟨r', -, -, he⟩
  · exact ⟨r, he⟩
  · exact ⟨r', he⟩

/-- Frames bring `row` up to `top`, the room's at seq `n`: each broadcast has a later seq than the
cursor `c` and the ones before it, and a row that is no older; each ack is of what the row has. -/
def Flows (key : RowKey) (taken : String → WithBot Hlc → Prop) (top : Option RegistryRow) (n : ℕ) :
    ℕ → Option RegistryRow → List Frame → Prop
  | c, row, [] => row = top ∧ c ≤ n
  | c, row, .rows frame :: rest => c < frame.seq ∧
    (point row).1 ≤ (point (after key row frame.rows)).1 ∧
    Flows key taken top n frame.seq (after key row frame.rows) rest
  | c, row, .ack name _ :: rest => taken name (point row).1 ∧ Flows key taken top n c row rest
  | c, row, .error _ _ :: rest => Flows key taken top n c row rest

section Flows

variable {taken taken' : String → WithBot Hlc → Prop} {top : Option RegistryRow} {n c : ℕ}
  {row : Option RegistryRow} {inbox : List Frame}

theorem Flows.mono (h : Flows key taken top n c row inbox)
    (ht : ∀ name x, taken name x → taken' name x) : Flows key taken' top n c row inbox := by
  induction inbox generalizing c row with
  | nil => exact h
  | cons frame rest ih =>
    cases frame with
    | rows frame => exact ⟨h.1, h.2.1, ih h.2.2⟩
    | ack name seq => exact ⟨ht _ _ h.1, ih h.2⟩
    | error code message => exact ih h

theorem Flows.le (h : Flows key taken top n c row inbox) : (point row).1 ≤ (point top).1 := by
  induction inbox generalizing c row with
  | nil => rw [h.1]
  | cons frame rest ih =>
    cases frame with
    | rows frame => exact h.2.1.trans (ih h.2.2)
    | ack name seq => exact ih h.2
    | error code message => exact ih h

theorem Flows.broadcast (h : Flows key taken top n c row inbox) {frame : RowsFrame}
    (hseq : n < frame.seq) (hle : (point top).1 ≤ (point (after key top frame.rows)).1) :
    Flows key taken (after key top frame.rows) frame.seq c row (inbox ++ [Frame.rows frame]) := by
  induction inbox generalizing c row with
  | nil =>
    obtain ⟨rfl, hc⟩ := h
    exact ⟨by omega, hle, rfl, le_rfl⟩
  | cons frame rest ih =>
    cases frame with
    | rows frame => exact ⟨h.1, h.2.1, ih h.2.2⟩
    | ack name seq => exact ⟨h.1, ih h.2⟩
    | error code message => exact ih h

theorem Flows.answer (h : Flows key taken top n c row inbox) {answer : PushReply}
    (ht : ∀ name seq applied, answer = .ack name seq applied → taken name (point top).1) :
    Flows key taken top n c row (inbox ++ [answer.frame]) := by
  induction inbox generalizing c row with
  | nil =>
    cases answer with
    | ack name seq applied =>
      obtain ⟨rfl, hc⟩ := h
      exact ⟨ht name seq applied rfl, rfl, hc⟩
    | error code message => exact h
  | cons frame rest ih =>
    cases frame with
    | rows frame => exact ⟨h.1, h.2.1, ih h.2.2⟩
    | ack name seq => exact ⟨h.1, ih h.2⟩
    | error code message => exact ih h

end Flows

/-! ## One device over its socket -/

/-- The name is of no batch to come, and its queued ops are no newer than the stamp. -/
def Taken (key : RowKey) (s : Net) (name : String) (x : WithBot Hlc) : Prop :=
  MintedBy s.doc.deviceId s.doc.clock name ∧ ∀ b ∈ s.queue, b.batch = name → ∀ op ∈ b.ops,
    op.key = key → ∀ w, op.writeAt lastSeenAt = some w → (w.1 : WithBot Hlc) ≤ x

theorem taken_step (hs : Step s a s') (name : String) (x : WithBot Hlc) (h : Taken key s name x) :
    Taken key s' name x := by
  obtain ⟨batches, hadds⟩ := queue_step hs
  refine ⟨by rw [hadds.device]; exact h.1.mono hadds.ticks, fun b hb he op hop => ?_⟩
  rcases hadds.queue b hb with ⟨b₀, hb₀, hcopy⟩ | hnew
  · rw [← hcopy.2] at hop
    exact h.2 b₀ hb₀ (hcopy.1.trans he) op hop
  · exact absurd (he ▸ h.1) (hadds.fresh b hnew).2

/-- What the session in progress brings; without one, the room's row is no older. -/
def LinkSteady (key : RowKey) (taken : String → WithBot Hlc → Prop) (room : Room)
    (doc : RegistryDoc) : Link → Prop
  | .joined _ _ inbox =>
    Flows key taken (room.row key) room.storage.seq doc.serverSeq (doc.row key) inbox
  | .greeted _ state inbox => (state.full = true → ∃ r ∈ state.rows, r.key = key) ∧
    (point (doc.row key)).1 ≤ (point (after key (doc.row key) state.rows)).1 ∧
    Flows key taken (room.row key) room.storage.seq state.seq
      (after key (doc.row key) state.rows) inbox
  | _ => (point (doc.row key)).1 ≤ (point (room.row key)).1

/-- A device that syncs over its socket. -/
structure Steady (key : RowKey) (s : Net) : Prop where
  idle : s.http = .idle
  synced : Synced s
  named : Named s
  bare : s.doc.row key = none → ∀ b ∈ s.queue, ∀ op ∈ b.ops, op.key ≠ key
  link : LinkSteady key (Taken key s) s.room s.doc s.link

section Link

variable {taken taken' : String → WithBot Hlc → Prop} {room room' : Room}
  {doc doc' : RegistryDoc} {link : Link}

theorem LinkSteady.le (h : LinkSteady key taken room doc link) :
    (point (doc.row key)).1 ≤ (point (room.row key)).1 := by
  cases link with
  | joined pushDue outbox inbox => exact Flows.le h
  | greeted cursor state inbox => exact h.2.1.trans h.2.2.le
  | down => exact h
  | hello cursor => exact h
  | closing => exact h

theorem LinkSteady.mono (h : LinkSteady key taken room doc link)
    (ht : ∀ name x, taken name x → taken' name x) (hroom : room'.row key = room.row key)
    (hn : room'.storage.seq = room.storage.seq) (hrow : doc'.row key = doc.row key)
    (hseq : doc'.serverSeq = doc.serverSeq) : LinkSteady key taken' room' doc' link := by
  cases link <;> simp only [LinkSteady, hroom, hn, hrow, hseq] at h ⊢
  case joined => exact h.mono ht
  case greeted => exact ⟨h.1, h.2.1, h.2.2.mono ht⟩
  all_goals exact h

theorem after_broadcast (key : RowKey) (room : Room) {batch : String} {ops : List RowOp}
    {frame : RowsFrame}
    (hf : (applyPushBatch room.storage batch ops).2.2 = some frame) :
    after key (room.row key) frame.rows = (room.push batch ops).row key := by
  have h := congrFun (put_broadcasts room [.other ⟨batch, ops⟩]) key
  simp only [Room.broadcasts, Arrival.batch, hf, Option.toList_some, List.append_nil,
    List.foldl_cons, List.foldl_nil] at h
  rw [put_eq_after] at h
  exact h

/-- **A batch that reaches the room keeps the session steady.** -/
theorem LinkSteady.push (h : LinkSteady key taken room doc link) {batch : String}
    {ops : List RowOp}
    (hle : (point (room.row key)).1 ≤ (point ((room.push batch ops).row key)).1) :
    LinkSteady key taken (room.push batch ops) doc
      (link.broadcast (applyPushBatch room.storage batch ops).2.2) := by
  cases hf : (applyPushBatch room.storage batch ops).2.2 with
  | none =>
    rw [room.push_idle hf]
    exact h
  | some frame =>
    have hrow := after_broadcast key room hf
    obtain ⟨-, hfseq, hseq⟩ := room.sent_push hf
    rw [← hrow] at hle
    cases link with
    | joined pushDue outbox inbox =>
      have hflow := Flows.broadcast h (by omega) hle
      rw [hrow, hfseq, ← hseq] at hflow
      exact hflow
    | greeted cursor state inbox =>
      have hflow := h.2.2.broadcast (by omega) hle
      rw [hrow, hfseq, ← hseq] at hflow
      exact ⟨h.1, h.2.1, hflow⟩
    | down =>
      rw [hrow] at hle
      exact le_trans (LinkSteady.le h) hle
    | hello cursor =>
      rw [hrow] at hle
      exact le_trans (LinkSteady.le h) hle
    | closing =>
      rw [hrow] at hle
      exact le_trans (LinkSteady.le h) hle

theorem LinkSteady.answer (h : LinkSteady key taken room doc link) {answer : PushReply}
    (ht : ∀ name seq applied, answer = .ack name seq applied →
      taken name (point (room.row key)).1) :
    LinkSteady key taken room doc (link.send answer.frame) := by
  cases link with
  | joined pushDue outbox inbox => exact Flows.answer h ht
  | greeted cursor state inbox => exact ⟨h.1, h.2.1, h.2.2.answer ht⟩
  | down => exact h
  | hello cursor => exact h
  | closing => exact h

end Link

theorem after_irrel {rows : List RegistryRow} (h : ∃ r ∈ rows, r.key = key)
    (row row' : Option RegistryRow) : after key row rows = after key row' rows := by
  induction rows using List.reverseRecOn with
  | nil =>
    obtain ⟨r, hr, -⟩ := h
    cases hr
  | append_singleton rows r ih =>
    simp only [after, Cover.put, List.foldl_append, List.foldl_cons, List.foldl_nil]
    by_cases hk : r.key = key
    · simp [hk]
    · rw [Function.update_of_ne (Ne.symm hk), Function.update_of_ne (Ne.symm hk)]
      obtain ⟨r', hr', hk'⟩ := h
      refine ih ⟨r', ?_, hk'⟩
      refine (List.mem_append.mp hr').resolve_right fun hr' => hk ?_
      rwa [← List.mem_singleton.mp hr']

theorem row_applyState {doc : RegistryDoc} {state : StateReply} (now : ℕ → ℤ)
    (hfull : state.full = true → ∃ r ∈ state.rows, r.key = key) :
    (doc.applyState now state).1.row key = after key (doc.row key) state.rows := by
  obtain ⟨batches, happ⟩ := applyState_spec doc now state
  rw [happ.row, put_eq_after]
  split_ifs with hrep
  · exact after_irrel (hfull hrep.1) _ _
  · rfl

section Step

theorem Steady.inTime (h : Steady key s) (a : Act) : s.InTime a := by
  have hlink := h.link
  unfold Net.InTime
  split
  · rename_i hl
    rw [hl] at hlink
    exact fun r _ r' _ hle => hle.trans hlink.1.le
  · rename_i hh
    rw [h.idle] at hh
    cases hh
  · rename_i hh
    rw [h.idle] at hh
    cases hh
  · trivial

/-- **The replica's row gets no older, and stays.** -/
theorem doc_step (h : Steady key s) (hs : Step s a s') :
    (point (s.doc.row key)).1 ≤ (point (s'.doc.row key)).1 ∧
      ∀ r, s.doc.row key = some r → ∃ r', s'.doc.row key = some r' := by
  have hsame : s'.doc.row key = s.doc.row key →
      (point (s.doc.row key)).1 ≤ (point (s'.doc.row key)).1 ∧
        ∀ r, s.doc.row key = some r → ∃ r', s'.doc.row key = some r' := by
    intro he
    rw [he]
    exact ⟨le_rfl, fun r hr => ⟨r, hr⟩⟩
  have hrows : ∀ {rows}, s'.doc.row key = after key (s.doc.row key) rows →
      (point (s.doc.row key)).1 ≤ (point (after key (s.doc.row key) rows)).1 →
      (point (s.doc.row key)).1 ≤ (point (s'.doc.row key)).1 ∧
        ∀ r, s.doc.row key = some r → ∃ r', s'.doc.row key = some r' := by
    intro rows he hle
    rw [he]
    refine ⟨hle, fun r hr => ?_⟩
    rw [hr]
    exact after_some r rows
  have hframe : ∀ {pushDue outbox frame inbox}, s.link = .joined pushDue outbox (frame :: inbox) →
      s'.doc = (Net.handleFrame s.doc frame).1 →
      (point (s.doc.row key)).1 ≤ (point (s'.doc.row key)).1 ∧
        ∀ r, s.doc.row key = some r → ∃ r', s'.doc.row key = some r' := by
    intro pushDue outbox frame inbox hl hdoc
    have hlink := h.link
    rw [hl] at hlink
    cases frame with
    | rows frame =>
      refine hrows ?_ hlink.2.1
      rw [hdoc, Net.handleFrame, row_applyRows, put_eq_after]
    | ack name seq => exact hsame (by rw [hdoc, Net.handleFrame, row_ackBatch])
    | error code message => exact hsame (by rw [hdoc]; rfl)
  have hidle := h.idle
  cases hs with
  | enqueue => exact hsame (by rw [row_enqueueOps])
  | recvState hl =>
    have hlink := h.link
    rw [hl] at hlink
    exact hrows (row_applyState _ hlink.1) hlink.2.1
  | recvFrame hl => exact hframe hl rfl
  | recvGap hl => exact hframe hl rfl
  | httpAck hh => rw [hidle] at hh; cases hh
  | httpApply hh => rw [hidle] at hh; cases hh
  | _ => exact hsame rfl

/-- The device writes of the chat only what it shows. -/
def ActOwn (key : RowKey) (s : Net) : Act → Prop
  | .enqueue _ _ ops => ∀ op ∈ ops, op.key = key → s.doc.row key ≠ none
  | _ => True

/-- **A replica without the row queues nothing for it.** -/
theorem bare_step (hk : s.doc.Keyed) (h : Steady key s) (hown : ActOwn key s a)
    (hs : Step s a s') (hnone : s'.doc.row key = none) :
    ∀ b ∈ s'.queue, ∀ op ∈ b.ops, op.key ≠ key := by
  have hbefore : s.doc.row key = none := by
    by_contra hsome
    obtain ⟨r, hr⟩ := Option.ne_none_iff_exists'.mp hsome
    obtain ⟨r', hr'⟩ := (doc_step h hs).2 r hr
    rw [hnone] at hr'
    cases hr'
  have henq : ∀ op ∈ s.enqueued a, op.key ≠ key := by
    intro op hop he
    obtain ⟨clock, now, ops, rfl, hop⟩ | ⟨state, r, key', -, hrow, rfl⟩ := mem_enqueued hop
    · exact hown op hop he hbefore
    · rw [key_rowToSeedOp, hk key' r hrow] at he
      rw [he, hbefore] at hrow
      cases hrow
  obtain ⟨batches, hadds⟩ := queue_step hs
  intro b hb op hop
  rcases hadds.queue b hb with ⟨b₀, hb₀, hcopy⟩ | hnew
  · rw [← hcopy.2] at hop
    exact h.bare hbefore b₀ hb₀ op hop
  · exact henq op (hadds.ops b hnew op hop)

theorem after_stateSince (hw : Within H key s) {cursor : Option ℕ}
    (hcov : Covers RegistryRow.seq s.room.row s.doc.row (cursor.getD 0)) :
    after key (s.doc.row key) (s.room.storage.stateSince cursor).rows = s.room.row key ∧
      ((s.room.storage.stateSince cursor).full = true →
        ∃ r ∈ (s.room.storage.stateSince cursor).rows, r.key = key) := by
  obtain ⟨r, hrow, -⟩ := hw.room
  have hkey := s.room.wf.keyed key r hrow
  have hpos := s.room.wf.seq_pos key r hrow
  refine ⟨?_, fun hfull => ⟨r, ?_, hkey⟩⟩
  · rcases after_cases key (s.doc.row key) (s.room.storage.stateSince cursor).rows with
      ⟨he, hno⟩ | ⟨r', hr', hk', he⟩
    · rw [he, hrow]
      refine hcov key r hrow ?_
      by_contra hlt
      refine hno r ((s.room.mem_stateSince cursor).mpr ⟨by rw [hkey]; exact hrow, ?_⟩) hkey
      split_ifs
      · exact hpos
      · omega
    · have hroom := ((s.room.mem_stateSince cursor).mp hr').1
      rw [he, ← hk', hroom]
  · refine (s.room.mem_stateSince cursor).mpr ⟨by rw [hkey]; exact hrow, ?_⟩
    rw [if_pos hfull]
    exact hpos

/-- **Every step over the socket keeps the device steady.** -/
theorem steady_step (hw : Within H key s) (ha : ActIn H key a) (h : Steady key s)
    (hown : ActOwn key s a) (hspawn : a ≠ .httpSpawn) (hs : Step s a s') : Steady key s' := by
  have hidle := h.idle
  have hlink := h.link
  have hsynced := synced_step h.synced (h.inTime a) (step_iff.mpr hs)
  have hnamed := named_step h.named hs
  have hbare := bare_step hw.keyed h hown hs
  have ht : ∀ name x, Taken key s name x → Taken key s' name x := taken_step hs
  obtain ⟨r, hrow, hr⟩ := hw.room
  have hpush : ∀ {batch ops}, Brings s a batch ops →
      (point (s.room.row key)).1 ≤ (point ((s.room.push batch ops).row key)).1 ∧
        (checkBatch batch ops = none → ∀ op ∈ ops, op.key = key →
          ∀ w, op.writeAt lastSeenAt = some w →
            (w.1 : WithBot Hlc) ≤ (point ((s.room.push batch ops).row key)).1) := by
    intro batch ops hb
    obtain ⟨r', he, -, hle, htaken⟩ := row_push_in batch hrow hr (hw.brings ha hb)
    rw [hrow, he]
    exact ⟨hle, htaken⟩
  have hkeep : s'.http = .idle → LinkSteady key (Taken key s') s'.room s'.doc s'.link →
      Steady key s' := fun hi hl => ⟨hi, hsynced, hnamed, hbare, hl⟩
  cases hs with
  | enqueue =>
    exact hkeep hidle
      (hlink.mono ht rfl rfl (by rw [row_enqueueOps]) (by rw [serverSeq_enqueueOps]))
  | hostNudge => exact hkeep hidle (hlink.mono ht rfl rfl rfl rfl)
  | peerPush =>
    exact hkeep hidle (LinkSteady.push (hlink.mono ht rfl rfl rfl rfl) (hpush (.peer _ _)).1)
  | alarm =>
    refine hkeep hidle (hlink.mono ht ?_ (s.room.seq_alarm _) rfl rfl)
    rw [row_alarm_live hrow hr.live, hrow]
  | dial hl =>
    refine hkeep hidle ?_
    exact hlink.le
  | serveHello hl =>
    have hs := h.synced.link
    rw [hl] at hs
    obtain ⟨hrows, hfull⟩ := after_stateSince hw hs.1
    refine hkeep hidle ⟨hfull, ?_, ?_⟩
    · show _ ≤ (point (after key (s.doc.row key) _)).1
      rw [hrows]
      exact hlink.le
    · exact ⟨hrows, le_rfl⟩
  | recvState hl =>
    rw [hl] at hlink
    refine hkeep hidle ?_
    show Flows _ _ _ _ _ _ _
    obtain ⟨batches, happ⟩ := applyState_spec s.doc ‹ℕ → ℤ› ‹StateReply›
    rw [row_applyState _ hlink.1, happ.serverSeq]
    exact hlink.2.2.mono ht
  | takeNudge hl =>
    rw [hl] at hlink
    exact hkeep hidle (Flows.mono hlink ht)
  | pushPending hl =>
    rw [hl] at hlink
    exact hkeep hidle (Flows.mono hlink ht)
  | @servePush pushDue b outbox inbox hl =>
    obtain ⟨hle, htaken⟩ := hpush (.socket hl)
    rw [hl] at hlink
    have hb : b ∈ s.queue :=
      mem_queue.mpr (Or.inr (Or.inl (by rw [hl]; exact List.mem_cons_self)))
    have hpopped : LinkSteady key (Taken key _) s.room s.doc (.joined pushDue outbox inbox) :=
      Flows.mono hlink ht
    have hpushed := hpopped.push hle
    refine hkeep hidle (hpushed.answer fun name seq applied he => ht name _ ?_)
    -- the room has just taken the batch, under the only name it has
    obtain ⟨rfl, hcheck⟩ := answer_ack he
    refine ⟨h.named.minted b hb, fun b' hb' he' op hop hk w hw => ?_⟩
    rw [h.named.agree b' hb' b hb he'] at hop
    exact htaken hcheck op hop hk w hw
  | @recvFrame outbox frame inbox hl hgo =>
    rw [hl] at hlink
    refine hkeep hidle ?_
    cases frame with
    | rows frame =>
      obtain ⟨hspec, hok⟩ := applyRows_spec s.doc frame
      have hnext : frame.seq = s.doc.serverSeq + 1 := by
        have := hok.mp hgo
        have := hlink.1
        omega
      show Flows _ _ _ _ (s.doc.applyRows frame).1.serverSeq ((s.doc.applyRows frame).1.row key) _
      rw [row_applyRows, put_eq_after, hspec, if_pos hnext]
      exact hlink.2.2.mono ht
    | ack name seq =>
      show Flows _ _ _ _ (s.doc.ackBatch name).1.serverSeq ((s.doc.ackBatch name).1.row key) _
      rw [row_ackBatch, serverSeq_ackBatch]
      exact hlink.2.mono ht
    | error code message => exact Flows.mono hlink ht
  | @recvGap outbox frame inbox hl hgap =>
    rw [hl] at hlink
    refine hkeep hidle ?_
    cases frame with
    | rows frame =>
      show (point ((s.doc.applyRows frame).1.row key)).1 ≤ _
      rw [row_applyRows, put_eq_after]
      exact hlink.2.2.le
    | ack name seq => cases hgap
    | error code message => cases hgap
  | drop => exact hkeep hidle hlink.le
  | markDown => exact hkeep hidle hlink.le
  | httpSpawn => exact absurd rfl hspawn
  | httpTake hh => rw [hidle] at hh; cases hh
  | httpServe hh => rw [hidle] at hh; cases hh
  | httpAck hh => rw [hidle] at hh; cases hh
  | httpFail hh => rw [hidle] at hh; exact hh.elim
  | httpPull hh => rw [hidle] at hh; exact hh.elim
  | httpAnswer hh => rw [hidle] at hh; cases hh
  | httpApply hh => rw [hidle] at hh; cases hh
  | httpPullFail hh => rw [hidle] at hh; exact hh.elim

theorem Steady.acked (h : Steady key s) {name : String} (hname : name ∈ s.acked a) :
    Taken key s name (point (s.doc.row key)).1 := by
  have hlink := h.link
  unfold Net.acked at hname
  split at hname
  · rename_i batch seq inbox hl
    rw [List.mem_singleton.mp hname]
    rw [hl] at hlink
    exact hlink.1
  · rename_i hh
    rw [h.idle] at hh
    cases hh
  · cases hname

end Step

/-- **No step lowers what a steady device shows**: its row gets no older, and what an ack retires
is in it. -/
theorem shown_step {chatId : String} (hH : InOrder H) (hw : Within H ⟨kindChats, chatId⟩ s)
    (hw' : Within H ⟨kindChats, chatId⟩ s') (h : Steady ⟨kindChats, chatId⟩ s)
    (hs : Step s a s') : shown s.doc chatId ≤ shown s'.doc chatId := by
  have hops : ∀ {t : Net}, Within H ⟨kindChats, chatId⟩ t →
      ∀ op ∈ opsAt (t.doc.pending.flatMap (·.ops)) ⟨kindChats, chatId⟩, OpIn H op := by
    intro t ht op hop
    obtain ⟨hop, hk⟩ := List.mem_filter.mp hop
    obtain ⟨b, hb, hop⟩ := List.mem_flatMap.mp hop
    exact ht.ops b (mem_queue.mpr (Or.inl hb)) op hop (of_decide_eq_true hk)
  obtain ⟨hle, hstays⟩ := doc_step h hs
  cases hrow : s.doc.row ⟨kindChats, chatId⟩ with
  | none =>
    have hno : ∀ op ∈ s.doc.pending.flatMap (·.ops), op.key ≠ ⟨kindChats, chatId⟩ := by
      intro op hop
      obtain ⟨b, hb, hop⟩ := List.mem_flatMap.mp hop
      exact h.bare hrow b (mem_queue.mpr (Or.inl hb)) op hop
    rw [shown, RegistryDoc.overlayRow, hrow, foldl_other hno]
    exact bot_le
  | some r =>
    obtain ⟨r', hrow'⟩ := hstays r hrow
    rw [hrow, hrow'] at hle
    refine shown_le hH hrow (hw.doc r hrow) (hops hw) hrow' (hw'.doc r' hrow') (hops hw') hle ?_
    intro op hop
    obtain ⟨hop, hk⟩ := List.mem_filter.mp hop
    obtain ⟨b, hb, hop⟩ := List.mem_flatMap.mp hop
    by_cases hack : b.batch ∈ s.acked a
    · refine Or.inr fun w hw => le_trans ?_ hle
      have htaken := (h.acked hack).2 b (mem_queue.mpr (Or.inl hb)) rfl op hop
        (of_decide_eq_true hk) w hw
      rwa [hrow] at htaken
    · -- what no ack names stays queued
      obtain ⟨newer, hentries⟩ := entries_step (step_iff.mpr hs)
      have hstay : (b.batch, b.ops) ∈ s'.doc.entries := by
        rw [hentries]
        refine List.mem_append_left _ (List.mem_filter.mpr ⟨?_, by simpa using hack⟩)
        exact List.mem_map.mpr ⟨b, hb, rfl⟩
      obtain ⟨b', hb', he⟩ := List.mem_map.mp hstay
      refine Or.inl (List.mem_filter.mpr ⟨List.mem_flatMap.mpr ⟨b', hb', ?_⟩, hk⟩)
      rw [show b'.ops = b.ops from congrArg Prod.snd he]
      exact hop

end Zeron.Seen
