import Zeron.Registry.Outbox

/-!
# What the room will have

A replica shows rows that the room has sent, and rows that its own queued ops will put there. Both
stay so while the room purges nothing.

* `Room.Present`: rows that the room has; no push removes one, and a create adds its row;
* `Named`, **`named_step`**: a batch name stands for one list of ops;
* `ackOut_step`, `Retired`, **`retired_step`**: an ack is out only for ops whose rows the room has;
* `Known`, **`incoming_step`**, `known_step`: the room has every row on its way to the replica;
* `Backed`, **`backed_step`**, **`backed_of_full`**: every row of the replica is in the room or in
  a queued op.
-/

namespace Zeron.Registry

/-! ## Rows that the room has -/

/-- The room has a row under the key. -/
def Room.Present (room : Room) (key : RowKey) : Prop := ∃ r, room.row key = some r

theorem applyOp_present {op : RowOp} (h : op.op ≠ .update) (row : Option RegistryRow) :
    ∃ r, (applyOp row op).1 = some r := by
  rcases row with _ | r
  · by_cases hdel : op.op = .delete
    · exact ⟨_, by rw [applyOp_delete_none hdel]⟩
    · have hbase : ∃ base, baseFor none op = some base := by
        rw [baseFor_none, if_neg h]
        exact ⟨_, rfl⟩
      obtain ⟨base, hbase⟩ := hbase
      exact ⟨_, (applyOp_write hdel hbase).1⟩
  · exact applyOp_some r op

theorem stampOp_present {n : ℕ} {row : Option RegistryRow} {op : RowOp}
    (h : ∃ r, (applyOp row op.plain).1 = some r) : ∃ r, stampOp n row op = some r := by
  obtain ⟨r, hr⟩ := h
  rcases hch : (applyOp row op.plain).2 with _ | _
  · rw [stampOp_unchanged hch, ← applyOp_unchanged hch]
    exact ⟨r, hr⟩
  · rw [stampOp_changed hch, hr]
    exact ⟨_, rfl⟩

theorem rowAfter_present {n : ℕ} {row : Option RegistryRow} (h : ∃ r, row = some r)
    (ops : List RowOp) : ∃ r, rowAfter n row ops = some r := by
  induction ops using List.reverseRecOn with
  | nil => exact h
  | append_singleton ops op ih =>
    obtain ⟨r, hr⟩ := ih
    rw [rowAfter_concat, hr]
    exact stampOp_present (applyOp_some r op.plain)

section Present

variable {room : Room} {key : RowKey} {batch : String} {ops : List RowOp}

theorem Room.Present.push (h : room.Present key) : (room.push batch ops).Present key := by
  rcases hc : checkBatch batch ops with _ | error
  · obtain ⟨r, hr⟩ := rowAfter_present h (opsAt ops key)
    exact ⟨r, ((applyPushBatch_spec room.wf hc).rows key).trans hr⟩
  · have hsame : room.push batch ops = room := by
      apply Room.ext
      exact congrArg Prod.fst (applyPushBatch_refused hc)
    rwa [hsame]

/-- **An accepted upsert or delete leaves its row in the room.** -/
theorem Room.present_of_op (room : Room) (hc : checkBatch batch ops = none) {op : RowOp}
    (hop : op ∈ ops) (hcreate : op.op ≠ .update) : (room.push batch ops).Present op.key := by
  have hat : op ∈ opsAt ops op.key := List.mem_filter.mpr ⟨hop, by simp⟩
  obtain ⟨before, after, he⟩ := List.append_of_mem hat
  have hplain : op.plain.op ≠ .update := hcreate
  have hrow : ∃ r, rowAfter (room.storage.seq + 1) (room.row op.key) (opsAt ops op.key) =
      some r := by
    rw [he, List.append_cons, rowAfter_append, rowAfter_concat]
    exact rowAfter_present (stampOp_present (applyOp_present hplain _)) after
  obtain ⟨r, hr⟩ := hrow
  exact ⟨r, ((applyPushBatch_spec room.wf hc).rows op.key).trans hr⟩

/-- The alarm purges nothing at this time. -/
def Room.Unexpired (room : Room) (nowMs : ℕ) : Prop :=
  ∀ e ∈ room.storage.rows.toList, expired (horizonHlc nowMs) e.2 = false

instance (room : Room) (nowMs : ℕ) : Decidable (room.Unexpired nowMs) :=
  inferInstanceAs (Decidable (∀ e ∈ room.storage.rows.toList, _))

theorem Room.Unexpired.alarm {nowMs : ℕ} (h : room.Unexpired nowMs) :
    (room.alarm nowMs).storage.rows = room.storage.rows ∧
      (room.alarm nowMs).storage.seq = room.storage.seq ∧
      (room.alarm nowMs).storage.gcFloor = room.storage.gcFloor := by
  have hcollect : room.storage.collect (horizonHlc nowMs) = room.storage := by
    have hpurged : purgedMaxSeq (horizonHlc nowMs) (room.storage.rows.toList.map (·.2)) = 0 := by
      refine Nat.le_zero.mp ((purgedMaxSeq_le _ _).mpr fun r hr hx => ?_)
      obtain ⟨e, he, rfl⟩ := List.mem_map.mp hr
      rw [h e he] at hx
      cases hx
    simp only [Storage.collect, hpurged, lt_irrefl, if_false]
  simp only [Room.alarm, Storage.alarm, hcollect]
  split_ifs <;> exact ⟨rfl, rfl, rfl⟩

theorem Room.Unexpired.row {nowMs : ℕ} (h : room.Unexpired nowMs) (key : RowKey) :
    (room.alarm nowMs).row key = room.row key := by
  rw [Room.row, Room.row, Storage.row, Storage.row, h.alarm.1]

end Present

/-! ## Batch names -/

/-- A name stands for one list of ops, and was minted by the replica's clock. -/
structure Named (s : Net) : Prop where
  minted : ∀ b ∈ s.queue, MintedBy s.doc.deviceId s.doc.clock b.batch
  agree : ∀ b ∈ s.queue, ∀ b' ∈ s.queue, b.batch = b'.batch → b.ops = b'.ops

theorem Adds.minted {s s' : Net} {ops : List RowOp} {batches : List PendingBatch} (h : Named s)
    (hadds : Adds s s' ops batches) {b : PendingBatch} (hb : b ∈ s'.queue) :
    MintedBy s'.doc.deviceId s'.doc.clock b.batch := by
  rw [hadds.device]
  rcases hadds.queue b hb with ⟨b₀, hb₀, hcopy⟩ | hnew
  · rw [← hcopy.1]
    exact (h.minted b₀ hb₀).mono hadds.ticks
  · exact (hadds.fresh b hnew).1

/-- **Names keep standing for their ops.** -/
theorem named_step {s s' : Net} {a : Act} (h : Named s) (hs : Step s a s') : Named s' := by
  obtain ⟨batches, hadds⟩ := queue_step hs
  refine ⟨fun b hb => hadds.minted h hb, fun b hb b' hb' he => ?_⟩
  rcases hadds.queue b hb with ⟨b₀, hb₀, hcopy⟩ | hnew
  · rcases hadds.queue b' hb' with ⟨b₁, hb₁, hcopy'⟩ | hnew'
    · rw [← hcopy.2, ← hcopy'.2]
      exact h.agree b₀ hb₀ b₁ hb₁ (by rw [hcopy.1, hcopy'.1, he])
    · -- a new name is not an old one
      refine absurd (h.minted b₀ hb₀) ?_
      rw [hcopy.1, he]
      exact (hadds.fresh b' hnew').2
  · rcases hadds.queue b' hb' with ⟨b₁, hb₁, hcopy'⟩ | hnew'
    · refine absurd (h.minted b₁ hb₁) ?_
      rw [hcopy'.1, ← he]
      exact (hadds.fresh b hnew).2
    · rw [List.inj_on_of_nodup_map hadds.distinct hnew hnew' he]

/-! ## Acks -/

def Link.inbox : Link → List Frame
  | .greeted _ _ inbox => inbox
  | .joined _ _ inbox => inbox
  | _ => []

theorem mem_inbox_send {link : Link} {frame f : Frame} (h : f ∈ (link.send frame).inbox) :
    f ∈ link.inbox ∨ f = frame := by
  rcases link with _ | _ | _ | _ | _
  case greeted => exact (List.mem_append.mp h).imp_right List.mem_singleton.mp
  case joined => exact (List.mem_append.mp h).imp_right List.mem_singleton.mp
  all_goals exact Or.inl h

theorem mem_inbox_broadcast {link : Link} {frame : Option RowsFrame} {f : Frame}
    (h : f ∈ (link.broadcast frame).inbox) :
    f ∈ link.inbox ∨ ∃ rows, frame = some rows ∧ f = .rows rows := by
  rcases frame with _ | rows
  · exact Or.inl h
  · exact (mem_inbox_send h).imp_right fun he => ⟨rows, rfl, he⟩

/-- An ack of the name is on its way to the replica. -/
def Net.AckOut (s : Net) (name : String) : Prop :=
  (∃ seq, Frame.ack name seq ∈ s.link.inbox) ∨
    ∃ seq applied rest, s.http = .posted (.ack name seq applied) rest

theorem answer_ack {s : Net} {b : PendingBatch} {name : String} {seq applied : ℕ}
    (h : s.answer b = .ack name seq applied) :
    b.batch = name ∧ checkBatch b.batch b.ops = none := by
  unfold Net.answer at h
  rcases hc : checkBatch b.batch b.ops with _ | error
  · refine ⟨?_, rfl⟩
    simp only [applyPushBatch, hc] at h
    split_ifs at h <;> cases h <;> rfl
  · rw [applyPushBatch_refused hc] at h
    cases h

/-- **An ack was on its way before the step, or the room has just taken its batch.** -/
theorem ackOut_step {s s' : Net} {a : Act} (hs : Step s a s') {name : String}
    (h : s'.AckOut name) : s.AckOut name ∨ ∃ b ∈ s.queue, b.batch = name ∧
      checkBatch b.batch b.ops = none ∧ s'.room = s.room.push b.batch b.ops := by
  have hinbox : (∀ seq, Frame.ack name seq ∈ s'.link.inbox → Frame.ack name seq ∈ s.link.inbox) →
      s'.http = s.http → s.AckOut name := by
    intro hsub hhttp
    rw [Net.AckOut, hhttp] at h
    exact h.imp_left fun ⟨seq, hm⟩ => ⟨seq, hsub seq hm⟩
  have htask : s'.link = s.link → (∀ answer rest, s'.http ≠ .posted answer rest) →
      s.AckOut name := by
    intro hlink hno
    rw [Net.AckOut, hlink] at h
    refine Or.inl (h.resolve_right ?_)
    rintro ⟨seq, applied, rest, he⟩
    exact hno _ _ he
  have hbroadcast : ∀ {link : Link} {frame seq}, Frame.ack name seq ∈ (link.broadcast frame).inbox →
      Frame.ack name seq ∈ link.inbox := by
    intro link frame seq hm
    rcases mem_inbox_broadcast hm with hm | ⟨rows, -, he⟩
    · exact hm
    · cases he
  cases hs with
  | @servePush pushDue b outbox inbox hl =>
    rcases h with ⟨seq, hm⟩ | hh
    · rcases mem_inbox_send hm with hm | he
      · have hm := hbroadcast hm
        refine Or.inl (Or.inl ⟨seq, ?_⟩)
        rw [hl]
        exact hm
      · refine Or.inr ⟨b, ?_, ?_⟩
        · exact mem_queue.mpr (Or.inr (Or.inl (by rw [hl]; exact List.mem_cons_self)))
        · rcases hans : s.answer b with ⟨code, message⟩ | ⟨batch, n, applied⟩
          · rw [hans] at he
            cases he
          · rw [hans] at he
            cases he
            obtain ⟨hname, hcheck⟩ := answer_ack hans
            exact ⟨hname, hcheck, rfl⟩
    · exact Or.inl (Or.inr hh)
  | @httpServe b rest hh =>
    rcases h with ⟨seq, hm⟩ | ⟨seq, applied, rest, he⟩
    · exact Or.inl (Or.inl ⟨seq, hbroadcast hm⟩)
    · simp only [Http.posted.injEq] at he
      obtain ⟨hname, hcheck⟩ := answer_ack he.1
      exact Or.inr ⟨b, mem_queue.mpr (Or.inr (Or.inr (by rw [hh]; exact List.mem_cons_self))),
        hname, hcheck, rfl⟩
  | peerPush => exact Or.inl (hinbox (fun seq => hbroadcast) rfl)
  | recvState hl => exact Or.inl (hinbox (fun seq hm => by rw [hl]; exact hm) rfl)
  | takeNudge hl => exact Or.inl (hinbox (fun seq hm => by rw [hl]; exact hm) rfl)
  | pushPending hl => exact Or.inl (hinbox (fun seq hm => by rw [hl]; exact hm) rfl)
  | recvFrame hl =>
    exact Or.inl (hinbox (fun seq hm => by rw [hl]; exact List.mem_cons_of_mem _ hm) rfl)
  | enqueue => exact Or.inl (hinbox (fun _ hm => hm) rfl)
  | hostNudge => exact Or.inl (hinbox (fun _ hm => hm) rfl)
  | alarm => exact Or.inl (hinbox (fun _ hm => hm) rfl)
  | dial => exact Or.inl (hinbox (fun _ hm => by cases hm) rfl)
  | serveHello => exact Or.inl (hinbox (fun _ hm => by cases hm) rfl)
  | recvGap => exact Or.inl (hinbox (fun _ hm => by cases hm) rfl)
  | drop => exact Or.inl (hinbox (fun _ hm => by cases hm) rfl)
  | markDown => exact Or.inl (hinbox (fun _ hm => by cases hm) rfl)
  | _ => exact Or.inl (htask rfl fun _ _ he => by cases he)

/-- Where an ack of a batch is out, the room has the rows it created. -/
def Retired (s : Net) : Prop := ∀ name, s.AckOut name →
  MintedBy s.doc.deviceId s.doc.clock name ∧
    ∀ b ∈ s.queue, b.batch = name → ∀ op ∈ b.ops, op.op ≠ .update → s.room.Present op.key

/-- The step purges no row. -/
def Net.Lasting (s : Net) (a : Act) : Prop :=
  match a with
  | .alarm nowMs => s.room.Unexpired nowMs
  | _ => True

instance (s : Net) (a : Act) : Decidable (s.Lasting a) := by
  unfold Net.Lasting
  split <;> infer_instance

theorem present_step {s s' : Net} {a : Act} (hlast : s.Lasting a) (hs : Step s a s')
    {key : RowKey} (h : s.room.Present key) : s'.room.Present key := by
  cases hs with
  | alarm =>
    obtain ⟨r, hr⟩ := h
    exact ⟨r, (hlast.row key).trans hr⟩
  | peerPush => exact h.push
  | servePush => exact h.push
  | httpServe => exact h.push
  | _ => exact h

/-- **Acks keep standing for rows that the room has.** -/
theorem retired_step {s s' : Net} {a : Act} (hnamed : Named s) (h : Retired s)
    (hlast : s.Lasting a) (hs : Step s a s') : Retired s' := by
  obtain ⟨batches, hadds⟩ := queue_step hs
  intro name hout
  have hold : MintedBy s.doc.deviceId s.doc.clock name →
      (∀ b ∈ s.queue, b.batch = name → ∀ op ∈ b.ops, op.op ≠ .update →
        s'.room.Present op.key) →
      MintedBy s'.doc.deviceId s'.doc.clock name ∧ ∀ b ∈ s'.queue, b.batch = name →
        ∀ op ∈ b.ops, op.op ≠ .update → s'.room.Present op.key := by
    intro hm hq
    refine ⟨by rw [hadds.device]; exact hm.mono hadds.ticks, fun b hb he op hop hc => ?_⟩
    rcases hadds.queue b hb with ⟨b₀, hb₀, hcopy⟩ | hnew
    · rw [← hcopy.2] at hop
      exact hq b₀ hb₀ (hcopy.1.trans he) op hop hc
    · exact absurd (he ▸ hm) (hadds.fresh b hnew).2
  rcases ackOut_step hs hout with hout | ⟨b, hb, he, hcheck, hroom⟩
  · obtain ⟨hm, hq⟩ := h name hout
    exact hold hm fun b hb he op hop hc => present_step hlast hs (hq b hb he op hop hc)
  · refine hold (he ▸ hnamed.minted b hb) fun b' hb' he' op hop hc => ?_
    rw [hnamed.agree b' hb' b hb (he'.trans he.symm)] at hop
    rw [hroom]
    exact s.room.present_of_op hcheck hop hc

/-! ## Rows on their way -/

/-- The row is on its way to the replica. -/
def Net.Incoming (s : Net) (r : RegistryRow) : Prop :=
  (∃ frame, Frame.rows frame ∈ s.link.inbox ∧ r ∈ frame.rows) ∨
  (∃ cursor state inbox, s.link = .greeted cursor state inbox ∧ r ∈ state.rows) ∨
  ∃ since state, s.http = .answered since state ∧ r ∈ state.rows

/-- The room has every row that is on its way. -/
def Known (s : Net) : Prop := ∀ r, s.Incoming r → s.room.Present r.key

theorem incoming_of_applied {s : Net} {a : Act} {state : StateReply} {r : RegistryRow}
    (hstate : s.applied a = some state) (hr : r ∈ state.rows) : s.Incoming r := by
  unfold Net.applied at hstate
  split at hstate
  · rename_i hl
    cases hstate
    exact Or.inr (Or.inl ⟨_, _, _, hl, hr⟩)
  · rename_i hh
    cases hstate
    exact Or.inr (Or.inr ⟨_, _, hh, hr⟩)
  · cases hstate

/-- **A row on its way was so before the step, or the room has just read it.** -/
theorem incoming_step {s s' : Net} {a : Act} (hs : Step s a s') {r : RegistryRow}
    (h : s'.Incoming r) : s.Incoming r ∨ s'.room.row r.key = some r := by
  have hkeep : (∀ frame, Frame.rows frame ∈ s'.link.inbox → Frame.rows frame ∈ s.link.inbox) →
      (∀ cursor state inbox, s'.link = .greeted cursor state inbox →
        ∃ inbox₀, s.link = .greeted cursor state inbox₀) →
      (∀ since state, s'.http = .answered since state → s.http = .answered since state) →
      s.Incoming r := by
    intro hinbox hlink hhttp
    rcases h with ⟨frame, hm, hr⟩ | ⟨cursor, state, inbox, hl, hr⟩ | ⟨since, state, hh, hr⟩
    · exact Or.inl ⟨frame, hinbox frame hm, hr⟩
    · obtain ⟨inbox₀, hl⟩ := hlink cursor state inbox hl
      exact Or.inr (Or.inl ⟨cursor, state, inbox₀, hl, hr⟩)
    · exact Or.inr (Or.inr ⟨since, state, hhttp since state hh, hr⟩)
  have hbroadcast : ∀ {link : Link} {batch ops frame}, link.inbox ⊆ s.link.inbox →
      Frame.rows frame ∈ (link.broadcast (applyPushBatch s.room.storage batch ops).2.2).inbox →
      r ∈ frame.rows → s.Incoming r ∨ (s.room.push batch ops).row r.key = some r := by
    intro link batch ops frame hsub hm hr
    rcases mem_inbox_broadcast hm with hm | ⟨rows, hf, he⟩
    · exact Or.inl (Or.inl ⟨frame, hsub hm, hr⟩)
    · cases he
      exact Or.inr (s.room.row_of_sent hf hr)
  have hstate : ∀ {cursor}, r ∈ (s.room.storage.stateSince cursor).rows →
      s.room.row r.key = some r := fun hr => ((s.room.mem_stateSince _).mp hr).1
  cases hs with
  | peerPush =>
    rcases h with ⟨frame, hm, hr⟩ | ⟨cursor, state, inbox, hl, hr⟩ | hh
    · exact hbroadcast (List.Subset.refl _) hm hr
    · obtain ⟨inbox₀, hl⟩ := greeted_broadcast hl
      exact Or.inl (Or.inr (Or.inl ⟨cursor, state, inbox₀, hl, hr⟩))
    · exact Or.inl (Or.inr (Or.inr hh))
  | @servePush pushDue b outbox inbox hl =>
    rcases h with ⟨frame, hm, hr⟩ | ⟨cursor, state, inbox, he, hr⟩ | hh
    · rcases mem_inbox_send hm with hm | he
      · refine hbroadcast ?_ hm hr
        rw [hl]
        exact List.Subset.refl _
      · rcases hans : s.answer b with _ | _ <;> simp [hans, PushReply.frame] at he
    · rcases hb : (applyPushBatch s.room.storage b.batch b.ops).2.2 with _ | frame <;>
        simp [Net.push, hb, Link.broadcast, Link.send] at he
    · exact Or.inl (Or.inr (Or.inr hh))
  | httpServe hh =>
    rcases h with ⟨frame, hm, hr⟩ | ⟨cursor, state, inbox, hl, hr⟩ | ⟨since, state, he, hr⟩
    · exact hbroadcast (List.Subset.refl _) hm hr
    · obtain ⟨inbox₀, hl⟩ := greeted_broadcast hl
      exact Or.inl (Or.inr (Or.inl ⟨cursor, state, inbox₀, hl, hr⟩))
    · cases he
  | serveHello hl =>
    rcases h with ⟨frame, hm, hr⟩ | ⟨cursor, state, inbox, he, hr⟩ | hh
    · cases hm
    · cases he
      exact Or.inr (hstate hr)
    · exact Or.inl (Or.inr (Or.inr hh))
  | httpAnswer hh =>
    rcases h with ⟨frame, hm, hr⟩ | ⟨cursor, state, inbox, hl, hr⟩ | ⟨since, state, he, hr⟩
    · exact Or.inl (Or.inl ⟨frame, hm, hr⟩)
    · exact Or.inl (Or.inr (Or.inl ⟨cursor, state, inbox, hl, hr⟩))
    · cases he
      exact Or.inr (hstate hr)
  | recvState hl =>
    exact Or.inl (hkeep (fun f hm => by rw [hl]; exact hm) (fun _ _ _ he => by cases he)
      fun _ _ he => he)
  | takeNudge hl =>
    exact Or.inl (hkeep (fun f hm => by rw [hl]; exact hm) (fun _ _ _ he => by cases he)
      fun _ _ he => he)
  | pushPending hl =>
    exact Or.inl (hkeep (fun f hm => by rw [hl]; exact hm) (fun _ _ _ he => by cases he)
      fun _ _ he => he)
  | recvFrame hl =>
    exact Or.inl (hkeep (fun f hm => by rw [hl]; exact List.mem_cons_of_mem _ hm)
      (fun _ _ _ he => by cases he) fun _ _ he => he)
  | dial =>
    exact Or.inl (hkeep (fun f hm => by cases hm) (fun _ _ _ he => by cases he) fun _ _ he => he)
  | recvGap =>
    exact Or.inl (hkeep (fun f hm => by cases hm) (fun _ _ _ he => by cases he) fun _ _ he => he)
  | drop =>
    exact Or.inl (hkeep (fun f hm => by cases hm) (fun _ _ _ he => by cases he) fun _ _ he => he)
  | markDown =>
    exact Or.inl (hkeep (fun f hm => by cases hm) (fun _ _ _ he => by cases he) fun _ _ he => he)
  | enqueue => exact Or.inl (hkeep (fun f hm => hm) (fun _ _ i he => ⟨i, he⟩) fun _ _ he => he)
  | hostNudge => exact Or.inl (hkeep (fun f hm => hm) (fun _ _ i he => ⟨i, he⟩) fun _ _ he => he)
  | alarm => exact Or.inl (hkeep (fun f hm => hm) (fun _ _ i he => ⟨i, he⟩) fun _ _ he => he)
  | _ => exact Or.inl (hkeep (fun f hm => hm) (fun _ _ i he => ⟨i, he⟩) fun _ _ he => by cases he)

/-- **The room has what it sends.** -/
theorem known_step {s s' : Net} {a : Act} (h : Known s) (hlast : s.Lasting a) (hs : Step s a s') :
    Known s' := by
  intro r hin
  rcases incoming_step hs hin with hin | hrow
  · exact present_step hlast hs (h r hin)
  · exact ⟨r, hrow⟩

/-! ## Rows of the replica -/

/-- Every row of the replica is in the room, or a queued upsert or delete will put it there. -/
def Backed (s : Net) : Prop := ∀ key r, s.doc.row key = some r →
  s.room.Present key ∨ ∃ e ∈ s.doc.entries, ∃ op ∈ e.2, op.key = key ∧ op.op ≠ .update

theorem row_putRows_cases {table : Table} {rows : List RegistryRow} {key : RowKey}
    {r : RegistryRow} (h : (putRows table rows)[key]? = some r) :
    table[key]? = some r ∨ r ∈ rows ∧ r.key = key := by
  rw [row_putRows] at h
  rcases Cover.put_cases (fun key => table[key]?) rows key with ⟨he, -⟩ | ⟨r', hr', hk, he⟩
  · rw [he] at h
    exact Or.inl h
  · rw [he] at h
    cases h
    exact Or.inr ⟨hr', hk⟩

/-- A row of the replica was its own before the step, or on its way. -/
theorem rows_step {s s' : Net} {a : Act} (hs : Step s a s') {key : RowKey} {r : RegistryRow}
    (h : s'.doc.row key = some r) :
    s.doc.row key = some r ∨ s.Incoming r ∧ r.key = key := by
  have hframe : ∀ {frame}, frame ∈ s.link.inbox →
      (Net.handleFrame s.doc frame).1.row key = some r →
      s.doc.row key = some r ∨ s.Incoming r ∧ r.key = key := by
    intro frame hm h
    rcases frame with frame | ⟨batch, seq⟩ | ⟨code, message⟩
    · rw [Net.handleFrame, (applyRows_spec s.doc frame).1] at h
      rcases row_putRows_cases h with h | ⟨hr, hk⟩
      · exact Or.inl h
      · exact Or.inr ⟨Or.inl ⟨frame, hm, hr⟩, hk⟩
    · rw [Net.handleFrame, row_ackBatch] at h
      exact Or.inl h
    · exact Or.inl h
  have hstate : ∀ {now state}, s.applied a = some state →
      (s.doc.applyState now state).1.row key = some r →
      s.doc.row key = some r ∨ s.Incoming r ∧ r.key = key := by
    intro now state ha h
    rw [applyState_eq, row_enqueueOps] at h
    rcases row_putRows_cases h with h | ⟨hr, hk⟩
    · split_ifs at h
      · simp at h
      · exact Or.inl h
    · exact Or.inr ⟨incoming_of_applied ha hr, hk⟩
  cases hs with
  | enqueue =>
    rw [row_enqueueOps] at h
    exact Or.inl h
  | httpAck =>
    rw [row_ackBatch] at h
    exact Or.inl h
  | recvState hl => exact hstate (by simp only [Net.applied, hl]) h
  | httpApply hh => exact hstate (by simp only [Net.applied, hh]) h
  | recvFrame hl => exact hframe (by rw [hl]; exact List.mem_cons_self) h
  | recvGap hl => exact hframe (by rw [hl]; exact List.mem_cons_self) h
  | _ => exact Or.inl h

theorem ackOut_of_acked {s : Net} {a : Act} {name : String} (h : name ∈ s.acked a) :
    s.AckOut name := by
  unfold Net.acked at h
  split at h
  · rename_i batch seq inbox hl
    rw [List.mem_singleton.mp h]
    exact Or.inl ⟨_, by rw [hl]; exact List.mem_cons_self⟩
  · rename_i hh
    rw [List.mem_singleton.mp h]
    exact Or.inr ⟨_, _, _, hh⟩
  · cases h

/-- **A backed replica stays backed**: what acks retire, the room has. -/
theorem backed_step {s s' : Net} {a : Act} (h : Backed s) (hretired : Retired s) (hknown : Known s)
    (hlast : s.Lasting a) (hs : s.step a = some s') : Backed s' := by
  have hstep := step_iff.mp hs
  obtain ⟨newer, hentries⟩ := entries_step hs
  intro key r hr
  rcases rows_step hstep hr with hr | ⟨hin, hk⟩
  · rcases h key r hr with hp | ⟨e, he, op, hop, hk, hc⟩
    · exact Or.inl (present_step hlast hstep hp)
    · by_cases hack : e.1 ∈ s.acked a
      · obtain ⟨b, hb, rfl⟩ := List.mem_map.mp he
        obtain ⟨-, hp⟩ := hretired _ (ackOut_of_acked hack)
        rw [← hk]
        exact Or.inl (present_step hlast hstep
          (hp b (mem_queue.mpr (Or.inl hb)) rfl op hop hc))
      · refine Or.inr ⟨e, ?_, op, hop, hk, hc⟩
        rw [hentries]
        exact List.mem_append_left _ (List.mem_filter.mpr ⟨he, by simpa using hack⟩)
  · rw [← hk]
    exact Or.inl (present_step hlast hstep (hknown r hin))

/-- **A full state backs the replica**: it seeds the room with what the state lacks. -/
theorem backed_of_full {s s' : Net} {a : Act} (hkeyed : s.doc.Keyed) (hknown : Known s)
    (hlast : s.Lasting a) (hs : Step s a s') {state : StateReply}
    (hstate : s.applied a = some state) (hfull : state.full = true) : Backed s' := by
  obtain ⟨now, hdoc⟩ := doc_of_applied hs hstate
  obtain ⟨batches, happ⟩ := applyState_spec s.doc now state
  rw [← hdoc] at happ
  intro key r hr
  rw [happ.row] at hr
  rcases Cover.put_cases (if s.doc.Replaces state then fun _ => none else s.doc.row) state.rows key
    with ⟨he, hne⟩ | ⟨r', hr', hk, -⟩
  · rw [he] at hr
    split_ifs at hr with hrep
    have hseed : r ∈ s.doc.seedRows state :=
      mem_seedRows.mpr ⟨hfull, key, hr, fun hle => absurd ⟨hfull, hle⟩ hrep⟩
    have hop : rowToSeedOp r ∈ batches.flatMap (·.ops) := by
      rw [happ.seeds.ops]
      exact List.mem_map_of_mem hseed
    obtain ⟨b, hb, hop⟩ := List.mem_flatMap.mp hop
    refine Or.inr ⟨(b.batch, b.ops), ?_, rowToSeedOp r, hop, ?_, ?_⟩
    · rw [RegistryDoc.entries, happ.seeds.pending]
      exact List.mem_map.mpr ⟨b, List.mem_append_right _ hb, rfl⟩
    · rw [key_rowToSeedOp, hkeyed key r hr]
    · rw [op_rowToSeedOp]
      split_ifs <;> simp
  · rw [← hk]
    exact Or.inl (present_step hlast hs (hknown r' (incoming_of_applied hstate hr')))

end Zeron.Registry
