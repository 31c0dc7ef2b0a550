import Zeron.Lib.Run
import Zeron.Registry.Room

/-!
# Re-delivered batches

A client that lost an ack pushes its batch again, with other batches applied in between.

* `RegistryRow.cover`: the newest clock known at a field, its own or the row's last delete;
* `Settled`: the row an op finds takes it, or is past it;
* `Absorbed`: what a settled op leaves behind, **`absorbed_applyOp`**: and no later op undoes;
* `Reopened`: the row was revived since, and a field it had lost is still unwritten;
* **`replay_unchanged`**: an absorbed op changes nothing on a row that is not reopened to it;
* `replays_are_noops`: at-least-once delivery is exactly-once delivery.
-/

namespace Zeron.Registry

open Zeron.Lww

/-! ## What an op leaves behind -/

/-- The newest clock known at a field: its own, or the row's last delete. -/
def RegistryRow.cover (r : RegistryRow) (k : String) : WithBot Hlc :=
  max (r.reg k).stamp (rank r.delHlc)

/-- **No op lowers a field's cover.** -/
theorem cover_le_applyOp {r r' : RegistryRow} {op : RowOp} (hr : r.Wf)
    (h : (applyOp (some r) op).1 = some r') (k : String) : r.cover k ≤ r'.cover k := by
  by_cases hop : op.op = .delete
  · rw [applyOp_delete hop] at h
    split_ifs at h with hlt
    · cases h
      -- the delete is newer than everything on the row
      have htop : r.cover k ≤ r.top := by
        refine max_le ?_ (delHlc_le_top r)
        by_cases hd : r.deleted = true
        · rw [RegistryRow.reg, hr.clocks_empty hd]
          exact bot_le
        · exact stamp_le_top (by simpa using hd) k
      exact (htop.trans hlt.le).trans (le_max_right _ _)
    · cases h
      exact le_rfl
  · rcases hb : baseFor (some r) op with _ | base
    · rw [applyOp_skip hop hb] at h
      cases h
      exact le_rfl
    · rw [(applyOp_write hop hb).1] at h
      cases h
      have hbase : r.cover k ≤ base.cover k := by
        by_cases hd : r.deleted = true
        · have hdel : base.delHlc = r.delHlc := by
            rw [baseFor_tombstone hd] at hb
            split_ifs at hb
            cases hb
            rfl
          rw [RegistryRow.cover, RegistryRow.cover, hdel, RegistryRow.reg, hr.clocks_empty hd]
          exact max_le_max bot_le le_rfl
        · rw [baseFor_live (by simpa using hd)] at hb
          cases hb
          exact le_rfl
      refine hbase.trans ?_
      rw [RegistryRow.cover, RegistryRow.cover, merge_delHlc]
      exact max_le_max (stamp_le_merge base op k) le_rfl

/-- The row is at or past the op: a delete or revival by it would lose, and so would each of its
writes, unless a delete has cleared the field's clock. -/
def Absorbed (op : RowOp) (row : Option RegistryRow) : Prop :=
  ∃ r, row = some r ∧ (op.op ≠ .update → (op.hlc : WithBot Hlc) ≤ r.top) ∧
    (op.op ≠ .delete → ∀ k w, op.writeAt k = some w → (w.1 : WithBot Hlc) ≤ r.cover k)

/-- **No later op undoes an absorbed one.** -/
theorem absorbed_applyOp {op op' : RowOp} {row : Option RegistryRow}
    (hrow : ∀ r, row = some r → r.Wf) (h : Absorbed op row) : Absorbed op (applyOp row op').1 := by
  obtain ⟨r, rfl, htop, hcover⟩ := h
  obtain ⟨r', hr'⟩ := applyOp_some r op'
  refine ⟨r', hr', fun hu => (htop hu).trans (top_le_applyOp hr'), fun hd k w hw => ?_⟩
  exact (hcover hd k w hw).trans (cover_le_applyOp (hrow r rfl) hr' k)

/-- The row an op finds takes it, or is past it: a delete always; a write that reaches its fields
(an upsert with some clock on the row or in `set` as new as its own); a write discarded by a
tombstone that is as new as all its clocks. -/
def Settled (row : Option RegistryRow) (op : RowOp) : Prop :=
  op.op = .delete ∨
  (∃ base, baseFor row op = some base ∧ (op.op = .upsert → (op.hlc : WithBot Hlc) ≤ base.top ∨
    ∃ k w, op.writeAt k = some w ∧ op.hlc ≤ w.1)) ∨
  (baseFor row op = none ∧ ∃ r, row = some r ∧
    ∀ k w, op.writeAt k = some w → (w.1 : WithBot Hlc) ≤ rank r.delHlc)

/-- A settled op is absorbed. -/
theorem absorbed_of_settled {row : Option RegistryRow} {op : RowOp} (h : Settled row op) :
    Absorbed op (applyOp row op).1 := by
  by_cases hop : op.op = .delete
  · rcases row with _ | r
    · rw [applyOp_delete_none hop]
      exact ⟨_, rfl, fun _ => (top_tombstone _ _ _).ge, fun hd => absurd hop hd⟩
    · rw [applyOp_delete hop]
      split_ifs with hlt
      · exact ⟨_, rfl, fun _ => (top_bury r op.hlc).ge, fun hd => absurd hop hd⟩
      · exact ⟨r, rfl, fun _ => not_lt.mp hlt, fun hd => absurd hop hd⟩
  · rcases h with h | ⟨base, hb, hup⟩ | ⟨hb, r, rfl, hle⟩
    · exact absurd h hop
    · have hdel := baseFor_deleted hb
      have hwrite : ∀ k w, op.writeAt k = some w →
          (w.1 : WithBot Hlc) ≤ ((base.merge op).reg k).stamp := by
        intro k w hw
        rw [reg_merge_some hw]
        exact Reg.le_stamp_write _ _
      refine ⟨base.merge op, (applyOp_write hop hb).1, fun hu => ?_, fun _ k w hw =>
        (hwrite k w hw).trans (le_max_left _ _)⟩
      have hu : op.op = .upsert := by
        cases ho : op.op
        · rfl
        · exact absurd ho hu
        · exact absurd ho hop
      rcases hup hu with hle | ⟨k, w, hw, hle⟩
      · exact hle.trans (top_le_merge hdel op)
      · exact (WithBot.coe_le_coe.mpr hle).trans
          ((hwrite k w hw).trans (stamp_le_top (by simpa using hdel) k))
    · rw [applyOp_skip hop hb]
      refine ⟨r, rfl, fun hu => ?_, fun _ k w hw => (hle k w hw).trans (le_max_right _ _)⟩
      -- an upsert is discarded only by a tombstone that is as new
      by_cases hd : r.deleted = true
      · rw [baseFor_tombstone hd] at hb
        split_ifs at hb with hc
        rw [top_of_deleted hd]
        exact hc.resolve_left hu
      · rw [baseFor_live (by simpa using hd)] at hb
        cases hb

/-! ## Replaying an op -/

/-- The row is live and was deleted since the op wrote one of its fields, which has had no write
as new since. -/
def Reopened (row : Option RegistryRow) (op : RowOp) : Prop :=
  ∃ r, row = some r ∧ r.deleted = false ∧ ∃ k w, op.writeAt k = some w ∧
    (r.reg k).stamp < w.1 ∧ (w.1 : WithBot Hlc) ≤ rank r.delHlc

/-- **An absorbed op changes nothing on a row that is not reopened to it.** -/
theorem replay_unchanged {row : Option RegistryRow} {op : RowOp} (h : Absorbed op row)
    (hre : op.op ≠ .delete → ¬ Reopened row op) : (applyOp row op).2 = false := by
  obtain ⟨r, rfl, htop, hcover⟩ := h
  by_cases hop : op.op = .delete
  · rw [applyOp_delete hop, if_neg (not_lt.mpr (htop (by simp [hop])))]
  · rcases hb : baseFor (some r) op with _ | base
    · rw [applyOp_skip hop hb]
    · have hlive : r.deleted = false := by
        by_contra hd
        rw [baseFor_tombstone (by simpa using hd)] at hb
        split_ifs at hb with hc
        rw [not_or] at hc
        have := htop hc.1
        rw [top_of_deleted (by simpa using hd)] at this
        exact hc.2 this
      rw [baseFor_live hlive] at hb
      cases hb
      refine Bool.eq_false_iff.mpr fun hch => ?_
      rcases (applyOp_write hop (baseFor_live hlive op)).2.mp hch with hl | ⟨k, w, hw, hlt⟩
      · exact hl ⟨r, rfl, hlive⟩
      · -- the field's clock is below the op's, so the op's is covered by the delete
        refine hre hop ⟨r, rfl, hlive, k, w, hw, hlt, ?_⟩
        exact (le_max_iff.mp (hcover hop k w hw)).resolve_left (not_le.mpr hlt)

/-! ## Batches -/

/-- A batch as a client pushes it. -/
structure Batch where
  name : String
  ops : List RowOp
  deriving DecidableEq

/-- The room accepts the batch. -/
def Batch.Accepted (b : Batch) : Prop := checkBatch b.name b.ops = none

/-- The room after a batch. -/
def Room.deliver (room : Room) (b : Batch) : Room := room.push b.name b.ops

/-- The row an op of the batch finds, after the batch's earlier ops. -/
def Room.rowAt (room : Room) (before : List RowOp) (key : RowKey) : Option RegistryRow :=
  rowAfter (room.storage.seq + 1) (room.row key) (opsAt before key)

section Batches

variable {room : Room} {b : Batch} {op : RowOp}

theorem absorbed_atSeq {n : ℕ} {row : Option RegistryRow} (h : Absorbed op row) :
    Absorbed op (row.map (·.atSeq n)) := by
  obtain ⟨r, rfl, htop, hcover⟩ := h
  exact ⟨r.atSeq n, rfl, htop, hcover⟩

theorem absorbed_stampOp {n : ℕ} {row : Option RegistryRow} {op' : RowOp}
    (hrow : ∀ r, row = some r → r.Wf) (h : Absorbed op row) : Absorbed op (stampOp n row op') := by
  rw [stampOp]
  split_ifs
  · exact absorbed_atSeq (absorbed_applyOp hrow h)
  · exact h

theorem absorbed_rowAfter {n : ℕ} {row : Option RegistryRow} {ops : List RowOp}
    (hops : ∀ op ∈ ops, op.InGrammar) (hrow : ∀ r, row = some r → r.Stored)
    (h : Absorbed op row) : Absorbed op (rowAfter n row ops) := by
  induction ops using List.reverseRecOn with
  | nil => exact h
  | append_singleton ops op' ih =>
    have hops' : ∀ op ∈ ops, op.InGrammar := fun o ho => hops o (List.mem_append_left _ ho)
    rw [rowAfter_concat]
    exact absorbed_stampOp (fun r hr => (stored_rowAfter hops' hrow r hr).wf) (ih hops')

theorem Batch.Accepted.inGrammar (h : b.Accepted) : ∀ op ∈ b.ops, op.InGrammar :=
  fun op hop => ((checkBatch_eq_none.mp h).2.2.2 op hop).inGrammar

theorem row_deliver (h : b.Accepted) (key : RowKey) : (room.deliver b).row key =
    rowAfter (room.storage.seq + 1) (room.row key) (opsAt b.ops key) :=
  (applyPushBatch_spec room.wf h).rows key

theorem deliver_refused (h : ¬ b.Accepted) : room.deliver b = room := by
  obtain ⟨error, he⟩ := Option.ne_none_iff_exists'.mp h
  apply Room.ext
  exact congrArg Prod.fst (applyPushBatch_refused he)

theorem absorbed_deliver {key : RowKey} (h : Absorbed op (room.row key)) (b : Batch) :
    Absorbed op ((room.deliver b).row key) := by
  by_cases hb : b.Accepted
  · rw [row_deliver hb]
    exact absorbed_rowAfter (fun o ho => hb.inGrammar o (List.mem_of_mem_filter ho))
      (room.wf.stored key) h
  · rwa [deliver_refused hb]

theorem absorbed_of_settled_deliver (hb : b.Accepted) {before after : List RowOp}
    (he : b.ops = before ++ op :: after) (h : Settled (room.rowAt before op.key) op.plain) :
    Absorbed op.plain ((room.deliver b).row op.key) := by
  have hops : ∀ o ∈ opsAt b.ops op.key, o.InGrammar := fun o ho =>
    hb.inGrammar o (List.mem_of_mem_filter ho)
  have hsplit : opsAt b.ops op.key = opsAt before op.key ++ [op] ++ opsAt after op.key := by
    rw [he]
    simp [opsAt, List.filter_append]
  rw [hsplit] at hops
  have hbefore : ∀ o ∈ opsAt before op.key, o.InGrammar := fun o ho =>
    hops o (by simp [ho])
  rw [row_deliver hb, hsplit, rowAfter_append, rowAfter_concat]
  refine absorbed_rowAfter (fun o ho => hops o (by simp [ho])) ?_ ?_
  · rw [← rowAfter_concat]
    exact stored_rowAfter (fun o ho => hops o (List.mem_append_left _ ho))
      (room.wf.stored op.key)
  · have habs := absorbed_of_settled h
    rw [stampOp]
    split_ifs with hch
    · exact absorbed_atSeq habs
    · have hsame := applyOp_unchanged (Bool.eq_false_iff.mpr hch)
      rwa [Room.rowAt, hsame] at habs

/-- **A batch whose ops all change nothing leaves the room as it is.** -/
theorem deliver_unchanged
    (h : ∀ op ∈ b.ops, (applyOp (room.row op.key) op.plain).2 = false) : room.deliver b = room := by
  by_cases hb : b.Accepted
  · have hrow : ∀ key, (room.deliver b).row key = room.row key := by
      intro key
      rw [row_deliver hb]
      have hat : ∀ op ∈ opsAt b.ops key, (applyOp (room.row key) op.plain).2 = false := by
        intro op hop
        obtain ⟨hop, hk⟩ := List.mem_filter.mp hop
        rw [← of_decide_eq_true hk]
        exact h op hop
      generalize opsAt b.ops key = ops at hat
      induction ops with
      | nil => rfl
      | cons op ops ih =>
        obtain ⟨hop, hops⟩ := List.forall_mem_cons.mp hat
        rw [rowAfter, List.foldl_cons, stampOp_unchanged hop]
        exact ih hops
    have hspec := applyPushBatch_spec room.wf hb
    apply Room.ext
    rcases hf : (applyPushBatch room.storage b.name b.ops).2.2 with _ | f
    · exact hspec.idle hf
    · -- a broadcast row would carry a seq above the room's
      obtain ⟨r, hr⟩ := List.exists_mem_of_ne_nil _ (hspec.frame f hf).2.2.1
      obtain ⟨hrow', hseq⟩ := ((hspec.frame f hf).2.2.2 r).mp hr
      have hold : room.row r.key = some r := (hrow r.key).symm.trans hrow'
      have := room.wf.seq_le _ _ hold
      omega
  · exact deliver_refused hb

end Batches

/-! ## Runs with re-deliveries -/

/-- A batch reaches the room: for the first time, or once more. -/
inductive Delivery where
  | first (b : Batch)
  | again (b : Batch)
  deriving DecidableEq

def Delivery.batch : Delivery → Batch
  | .first b => b
  | .again b => b

def Delivery.isFirst : Delivery → Bool
  | .first _ => true
  | .again _ => false

/-- The room after a run of deliveries. -/
def Room.run (room : Room) (ds : List Delivery) : Room :=
  ds.foldl (fun room d => room.deliver d.batch) room

/-- Only applied batches are re-delivered. -/
def Replays (ds : List Delivery) : Prop :=
  ∀ (pre : List Delivery) (b : Batch) (post : List Delivery),
    ds = pre ++ Delivery.again b :: post → .first b ∈ pre

/-- Some earlier delivery of the batch settled this op of it. -/
def SettledBefore (room : Room) (pre : List Delivery) (b : Batch) (op : RowOp) : Prop :=
  ∃ (pre₁ : List Delivery) (d : Delivery) (post₁ : List Delivery),
    pre = pre₁ ++ d :: post₁ ∧ d.batch = b ∧ ∃ before after,
    b.ops = before ++ op :: after ∧ Settled ((room.run pre₁).rowAt before op.key) op.plain

/-- The replayed op is a delete, or is discarded again, or settled at an earlier delivery and the
row has not been reopened to it. -/
def Replayable (room : Room) (pre : List Delivery) (b : Batch) (op : RowOp) : Prop :=
  op.op = .delete ∨ baseFor ((room.run pre).row op.key) op = none ∨
    (SettledBefore room pre b op ∧ ¬ Reopened ((room.run pre).row op.key) op.plain)

section Runs

variable {room : Room} {b : Batch} {op : RowOp}

theorem run_append (room : Room) (ds ds' : List Delivery) :
    room.run (ds ++ ds') = (room.run ds).run ds' := List.foldl_append

theorem absorbed_run {key : RowKey} (h : Absorbed op (room.row key)) (ds : List Delivery) :
    Absorbed op ((room.run ds).row key) := by
  induction ds generalizing room with
  | nil => exact h
  | cons d ds ih =>
    apply ih
    exact absorbed_deliver h d.batch

theorem absorbed_of_settledBefore (hb : b.Accepted) {pre : List Delivery}
    (h : SettledBefore room pre b op) : Absorbed op.plain ((room.run pre).row op.key) := by
  obtain ⟨pre₁, d, post₁, rfl, rfl, before, after, he, hs⟩ := h
  rw [run_append]
  exact absorbed_run (absorbed_of_settled_deliver hb he hs) post₁

theorem settledBefore_delete {pre : List Delivery} (hfirst : .first b ∈ pre) (hop : op ∈ b.ops)
    (hdel : op.op = .delete) : SettledBefore room pre b op := by
  obtain ⟨pre₁, post₁, rfl⟩ := List.append_of_mem hfirst
  obtain ⟨before, after, he⟩ := List.append_of_mem hop
  exact ⟨pre₁, .first b, post₁, rfl, rfl, before, after, he, Or.inl hdel⟩

theorem replay_op_unchanged (hb : b.Accepted) {pre : List Delivery} (hfirst : .first b ∈ pre)
    (hop : op ∈ b.ops) (h : Replayable room pre b op) :
    (applyOp ((room.run pre).row op.key) op.plain).2 = false := by
  by_cases hdel : op.op = .delete
  · exact replay_unchanged (absorbed_of_settledBefore hb (settledBefore_delete hfirst hop hdel))
      fun hne => absurd hdel hne
  · rcases h with h | hnone | ⟨hs, hre⟩
    · exact absurd h hdel
    · rw [applyOp_skip (show op.plain.op ≠ .delete from hdel) (show baseFor _ op.plain = none from hnone)]
    · exact replay_unchanged (absorbed_of_settledBefore hb hs) fun _ => hre

/-- **At-least-once delivery is exactly-once delivery**: in a run whose re-delivered ops are all
deletes, discarded again, or settled before and not reopened, no re-delivery changes the room, and
the room after the run is the room after its first deliveries alone. -/
theorem replays_are_noops (room : Room) (ds : List Delivery) (hds : Replays ds)
    (h : ∀ pre b post, ds = pre ++ .again b :: post → b.Accepted →
      ∀ op ∈ b.ops, Replayable room pre b op) :
    (∀ pre b post, ds = pre ++ .again b :: post →
      (room.run pre).deliver b = room.run pre) ∧
    room.run ds = room.run (ds.filter Delivery.isFirst) := by
  have hnoop : ∀ pre b post, ds = pre ++ .again b :: post →
      (room.run pre).deliver b = room.run pre := by
    intro pre b post he
    by_cases hb : b.Accepted
    · exact deliver_unchanged fun op hop =>
        replay_op_unchanged hb (hds pre b post he) hop (h pre b post he hb op hop)
    · exact deliver_refused hb
  refine ⟨hnoop, Run.foldl_filter_noop ds fun pre d post he hd => ?_⟩
  rcases d with b | b
  · cases hd
  · exact hnoop pre b post he

end Runs

/-- A batch of one op on one space. -/
def spaceBatch (name : String) (op : OpKind) (set : Option (SMap Json)) (hlc : Hlc) : Batch :=
  { name, ops := [{ kind := "spaces", id := "s", op, set, hlc, clocks := none }] }

/-- Creates the space with a name. -/
def createSpace : Batch :=
  spaceBatch "create" .upsert (some {("name", .str "x")}) "0000000000005-000000-a"

theorem replays_are_noops_create :
    Room.empty.run [.first createSpace, .again createSpace] = Room.empty.run [.first createSpace] := by
  refine (replays_are_noops Room.empty [.first createSpace, .again createSpace] ?_ ?_).2
  · rintro (_ | ⟨d, _ | ⟨d', pre⟩⟩) b post he
    · simp at he
    · simp only [List.cons_append, List.nil_append, List.cons.injEq, Delivery.again.injEq] at he
      rw [← he.1, ← he.2.1]
      exact List.mem_singleton_self _
    · simp at he
  · rintro (_ | ⟨d, _ | ⟨d', pre⟩⟩) b post he hb op hop
    · simp at he
    · simp only [List.cons_append, List.nil_append, List.cons.injEq, Delivery.again.injEq] at he
      obtain ⟨rfl, rfl, -⟩ := he
      obtain rfl := List.mem_singleton.mp hop
      refine Or.inr (Or.inr ⟨⟨[], _, [], rfl, rfl, [], [], rfl, Or.inr (Or.inl ⟨_, rfl, fun _ =>
        Or.inr ⟨"name", ("0000000000005-000000-a", some (.str "x")), by decide +kernel, le_rfl⟩⟩)⟩, ?_⟩)
      rintro ⟨r, hr, -, k, w, -, -, hle⟩
      have hdel : ((Room.empty.run [.first createSpace]).row ⟨"spaces", "s"⟩).bind (·.delHlc) =
          none := by decide +kernel
      rw [show (Room.empty.run [.first createSpace]).row ⟨"spaces", "s"⟩ = some r from hr,
        Option.bind_some] at hdel
      rw [hdel] at hle
      exact absurd hle (by simp)
    · simp at he

/-- A name set before the space was deleted and revived comes back with a late replay. -/
theorem replay_after_revival : ¬ ∀ (room : Room) (ds : List Delivery), Replays ds → ∀ key,
    (room.run ds).bodies key = (room.run (ds.filter Delivery.isFirst)).bodies key := by
  intro h
  have hds : Replays [.first createSpace,
      .first (spaceBatch "delete" .delete none "0000000000007-000000-b"),
      .first (spaceBatch "revive" .upsert (some {("color", .str "y")}) "0000000000009-000000-b"),
      .again createSpace] := by
    rintro (_ | ⟨d₁, _ | ⟨d₂, _ | ⟨d₃, _ | ⟨d₄, pre⟩⟩⟩⟩) b post he
    · simp at he
    · simp at he
    · simp at he
    · simp only [List.cons_append, List.nil_append, List.cons.injEq, Delivery.again.injEq] at he
      rw [← he.1, ← he.2.2.2.1]
      exact List.mem_cons_self
    · simp at he
  exact absurd (h Room.empty _ hds ⟨"spaces", "s"⟩) (by decide +kernel)

end Zeron.Registry
