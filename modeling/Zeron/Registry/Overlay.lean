import Zeron.Registry.Converge
import Zeron.Registry.Net
import Zeron.Registry.Replay

/-!
# The optimistic overlay

What a replica shows while its writes travel (`overlay`, `apply_rows` and `ack_batch` of
`crates/doc/src/registry.rs`): the room applies the front of its queue among the batches of other
devices, and its broadcasts and its acks come back in any order.

* `Arrival`, `Room.serve`, `Room.broadcasts`: the room's side;
* `RegistryDoc.receive`, `Room.Heard`: the replica's, **`row_receive`**, **`pending_receive`**;
* `Outlived`: an applied op that the row is still past, **`outlived_unchanged`**;
* `overlay_agrees`: an ack then retires what the overlay no longer needs;
* `reopened_shows`: and what it still shows of a reopened row until then.
-/

namespace Zeron.Registry

open Zeron.Lww

/-! ## The room's side -/

/-- A batch reaches the room: the next of the replica's queue, or any other. -/
inductive Arrival where
  | own (b : Batch)
  | other (b : Batch)
  deriving DecidableEq

namespace Arrival

def batch : Arrival → Batch
  | .own b => b
  | .other b => b

def own? : Arrival → Option Batch
  | .own b => some b
  | .other _ => none

end Arrival

def PendingBatch.toBatch (b : PendingBatch) : Batch := { name := b.batch, ops := b.ops }

namespace Room

/-- The room after a run of arrivals. -/
def serve (room : Room) (arrivals : List Arrival) : Room :=
  room.run (arrivals.map fun a => .first a.batch)

/-- What it broadcasts meanwhile. -/
def broadcasts (room : Room) : List Arrival → List RowsFrame
  | [] => []
  | a :: arrivals => (applyPushBatch room.storage a.batch.name a.batch.ops).2.2.toList ++
      (room.deliver a.batch).broadcasts arrivals

end Room

/-! ## The replica's side -/

def Frame.rows? : Frame → Option RowsFrame
  | .rows frame => some frame
  | _ => none

def Frame.acked? : Frame → Option String
  | .ack batch _ => some batch
  | _ => none

/-- The replica after some frames of its session. -/
def RegistryDoc.receive (doc : RegistryDoc) (frames : List Frame) : RegistryDoc :=
  frames.foldl (fun doc frame => (Net.handleFrame doc frame).1) doc

/-- The frames bring the run's broadcasts, in order, and acks of these batches at any place. -/
structure Room.Heard (room : Room) (arrivals : List Arrival) (names : List String)
    (frames : List Frame) : Prop where
  rows : frames.filterMap Frame.rows? = room.broadcasts arrivals
  acks : ∀ name, name ∈ frames.filterMap Frame.acked? ↔ name ∈ names

theorem Room.heard_acks_first (room : Room) (arrivals : List Arrival) (names : List String) :
    room.Heard arrivals names
      (names.map (fun name => Frame.ack name 0) ++ (room.broadcasts arrivals).map .rows) := by
  constructor
  · have hacks : (names.map fun name => Frame.ack name 0).filterMap Frame.rows? = [] := by
      rw [List.filterMap_map]
      exact List.filterMap_eq_nil_iff.mpr fun _ _ => rfl
    rw [List.filterMap_append, hacks, List.filterMap_map]
    exact List.filterMap_some
  · intro name
    have hrows : ((room.broadcasts arrivals).map Frame.rows).filterMap Frame.acked? = [] := by
      rw [List.filterMap_map]
      exact List.filterMap_eq_nil_iff.mpr fun _ _ => rfl
    have hacks : (names.map fun name => Frame.ack name 0).filterMap Frame.acked? = names := by
      rw [List.filterMap_map]
      exact List.filterMap_some
    rw [List.filterMap_append, hrows, hacks, List.append_nil]

section Receive

variable (doc : RegistryDoc)

theorem row_applyRows (frame : RowsFrame) :
    (doc.applyRows frame).1.row = Cover.put RegistryRow.key doc.row frame.rows := by
  funext key
  rw [(applyRows_spec doc frame).1]
  exact row_putRows doc.authoritative frame.rows key

/-- **The rows are the broadcasts', in their order, whatever acks came between them.** -/
theorem row_receive (frames : List Frame) : (doc.receive frames).row =
    (frames.filterMap Frame.rows?).foldl (fun view frame => Cover.put RegistryRow.key view frame.rows)
      doc.row := by
  induction frames generalizing doc with
  | nil => rfl
  | cons frame frames ih =>
    rw [RegistryDoc.receive, List.foldl_cons]
    refine (ih _).trans ?_
    cases frame with
    | rows frame => rw [Net.handleFrame, row_applyRows]; rfl
    | ack batch seq => rw [Net.handleFrame, row_ackBatch]; rfl
    | error code message => rfl

/-- **The queue is what the acks left, whatever rows came between them.** -/
theorem pending_receive (frames : List Frame) : (doc.receive frames).pending =
    doc.pending.filter (·.batch ∉ frames.filterMap Frame.acked?) := by
  induction frames generalizing doc with
  | nil => simp [RegistryDoc.receive]
  | cons frame frames ih =>
    rw [RegistryDoc.receive, List.foldl_cons]
    refine (ih _).trans ?_
    cases frame with
    | rows frame =>
      rw [Net.handleFrame, (applyRows_spec doc frame).1]
      rfl
    | ack batch seq =>
      rw [Net.handleFrame, ackBatch_fst, List.filter_filter]
      refine List.filter_congr fun b _ => ?_
      simp only [List.filterMap_cons, Frame.acked?, List.mem_cons, not_or]
      rw [Bool.and_comm, Bool.decide_and]
    | error code message => rfl

theorem distinct_enqueueOps (now : ℕ → ℤ) (ops : List RowOp)
    (hnames : ∀ b ∈ doc.pending, MintedBy doc.deviceId doc.clock b.batch)
    (hdistinct : (doc.pending.map (·.batch)).Nodup) :
    ((doc.enqueueOps now ops).pending.map (·.batch)).Nodup := by
  obtain ⟨batches, henq⟩ := enqueueOps_spec doc now ops
  rw [henq.pending, List.map_append]
  refine hdistinct.append henq.distinct fun name hold hnew => ?_
  obtain ⟨b, hb, rfl⟩ := List.mem_map.mp hold
  obtain ⟨b', hb', he⟩ := List.mem_map.mp hnew
  apply (henq.fresh b' hb').2
  rw [he]
  exact hnames b hb

end Receive

/-! ## In step with the room -/

theorem put_broadcasts (room : Room) (arrivals : List Arrival) :
    (room.broadcasts arrivals).foldl
      (fun view frame => Cover.put RegistryRow.key view frame.rows) room.row =
      (room.serve arrivals).row := by
  induction arrivals generalizing room with
  | nil => rfl
  | cons a arrivals ih =>
    rw [Room.broadcasts, List.foldl_append]
    refine Eq.trans ?_ (ih (room.deliver a.batch))
    congr 1
    rcases hf : (applyPushBatch room.storage a.batch.name a.batch.ops).2.2 with _ | frame
    · exact congrArg Room.row (Room.push_idle room hf).symm
    · funext key
      change Cover.put RegistryRow.key room.row frame.rows key = (room.deliver a.batch).row key
      rcases Cover.put_cases room.row frame.rows key with ⟨he, hne⟩ | ⟨r, hr, hk, he⟩
      · rw [he]
        rcases hc : checkBatch a.batch.name a.batch.ops with _ | error
        · -- a row the batch changed is in its broadcast
          have hspec := applyPushBatch_spec room.wf hc
          rcases hspec.row_cases key with hsame | ⟨r, hr, hseq, hsucc⟩
          · exact hsame.symm
          · obtain rfl := (room.deliver a.batch).wf.keyed key r hr
            refine absurd rfl (hne r (((hspec.frame frame hf).2.2.2 r).mpr ⟨hr, ?_⟩))
            rw [hseq, hsucc]
        · rw [applyPushBatch_refused hc] at hf
          cases hf
      · rw [he, ← hk]
        exact (Room.row_of_sent room hf hr).symm

section Heard

variable {room : Room} {doc : RegistryDoc} {arrivals : List Arrival} {names : List String}
  {frames : List Frame}

theorem Room.Heard.row (h : room.Heard arrivals names frames) (hsync : doc.row = room.row) :
    (doc.receive frames).row = (room.serve arrivals).row := by
  rw [row_receive, h.rows, hsync, put_broadcasts]

theorem Room.Heard.pending (h : room.Heard arrivals names frames) :
    (doc.receive frames).pending = doc.pending.filter (·.batch ∉ names) := by
  rw [pending_receive]
  exact List.filter_congr fun b _ => decide_eq_decide.mpr (not_congr (h.acks b.batch))

end Heard

theorem overlayRow_congr {doc doc' : RegistryDoc} (hrow : doc.row = doc'.row)
    (hpending : doc.pending = doc'.pending) (key : RowKey) :
    doc.overlayRow key = doc'.overlayRow key := by
  rw [RegistryDoc.overlayRow, RegistryDoc.overlayRow, hrow, hpending]

/-! ## Applied ops -/

/-- The row is past an op of a batch the room applied: a delete, an op it discards, or one that
settled and that the row has not been reopened to, with no inherited name among its fields (the
room drops those). -/
def Outlived (room : Room) (arrivals : List Arrival) (b : Batch) (op : RowOp) : Prop :=
  op.op = .delete ∨ baseFor ((room.serve arrivals).row op.key) op = none ∨
    ((∀ k ∈ inheritedNames, op.writeAt k = none) ∧
      SettledBefore room (arrivals.map fun a => .first a.batch) b op ∧
      ¬ Reopened ((room.serve arrivals).row op.key) op)

theorem absorbed_of_plain {op : RowOp} {row : Option RegistryRow} (h : Absorbed op.plain row)
    (hplain : op.op ≠ .delete → ∀ k ∈ inheritedNames, op.writeAt k = none) : Absorbed op row := by
  obtain ⟨r, hr, htop, hcover⟩ := h
  refine ⟨r, hr, htop, fun hd k w hw => hcover hd k w ?_⟩
  rw [writeAt_plain, if_neg fun hk => ?_]
  · exact hw
  · rw [hplain hd k hk] at hw
    cases hw

/-- **An outlived op changes nothing on the row.** -/
theorem outlived_unchanged {room : Room} {arrivals : List Arrival} {b : Batch} {op : RowOp}
    (hb : b.Accepted) (harrived : Arrival.own b ∈ arrivals) (hop : op ∈ b.ops)
    (h : Outlived room arrivals b op) :
    (applyOp ((room.serve arrivals).row op.key) op).2 = false := by
  have hfirst : Delivery.first b ∈ arrivals.map fun a => Delivery.first a.batch :=
    List.mem_map.mpr ⟨_, harrived, rfl⟩
  by_cases hdel : op.op = .delete
  · refine replay_unchanged (absorbed_of_plain ?_ fun hd => absurd hdel hd) fun hd => absurd hdel hd
    exact absorbed_of_settledBefore hb (settledBefore_delete hfirst hop hdel)
  · rcases h with h | hnone | ⟨hplain, hs, hre⟩
    · exact absurd h hdel
    · rw [applyOp_skip hdel hnone]
    · refine replay_unchanged (absorbed_of_plain ?_ fun _ => hplain) fun _ => hre
      exact absorbed_of_settledBefore hb hs

theorem overlay_foldl_unchanged {row : Option RegistryRow} {key : RowKey} {ops : List RowOp}
    (h : ∀ op ∈ ops, op.key = key → (applyOp row op).2 = false) :
    ops.foldl (fun row op => if op.key = key then (applyOp row op).1.or row else row) row = row := by
  induction ops with
  | nil => rfl
  | cons op ops ih =>
    obtain ⟨hop, hops⟩ := List.forall_mem_cons.mp h
    rw [List.foldl_cons]
    have hstep : (if op.key = key then (applyOp row op).1.or row else row) = row := by
      split_ifs with hk
      · rw [applyOp_unchanged (hop hk), Option.or_self]
      · rfl
    rw [hstep]
    exact ih hops

/-! ## Acks and broadcasts -/

theorem filter_names_take {pending : List PendingBatch} (h : (pending.map (·.batch)).Nodup)
    (n : ℕ) : pending.filter (·.batch ∉ (pending.take n).map (·.batch)) = pending.drop n := by
  have hsplit := List.take_append_drop n pending
  rw [← hsplit, List.map_append, List.nodup_append] at h
  conv_lhs => rw [← hsplit, List.filter_append]
  rw [List.take_append_drop]
  have hfront : (pending.take n).filter (·.batch ∉ (pending.take n).map (·.batch)) = [] := by
    rw [List.filter_eq_nil_iff]
    intro b hb
    rw [decide_eq_true_iff, not_not]
    exact List.mem_map_of_mem hb
  have hback : (pending.drop n).filter (·.batch ∉ (pending.take n).map (·.batch)) =
      pending.drop n := by
    rw [List.filter_eq_self]
    intro b hb
    rw [decide_eq_true_iff]
    exact fun hm => h.2.2 _ hm _ (List.mem_map_of_mem hb) rfl
  rw [hfront, hback, List.nil_append]

/-- **The overlay agrees with the room's merge.** A replica in step with the room hears a run in
which the front of its queue is applied. Where the rows have outlived the applied ops, the overlay
is the same before and after the acks; the order of acks and broadcasts never matters; and with
the queue gone it is the room's live rows. -/
theorem overlay_agrees (room : Room) (doc : RegistryDoc) (hsync : doc.row = room.row)
    (hdistinct : (doc.pending.map (·.batch)).Nodup) (n : ℕ) (arrivals : List Arrival)
    (hown : arrivals.filterMap Arrival.own? = (doc.pending.take n).map PendingBatch.toBatch)
    (haccepted : ∀ b ∈ doc.pending.take n, b.toBatch.Accepted)
    (houtlived : ∀ b ∈ doc.pending.take n, ∀ op ∈ b.ops,
      Outlived room arrivals b.toBatch op)
    {before after after' : List Frame} (hbefore : room.Heard arrivals [] before)
    (hafter : room.Heard arrivals ((doc.pending.take n).map (·.batch)) after)
    (hafter' : room.Heard arrivals ((doc.pending.take n).map (·.batch)) after') (key : RowKey) :
    (doc.receive before).overlayRow key = (doc.receive after).overlayRow key ∧
    (doc.receive after').overlayRow key = (doc.receive after).overlayRow key ∧
    (doc.pending.length ≤ n →
      (doc.receive after).overlayRow key = ((room.serve arrivals).row key).filter (!·.deleted)) := by
  have hrest : (doc.receive after).pending = doc.pending.drop n := by
    rw [hafter.pending, filter_names_take hdistinct]
  refine ⟨?_, ?_, fun hlen => ?_⟩
  · have hall : (doc.receive before).pending = doc.pending.take n ++ doc.pending.drop n := by
      rw [hbefore.pending, List.take_append_drop]
      simp
    rw [RegistryDoc.overlayRow, RegistryDoc.overlayRow, hbefore.row hsync, hafter.row hsync, hall,
      hrest, List.flatMap_append, List.foldl_append]
    congr 2
    -- the applied front changes nothing on the rows it has been merged into
    refine overlay_foldl_unchanged fun op hop hk => ?_
    obtain ⟨b, hb, hop⟩ := List.mem_flatMap.mp hop
    have harrived : Arrival.own b.toBatch ∈ arrivals := by
      have hmem : b.toBatch ∈ arrivals.filterMap Arrival.own? := by
        rw [hown]
        exact List.mem_map_of_mem hb
      obtain ⟨a, ha, hab⟩ := List.mem_filterMap.mp hmem
      cases a with
      | own b' => cases hab; exact ha
      | other b' => cases hab
    rw [← hk]
    exact outlived_unchanged (haccepted b hb) harrived hop (houtlived b hb op hop)
  · exact overlayRow_congr ((hafter'.row hsync).trans (hafter.row hsync).symm)
      (hafter'.pending.trans hafter.pending.symm) key
  · have hnil : doc.pending.drop n = [] := List.drop_eq_nil_iff.mpr hlen
    rw [RegistryDoc.overlayRow, hafter.row hsync, hrest, hnil]
    rfl

/-! ## Around a revival -/

theorem applyOp_ne_of_reopened {row : Option RegistryRow} {op : RowOp} (hop : op.op ≠ .delete)
    (h : Reopened row op) : (applyOp row op).1 ≠ row := by
  obtain ⟨r, rfl, hlive, k, w, hw, hlt, -⟩ := h
  rw [applyOp_live hlive hop]
  intro he
  have hreg : (r.merge op).reg k = r.reg k := congrArg (RegistryRow.reg · k) (Option.some.inj he)
  rw [reg_merge_some hw] at hreg
  have hstamp := congrArg Reg.stamp hreg
  exact absurd (Reg.le_stamp_write _ _) (not_le.mpr (hstamp ▸ hlt))

/-- **The overlay changes with the ack** of an op the row was reopened to, when it is the only
op queued for the row. -/
theorem reopened_shows {doc doc' : RegistryDoc} {op : RowOp} (hop : op.op ≠ .delete)
    (hrow : doc'.row = doc.row) (hqueue : opsAt (doc.pending.flatMap (·.ops)) op.key = [op])
    (hqueue' : opsAt (doc'.pending.flatMap (·.ops)) op.key = [])
    (h : Reopened (doc.row op.key) op) : doc.overlayRow op.key ≠ doc'.overlayRow op.key := by
  have hfold : ∀ (ops : List RowOp) (row : Option RegistryRow),
      ops.foldl (fun row o => if o.key = op.key then (applyOp row o).1.or row else row) row =
        (opsAt ops op.key).foldl (fun row o => (applyOp row o).1.or row) row := by
    intro ops
    induction ops with
    | nil => intro row; rfl
    | cons o ops ih =>
      intro row
      rw [List.foldl_cons, ih]
      by_cases hk : o.key = op.key
      · have hcons : opsAt (o :: ops) op.key = o :: opsAt ops op.key := by simp [opsAt, hk]
        rw [if_pos hk, hcons, List.foldl_cons]
      · have hcons : opsAt (o :: ops) op.key = opsAt ops op.key := by simp [opsAt, hk]
        rw [if_neg hk, hcons]
  rw [RegistryDoc.overlayRow, RegistryDoc.overlayRow, hfold, hfold, hqueue, hqueue', hrow]
  have hne := applyOp_ne_of_reopened hop h
  obtain ⟨r, hr, hlive, -⟩ := h
  rw [hr] at hne ⊢
  rw [List.foldl_cons, List.foldl_nil, List.foldl_nil, applyOp_live hlive hop, Option.some_or]
  rw [applyOp_live hlive hop] at hne
  rw [Option.filter_some_pos (by simp [hlive]), Option.filter_some_pos (by simp [hlive])]
  exact hne

/-- A replica that has created a space and waits for the ack. -/
def creating : RegistryDoc :=
  { RegistryDoc.new "a" with
    pending := [{ batch := createSpace.name, ops := createSpace.ops, inFlight := true }] }

theorem creating_row : creating.row = Room.empty.row := by
  funext key
  simp [creating, RegistryDoc.new, Room.empty, Storage.empty]

theorem overlay_agrees_creating :
    (creating.receive ([] ++ (Room.empty.broadcasts [.own createSpace]).map .rows)).overlayRow
      ⟨"spaces", "s"⟩ =
    (creating.receive ([.ack "create" 0] ++
      (Room.empty.broadcasts [.own createSpace]).map .rows)).overlayRow ⟨"spaces", "s"⟩ := by
  have hafter := Room.empty.heard_acks_first [.own createSpace] ["create"]
  refine (overlay_agrees Room.empty creating creating_row ?_ 1 [.own createSpace] rfl ?_ ?_
    (Room.empty.heard_acks_first _ []) hafter hafter ⟨"spaces", "s"⟩).1
  · decide
  · intro b hb
    obtain rfl := List.mem_singleton.mp hb
    change checkBatch createSpace.name createSpace.ops = none
    decide +kernel
  · intro b hb op hop
    obtain rfl := List.mem_singleton.mp hb
    obtain rfl := List.mem_singleton.mp hop
    refine Or.inr (Or.inr ⟨by decide +kernel, ⟨[], _, [], rfl, rfl, [], [], rfl, Or.inr (Or.inl
      ⟨_, rfl, fun _ => Or.inr ⟨"name", ("0000000000005-000000-a", some (.str "x")),
        by decide +kernel, le_rfl⟩⟩)⟩, ?_⟩)
    rintro ⟨r, hr, -, k, w, -, -, hle⟩
    have hdel : ((Room.empty.serve [.own createSpace]).row ⟨"spaces", "s"⟩).bind (·.delHlc) =
        none := by decide +kernel
    rw [show (Room.empty.serve [.own createSpace]).row ⟨"spaces", "s"⟩ = some r from hr,
      Option.bind_some] at hdel
    rw [hdel] at hle
    exact absurd hle (by simp)

/-- The space was deleted and revived meanwhile: until the ack the overlay shows the old name. -/
theorem overlay_shows_deleted_name : ¬ ∀ (room : Room) (doc : RegistryDoc), doc.row = room.row →
    (doc.pending.map (·.batch)).Nodup → ∀ (n : ℕ) (arrivals : List Arrival),
    arrivals.filterMap Arrival.own? = (doc.pending.take n).map PendingBatch.toBatch →
    (∀ b ∈ doc.pending.take n, b.toBatch.Accepted) → ∀ before after : List Frame,
    room.Heard arrivals [] before →
    room.Heard arrivals ((doc.pending.take n).map (·.batch)) after →
    ∀ key, (doc.receive before).overlayRow key = (doc.receive after).overlayRow key := by
  intro h
  have hshown := h Room.empty creating creating_row (by decide) 1 [.own createSpace,
    .other (spaceBatch "delete" .delete none "0000000000007-000000-b"),
    .other (spaceBatch "revive" .upsert (some {("color", .str "y")}) "0000000000009-000000-b")]
    rfl (fun b hb => by
      obtain rfl := List.mem_singleton.mp hb
      change checkBatch createSpace.name createSpace.ops = none
      decide +kernel) _ _
    (Room.empty.heard_acks_first _ []) (Room.empty.heard_acks_first _ ["create"]) ⟨"spaces", "s"⟩
  exact absurd hshown (by decide +kernel)

end Zeron.Registry
