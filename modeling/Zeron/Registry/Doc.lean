import Zeron.Lib.Cover
import Zeron.Registry.Room

/-!
# The registry replica

A client's copy of the table and its unacked writes (`RegistryDoc` of `crates/doc/src/registry.rs`).

* `RegistryDoc` and its methods: the source; wall-clock reads are a stream `now`;
* **`row_putRows`**: applied rows fill the view of the table;
* `Enqueued`, **`enqueueOps_spec`**: the batches a list of ops becomes;
* `StateApplied`, **`applyState_spec`**: the rows, the cursor and the re-seeds after a state.
-/

namespace Zeron.Registry

open Std (ExtTreeMap)

structure PendingBatch where
  batch : String
  ops : List RowOp
  /-- In flight on the current connection. -/
  inFlight : Bool
  deriving DecidableEq

/-- What `apply_state` decided about a `state` frame. -/
inductive StateOutcome where
  | delta
  | replaced
  /-- The server is behind: a re-seed batch was enqueued. -/
  | reseeded
  deriving DecidableEq

/-- The local registry replica. -/
structure RegistryDoc where
  deviceId : String
  /-- Server truth. -/
  authoritative : Table
  /-- The sync cursor. -/
  serverSeq : ℕ
  gcFloor : ℕ
  clock : HlcClock
  pending : List PendingBatch
  /-- Bumped on every mutation. -/
  generation : ℕ
  deriving DecidableEq

/-- `put_authoritative`, once per row. -/
def putRows (table : Table) (rows : List RegistryRow) : Table :=
  rows.foldl (fun table row => table.insert row.key row) table

/-- Successive reads of the wall clock, after the first. -/
def later (now : ℕ → ℤ) : ℕ → ℤ := fun n => now (n + 1)

namespace RegistryDoc

def new (deviceId : String) : RegistryDoc :=
  { deviceId, authoritative := ∅, serverSeq := 0, gcFloor := 0, clock := ⟨0, 0⟩, pending := []
    generation := 0 }

/-- The authoritative row under a key. -/
abbrev row (doc : RegistryDoc) (key : RowKey) : Option RegistryRow := doc.authoritative[key]?

/-- The cursor a hello carries. -/
def helloCursor (doc : RegistryDoc) : Option ℕ :=
  if doc.serverSeq = 0 ∧ doc.pending = [] ∧ doc.generation = 0 then none else some doc.serverSeq

/-! ## Local writes -/

/-- `next_hlc`. -/
def nextHlc (doc : RegistryDoc) (nowMs : ℤ) : RegistryDoc × Hlc :=
  ({ doc with clock := (doc.clock.next nowMs doc.deviceId).1 },
    (doc.clock.next nowMs doc.deviceId).2)

/-- The most ops `enqueue_ops` puts in a batch. -/
def maxOpsPerBatch : ℕ := 400

/-- One pass of the loop of `enqueue_ops`. -/
def enqueueChunk (doc : RegistryDoc) (nowMs : ℤ) (ops : List RowOp) : RegistryDoc :=
  let (doc, hlc) := doc.nextHlc nowMs
  { doc with pending := doc.pending ++ [{ batch := "b-" ++ hlc, ops, inFlight := false }] }

/-- The loop of `enqueue_ops`: one batch off the front of the ops in each pass. -/
def enqueueChunks (now : ℕ → ℤ) : ℕ → RegistryDoc → List RowOp → RegistryDoc
  | 0, doc, _ => doc
  | passes + 1, doc, ops =>
    if ops = [] then doc
    else enqueueChunks (later now) passes (doc.enqueueChunk (now 0) (ops.take maxOpsPerBatch))
      (ops.drop maxOpsPerBatch)

/-- `enqueue_ops`. Every pass takes an op, so there are no more passes than ops. -/
def enqueueOps (doc : RegistryDoc) (now : ℕ → ℤ) (ops : List RowOp) : RegistryDoc :=
  if ops = [] then doc
  else enqueueChunks now ops.length { doc with generation := doc.generation + 1 } ops

def write (doc : RegistryDoc) (now : ℕ → ℤ) (key : RowKey) (op : OpKind) (set : SMap Json) :
    RegistryDoc :=
  let (doc, hlc) := doc.nextHlc (now 0)
  doc.enqueueOps (later now)
    [{ kind := key.kind, id := key.id, op, set := some set, hlc, clocks := none }]

/-! ## Server frames -/

/-- `apply_state`. The map's rows are taken in key order. -/
def applyState (doc : RegistryDoc) (now : ℕ → ℤ) (reply : StateReply) :
    RegistryDoc × StateOutcome :=
  let doc := { doc with generation := doc.generation + 1 }
  if !reply.full then
    ({ doc with authoritative := putRows doc.authoritative reply.rows
                serverSeq := reply.seq, gcFloor := reply.gcFloor }, .delta)
  else if reply.seq < doc.serverSeq then
    -- the server lost state: the local rows are kept, and seed it
    let seed := doc.authoritative.toList.map fun e => rowToSeedOp e.2
    let doc := { doc with authoritative := putRows doc.authoritative reply.rows
                          serverSeq := reply.seq, gcFloor := reply.gcFloor }
    (doc.enqueueOps now seed, .reseeded)
  else
    let incoming := putRows ∅ reply.rows
    let seed := (doc.authoritative.toList.filter fun e => !incoming.contains e.1).map
      fun e => rowToSeedOp e.2
    let doc := { doc with authoritative := incoming
                          serverSeq := reply.seq, gcFloor := reply.gcFloor }
    if seed.isEmpty then (doc, .replaced) else (doc.enqueueOps now seed, .reseeded)

/-- `apply_rows`; `false` on a seq gap, which holds the cursor. -/
def applyRows (doc : RegistryDoc) (frame : RowsFrame) : RegistryDoc × Bool :=
  let doc := { doc with generation := doc.generation + 1
                        authoritative := putRows doc.authoritative frame.rows }
  if doc.serverSeq + 1 < frame.seq then (doc, false)
  else if doc.serverSeq < frame.seq then ({ doc with serverSeq := frame.seq }, true)
  else (doc, true)

/-- `ack_batch`; the cursor stays where it is. -/
def ackBatch (doc : RegistryDoc) (batch : String) : RegistryDoc × Bool :=
  let pending := doc.pending.filter (·.batch ≠ batch)
  if pending.length ≠ doc.pending.length then
    ({ doc with pending, generation := doc.generation + 1 }, true)
  else ({ doc with pending }, false)

/-- `take_pushable`: the batches not in flight, which now are. -/
def takePushable (doc : RegistryDoc) : RegistryDoc × List PendingBatch :=
  ({ doc with pending := doc.pending.map ({ · with inFlight := true }) },
    (doc.pending.filter (!·.inFlight)).map ({ · with inFlight := true }))

/-- `mark_disconnected`. -/
def markDisconnected (doc : RegistryDoc) : RegistryDoc :=
  { doc with pending := doc.pending.map ({ · with inFlight := false }) }

/-! ## Overlay reads -/

/-- `overlay_row`: the authoritative row with the pending ops on it, unless deleted. -/
def overlayRow (doc : RegistryDoc) (key : RowKey) : Option RegistryRow :=
  ((doc.pending.flatMap (·.ops)).foldl (fun row op =>
    if op.key = key then (applyOp row op).1.or row else row) (doc.row key)).filter (!·.deleted)

end RegistryDoc

/-! ## Applied rows -/

theorem row_putRows (table : Table) (rows : List RegistryRow) (key : RowKey) :
    (putRows table rows)[key]? = Cover.put RegistryRow.key (fun key => table[key]?) rows key := by
  induction rows using List.reverseRecOn with
  | nil => rfl
  | append_singleton rows r ih =>
    rw [putRows, Cover.put, List.foldl_append, List.foldl_append, List.foldl_cons, List.foldl_cons,
      List.foldl_nil, List.foldl_nil, ExtTreeMap.getElem?_insert]
    by_cases hk : r.key = key
    · subst hk
      simp
    · have hc : compare r.key key ≠ .eq := by simpa using hk
      rw [if_neg hc, Function.update_of_ne (Ne.symm hk)]
      exact ih

theorem contains_putRows {rows : List RegistryRow} {key : RowKey} :
    (putRows ∅ rows).contains key = true ↔ ∃ r ∈ rows, r.key = key := by
  rw [ExtTreeMap.contains_eq_isSome_getElem?, row_putRows]
  rcases Cover.put_cases (fun key => (∅ : Table)[key]?) rows key with ⟨he, hne⟩ | ⟨r, hr, hk, he⟩
  · rw [he]
    refine iff_of_false (by simp) ?_
    rintro ⟨r, hr, hk⟩
    exact hne r hr hk
  · rw [he]
    exact iff_of_true rfl ⟨r, hr, hk⟩

/-- Every row is under its key. -/
def RegistryDoc.Keyed (doc : RegistryDoc) : Prop := ∀ key r, doc.row key = some r → r.key = key

theorem keyed_putRows {table : Table}
    (h : ∀ (key : RowKey) (r : RegistryRow), table[key]? = some r → r.key = key)
    (rows : List RegistryRow) (key : RowKey) (r : RegistryRow)
    (hr : (putRows table rows)[key]? = some r) : r.key = key := by
  rw [row_putRows] at hr
  rcases Cover.put_cases (fun key => table[key]?) rows key with ⟨he, -⟩ | ⟨r', -, hk, he⟩
  · rw [he] at hr
    exact h key r hr
  · rw [he] at hr
    cases hr
    exact hk

/-! ## Enqueued batches -/

/-- The device named a batch by a clock no newer than this one. -/
def MintedBy (deviceId : String) (clock : HlcClock) (name : String) : Prop :=
  ∃ c : HlcClock, c.ticks ≤ clock.ticks ∧ name = "b-" ++ encodeHlc c.lastMs c.counter deviceId

theorem MintedBy.mono {deviceId name : String} {clock clock' : HlcClock}
    (h : MintedBy deviceId clock name) (hle : clock.ticks ≤ clock'.ticks) :
    MintedBy deviceId clock' name := by
  obtain ⟨c, hc, he⟩ := h
  exact ⟨c, hc.trans hle, he⟩

theorem mintedBy_iff {deviceId : String} {clock c : HlcClock} :
    MintedBy deviceId clock ("b-" ++ encodeHlc c.lastMs c.counter deviceId) ↔
      c.ticks ≤ clock.ticks := by
  constructor
  · rintro ⟨c', hc', he⟩
    obtain ⟨hms, hcounter, -⟩ := encodeHlc_inj (String.append_right_inj "b-" |>.mp he)
    rwa [HlcClock.ticks, hms, hcounter]
  · intro h
    exact ⟨c, h, rfl⟩

/-- What enqueueing ops does: batches of bounded size under new names, with the ops in order. -/
structure Enqueued (doc doc' : RegistryDoc) (batches : List PendingBatch) (ops : List RowOp) :
    Prop where
  pending : doc'.pending = doc.pending ++ batches
  ops : batches.flatMap (·.ops) = ops
  small : ∀ b ∈ batches, b.inFlight = false ∧ b.ops ≠ [] ∧
    b.ops.length ≤ RegistryDoc.maxOpsPerBatch
  fresh : ∀ b ∈ batches, MintedBy doc.deviceId doc'.clock b.batch ∧
    ¬ MintedBy doc.deviceId doc.clock b.batch
  distinct : (batches.map (·.batch)).Nodup
  ticks : doc.clock.ticks ≤ doc'.clock.ticks
  frame : doc' = { doc with
    clock := doc'.clock, pending := doc'.pending, generation := doc'.generation }

section Enqueue

variable (doc : RegistryDoc)

theorem enqueued_nil (generation : ℕ) : Enqueued doc { doc with generation } [] [] :=
  ⟨by simp, rfl, by simp, by simp, by simp, le_rfl, rfl⟩

variable {doc} in
theorem Enqueued.cons {doc' : RegistryDoc} {batches : List PendingBatch} {ops rest : List RowOp}
    {nowMs : ℤ} (h : Enqueued (doc.enqueueChunk nowMs ops) doc' batches rest) (hne : ops ≠ [])
    (hlen : ops.length ≤ RegistryDoc.maxOpsPerBatch) :
    Enqueued doc doc' (⟨"b-" ++ (doc.nextHlc nowMs).2, ops, false⟩ :: batches) (ops ++ rest) := by
  have hname : ∀ clock : HlcClock, MintedBy doc.deviceId clock ("b-" ++ (doc.nextHlc nowMs).2) ↔
      (doc.enqueueChunk nowMs ops).clock.ticks ≤ clock.ticks := fun clock => mintedBy_iff
  have hlt : doc.clock.ticks < (doc.enqueueChunk nowMs ops).clock.ticks :=
    ticks_lt_next doc.clock nowMs doc.deviceId
  obtain ⟨hpending, hops, hsmall, hfresh, hdistinct, hticks, hframe⟩ := h
  change ∀ b ∈ batches, MintedBy doc.deviceId _ _ ∧ ¬ MintedBy doc.deviceId _ _ at hfresh
  refine ⟨?_, ?_, ?_, ?_, ?_, hlt.le.trans hticks, ?_⟩
  · rw [hpending]
    simp [RegistryDoc.enqueueChunk, RegistryDoc.nextHlc]
  · rw [List.flatMap_cons, hops]
  · exact List.forall_mem_cons.mpr ⟨⟨rfl, hne, hlen⟩, hsmall⟩
  · refine List.forall_mem_cons.mpr ⟨⟨(hname _).mpr hticks, fun hm => ?_⟩, fun b hb => ?_⟩
    · exact absurd ((hname _).mp hm) (not_le.mpr hlt)
    · exact ⟨(hfresh b hb).1, fun hm => (hfresh b hb).2 (hm.mono hlt.le)⟩
  · rw [List.map_cons, List.nodup_cons]
    refine ⟨fun hm => ?_, hdistinct⟩
    obtain ⟨b, hb, he⟩ := List.mem_map.mp hm
    apply (hfresh b hb).2
    rw [he]
    exact (hname _).mpr le_rfl
  · rw [hframe]
    rfl

theorem enqueueChunks_spec (now : ℕ → ℤ) (passes : ℕ) (ops : List RowOp)
    (h : ops.length ≤ passes) :
    ∃ batches, Enqueued doc (.enqueueChunks now passes doc ops) batches ops := by
  induction passes generalizing doc now ops with
  | zero =>
    have hnil : ops = [] := List.length_eq_zero_iff.mp (by omega)
    rw [hnil]
    exact ⟨[], enqueued_nil doc doc.generation⟩
  | succ passes ih =>
    by_cases hops : ops = []
    · rw [hops]
      exact ⟨[], enqueued_nil doc doc.generation⟩
    · have hpos := List.length_pos_iff.mpr hops
      rw [RegistryDoc.enqueueChunks, if_neg hops]
      obtain ⟨batches, hrest⟩ := ih
        (doc.enqueueChunk (now 0) (ops.take RegistryDoc.maxOpsPerBatch)) (later now)
        (ops.drop RegistryDoc.maxOpsPerBatch) (by
          rw [List.length_drop, RegistryDoc.maxOpsPerBatch]
          omega)
      have hne : ops.take RegistryDoc.maxOpsPerBatch ≠ [] := by
        intro hnil
        rw [List.take_eq_nil_iff] at hnil
        exact hnil.elim (by decide) hops
      have hfirst := hrest.cons hne (List.length_take_le _ _)
      rw [List.take_append_drop] at hfirst
      exact ⟨_, hfirst⟩

/-- **`enqueue_ops` leaves the ops in order in new batches at the end.** -/
theorem enqueueOps_spec (now : ℕ → ℤ) (ops : List RowOp) :
    ∃ batches, Enqueued doc (doc.enqueueOps now ops) batches ops := by
  unfold RegistryDoc.enqueueOps
  split_ifs with hops
  · rw [hops]
    exact ⟨[], enqueued_nil doc doc.generation⟩
  · obtain ⟨batches, h₁, h₂, h₃, h₄, h₅, h₆, h₇⟩ :=
      enqueueChunks_spec { doc with generation := doc.generation + 1 } now ops.length ops le_rfl
    exact ⟨batches, h₁, h₂, h₃, h₄, h₅, h₆, h₇⟩

@[simp] theorem row_enqueueOps (now : ℕ → ℤ) (ops : List RowOp) :
    (doc.enqueueOps now ops).row = doc.row := by
  obtain ⟨batches, h⟩ := enqueueOps_spec doc now ops
  rw [h.frame]

@[simp] theorem serverSeq_enqueueOps (now : ℕ → ℤ) (ops : List RowOp) :
    (doc.enqueueOps now ops).serverSeq = doc.serverSeq := by
  obtain ⟨batches, h⟩ := enqueueOps_spec doc now ops
  rw [h.frame]

end Enqueue

/-! ## Applied states -/

/-- The full state takes the place of the rows. -/
def RegistryDoc.Replaces (doc : RegistryDoc) (reply : StateReply) : Prop :=
  reply.full = true ∧ doc.serverSeq ≤ reply.seq

instance (doc : RegistryDoc) (reply : StateReply) : Decidable (doc.Replaces reply) :=
  inferInstanceAs (Decidable (_ ∧ _))

/-- The rows a state makes the replica seed the server with. -/
def RegistryDoc.seedRows (doc : RegistryDoc) (reply : StateReply) : List RegistryRow :=
  if !reply.full then []
  else if reply.seq < doc.serverSeq then doc.authoritative.toList.map (·.2)
  else (doc.authoritative.toList.filter fun e => !(putRows ∅ reply.rows).contains e.1).map (·.2)

theorem mem_seedRows {doc : RegistryDoc} {reply : StateReply} {r : RegistryRow} :
    r ∈ doc.seedRows reply ↔ reply.full = true ∧ ∃ key, doc.row key = some r ∧
      (doc.serverSeq ≤ reply.seq → ∀ r' ∈ reply.rows, r'.key ≠ key) := by
  unfold RegistryDoc.seedRows
  by_cases hfull : reply.full = true
  · rw [if_neg (by simp [hfull])]
    by_cases hseq : reply.seq < doc.serverSeq
    · rw [if_pos hseq]
      simp only [List.mem_map, Prod.exists, ExtTreeMap.mem_toList_iff_getElem?_eq_some,
        exists_eq_right, hfull, true_and]
      refine exists_congr fun key => ⟨fun h => ⟨h, fun hle => ?_⟩, fun h => h.1⟩
      omega
    · rw [if_neg hseq]
      simp only [List.mem_map, List.mem_filter, Prod.exists,
        ExtTreeMap.mem_toList_iff_getElem?_eq_some, exists_eq_right, hfull, true_and]
      refine exists_congr fun key => and_congr_right fun _ => ?_
      rw [Bool.not_eq_true', ← Bool.not_eq_true, contains_putRows]
      simp only [not_exists, not_and]
      exact ⟨fun h _ => h, fun h => h (by omega)⟩
  · rw [if_pos (by simpa using hfull)]
    simp [hfull]

/-- The replica with a state's rows and counters. -/
def RegistryDoc.received (doc : RegistryDoc) (rows : Table) (reply : StateReply) : RegistryDoc :=
  { doc with
    generation := doc.generation + 1
    authoritative := rows
    serverSeq := reply.seq
    gcFloor := reply.gcFloor }

/-- What applying a state does: its rows fill the view, its seq is the cursor, and the rows it
lacks are enqueued as seeds. -/
structure StateApplied (doc doc' : RegistryDoc) (reply : StateReply)
    (batches : List PendingBatch) : Prop where
  row : doc'.row = Cover.put RegistryRow.key
    (if doc.Replaces reply then fun _ => none else doc.row) reply.rows
  serverSeq : doc'.serverSeq = reply.seq
  seeds : Enqueued (doc.received doc'.authoritative reply) doc' batches
    ((doc.seedRows reply).map rowToSeedOp)

theorem applyState_eq (doc : RegistryDoc) (now : ℕ → ℤ) (reply : StateReply) :
    (doc.applyState now reply).1 =
      (doc.received (putRows (if doc.Replaces reply then ∅ else doc.authoritative) reply.rows)
        reply).enqueueOps now ((doc.seedRows reply).map rowToSeedOp) := by
  unfold RegistryDoc.applyState RegistryDoc.seedRows RegistryDoc.Replaces
  by_cases hfull : reply.full = true
  · by_cases hseq : reply.seq < doc.serverSeq
    · simp [hfull, hseq, not_le.mpr hseq, RegistryDoc.received, Function.comp_def]
    · simp only [hfull, hseq, not_lt.mp hseq, Bool.not_true, Bool.false_eq_true, if_false,
        and_self, if_true, List.map_map, Function.comp_def]
      split_ifs with hseed
      · rw [List.isEmpty_iff.mp hseed]
        rfl
      · rfl
  · simp [hfull, RegistryDoc.received, RegistryDoc.enqueueOps]

/-- **The rows, the cursor and the seeds after a state.** -/
theorem applyState_spec (doc : RegistryDoc) (now : ℕ → ℤ) (reply : StateReply) :
    ∃ batches, StateApplied doc (doc.applyState now reply).1 reply batches := by
  rw [applyState_eq]
  obtain ⟨batches, h⟩ := enqueueOps_spec
    (doc.received (putRows (if doc.Replaces reply then ∅ else doc.authoritative) reply.rows) reply)
    now ((doc.seedRows reply).map rowToSeedOp)
  have hrows := congrArg RegistryDoc.authoritative h.frame
  have hseq := congrArg RegistryDoc.serverSeq h.frame
  refine ⟨batches, funext fun key => ?_, hseq, ?_⟩
  · rw [RegistryDoc.row, hrows]
    change (putRows _ _)[key]? = _
    rw [row_putRows]
    congr 1
    split_ifs
    · funext key
      simp
    · rfl
  · rw [hrows]
    exact h

theorem keyed_applyState {doc : RegistryDoc} (h : doc.Keyed) (now : ℕ → ℤ) (reply : StateReply) :
    (doc.applyState now reply).1.Keyed := by
  rw [applyState_eq, RegistryDoc.Keyed, row_enqueueOps]
  refine keyed_putRows (fun key r hr => ?_) reply.rows
  split_ifs at hr
  · simp at hr
  · exact h key r hr

/-- **The rows and the cursor after a broadcast.** -/
theorem applyRows_spec (doc : RegistryDoc) (frame : RowsFrame) :
    (doc.applyRows frame).1 = { doc with
        authoritative := putRows doc.authoritative frame.rows
        generation := doc.generation + 1
        serverSeq := if frame.seq = doc.serverSeq + 1 then frame.seq else doc.serverSeq } ∧
      ((doc.applyRows frame).2 = true ↔ frame.seq ≤ doc.serverSeq + 1) := by
  simp only [RegistryDoc.applyRows]
  split_ifs
  all_goals simp
  all_goals omega

theorem keyed_applyRows {doc : RegistryDoc} (h : doc.Keyed) (frame : RowsFrame) :
    (doc.applyRows frame).1.Keyed := by
  rw [(applyRows_spec doc frame).1]
  exact keyed_putRows h frame.rows

theorem ackBatch_fst (doc : RegistryDoc) (batch : String) : (doc.ackBatch batch).1 = { doc with
    pending := doc.pending.filter (·.batch ≠ batch)
    generation := (doc.ackBatch batch).1.generation } := by
  unfold RegistryDoc.ackBatch
  dsimp only
  split_ifs <;> rfl

@[simp] theorem row_ackBatch (doc : RegistryDoc) (batch : String) :
    (doc.ackBatch batch).1.row = doc.row := by rw [ackBatch_fst]

@[simp] theorem serverSeq_ackBatch (doc : RegistryDoc) (batch : String) :
    (doc.ackBatch batch).1.serverSeq = doc.serverSeq := by rw [ackBatch_fst]

@[simp] theorem row_takePushable (doc : RegistryDoc) : doc.takePushable.1.row = doc.row := rfl

@[simp] theorem row_markDisconnected (doc : RegistryDoc) : doc.markDisconnected.row = doc.row := rfl

theorem helloCursor_getD (doc : RegistryDoc) : doc.helloCursor.getD 0 = doc.serverSeq := by
  unfold RegistryDoc.helloCursor
  split_ifs with h
  · rw [h.1]
    rfl
  · rfl

end Zeron.Registry
