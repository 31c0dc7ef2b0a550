import Zeron.Registry.Edge

/-!
# The registry room

The server's table and what it does with it (`edge/src/registry-room.ts`): pushed batches, the
delta or full state for a cursor, tombstone collection.

* `Storage`: the table and the room's counters; `Storage.Wf`: what they satisfy;
* `applyPushBatch`, `stateSince`, `alarm`: the handlers;
* `stampOp`, `rowAfter`: what a batch does to one row;
* **`applyPushBatch_spec`**: the table, the seq and the broadcast after a batch;
* `Room`: a well-formed storage, kept by every handler.
-/

namespace Zeron.Registry

open Std (ExtTreeMap TransOrd LawfulEqOrd TransCmp LawfulEqCmp)

/-! ## The table -/

instance : Ord RowKey := ⟨compareLex (compareOn RowKey.kind) (compareOn RowKey.id)⟩

instance : TransOrd RowKey :=
  inferInstanceAs (TransCmp (compareLex (compareOn RowKey.kind) (compareOn RowKey.id)))

instance : LawfulEqOrd RowKey where
  eq_of_compare {a b} h := by
    have h' : (compareLex (compareOn RowKey.kind) (compareOn RowKey.id)) a b = .eq := h
    simp only [compareLex, compareOn, Ordering.then_eq_eq] at h'
    exact RowKey.ext (LawfulEqOrd.eq_of_compare h'.1) (LawfulEqOrd.eq_of_compare h'.2)

/-- Rows by key. -/
abbrev Table : Type := ExtTreeMap RowKey RegistryRow compare

/-- The room's storage: the rows and the counters of `meta`. -/
structure Storage where
  rows : Table
  /-- Bumped once per batch that changes a row. -/
  seq : ℕ
  /-- The greatest seq of a purged tombstone. -/
  gcFloor : ℕ
  backupDirty : Bool
  deriving DecidableEq

/-- A `rows` broadcast. -/
structure RowsFrame where
  seq : ℕ
  rows : List RegistryRow
  deriving DecidableEq

/-- A `state` frame, and the answer of `GET /rows`. -/
structure StateReply where
  seq : ℕ
  full : Bool
  gcFloor : ℕ
  rows : List RegistryRow
  deriving DecidableEq

/-- What a push is answered. -/
inductive PushReply where
  | error (code message : String)
  | ack (batch : String) (seq applied : ℕ)
  deriving DecidableEq

/-- The row under a key. -/
abbrev Storage.row (s : Storage) (key : RowKey) : Option RegistryRow := s.rows[key]?

def Storage.empty : Storage := { rows := ∅, seq := 0, gcFloor := 0, backupDirty := false }

/-- `loadRow`: a stored row as an object (`del_hlc` is null or a validated clock). -/
def Storage.loadRow (s : Storage) (key : RowKey) : Option JsRow := (s.row key).map (·.toJs)

/-- What `JSON.stringify` keeps of a row: functions are dropped. -/
def JsRow.stored (row : JsRow) : RegistryRow :=
  { kind := row.kind, id := row.id, seq := row.seq, deleted := row.deleted, delHlc := row.delHlc
    fields := row.fields
    clocks := row.clocks.filterMap fun _ clock =>
      match clock with
      | .str h => some h
      | .builtin _ => none }

/-- `saveRow`. -/
def saveRow (rows : Table) (row : JsRow) : Table := rows.insert ⟨row.kind, row.id⟩ row.stored

/-- `rowsSince`: the rows above a cursor, by seq. -/
def Storage.rowsSince (s : Storage) (cursor : ℕ) : List RegistryRow :=
  ((s.rows.toList.map (·.2)).filter (cursor < ·.seq)).insertionSort (·.seq ≤ ·.seq)

/-- The answer to a hello, and to `GET /rows?since=`. -/
def Storage.stateSince (s : Storage) (cursor : Option ℕ) : StateReply :=
  let full := cursor.all fun cursor => decide (cursor < s.gcFloor) || decide (s.seq < cursor)
  { seq := s.seq, full, gcFloor := s.gcFloor
    rows := if full then s.rowsSince 0 else s.rowsSince (cursor.getD 0) }

/-! ## Pushes -/

/-- Ops per push batch. -/
def maxBatchOps : ℕ := 500

/-- The checks on a batch: an error code and message, or `none`. -/
def checkBatch (batch : String) (ops : List RowOp) : Option (String × String) :=
  if batch = "" then some ("bad_push", "malformed push")
  else if ops.length = 0 ∨ maxBatchOps < ops.length then
    some ("bad_push", "batch of " ++ toString ops.length ++ " ops")
  else ops.findSome? fun op =>
    (validateOp op).map fun invalid => ("invalid_op", op.kind ++ "/" ++ op.id ++ ": " ++ invalid)

/-- One pass of the loop over the batch: the rows touched so far and the number of ops applied. -/
def pushOp (s : Storage) (nextSeq : ℕ) (acc : ExtTreeMap RowKey JsRow compare × ℕ) (op : RowOp) :
    ExtTreeMap RowKey JsRow compare × ℕ :=
  match Edge.applyOp (acc.1[op.key]?.or (s.loadRow op.key)) op with
  | (some row, true) => (acc.1.insert op.key { row with seq := nextSeq }, acc.2 + 1)
  | _ => acc

/-- `applyPushBatch`: the storage, the answer and the broadcast. -/
def applyPushBatch (s : Storage) (batch : String) (ops : List RowOp) :
    Storage × PushReply × Option RowsFrame :=
  match checkBatch batch ops with
  | some (code, message) => (s, .error code message, none)
  | none =>
    let nextSeq := s.seq + 1
    let (touched, applied) := ops.foldl (pushOp s nextSeq) (∅, 0)
    if 0 < applied then
      ({ s with rows := touched.foldl (fun rows _ row => saveRow rows row) s.rows, seq := nextSeq
                backupDirty := true },
        .ack batch nextSeq applied, some { seq := nextSeq, rows := touched.toList.map (·.2.stored) })
    else (s, .ack batch s.seq applied, none)

/-! ## Collection and wipe -/

def tombstoneRetainMs : ℕ := 30 * (24 * 60 * 60 * 1000)

/-- `deleted = 1 AND del_hlc < horizon`. -/
def expired (horizon : Hlc) (row : RegistryRow) : Bool :=
  row.deleted && row.delHlc.any (· < horizon)

/-- The clock below which a tombstone is purged. -/
def horizonHlc (nowMs : ℕ) : Hlc := zeroPad 13 (nowMs - tombstoneRetainMs) ++ "-"

/-- The greatest seq of an expired row, 0 without one. -/
def purgedMaxSeq (horizon : Hlc) (rows : List RegistryRow) : ℕ :=
  rows.foldl (fun max row => if expired horizon row then Nat.max max row.seq else max) 0

/-- Tombstone collection: purge the expired rows and raise `gcFloor` over them. -/
def Storage.collect (s : Storage) (horizon : Hlc) : Storage :=
  let purged := purgedMaxSeq horizon (s.rows.toList.map (·.2))
  if 0 < purged then
    { s with rows := s.rows.filter fun _ row => !expired horizon row
             gcFloor := Nat.max s.gcFloor purged }
  else s

/-- `alarm`, less the nightly backup. -/
def Storage.alarm (s : Storage) (nowMs : ℕ) : Storage :=
  if !s.backupDirty then s else { s.collect (horizonHlc nowMs) with backupDirty := false }

/-! ## What a batch does to one row -/

/-- The ops of a batch on one row. -/
def opsAt (ops : List RowOp) (key : RowKey) : List RowOp := ops.filter (·.key = key)

/-- One op on a row, stamped with the batch's seq where it changes something. -/
def stampOp (n : ℕ) (row : Option RegistryRow) (op : RowOp) : Option RegistryRow :=
  if (applyOp row op.plain).2 then (applyOp row op.plain).1.map (·.atSeq n) else row

/-- The row after the ops of a batch. -/
def rowAfter (n : ℕ) (row : Option RegistryRow) (ops : List RowOp) : Option RegistryRow :=
  ops.foldl (stampOp n) row

section RowAfter

variable {n : ℕ} {row : Option RegistryRow}

theorem stampOp_changed {op : RowOp} (h : (applyOp row op.plain).2 = true) :
    stampOp n row op = (applyOp row op.plain).1.map (·.atSeq n) := if_pos h

theorem stampOp_unchanged {op : RowOp} (h : (applyOp row op.plain).2 = false) :
    stampOp n row op = row := if_neg (by simp [h])

theorem rowAfter_append (ops ops' : List RowOp) :
    rowAfter n row (ops ++ ops') = rowAfter n (rowAfter n row ops) ops' := List.foldl_append

theorem rowAfter_concat (ops : List RowOp) (op : RowOp) :
    rowAfter n row (ops ++ [op]) = stampOp n (rowAfter n row ops) op := List.foldl_append

theorem rowAfter_cases (ops : List RowOp) :
    rowAfter n row ops = row ∨ ∃ r, rowAfter n row ops = some r ∧ r.seq = n := by
  induction ops using List.reverseRecOn with
  | nil => exact Or.inl rfl
  | append_singleton ops op ih =>
    rw [rowAfter_concat]
    cases hch : (applyOp (rowAfter n row ops) op.plain).2 with
    | false => rwa [stampOp_unchanged hch]
    | true =>
      obtain ⟨r, hr⟩ := applyOp_changed hch
      exact Or.inr ⟨r.atSeq n, by rw [stampOp_changed hch, hr]; rfl, rfl⟩

theorem stored_rowAfter {ops : List RowOp} (hops : ∀ op ∈ ops, op.InGrammar)
    (hrow : ∀ r, row = some r → r.Stored) : ∀ r, rowAfter n row ops = some r → r.Stored := by
  induction ops generalizing row with
  | nil => exact hrow
  | cons op ops ih =>
    obtain ⟨hop, hops⟩ := List.forall_mem_cons.mp hops
    refine ih hops fun r hr => ?_
    rw [stampOp] at hr
    split_ifs at hr
    · obtain ⟨r', hr', rfl⟩ := Option.map_eq_some_iff.mp hr
      obtain ⟨⟨h₁, h₂, h₃, h₄⟩, ⟨h₅, h₆⟩, h₇⟩ := stored_applyOp hrow hop hr'
      exact ⟨⟨h₁, h₂, h₃, h₄⟩, ⟨h₅, h₆⟩, h₇⟩
    · exact hrow r hr

theorem key_rowAfter {ops : List RowOp} {key : RowKey} (hops : ∀ op ∈ ops, op.key = key)
    (hrow : ∀ r, row = some r → r.key = key) : ∀ r, rowAfter n row ops = some r → r.key = key := by
  induction ops generalizing row with
  | nil => exact hrow
  | cons op ops ih =>
    obtain ⟨hop, hops⟩ := List.forall_mem_cons.mp hops
    refine ih hops fun r hr => ?_
    rw [stampOp] at hr
    split_ifs at hr
    · obtain ⟨r', hr', rfl⟩ := Option.map_eq_some_iff.mp hr
      rw [← hop] at hrow ⊢
      have hplain : ∀ r, row = some r → r.key = op.plain.key := hrow
      have hkey : r'.key = op.plain.key := key_applyOp hplain hr'
      exact hkey
    · exact hrow r hr

end RowAfter

/-! ## Well-formed storage -/

/-- What the room's storage satisfies in every state. -/
structure Storage.Wf (s : Storage) : Prop where
  keyed : ∀ key r, s.row key = some r → r.key = key
  seq_pos : ∀ key r, s.row key = some r → 0 < r.seq
  seq_le : ∀ key r, s.row key = some r → r.seq ≤ s.seq
  stored : ∀ key r, s.row key = some r → r.Stored
  gcFloor_le : s.gcFloor ≤ s.seq

theorem checkBatch_eq_none {batch : String} {ops : List RowOp} : checkBatch batch ops = none ↔
    batch ≠ "" ∧ ops.length ≠ 0 ∧ ops.length ≤ maxBatchOps ∧ ∀ op ∈ ops, op.Valid := by
  unfold checkBatch
  by_cases hb : batch = ""
  · simp [hb]
  · by_cases hl : ops.length = 0 ∨ maxBatchOps < ops.length
    · rw [if_neg hb, if_pos hl]
      refine iff_of_false (by simp) fun h => ?_
      omega
    · rw [if_neg hb, if_neg hl]
      simp only [List.findSome?_eq_none_iff, Option.map_eq_none_iff, validateOp_eq_none]
      exact ⟨fun h => ⟨hb, by omega, by omega, h⟩, fun h => h.2.2.2⟩

theorem opsAt_concat (ops : List RowOp) (op : RowOp) (key : RowKey) :
    opsAt (ops ++ [op]) key = if op.key = key then opsAt ops key ++ [op] else opsAt ops key := by
  by_cases h : op.key = key <;> simp [opsAt, List.filter_append, h]

section Push

variable {s : Storage} {ops : List RowOp}

theorem row_stored (hs : s.Wf) {n : ℕ} (hops : ∀ op ∈ ops, op.InGrammar) {key : RowKey}
    {r : RegistryRow} (h : rowAfter n (s.row key) (opsAt ops key) = some r) :
    r.Stored ∧ r.key = key := by
  constructor
  · exact stored_rowAfter (fun op hop => hops op (List.mem_of_mem_filter hop)) (hs.stored key) r h
  · exact key_rowAfter (fun op hop => by simpa using (List.mem_filter.mp hop).2) (hs.keyed key) r h

/-- The rows touched by a batch are the ones it changes. -/
theorem touched_foldl (hs : s.Wf) (n : ℕ) (hops : ∀ op ∈ ops, op.InGrammar) :
    (∀ key, ((ops.foldl (pushOp s n) (∅, 0)).1[key]? = none ∧
        rowAfter n (s.row key) (opsAt ops key) = s.row key) ∨
      ∃ r, (ops.foldl (pushOp s n) (∅, 0)).1[key]? = some r.toJs ∧
        rowAfter n (s.row key) (opsAt ops key) = some r ∧ r.seq = n) ∧
    ((ops.foldl (pushOp s n) (∅, 0)).2 = 0 ↔
      ∀ key : RowKey, (ops.foldl (pushOp s n) (∅, 0)).1[key]? = none) := by
  induction ops using List.reverseRecOn with
  | nil => exact ⟨fun key => Or.inl ⟨by simp, rfl⟩, by simp⟩
  | append_singleton ops op ih =>
    have hops' : ∀ op ∈ ops, op.InGrammar := fun o ho => hops o (List.mem_append_left _ ho)
    have hop : op.InGrammar := hops op (List.mem_append_right _ List.mem_cons_self)
    obtain ⟨hrows, hcount⟩ := ih hops'
    rw [List.foldl_append, List.foldl_cons, List.foldl_nil]
    generalize ops.foldl (pushOp s n) (∅, 0) = acc at hrows hcount
    have hcur : acc.1[op.key]?.or (s.loadRow op.key) =
        (rowAfter n (s.row op.key) (opsAt ops op.key)).map (·.toJs) := by
      rcases hrows op.key with ⟨hn, he⟩ | ⟨r, hn, he, -⟩
      · rw [hn, he, Option.none_or, Storage.loadRow]
      · rw [hn, he, Option.some_or, Option.map_some]
    have hstored : ∀ r, rowAfter n (s.row op.key) (opsAt ops op.key) = some r → r.Stored :=
      fun r h => (row_stored hs hops' h).1
    have hmerge := edge_applyOp_clean hop (fun r h => (hstored r h).inGrammar)
      fun r h => (hstored r h).clean
    rw [← hcur] at hmerge
    have hskip : (applyOp (rowAfter n (s.row op.key) (opsAt ops op.key)) op.plain).2 = false →
        pushOp s n acc op = acc := by
      rw [pushOp, hmerge]
      rcases applyOp (rowAfter n (s.row op.key) (opsAt ops op.key)) op.plain with
        ⟨_ | r, _ | _⟩ <;> simp
    have hput : ∀ r, applyOp (rowAfter n (s.row op.key) (opsAt ops op.key)) op.plain =
        (some r, true) →
          pushOp s n acc op = (acc.1.insert op.key (r.atSeq n).toJs, acc.2 + 1) := by
      intro r hr
      rw [pushOp, hmerge, hr]
      rfl
    cases hch : (applyOp (rowAfter n (s.row op.key) (opsAt ops op.key)) op.plain).2 with
    | false =>
      rw [hskip hch]
      refine ⟨fun key => ?_, hcount⟩
      rw [opsAt_concat]
      split_ifs with hk
      · subst hk
        rw [rowAfter_concat, stampOp_unchanged hch]
        exact hrows op.key
      · exact hrows key
    | true =>
      obtain ⟨r, hr⟩ := applyOp_changed hch
      rw [hput r (Prod.ext hr hch)]
      refine ⟨fun key => ?_, by simpa using ⟨op.key, by simp⟩⟩
      rw [opsAt_concat]
      split_ifs with hk
      · subst hk
        refine Or.inr ⟨r.atSeq n, by simp, ?_, rfl⟩
        rw [rowAfter_concat, stampOp_changed hch, hr, Option.map_some]
      · have hne : compare op.key key ≠ .eq := by simpa using hk
        simpa [ExtTreeMap.getElem?_insert, hne] using hrows key

theorem stored_toJs (r : RegistryRow) : r.toJs.stored = r := by
  have : (r.clocks.map fun _ h => JsVal.str h).filterMap (fun _ clock =>
      match clock with
      | .str h => some h
      | .builtin _ => none) = r.clocks := by
    refine ExtTreeMap.ext_getElem? fun k => ?_
    simp only [ExtTreeMap.getElem?_filterMap', ExtTreeMap.getElem?_map]
    cases r.clocks[k]? <;> rfl
  cases r
  simp_all [JsRow.stored, RegistryRow.toJs]

/-- What an accepted batch does. -/
structure Pushed (s s' : Storage) (ops : List RowOp) (frame : Option RowsFrame) : Prop where
  rows : ∀ key : RowKey, s'.row key = rowAfter (s.seq + 1) (s.row key) (opsAt ops key)
  gcFloor : s'.gcFloor = s.gcFloor
  idle : frame = none → s' = s
  frame : ∀ f, frame = some f → s'.seq = s.seq + 1 ∧ f.seq = s.seq + 1 ∧ f.rows ≠ [] ∧
    ∀ r, r ∈ f.rows ↔ s'.row r.key = some r ∧ r.seq = s.seq + 1

/-- **The storage and the broadcast after an accepted batch.** -/
theorem applyPushBatch_spec (hs : s.Wf) {batch : String} (h : checkBatch batch ops = none) :
    Pushed s (applyPushBatch s batch ops).1 ops (applyPushBatch s batch ops).2.2 := by
  have hops : ∀ op ∈ ops, op.InGrammar := fun op hop =>
    ((checkBatch_eq_none.mp h).2.2.2 op hop).inGrammar
  obtain ⟨htouch, hcount⟩ := touched_foldl hs (s.seq + 1) hops
  simp only [applyPushBatch, h]
  generalize hacc : ops.foldl (pushOp s (s.seq + 1)) (∅, 0) = acc at htouch hcount
  by_cases hz : acc.2 = 0
  · rw [if_neg (by omega)]
    refine ⟨fun key => ?_, rfl, fun _ => rfl, fun f hf => by cases hf⟩
    rcases htouch key with ⟨-, he⟩ | ⟨r, hr, -⟩
    · exact he.symm
    · rw [hcount.mp hz key] at hr; cases hr
  · rw [if_pos (by omega)]
    have hsave : ∀ key : RowKey, (acc.1.foldl (fun rows _ row => saveRow rows row) s.rows)[key]? =
        rowAfter (s.seq + 1) (s.row key) (opsAt ops key) := by
      intro key
      have hkey : ∀ (k : RowKey) (row : JsRow), acc.1[k]? = some row →
          (⟨row.kind, row.id⟩ : RowKey) = k := fun k row hrow => by
        rcases htouch k with ⟨hn, -⟩ | ⟨r, hr, he, -⟩
        · rw [hn] at hrow; cases hrow
        · rw [hr] at hrow
          cases hrow
          exact (row_stored hs hops he).2
      have hfold := Keyed.foldl_keyed_mem (fun rows _ row => saveRow rows row)
        (fun (rows : Table) key => rows[key]?) (fun _ row _ => some row.stored) acc.1
        (fun k row hrow rows => by simp [saveRow, hkey k row hrow])
        (fun k row hrow rows k' hne => by
          have hc : compare k k' ≠ .eq := by simpa using Ne.symm hne
          simp [saveRow, hkey k row hrow, ExtTreeMap.getElem?_insert, hc]) s.rows key
      rw [hfold]
      rcases htouch key with ⟨hn, he⟩ | ⟨r, hr, he, -⟩
      · rw [hn, he]
      · rw [hr, he]
        exact congrArg some (stored_toJs r)
    refine ⟨hsave, rfl, (fun hf => by cases hf), fun f hf => ?_⟩
    cases hf
    refine ⟨rfl, rfl, ?_, fun r => ?_⟩
    · obtain ⟨key, hkey⟩ := not_forall.mp (hcount.not.mp hz)
      intro hnil
      rw [List.map_eq_nil_iff] at hnil
      obtain ⟨row, hrow⟩ := Option.ne_none_iff_exists'.mp hkey
      rw [← ExtTreeMap.mem_toList_iff_getElem?_eq_some, hnil] at hrow
      cases hrow
    · rw [Storage.row, hsave]
      constructor
      · intro hr
        obtain ⟨⟨key, row⟩, hrow, rfl⟩ := List.mem_map.mp hr
        rw [ExtTreeMap.mem_toList_iff_getElem?_eq_some] at hrow
        rcases htouch key with ⟨hn, -⟩ | ⟨r, hr, he, hseq⟩
        · rw [hn] at hrow; cases hrow
        · rw [hr] at hrow
          cases hrow
          rw [stored_toJs, (row_stored hs hops he).2]
          exact ⟨he, hseq⟩
      · rintro ⟨he, hseq⟩
        rcases htouch r.key with ⟨-, he'⟩ | ⟨r', hr', he', -⟩
        · -- a stamped row was touched: older rows have older seqs
          rw [he'] at he
          have := hs.seq_le _ _ he
          omega
        · rw [he'] at he
          cases he
          exact List.mem_map.mpr ⟨(r.key, r.toJs),
            ExtTreeMap.mem_toList_iff_getElem?_eq_some.mpr hr', stored_toJs r⟩

theorem applyPushBatch_refused {batch : String} {error : String × String}
    (h : checkBatch batch ops = some error) :
    applyPushBatch s batch ops = (s, .error error.1 error.2, none) := by
  simp [applyPushBatch, h]

theorem Pushed.seq_le {s' : Storage} {frame : Option RowsFrame} (h : Pushed s s' ops frame) :
    s.seq ≤ s'.seq := by
  cases hf : frame with
  | none => rw [h.idle hf]
  | some f => have := (h.frame f hf).1; omega

theorem Pushed.row_cases {s' : Storage} {frame : Option RowsFrame} (h : Pushed s s' ops frame)
    (key : RowKey) : s'.row key = s.row key ∨
      ∃ r, s'.row key = some r ∧ r.seq = s'.seq ∧ s'.seq = s.seq + 1 := by
  cases hf : frame with
  | none => exact Or.inl (by rw [h.idle hf])
  | some f =>
    rw [(h.frame f hf).1, h.rows key]
    rcases rowAfter_cases (opsAt ops key) with he | ⟨r, hr, hseq⟩
    · exact Or.inl he
    · exact Or.inr ⟨r, hr, hseq, rfl⟩

theorem wf_applyPushBatch (hs : s.Wf) (batch : String) (ops : List RowOp) :
    (applyPushBatch s batch ops).1.Wf := by
  cases h : checkBatch batch ops with
  | some error => rwa [applyPushBatch_refused h]
  | none =>
    have hspec := applyPushBatch_spec hs h
    have hops : ∀ op ∈ ops, op.InGrammar := fun op hop =>
      ((checkBatch_eq_none.mp h).2.2.2 op hop).inGrammar
    refine ⟨fun key r hr => ?_, fun key r hr => ?_, fun key r hr => ?_, fun key r hr => ?_, ?_⟩
    · rw [hspec.rows] at hr
      exact (row_stored hs hops hr).2
    · rcases hspec.row_cases key with he | ⟨r', he, hseq, hsucc⟩
      · exact hs.seq_pos key r (he ▸ hr)
      · rw [he] at hr; cases hr; omega
    · rcases hspec.row_cases key with he | ⟨r', he, hseq, -⟩
      · exact (hs.seq_le key r (he ▸ hr)).trans hspec.seq_le
      · rw [he] at hr; cases hr; omega
    · rw [hspec.rows] at hr
      exact (row_stored hs hops hr).1
    · rw [hspec.gcFloor]
      exact hs.gcFloor_le.trans hspec.seq_le

end Push

section Alarm

variable {s : Storage}

theorem purgedMaxSeq_le (horizon : Hlc) (rows : List RegistryRow) {b : ℕ} :
    purgedMaxSeq horizon rows ≤ b ↔ ∀ r ∈ rows, expired horizon r = true → r.seq ≤ b := by
  have hfold : ∀ m, rows.foldl
      (fun max row => if expired horizon row then Nat.max max row.seq else max) m ≤ b ↔
      m ≤ b ∧ ∀ r ∈ rows, expired horizon r = true → r.seq ≤ b := by
    induction rows with
    | nil => simp
    | cons r rows ih =>
      intro m
      rw [List.foldl_cons, ih, List.forall_mem_cons]
      cases expired horizon r
      · simp
      · simp [and_assoc]
  rw [purgedMaxSeq, hfold]
  simp

theorem mem_rows {r : RegistryRow} :
    r ∈ s.rows.toList.map (·.2) ↔ ∃ key, s.row key = some r := by
  simp only [List.mem_map, Prod.exists, ExtTreeMap.mem_toList_iff_getElem?_eq_some,
    exists_eq_right]

/-- What a collection does: expired tombstones go, and `gcFloor` covers their seqs. -/
structure Collected (s s' : Storage) (horizon : Hlc) : Prop where
  row : ∀ key, s'.row key = (s.row key).filter (!expired horizon ·)
  seq : s'.seq = s.seq
  gcFloor : s.gcFloor ≤ s'.gcFloor
  purged : ∀ key r, s.row key = some r → expired horizon r = true → r.seq ≤ s'.gcFloor

theorem collect_spec (hs : s.Wf) (horizon : Hlc) : Collected s (s.collect horizon) horizon := by
  have hmax : ∀ key r, s.row key = some r → expired horizon r = true →
      r.seq ≤ purgedMaxSeq horizon (s.rows.toList.map (·.2)) := fun key r hr hx =>
    (purgedMaxSeq_le _ _).mp le_rfl r (mem_rows.mpr ⟨key, hr⟩) hx
  simp only [Storage.collect]
  split_ifs with hp
  · exact ⟨fun key => ExtTreeMap.getElem?_filter', rfl, Nat.le_max_left _ _, fun key r hr hx =>
      (hmax key r hr hx).trans (Nat.le_max_right _ _)⟩
  · -- no row is expired
    have hno : ∀ key r, s.row key = some r → expired horizon r = false := fun key r hr => by
      by_contra hx
      have := hmax key r hr (by simpa using hx)
      have := hs.seq_pos key r hr
      omega
    refine ⟨fun key => ?_, rfl, le_rfl, fun key r hr hx => ?_⟩
    · have hkeep : ∀ row, s.row key = row → row = row.filter (!expired horizon ·) := by
        rintro (_ | r) hr
        · rfl
        · rw [Option.filter_some_pos (by simp [hno key r hr])]
      exact hkeep _ rfl
    · rw [hno key r hr] at hx; cases hx

theorem gcFloor_collect_le (hs : s.Wf) (horizon : Hlc) : (s.collect horizon).gcFloor ≤ s.seq := by
  simp only [Storage.collect]
  split_ifs
  · refine max_le hs.gcFloor_le ((purgedMaxSeq_le _ _).mpr fun r hr _ => ?_)
    obtain ⟨key, hkey⟩ := mem_rows.mp hr
    exact hs.seq_le key r hkey
  · exact hs.gcFloor_le

/-- **A daily alarm leaves the room as it was, or collects.** -/
theorem alarm_spec (hs : s.Wf) (nowMs : ℕ) :
    s.alarm nowMs = s ∨ Collected s (s.alarm nowMs) (horizonHlc nowMs) := by
  unfold Storage.alarm
  split_ifs
  · exact Or.inl rfl
  · obtain ⟨h₁, h₂, h₃, h₄⟩ := collect_spec hs (horizonHlc nowMs)
    exact Or.inr ⟨h₁, h₂, h₃, h₄⟩

theorem wf_alarm (hs : s.Wf) (nowMs : ℕ) : (s.alarm nowMs).Wf := by
  unfold Storage.alarm
  split_ifs
  · exact hs
  · have h := collect_spec hs (horizonHlc nowMs)
    have hrow : ∀ key r, (s.collect (horizonHlc nowMs)).row key = some r → s.row key = some r :=
      fun key r hr => by
        rw [h.row key, Option.filter_eq_some_iff] at hr
        exact hr.1
    exact ⟨fun key r hr => hs.keyed key r (hrow key r hr),
      fun key r hr => hs.seq_pos key r (hrow key r hr),
      fun key r hr => (hs.seq_le key r (hrow key r hr)).trans h.seq.ge,
      fun key r hr => hs.stored key r (hrow key r hr),
      (gcFloor_collect_le hs _).trans h.seq.ge⟩

end Alarm

theorem wf_empty : Storage.empty.Wf :=
  ⟨by simp [Storage.empty], by simp [Storage.empty], by simp [Storage.empty],
    by simp [Storage.empty], le_rfl⟩

theorem mem_rowsSince {s : Storage} (hs : s.Wf) {cursor : ℕ} {r : RegistryRow} :
    r ∈ s.rowsSince cursor ↔ s.row r.key = some r ∧ cursor < r.seq := by
  rw [Storage.rowsSince, List.mem_insertionSort, List.mem_filter, mem_rows, decide_eq_true_iff]
  refine and_congr_left' ⟨fun ⟨key, hkey⟩ => ?_, fun h => ⟨_, h⟩⟩
  rwa [hs.keyed key r hkey]

/-! ## The room -/

/-- A room: a storage that satisfies the invariants. -/
@[ext] structure Room where
  storage : Storage
  wf : storage.Wf

namespace Room

instance : DecidableEq Room := fun a b => decidable_of_iff (a.storage = b.storage) Room.ext_iff.symm

/-- The row under a key. -/
abbrev row (room : Room) (key : RowKey) : Option RegistryRow := room.storage.row key

/-- A room nothing was pushed to. -/
def empty : Room := ⟨.empty, wf_empty⟩

/-- The room after a push; its answer and its broadcast are those of `applyPushBatch`. -/
def push (room : Room) (batch : String) (ops : List RowOp) : Room :=
  ⟨(applyPushBatch room.storage batch ops).1, wf_applyPushBatch room.wf batch ops⟩

/-- The room after the daily alarm. -/
def alarm (room : Room) (nowMs : ℕ) : Room := ⟨room.storage.alarm nowMs, wf_alarm room.wf nowMs⟩

/-- The rows up to their seqs. -/
def bodies (room : Room) (key : RowKey) : Option RegistryRow := (room.row key).map (·.body)

end Room

end Zeron.Registry
