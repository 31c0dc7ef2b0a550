import Zeron.Chat.Publish

/-!
# What a client's work does to the store and the queue

* `Change`: rows and pending batches may go once they are settled, what is new joins at the end;
* one lemma for each operation: `change_enqueueBatch`, `change_ensureDurable`, `change_handleAck`,
  `change_httpAck`, `change_handleError`;
* `durable_of_ensureDurable`: what may be sent is durable.
-/

namespace Zeron.Chat

/-- The store owes the batch to a checkpoint. -/
def Flagged (outbox : Outbox) (id : String) : Prop :=
  ∃ row ∈ outbox, row.batchId = id ∧ row.needsCheckpoint = true

/-- Some are gone, and some that were not there are at the end. -/
def Grows (old new : List String) : Prop :=
  ∃ l fresh, new = l ++ fresh ∧ l.Sublist old ∧ ∀ id ∈ fresh, id ∉ old

theorem Grows.of_sublist {old new : List String} (h : new.Sublist old) : Grows old new :=
  ⟨new, [], (List.append_nil _).symm, h, by simp⟩

/-- What may become of the store and the queue, where `settled` batches may go and `new` ones are
handed in. -/
structure Change (settled : String → Prop) (new : List (String × Bytes)) (o o' : Outbox)
    (p p' : List PendingPush) : Prop where
  row_of : ∀ row' ∈ o', (∃ row ∈ o, row.batchId = row'.batchId ∧ row.bytes = row'.bytes) ∨
    (row'.batchId, row'.bytes) ∈ p.map (·.batch) ++ new
  keeps : ∀ row ∈ o, settled row.batchId ∨ ∃ row' ∈ o', row'.batchId = row.batchId ∧
    (row.needsCheckpoint = true → row'.needsCheckpoint = true)
  pending_of : ∀ q' ∈ p', q'.batch ∈ p.map (·.batch) ++ new
  durable_of : ∀ q' ∈ p', q'.durable = true →
    (∃ q ∈ p, q.batchId = q'.batchId ∧ q.durable = true) ∨ q'.batchId ∈ o'.map (·.batchId)
  waits : ∀ q ∈ p, settled q.batchId ∨ Flagged o' q.batchId ∨ q.batchId ∈ p'.map (·.batchId)
  takes : ∀ b ∈ new, b.2.length ≤ maxPushBytes → b.1 ∈ p'.map (·.batchId)
  order : Grows (p.map (·.batchId)) (p'.map (·.batchId))
  rows_order : Grows (o.map (·.batchId)) (o'.map (·.batchId))

section Change

variable {settled : String → Prop} {new : List (String × Bytes)} {o : Outbox}
  {p : List PendingPush}

theorem Change.of_outbox {o' : Outbox}
    (hrow : ∀ row' ∈ o', ∃ row ∈ o, row.batchId = row'.batchId ∧ row.bytes = row'.bytes)
    (hkeeps : ∀ row ∈ o, settled row.batchId ∨ ∃ row' ∈ o', row'.batchId = row.batchId ∧
      (row.needsCheckpoint = true → row'.needsCheckpoint = true))
    (horder : Grows (o.map (·.batchId)) (o'.map (·.batchId))) :
    Change settled [] o o' p p where
  row_of row' h := .inl (hrow row' h)
  keeps := hkeeps
  pending_of q' h := List.mem_append_left _ (List.mem_map_of_mem h)
  durable_of q' h hd := .inl ⟨q', h, rfl, hd⟩
  waits q h := .inr (.inr (List.mem_map_of_mem h))
  takes b h := absurd h (by simp)
  order := .of_sublist (List.Sublist.refl _)
  rows_order := horder

theorem Change.refl : Change settled [] o o p p :=
  .of_outbox (fun row h => ⟨row, h, rfl, rfl⟩) (fun row h => .inr ⟨row, h, rfl, id⟩)
    (.of_sublist (List.Sublist.refl _))

theorem grows_enqueueChatUpdate (o : Outbox) (batchId : String) (bytes : Bytes) :
    Grows (o.map (·.batchId)) ((o.enqueueChatUpdate batchId bytes).map (·.batchId)) := by
  rw [Outbox.enqueueChatUpdate]
  split_ifs with hany
  · exact .of_sublist (List.Sublist.refl _)
  · refine ⟨_, [batchId], by simp, List.Sublist.refl _, fun id hid => ?_⟩
    rw [List.mem_singleton.mp hid]
    simpa using hany

theorem ids_rejectChatUpdate (o : Outbox) (id : String) :
    (o.rejectChatUpdate id).map (·.batchId) = o.map (·.batchId) := by
  rw [Outbox.rejectChatUpdate, List.map_map]
  refine List.map_congr_left fun row _ => ?_
  rw [Function.comp_apply]
  split_ifs <;> rfl

theorem mem_enqueueChatUpdate {batchId : String} {bytes : Bytes} {row : OutboxRow} :
    row ∈ o.enqueueChatUpdate batchId bytes →
      row ∈ o ∨ row = { batchId, bytes, needsCheckpoint := false } := by
  rw [Outbox.enqueueChatUpdate]
  split_ifs
  · exact .inl
  · intro h
    exact (List.mem_append.mp h).imp_right List.mem_singleton.mp

theorem mem_enqueueChatUpdate_of_mem {batchId : String} {bytes : Bytes} {row : OutboxRow}
    (h : row ∈ o) : row ∈ o.enqueueChatUpdate batchId bytes := by
  rw [Outbox.enqueueChatUpdate]
  split_ifs
  · exact h
  · exact List.mem_append_left _ h

theorem id_mem_enqueueChatUpdate (o : Outbox) (batchId : String) (bytes : Bytes) :
    batchId ∈ (o.enqueueChatUpdate batchId bytes).map (·.batchId) := by
  rw [Outbox.enqueueChatUpdate]
  split_ifs with h
  · obtain ⟨row, hrow, hid⟩ := List.any_eq_true.mp h
    exact List.mem_map.mpr ⟨row, hrow, by simpa using hid⟩
  · simp

theorem mem_rejectChatUpdate {id : String} {row' : OutboxRow} (h : row' ∈ o.rejectChatUpdate id) :
    ∃ row ∈ o, row.batchId = row'.batchId ∧ row.bytes = row'.bytes := by
  obtain ⟨row, hrow, rfl⟩ := List.mem_map.mp h
  refine ⟨row, hrow, ?_⟩
  split_ifs
  · exact ⟨rfl, rfl⟩
  · exact ⟨rfl, rfl⟩

theorem mem_rejectChatUpdate_of_mem {row : OutboxRow} (id : String) (h : row ∈ o) :
    ∃ row' ∈ o.rejectChatUpdate id, row'.batchId = row.batchId ∧
      (row.needsCheckpoint = true → row'.needsCheckpoint = true) ∧
      (row.batchId = id → row'.needsCheckpoint = true) := by
  refine ⟨_, List.mem_map_of_mem h, ?_⟩
  split_ifs with hid
  · exact ⟨rfl, fun _ => rfl, fun _ => rfl⟩
  · exact ⟨rfl, fun h => h, fun heq => absurd heq hid⟩

theorem outbox_enqueueBatch (c : Client) (stored rejected : Bool) (batchId : String)
    (bytes : Bytes) :
    (c.enqueueBatch stored rejected batchId bytes).outbox =
      if maxPushBytes < bytes.length ∧ rejected = true then
        (if stored then c.outbox.enqueueChatUpdate batchId bytes else c.outbox).rejectChatUpdate
          batchId
      else if stored then c.outbox.enqueueChatUpdate batchId bytes else c.outbox := by
  rw [Client.enqueueBatch, Client.persistUpdate, Client.rejectUpdate]
  cases stored <;> cases rejected <;> by_cases hlarge : maxPushBytes < bytes.length <;>
    simp [hlarge] <;> split_ifs <;> rfl

theorem pending_enqueueBatch (c : Client) (stored rejected : Bool) (batchId : String)
    (bytes : Bytes) :
    (c.enqueueBatch stored rejected batchId bytes).shared.pending =
      if maxPushBytes < bytes.length ∨ c.shared.pending.any (·.batchId = batchId) then
        c.shared.pending
      else c.shared.pending ++ [{ batchId, bytes, durable := stored }] := by
  have hpersist : (c.persistUpdate stored batchId bytes).shared = c.shared := by
    rw [Client.persistUpdate]
    split_ifs <;> rfl
  rw [Client.enqueueBatch]
  dsimp only
  by_cases hlarge : maxPushBytes < bytes.length
  · rw [if_pos hlarge, if_pos (.inl hlarge), Client.rejectUpdate]
    split_ifs <;> rw [← hpersist]
  · rw [if_neg hlarge, hpersist]
    by_cases hany : c.shared.pending.any (·.batchId = batchId) = true
    · rw [if_pos hany, if_pos (.inr hany), hpersist]
    · rw [if_neg hany, if_neg (by simpa [hlarge] using hany)]

/-- The store before and after a batch that may be written and may be flagged. -/
theorem rows_enqueueBatch (c : Client) (stored rejected : Bool) (b : String × Bytes) :
    (∀ row' ∈ (c.enqueueBatch stored rejected b.1 b.2).outbox,
      (∃ row ∈ c.outbox, row.batchId = row'.batchId ∧ row.bytes = row'.bytes) ∨
        (row'.batchId, row'.bytes) = b) ∧
      ∀ row ∈ c.outbox, ∃ row' ∈ (c.enqueueBatch stored rejected b.1 b.2).outbox,
        row'.batchId = row.batchId ∧ (row.needsCheckpoint = true → row'.needsCheckpoint = true) := by
  have hwritten : ∀ row' ∈ (if stored then c.outbox.enqueueChatUpdate b.1 b.2 else c.outbox),
      (∃ row ∈ c.outbox, row.batchId = row'.batchId ∧ row.bytes = row'.bytes) ∨
        (row'.batchId, row'.bytes) = b := by
    intro row' h
    split_ifs at h
    · rcases mem_enqueueChatUpdate h with h | rfl
      · exact .inl ⟨row', h, rfl, rfl⟩
      · exact .inr rfl
    · exact .inl ⟨row', h, rfl, rfl⟩
  have hkept : ∀ row ∈ c.outbox,
      row ∈ (if stored then c.outbox.enqueueChatUpdate b.1 b.2 else c.outbox) := by
    intro row h
    split_ifs
    · exact mem_enqueueChatUpdate_of_mem h
    · exact h
  rw [outbox_enqueueBatch]
  generalize (if stored then c.outbox.enqueueChatUpdate b.1 b.2 else c.outbox) = o at hwritten hkept
  split_ifs
  · refine ⟨fun row' h => ?_, fun row h => ?_⟩
    · obtain ⟨row, hrow, hid, hbytes⟩ := mem_rejectChatUpdate h
      rw [← hid, ← hbytes]
      exact hwritten row hrow
    · obtain ⟨row', hrow', hid, hflag, -⟩ := mem_rejectChatUpdate_of_mem b.1 (hkept row h)
      exact ⟨row', hrow', hid, hflag⟩
  · exact ⟨hwritten, fun row h => ⟨row, hkept row h, rfl, fun h => h⟩⟩

theorem grows_enqueueBatch (c : Client) (stored rejected : Bool) (b : String × Bytes) :
    Grows (c.outbox.map (·.batchId))
      ((c.enqueueBatch stored rejected b.1 b.2).outbox.map (·.batchId)) := by
  have hwritten : Grows (c.outbox.map (·.batchId))
      ((if stored then c.outbox.enqueueChatUpdate b.1 b.2 else c.outbox).map (·.batchId)) := by
    split_ifs
    · exact grows_enqueueChatUpdate _ _ _
    · exact .of_sublist (List.Sublist.refl _)
  rw [outbox_enqueueBatch]
  generalize (if stored then c.outbox.enqueueChatUpdate b.1 b.2 else c.outbox) = o at hwritten
  split_ifs
  · rw [ids_rejectChatUpdate]
    exact hwritten
  · exact hwritten

/-- **Handing a batch in.** -/
theorem change_enqueueBatch (c : Client) (stored rejected : Bool) (b : String × Bytes) :
    Change settled [b] c.outbox (c.enqueueBatch stored rejected b.1 b.2).outbox
      c.shared.pending (c.enqueueBatch stored rejected b.1 b.2).shared.pending := by
  obtain ⟨hrows, hkeeps⟩ := rows_enqueueBatch c stored rejected b
  have hrows' : ∀ row' ∈ (c.enqueueBatch stored rejected b.1 b.2).outbox,
      (∃ row ∈ c.outbox, row.batchId = row'.batchId ∧ row.bytes = row'.bytes) ∨
        (row'.batchId, row'.bytes) ∈ c.shared.pending.map (·.batch) ++ [b] := fun row' h =>
    (hrows row' h).imp_right fun h => List.mem_append_right _ (List.mem_singleton.mpr h)
  rw [pending_enqueueBatch]
  split_ifs with hskip
  · refine ⟨hrows', fun row h => .inr (hkeeps row h),
      fun q h => List.mem_append_left _ (List.mem_map_of_mem h), fun q h hd => .inl ⟨q, h, rfl, hd⟩,
      fun q h => .inr (.inr (List.mem_map_of_mem h)), fun b' hb hfits => ?_,
      .of_sublist (List.Sublist.refl _), grows_enqueueBatch c stored rejected b⟩
    rw [List.mem_singleton.mp hb] at hfits ⊢
    obtain ⟨q, hq, hid⟩ := List.any_eq_true.mp (hskip.resolve_left (not_lt.mpr hfits))
    exact List.mem_map.mpr ⟨q, hq, by simpa using hid⟩
  · rw [not_or] at hskip
    have hnew : ∀ q ∈ c.shared.pending, q.batchId ≠ b.1 := by simpa using hskip.2
    refine ⟨hrows', fun row h => .inr (hkeeps row h), fun q h => ?_, fun q h hd => ?_,
      fun q h => .inr (.inr ?_), fun b' hb _ => ?_, ?_, grows_enqueueBatch c stored rejected b⟩
    · rcases List.mem_append.mp h with h | h
      · exact List.mem_append_left _ (List.mem_map_of_mem h)
      · rw [List.mem_singleton.mp h]
        exact List.mem_append_right _ (List.mem_singleton_self _)
    · rcases List.mem_append.mp h with h | h
      · exact .inl ⟨q, h, rfl, hd⟩
      · rw [List.mem_singleton.mp h] at hd ⊢
        obtain rfl : stored = true := hd
        rw [outbox_enqueueBatch, if_neg (fun h => hskip.1 h.1), if_pos rfl]
        exact .inr (id_mem_enqueueChatUpdate _ _ _)
    · rw [List.map_append]
      exact List.mem_append_left _ (List.mem_map_of_mem h)
    · rw [List.mem_singleton.mp hb]
      simp
    · refine ⟨_, [b.1], by simp, List.Sublist.refl _, fun id h => ?_⟩
      rw [List.mem_singleton.mp h]
      simpa using hnew

/-- A batch of the queue is written, and noted as durable. -/
theorem change_persist (c : Client) {found : PendingPush} (hfound : found ∈ c.shared.pending) :
    Change settled [] c.outbox (c.outbox.enqueueChatUpdate found.batchId found.bytes)
      c.shared.pending (c.markDurable found.batchId).shared.pending := by
  have hids : (c.markDurable found.batchId).shared.pending.map (·.batchId) =
      c.shared.pending.map (·.batchId) := by
    rw [Client.markDurable, List.map_map]
    refine List.map_congr_left fun q _ => ?_
    rw [Function.comp_apply]
    split_ifs <;> rfl
  have hmem : ∀ q' ∈ (c.markDurable found.batchId).shared.pending, ∃ q ∈ c.shared.pending,
      q.batch = q'.batch ∧ (q'.durable = true → q.durable = true ∨ q'.batchId = found.batchId) := by
    intro q' h
    obtain ⟨q, hq, rfl⟩ := List.mem_map.mp h
    refine ⟨q, hq, ?_⟩
    split_ifs with hid
    · exact ⟨rfl, fun _ => .inr hid⟩
    · exact ⟨rfl, .inl⟩
  refine ⟨fun row' h => ?_, fun row h => .inr ⟨row, mem_enqueueChatUpdate_of_mem h, rfl, fun h => h⟩,
    fun q' h => ?_, fun q' h hd => ?_, fun q h => .inr (.inr ?_), fun b h => absurd h (by simp),
    .of_sublist (hids ▸ List.Sublist.refl _), grows_enqueueChatUpdate _ _ _⟩
  · rcases mem_enqueueChatUpdate h with h | rfl
    · exact .inl ⟨row', h, rfl, rfl⟩
    · exact .inr (List.mem_append_left _ (List.mem_map_of_mem (f := PendingPush.batch) hfound))
  · obtain ⟨q, hq, hbatch, -⟩ := hmem q' h
    rw [← hbatch]
    exact List.mem_append_left _ (List.mem_map_of_mem hq)
  · obtain ⟨q, hq, hbatch, hdurable⟩ := hmem q' h
    rcases hdurable hd with hd' | hid
    · exact .inl ⟨q, hq, congrArg Prod.fst hbatch, hd'⟩
    · rw [hid]
      exact .inr (id_mem_enqueueChatUpdate _ _ _)
  · rw [hids]
    exact List.mem_map_of_mem h

/-- **Making sure a batch is in the store.** -/
theorem change_ensureDurable (c : Client) (stored : Bool) (push : PendingPush) :
    Change settled [] c.outbox (c.ensureDurable stored push).1.outbox
      c.shared.pending (c.ensureDurable stored push).1.shared.pending := by
  rw [Client.ensureDurable]
  by_cases hd : push.durable = true
  · rw [if_pos hd]
    exact .refl
  · rw [if_neg hd]
    cases hfind : c.shared.pending.find? (·.batchId = push.batchId) with
    | none => exact .refl
    | some found =>
      have hfound : found ∈ c.shared.pending := List.mem_of_find?_eq_some hfind
      dsimp only
      split_ifs
      · exact .refl
      · exact change_persist c hfound
      · exact .refl

/-- **Forgetting a settled batch.** -/
theorem change_forget {id : String} (h : settled id) (stored : Bool) :
    Change settled [] o (if stored then o.acknowledgeChatUpdate id else o) p
      (if stored then p.filter (·.batchId ≠ id) else p) := by
  cases stored with
  | false => exact .refl
  | true =>
    refine ⟨fun row' h' => .inl ⟨row', (List.mem_filter.mp h').1, rfl, rfl⟩, fun row hrow => ?_,
      fun q' hq' => ?_, fun q' hq' hd => .inl ⟨q', (List.mem_filter.mp hq').1, rfl, hd⟩,
      fun q hq => ?_, fun b hb => absurd hb (by simp), .of_sublist (List.filter_sublist.map _),
      .of_sublist (List.filter_sublist.map _)⟩
    · by_cases hid : row.batchId = id
      · exact .inl (hid ▸ h)
      · exact .inr ⟨row, List.mem_filter.mpr ⟨hrow, by simpa using hid⟩, rfl, fun h => h⟩
    · exact List.mem_append_left _ (List.mem_map_of_mem (List.mem_filter.mp hq').1)
    · by_cases hid : q.batchId = id
      · exact .inl (hid ▸ h)
      · exact .inr (.inr (List.mem_map_of_mem (List.mem_filter.mpr ⟨hq, by simpa using hid⟩)))

/-- **Retiring a batch.** -/
theorem change_retire {id : String} (h : settled id ∨ id ∈ o.map (·.batchId)) :
    Change settled [] o (o.rejectChatUpdate id) p (p.filter (·.batchId ≠ id)) := by
  refine ⟨fun row' h' => .inl (mem_rejectChatUpdate h'), fun row hrow => ?_,
    fun q' hq' => ?_, fun q' hq' hd => .inl ⟨q', (List.mem_filter.mp hq').1, rfl, hd⟩,
    fun q hq => ?_, fun b hb => absurd hb (by simp), .of_sublist (List.filter_sublist.map _),
    .of_sublist (ids_rejectChatUpdate o id ▸ List.Sublist.refl _)⟩
  · obtain ⟨row', hrow', hid, hflag, -⟩ := mem_rejectChatUpdate_of_mem id hrow
    exact .inr ⟨row', hrow', hid, hflag⟩
  · exact List.mem_append_left _ (List.mem_map_of_mem (List.mem_filter.mp hq').1)
  · by_cases hid : q.batchId = id
    · refine h.imp (fun h => hid ▸ h) fun hrow => .inl ?_
      obtain ⟨row, hrow, hrowid⟩ := List.mem_map.mp hrow
      obtain ⟨row', hrow', hid', -, hflag⟩ := mem_rejectChatUpdate_of_mem id hrow
      exact ⟨row', hrow', hid'.trans (hrowid.trans hid.symm), hflag hrowid⟩
    · exact .inr (.inr (List.mem_map_of_mem (List.mem_filter.mpr ⟨hq, by simpa using hid⟩)))

theorem outbox_handleAck (c : Client) (stored : Bool) (id : String) (seq : ℕ) :
    (c.handleAck stored id seq).outbox =
      if stored then c.outbox.acknowledgeChatUpdate id else c.outbox := by
  rw [Client.handleAck]
  cases stored <;> dsimp only <;> split_ifs <;> rfl

theorem pending_handleAck (c : Client) (stored : Bool) (id : String) (seq : ℕ) :
    (c.handleAck stored id seq).shared.pending =
      if stored then c.shared.pending.filter (·.batchId ≠ id) else c.shared.pending := by
  rw [Client.handleAck]
  cases stored <;> dsimp only <;> split_ifs <;> rfl

theorem outbox_httpAck (c : Client) (stored : Bool) (id : String) (seq : ℕ) :
    (c.httpAck stored id seq).outbox =
      if stored then c.outbox.acknowledgeChatUpdate id else c.outbox := by
  rw [Client.httpAck]
  cases stored <;> dsimp only <;> split_ifs <;> rfl

theorem change_handleAck (c : Client) {id : String} (h : settled id) (stored : Bool) (seq : ℕ) :
    Change settled [] c.outbox (c.handleAck stored id seq).outbox c.shared.pending
      (c.handleAck stored id seq).shared.pending := by
  rw [outbox_handleAck, pending_handleAck]
  exact change_forget h stored

theorem change_httpAck (c : Client) {id : String} (h : settled id) (stored : Bool) (seq : ℕ) :
    Change settled [] c.outbox (c.httpAck stored id seq).outbox c.shared.pending
      (c.httpAck stored id seq).shared.pending := by
  rw [outbox_httpAck, Client.pending_httpAck]
  exact change_forget h stored

theorem change_handleError (c : Client) (stored : Bool) {code id : String}
    (h : Client.permanent code = true → settled id ∨ id ∈ c.outbox.map (·.batchId)) :
    Change settled [] c.outbox (c.handleError stored code id).1.outbox c.shared.pending
      (c.handleError stored code id).1.shared.pending := by
  rw [Client.handleError]
  split_ifs with hcode hstored hquota
  · exact change_retire (h hcode.1)
  · exact .refl
  · exact .refl
  · exact .refl

theorem durable_of_ensureDurable {c : Client} {stored : Bool} {push : PendingPush}
    (h : (c.ensureDurable stored push).2 = true) :
    push.durable = true ∨ push.batchId ∉ c.shared.pending.map (·.batchId) ∨
      (∃ q ∈ c.shared.pending, q.batchId = push.batchId ∧ q.durable = true) ∨
      push.batchId ∈ (c.ensureDurable stored push).1.outbox.map (·.batchId) := by
  rw [Client.ensureDurable] at h ⊢
  by_cases hd : push.durable = true
  · exact .inl hd
  · rw [if_neg hd] at h ⊢
    cases hfind : c.shared.pending.find? (·.batchId = push.batchId) with
    | none =>
      refine .inr (.inl fun hmem => ?_)
      obtain ⟨q, hq, hid⟩ := List.mem_map.mp hmem
      simpa [hid] using List.find?_eq_none.mp hfind q hq
    | some found =>
      have hfound : found ∈ c.shared.pending := List.mem_of_find?_eq_some hfind
      have hid : found.batchId = push.batchId := by simpa using List.find?_some hfind
      rw [hfind] at h
      dsimp only at h ⊢
      split_ifs at h ⊢ with hdurable hstored
      · exact .inr (.inr (.inl ⟨found, hfound, hid, hdurable⟩))
      · refine .inr (.inr (.inr ?_))
        rw [← hid]
        exact id_mem_enqueueChatUpdate _ _ _

end Change

end Zeron.Chat
