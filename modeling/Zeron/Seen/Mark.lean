import Zeron.Registry.Overlay
import Zeron.Sidebar.Write

/-!
# Last-seen marks

A chat's `lastSeenAt` (`set_chat_seen` of `crates/doc/src/registry.rs`): a register like any other
field of the row, which a call writes only above the mark its own replica shows.

* `setChatSeen`, `marks`, `seenOp`: the source; **`shown_setChatSeen`**: a call lowers nothing on
  its own replica;
* `point`: the stamp and the mark of a row; `RowIn`, `OpIn`: rows and ops with points of a set;
* `Folded`, **`folded_foldl`**: ops on a row leave one of their points, under a newer stamp;
* **`shown_le`**: replicas by their stamps.
-/

namespace Zeron.Seen

open Registry Lww Sidebar
open Std (ExtTreeMap)

/-- Milliseconds of a `DateTime<Utc>`. -/
structure Millis where
  ms : ℤ
  fits : -2 ^ 63 ≤ ms ∧ ms < 2 ^ 63

/-- `as_i64`. -/
def asI64 : Json → Option ℤ
  | .num n => if -2 ^ 63 ≤ n ∧ n < 2 ^ 63 then some n else none
  | _ => none

def lastSeenAt : String := "lastSeenAt"

/-- Whether a call writes: the chat is shown, with no mark at or above this one. -/
def marks (doc : RegistryDoc) (chatId : String) (seenAt : Millis) : Bool :=
  (doc.overlayRow ⟨kindChats, chatId⟩).any fun row =>
    !(row.fields[lastSeenAt]?.bind asI64).any (seenAt.ms ≤ ·)

/-- `set_chat_seen`: the replica, and whether it has the chat. -/
def setChatSeen (doc : RegistryDoc) (now : ℕ → ℤ) (chatId : String) (seenAt : Millis) :
    RegistryDoc × Bool :=
  match doc.overlayRow ⟨kindChats, chatId⟩ with
  | none => (doc, false)
  | some row =>
    if (row.fields[lastSeenAt]?.bind asI64).any (seenAt.ms ≤ ·) then (doc, true)
    else
      (doc.write now ⟨kindChats, chatId⟩ .update {(lastSeenAt, .num seenAt.ms)}, true)

/-- The op a call enqueues. -/
def seenOp (doc : RegistryDoc) (now : ℕ → ℤ) (chatId : String) (seenAt : Millis) : RowOp :=
  { kind := kindChats, id := chatId, op := .update, set := some {(lastSeenAt, .num seenAt.ms)}
    hlc := (doc.nextHlc (now 0)).2, clocks := none }

/-- A marker as it is read; `⊥` where there is none. -/
def markOf (value : Option Json) : WithBot ℤ := (value.bind asI64).elim ⊥ fun n => (n : WithBot ℤ)

theorem markOf_num (seenAt : Millis) : markOf (some (.num seenAt.ms)) = seenAt.ms := by
  rw [markOf, Option.bind_some, asI64, if_pos seenAt.fits]
  rfl

/-- The stamp and the mark of a row. -/
def point (row : Option RegistryRow) : WithBot Hlc × WithBot ℤ :=
  ((regOf row lastSeenAt).stamp, markOf (regOf row lastSeenAt).value)

/-- What a replica shows. -/
def shown (doc : RegistryDoc) (chatId : String) : WithBot ℤ :=
  (point (doc.overlayRow ⟨kindChats, chatId⟩)).2

section Call

variable (doc : RegistryDoc) (now : ℕ → ℤ) (chatId : String) (seenAt : Millis)

/-- **A call enqueues one op, or does nothing.** -/
theorem setChatSeen_fst : (setChatSeen doc now chatId seenAt).1 =
    if marks doc chatId seenAt then
      (doc.nextHlc (now 0)).1.enqueueOps (later now) [seenOp doc now chatId seenAt]
    else doc := by
  unfold setChatSeen marks
  cases doc.overlayRow ⟨kindChats, chatId⟩ with
  | none => rfl
  | some row =>
    simp only [Option.any_some]
    by_cases h : (row.fields[lastSeenAt]?.bind asI64).any (seenAt.ms ≤ ·) = true
    · rw [if_pos h, if_neg (by simpa using h)]
    · rw [if_neg h, if_pos (by simpa using h)]
      rfl

theorem writeAt_seenOp : (seenOp doc now chatId seenAt).writeAt lastSeenAt =
    some ((doc.nextHlc (now 0)).2, some (.num seenAt.ms)) := by
  simp [seenOp, RowOp.writeAt, RowOp.clockFor, Json.nonNull, Json.isNull]

variable {doc chatId seenAt} in
theorem shown_le_of_marks (h : marks doc chatId seenAt = true) : shown doc chatId ≤ seenAt.ms := by
  obtain ⟨row, hrow, hmark⟩ := (Option.any_eq_true _ _).mp h
  rw [shown, hrow]
  show markOf row.fields[lastSeenAt]? ≤ _
  rw [markOf]
  cases hv : row.fields[lastSeenAt]?.bind asI64 with
  | none => exact bot_le
  | some n =>
    rw [hv] at hmark
    have hlt : n < seenAt.ms := by simpa using hmark
    exact WithBot.coe_le_coe.mpr hlt.le

theorem overlayRow_enqueue (op : RowOp) (key : RowKey) :
    (doc.enqueueOps now [op]).overlayRow key =
      (if op.key = key then (applyOp (held doc key) op).1.or (held doc key)
        else held doc key).filter (!·.deleted) := by
  have h := held_enqueue ⟨doc, now⟩ op key
  rw [overlayRow_eq, ← h]
  rfl

/-- **No call lowers a mark on its own replica.** -/
theorem shown_setChatSeen (other : String) :
    shown doc other ≤ shown (setChatSeen doc now chatId seenAt).1 other := by
  rw [setChatSeen_fst]
  split_ifs with hm
  · have hheld : held (doc.nextHlc (now 0)).1 ⟨kindChats, other⟩ =
        held doc ⟨kindChats, other⟩ := rfl
    by_cases hk : (seenOp doc now chatId seenAt).key = ⟨kindChats, other⟩
    · obtain rfl : chatId = other := congrArg RowKey.id hk
      have hle := shown_le_of_marks hm
      obtain ⟨row, hrow, -⟩ := (Option.any_eq_true _ _).mp hm
      rw [shown, shown, overlayRow_enqueue, if_pos hk, hheld]
      rw [shown, hrow] at hle
      rw [hrow]
      rw [overlayRow_eq, Option.filter_eq_some_iff] at hrow
      have hlive : row.deleted = false := by simpa using hrow.2
      rw [hrow.1, applyOp_live hlive (show OpKind.update ≠ .delete by decide), Option.some_or,
        Option.filter_some_pos (by simp [hlive])]
      show markOf (row.reg lastSeenAt).value ≤ markOf ((row.merge _).reg lastSeenAt).value
      rw [reg_merge_some (writeAt_seenOp doc now chatId seenAt), Reg.write]
      split_ifs
      · rw [markOf_num]
        exact hle
      · exact le_rfl
    · rw [shown, shown, overlayRow_enqueue, if_neg hk, hheld]
      exact le_rfl
  · exact le_rfl

end Call

/-! ## Rows and ops with points of a set -/

/-- A live row of the chat, with a point of the set. -/
structure RowIn (H : Set (WithBot Hlc × WithBot ℤ)) (r : RegistryRow) : Prop where
  live : r.deleted = false
  wf : r.Wf
  mem : point (some r) ∈ H

/-- An op that leaves a live row live, and writes points of the set. -/
structure OpIn (H : Set (WithBot Hlc × WithBot ℤ)) (op : RowOp) : Prop where
  keeps : op.op ≠ .delete
  write : ∀ w, op.writeAt lastSeenAt = some w → ((w.1 : WithBot Hlc), markOf w.2) ∈ H

section In

variable {H : Set (WithBot Hlc × WithBot ℤ)} {r : RegistryRow} {op : RowOp}

theorem RowIn.merge (h : RowIn H r) (hop : OpIn H op) : RowIn H (r.merge op) := by
  refine ⟨by simpa using h.live, wf_merge h.live h.wf.clocked op, ?_⟩
  have hpoint := h.mem
  simp only [point, regOf] at hpoint ⊢
  cases hw : op.writeAt lastSeenAt with
  | none => rwa [reg_merge_none hw]
  | some w =>
    rw [reg_merge_some hw, Reg.write]
    split_ifs
    · exact hop.write w hw
    · exact hpoint

theorem RowIn.atSeq (h : RowIn H r) (n : ℕ) : RowIn H (r.atSeq n) :=
  ⟨h.live, ⟨h.wf.1, h.wf.2, h.wf.3, h.wf.4⟩, h.mem⟩

theorem RowIn.seed (h : RowIn H r) : OpIn H (rowToSeedOp r) := by
  refine ⟨by rw [op_rowToSeedOp, h.live]; decide, fun w hw => ?_⟩
  have hpoint := h.mem
  simp only [point, regOf] at hpoint
  rw [rowToSeedOp, if_neg (by simp [h.live])] at hw
  obtain ⟨v, hv, rfl⟩ := Option.map_eq_some_iff.mp hw
  have hfield : r.fields[lastSeenAt]? = some v := hv
  -- a value has a clock
  have hclock : (r.reg lastSeenAt).stamp ≠ ⊥ :=
    h.wf.clocked lastSeenAt (by simp [RegistryRow.reg, hfield])
  cases hc : r.clocks[lastSeenAt]? with
  | none => simp [RegistryRow.reg, hc] at hclock
  | some c =>
    have hmark : markOf v.nonNull = markOf (r.reg lastSeenAt).value := by
      rw [RegistryRow.reg, hfield]
      cases v <;> rfl
    rw [← hmark] at hpoint
    simpa [RowOp.clockFor, RegistryRow.reg, hc] using hpoint

theorem OpIn.plain (h : OpIn H op) : OpIn H op.plain := by
  refine ⟨h.keeps, fun w hw => ?_⟩
  rw [writeAt_plain, if_neg (by decide)] at hw
  exact h.write w hw

end In

/-! ## Ops on a row -/

/-- What ops of one key do to its row: its stamp is its own or an op's, and none is newer. -/
structure Folded (H : Set (WithBot Hlc × WithBot ℤ)) (ops : List RowOp) (r r' : RegistryRow) :
    Prop where
  row : RowIn H r'
  le : (point (some r)).1 ≤ (point (some r')).1
  ops_le : ∀ op ∈ ops, ∀ w, op.writeAt lastSeenAt = some w →
    (w.1 : WithBot Hlc) ≤ (point (some r')).1
  stamp : (point (some r')).1 = (point (some r)).1 ∨
    ∃ op ∈ ops, ∃ w, op.writeAt lastSeenAt = some w ∧ (point (some r')).1 = w.1

section Folded

variable {H : Set (WithBot Hlc × WithBot ℤ)} {r r' r'' : RegistryRow} {op : RowOp}
  {ops ops' : List RowOp} {key : RowKey}

theorem RowIn.folded (h : RowIn H r) : Folded H [] r r :=
  ⟨h, le_rfl, by simp, Or.inl rfl⟩

theorem Folded.trans (h : Folded H ops r r') (h' : Folded H ops' r' r'') :
    Folded H (ops ++ ops') r r'' := by
  refine ⟨h'.row, h.le.trans h'.le, fun op hop w hw => ?_, ?_⟩
  · rcases List.mem_append.mp hop with hop | hop
    · exact (h.ops_le op hop w hw).trans h'.le
    · exact h'.ops_le op hop w hw
  · rcases h'.stamp with he | ⟨op, hop, w, hw, he⟩
    · rw [he]
      exact h.stamp.imp_right fun ⟨op, hop, hw⟩ => ⟨op, List.mem_append_left _ hop, hw⟩
    · exact Or.inr ⟨op, List.mem_append_right _ hop, w, hw, he⟩

theorem RowIn.folded_merge (h : RowIn H r) (hop : OpIn H op) : Folded H [op] r (r.merge op) := by
  have hstamp : (point (some (r.merge op))).1 =
      (op.writeAt lastSeenAt).elim (point (some r)).1 fun w => max (point (some r)).1 w.1 := by
    simp only [point, regOf]
    rw [reg_merge]
    cases op.writeAt lastSeenAt with
    | none => rfl
    | some w => exact Reg.stamp_write _ w
  refine ⟨h.merge hop, ?_, fun op' hop' w hw => ?_, ?_⟩
  · rw [hstamp]
    cases op.writeAt lastSeenAt with
    | none => exact le_rfl
    | some w => exact le_max_left _ _
  · rw [List.mem_singleton.mp hop'] at hw
    rw [hstamp, hw]
    exact le_max_right _ _
  · rw [hstamp]
    cases hw : op.writeAt lastSeenAt with
    | none => exact Or.inl rfl
    | some w =>
      refine (max_choice (point (some r)).1 (w.1 : WithBot Hlc)).imp_right fun he => ?_
      exact ⟨op, List.mem_singleton_self op, w, hw, he⟩

/-- **Ops leave a row of the chat a row of the chat.** -/
theorem folded_foldl (h : RowIn H r) (hops : ∀ op ∈ opsAt ops key, OpIn H op) :
    ∃ r', ops.foldl (fun row op => if op.key = key then (applyOp row op).1.or row else row)
      (some r) = some r' ∧ Folded H (opsAt ops key) r r' := by
  induction ops using List.reverseRecOn with
  | nil => exact ⟨r, rfl, h.folded⟩
  | append_singleton ops op ih =>
    have hsplit : opsAt (ops ++ [op]) key = opsAt ops key ++ opsAt [op] key := List.filter_append ..
    rw [hsplit] at hops ⊢
    obtain ⟨r', he, hfold⟩ := ih fun op hop => hops op (List.mem_append_left _ hop)
    rw [List.foldl_append, he, List.foldl_cons, List.foldl_nil]
    by_cases hk : op.key = key
    · have hone : opsAt [op] key = [op] := by simp [opsAt, hk]
      have hop := hops op (by rw [hone]; simp)
      rw [if_pos hk, applyOp_live hfold.row.live hop.keeps, Option.some_or, hone]
      exact ⟨_, rfl, hfold.trans (hfold.row.folded_merge hop)⟩
    · have hnone : opsAt [op] key = [] := by simp [opsAt, hk]
      rw [if_neg hk, hnone]
      exact ⟨r', rfl, hfold.trans hfold.row.folded⟩

/-- **So does a batch in the room.** -/
theorem folded_rowAfter (n : ℕ) (h : RowIn H r) (hops : ∀ op ∈ ops, OpIn H op) :
    ∃ r', rowAfter n (some r) ops = some r' ∧ Folded H ops r r' := by
  induction ops using List.reverseRecOn with
  | nil => exact ⟨r, rfl, h.folded⟩
  | append_singleton ops op ih =>
    obtain ⟨r', he, hfold⟩ := ih fun op hop => hops op (List.mem_append_left _ hop)
    have hop := hops op (by simp)
    rw [rowAfter_concat, he]
    have happ := applyOp_live hfold.row.live hop.plain.keeps
    have hplain := hfold.row.folded_merge hop.plain
    have hsame : op.plain.writeAt lastSeenAt = op.writeAt lastSeenAt := by
      rw [writeAt_plain, if_neg (by decide)]
    have hone : Folded H [op] r' (r'.merge op.plain) := by
      refine ⟨hplain.row, hplain.le, fun op' hop' w hw => ?_, ?_⟩
      · rw [List.mem_singleton.mp hop', ← hsame] at hw
        exact hplain.ops_le op.plain (List.mem_singleton_self _) w hw
      · refine hplain.stamp.imp_right fun ⟨op', hop', w, hw, he⟩ => ?_
        rw [List.mem_singleton.mp hop', hsame] at hw
        exact ⟨op, List.mem_singleton_self op, w, hw, he⟩
    cases hch : (applyOp (some r') op.plain).2 with
    | false =>
      have hstay := applyOp_unchanged hch
      rw [happ, Option.some_inj] at hstay
      rw [hstay] at hone
      rw [stampOp_unchanged hch]
      exact ⟨r', rfl, hfold.trans hone⟩
    | true =>
      rw [stampOp_changed hch, happ]
      refine ⟨_, rfl, hfold.trans ⟨hone.row.atSeq n, hone.le, hone.ops_le, hone.stamp⟩⟩

end Folded

/-! ## Replicas by their stamps -/

/-- Newer stamps are not lower marks. -/
def InOrder (H : Set (WithBot Hlc × WithBot ℤ)) : Prop :=
  ∀ p ∈ H, ∀ q ∈ H, p.1 ≤ q.1 → p.2 ≤ q.2

instance (l : List (WithBot Hlc × WithBot ℤ)) : Decidable (InOrder {p | p ∈ l}) :=
  inferInstanceAs (Decidable (∀ p ∈ l, ∀ q ∈ l, p.1 ≤ q.1 → p.2 ≤ q.2))

section Shown

variable {H : Set (WithBot Hlc × WithBot ℤ)} {doc doc' : RegistryDoc} {chatId : String}
  {r r' : RegistryRow}

theorem shown_folded (hrow : doc.row ⟨kindChats, chatId⟩ = some r) (hr : RowIn H r)
    (hops : ∀ op ∈ opsAt (doc.pending.flatMap (·.ops)) ⟨kindChats, chatId⟩, OpIn H op) :
    ∃ o, doc.overlayRow ⟨kindChats, chatId⟩ = some o ∧
      Folded H (opsAt (doc.pending.flatMap (·.ops)) ⟨kindChats, chatId⟩) r o := by
  obtain ⟨o, he, hfold⟩ := folded_foldl hr hops
  refine ⟨o, ?_, hfold⟩
  rw [RegistryDoc.overlayRow, hrow, he, Option.filter_some_pos (by simp [hfold.row.live])]

/-- **A replica shows no lower mark** once its row is as new, and has what it no longer queues. -/
theorem shown_le (hH : InOrder H) (hrow : doc.row ⟨kindChats, chatId⟩ = some r) (hr : RowIn H r)
    (hops : ∀ op ∈ opsAt (doc.pending.flatMap (·.ops)) ⟨kindChats, chatId⟩, OpIn H op)
    (hrow' : doc'.row ⟨kindChats, chatId⟩ = some r') (hr' : RowIn H r')
    (hops' : ∀ op ∈ opsAt (doc'.pending.flatMap (·.ops)) ⟨kindChats, chatId⟩, OpIn H op)
    (hle : (point (some r)).1 ≤ (point (some r')).1)
    (hkept : ∀ op ∈ opsAt (doc.pending.flatMap (·.ops)) ⟨kindChats, chatId⟩,
      op ∈ opsAt (doc'.pending.flatMap (·.ops)) ⟨kindChats, chatId⟩ ∨
        ∀ w, op.writeAt lastSeenAt = some w → (w.1 : WithBot Hlc) ≤ (point (some r')).1) :
    shown doc chatId ≤ shown doc' chatId := by
  obtain ⟨o, ho, hfold⟩ := shown_folded hrow hr hops
  obtain ⟨o', ho', hfold'⟩ := shown_folded hrow' hr' hops'
  rw [shown, shown, ho, ho']
  refine hH _ hfold.row.mem _ hfold'.row.mem ?_
  rcases hfold.stamp with he | ⟨op, hop, w, hw, he⟩
  · rw [he]
    exact hle.trans hfold'.le
  · rw [he]
    rcases hkept op hop with hin | hout
    · exact hfold'.ops_le op hin w hw
    · exact (hout w hw).trans hfold'.le

end Shown

end Zeron.Seen
