import Zeron.Registry.Converge
import Zeron.Sidebar.Clock

/-!
# What a write does to the sidebar

One upsert changes the registers of one row, and only those.

* `RowOp.fresh`, **`held_enqueue`**: the merged row under a pending upsert;
* `Wrote`: the registers after one, and what stays as it is;
* **`wrote_write`**: `write` on an orderly replica;
* `Landed`: the same where the write lands on every register it names.
-/

namespace Zeron.Sidebar

open Registry Lww
open Std (ExtTreeMap)

/-- An op's row before its first write. -/
def freshRow (op : RowOp) : RegistryRow :=
  { kind := op.kind, id := op.id, seq := 0, deleted := false, delHlc := none, fields := ∅
    clocks := ∅ }

@[simp] theorem reg_freshRow (op : RowOp) (f : String) : (freshRow op).reg f = ⟨⊥, none⟩ := by
  simp [freshRow, RegistryRow.reg]

section Enqueue

variable {t : Clocked} {op : RowOp}

theorem held_enqueue (t : Clocked) (op : RowOp) (key : RowKey) : held (t.enqueue op).doc key =
    if op.key = key then (applyOp (held t.doc key) op).1.or (held t.doc key)
    else held t.doc key := by
  obtain ⟨batches, h⟩ := enqueueOps_spec t.doc t.now [op]
  have hrow : (t.doc.enqueueOps t.now [op]).row key = t.doc.row key := by
    rw [row_enqueueOps]
  show held (t.doc.enqueueOps t.now [op]) key = _
  unfold held
  rw [hrow, h.pending, List.flatMap_append, h.ops, List.foldl_append]
  rfl

theorem held_enqueue_of_ne {key : RowKey} (h : key ≠ op.key) :
    held (t.enqueue op).doc key = held t.doc key := by
  rw [held_enqueue, if_neg (Ne.symm h)]

theorem held_enqueue_self (hop : op.op = .upsert)
    (hlive : ∀ r, held t.doc op.key = some r → r.deleted = false) :
    held (t.enqueue op).doc op.key = some (((held t.doc op.key).getD (freshRow op)).merge op) := by
  have hdel : op.op ≠ .delete := by
    rw [hop]
    decide
  rw [held_enqueue, if_pos rfl]
  cases hr : held t.doc op.key with
  | none =>
    have hb : baseFor none op = some (freshRow op) := by
      simp [baseFor, hop, freshRow]
    rw [(applyOp_write hdel hb).1]
    rfl
  | some r =>
    rw [applyOp_live (hlive r hr) hdel]
    rfl

theorem clock_enqueue (t : Clocked) (op : RowOp) :
    (t.enqueue op).doc.clock = t.nextHlc.1.doc.clock := by
  have hne : [op] ≠ [] := List.cons_ne_nil _ _
  show (t.doc.enqueueOps t.now [op]).clock = _
  unfold RegistryDoc.enqueueOps
  rw [if_neg hne, List.length_singleton, RegistryDoc.enqueueChunks, if_neg hne,
    RegistryDoc.enqueueChunks]
  rfl

theorem keyed_enqueue (h : t.doc.Keyed) : (t.enqueue op).doc.Keyed := by
  intro key r hr
  have hr : (t.doc.enqueueOps t.now [op]).row key = some r := hr
  rw [row_enqueueOps] at hr
  exact h key r hr

end Enqueue

/-! ## Registers after a write -/

/-- One upsert of some fields under one clock. -/
structure Wrote (doc doc' : RegistryDoc) (key : RowKey) (set : SMap Json) (hlc : Hlc) : Prop where
  other : ∀ k, k ≠ key → held doc' k = held doc k
  row : ∃ r, held doc' key = some r ∧ r.deleted = false
  reg : ∀ f, overlayReg doc' key f = match set[f]? with
    | none => overlayReg doc key f
    | some v => (overlayReg doc key f).write (hlc, v.nonNull)

/-- The op of a write. -/
def upsertOp (key : RowKey) (set : SMap Json) (hlc : Hlc) : RowOp :=
  { kind := key.kind, id := key.id, op := .upsert, set := some set, hlc, clocks := none }

section Wrote

variable {t : Clocked} {k : ℕ} {key : RowKey} {set : SMap Json} {hlc : Hlc}

theorem writeAt_upsertOp (f : String) :
    (upsertOp key set hlc).writeAt f = set[f]?.map fun v => (hlc, v.nonNull) := rfl

variable (set hlc) in
theorem held_upsert (h : Orderly k t) (hkey : key.kind ∈ sidebarKinds) :
    held (t.enqueue (upsertOp key set hlc)).doc key =
      some (((held t.doc key).getD (freshRow (upsertOp key set hlc))).merge
        (upsertOp key set hlc)) :=
  held_enqueue_self rfl (h.kept key hkey)

variable (set hlc) in
theorem deleted_upsert (h : Orderly k t) (hkey : key.kind ∈ sidebarKinds) :
    (((held t.doc key).getD (freshRow (upsertOp key set hlc))).merge
      (upsertOp key set hlc)).deleted = false := by
  rw [merge_deleted]
  cases hr : held t.doc key with
  | none => rfl
  | some r => exact h.kept key hkey r hr

theorem rowClock_merge {r : RegistryRow} {c : Hlc}
    (hc : RowClock (some (r.merge (upsertOp key set hlc))) c) : RowClock (some r) c ∨ c = hlc := by
  obtain ⟨r', hr', hc⟩ := hc
  cases hr'
  rcases hc with hc | ⟨f, hc⟩
  · rw [merge_delHlc] at hc
    exact Or.inl ⟨r, rfl, Or.inl hc⟩
  · have hstamp : ((r.merge (upsertOp key set hlc)).reg f).stamp = c := by
      rw [RegistryRow.reg, hc]
      rfl
    rw [reg_merge, writeAt_upsertOp] at hstamp
    have hold : (r.reg f).stamp = c → RowClock (some r) c := by
      intro h
      rw [RegistryRow.reg] at h
      cases hf : r.clocks[f]? with
      | none =>
        rw [hf] at h
        exact absurd h (by simp)
      | some c' =>
        rw [hf] at h
        exact ⟨r, rfl, Or.inr ⟨f, hf.trans (congrArg some (WithBot.coe_injective h))⟩⟩
    cases hv : set[f]? with
    | none =>
      rw [hv] at hstamp
      exact Or.inl (hold hstamp)
    | some v =>
      rw [hv] at hstamp
      dsimp only [Option.map_some] at hstamp
      rw [Reg.stamp_write] at hstamp
      rcases le_total (r.reg f).stamp (hlc : WithBot Hlc) with hle | hle
      · rw [max_eq_right hle] at hstamp
        exact Or.inr (WithBot.coe_injective hstamp).symm
      · rw [max_eq_left hle] at hstamp
        exact Or.inl (hold hstamp)

theorem rowClock_enqueue (h : Orderly k t) (hkey : key.kind ∈ sidebarKinds) {c : Hlc}
    (hc : RowClock (held (t.enqueue (upsertOp key set hlc)).doc key) c) :
    RowClock (held t.doc key) c ∨ c = hlc := by
  rw [held_upsert set hlc h hkey] at hc
  rcases rowClock_merge hc with hc | hc
  · cases hr : held t.doc key with
    | none =>
      rw [hr] at hc
      obtain ⟨r, hr, hc⟩ := hc
      cases hr
      rcases hc with hc | ⟨f, hc⟩
      · cases hc
      · simp [freshRow] at hc
    | some r =>
      rw [hr] at hc
      exact Or.inl hc
  · exact Or.inr hc

theorem orderly_enqueue (h : Orderly (k + 1) t) (hp : Past t.doc.clock hlc) :
    Orderly k (t.enqueue (upsertOp key set hlc)) := by
  have hnext := orderly_nextHlc h
  have hclock := clock_enqueue t (upsertOp key set hlc)
  refine ⟨keyed_enqueue h.keyed, fun k' hk' r hr => ?_, ?_, ?_, fun n => ?_, fun k' hk' c hc => ?_⟩
  · by_cases he : k' = key
    · subst he
      rw [held_upsert set hlc h hk'] at hr
      cases hr
      exact deleted_upsert set hlc h hk'
    · rw [held_enqueue_of_ne he] at hr
      exact h.kept k' hk' r hr
  · rw [hclock]
    exact hnext.counter
  · rw [hclock]
    exact hnext.clock
  · exact hnext.now n
  · have hold : RowClock (held t.doc k') c ∨ c = hlc := by
      by_cases he : k' = key
      · subst he
        exact rowClock_enqueue h hk' hc
      · rw [held_enqueue_of_ne he] at hc
        exact Or.inl hc
    rcases hold with hold | rfl
    · exact (h.mono (Nat.le_succ k)).dated k' hk' c hold
    · obtain ⟨d, device, rfl, hd, hcount⟩ := hp
      have hend := h.clock
      exact ⟨d, device, rfl, hd, by omega⟩

theorem seen_enqueue (h : Orderly k t) (hkey : key.kind ∈ sidebarKinds)
    (hp : Past t.doc.clock hlc) {key' : RowKey} (hs : Seen t key') :
    Seen (t.enqueue (upsertOp key set hlc)) key' := by
  intro c hc
  have hold : RowClock (held t.doc key') c ∨ c = hlc := by
    by_cases he : key' = key
    · subst he
      exact rowClock_enqueue h hkey hc
    · rw [held_enqueue_of_ne he] at hc
      exact Or.inl hc
  have hle : t.doc.clock.count ≤ (t.enqueue (upsertOp key set hlc)).doc.clock.count := by
    rw [clock_enqueue]
    exact (count_nextHlc h.counter).2.1.le
  rcases hold with hold | rfl
  · exact (hs c hold).mono hle
  · exact hp.mono hle

/-- **An upsert writes the registers it names.** -/
theorem wrote_enqueue (h : Orderly k t) (hkey : key.kind ∈ sidebarKinds) :
    Wrote t.doc (t.enqueue (upsertOp key set hlc)).doc key set hlc := by
  have hself := held_upsert set hlc h hkey
  have hlive := deleted_upsert set hlc h hkey
  refine ⟨fun k' hk' => held_enqueue_of_ne hk', ⟨_, hself, hlive⟩, fun f => ?_⟩
  have hreg : ((held t.doc key).getD (freshRow (upsertOp key set hlc))).reg f =
      overlayReg t.doc key f := by
    rw [overlayReg, h.overlayRow hkey]
    cases held t.doc key with
    | none => exact reg_freshRow _ f
    | some r => rfl
  have hshown : (t.enqueue (upsertOp key set hlc)).doc.overlayRow key =
      some (((held t.doc key).getD (freshRow (upsertOp key set hlc))).merge
        (upsertOp key set hlc)) := by
    rw [overlayRow_eq, hself, Option.filter_some_pos]
    rw [hlive]
    rfl
  rw [overlayReg_of_some hshown, reg_merge, hreg, writeAt_upsertOp]
  cases set[f]? <;> rfl

end Wrote

/-! ## The write of a change -/

section Write

variable {t : Clocked} {k : ℕ} {kind id : String} {set : SMap Json}

theorem write_eq (t : Clocked) (kind id : String) (set : SMap Json) :
    t.write kind id set = t.nextHlc.1.enqueue (upsertOp ⟨kind, id⟩ set t.stamp) := rfl

theorem orderly_write (h : Orderly (k + 2) t) : Orderly k (t.write kind id set) := by
  rw [write_eq]
  exact orderly_enqueue (orderly_nextHlc h) (past_stamp h)

theorem seen_write (h : Orderly (k + 1) t) (hkind : kind ∈ sidebarKinds) {key : RowKey}
    (hs : Seen t key) : Seen (t.write kind id set) key := by
  rw [write_eq]
  exact seen_enqueue (orderly_nextHlc h) hkind (past_stamp h)
    (seen_nextHlc h hs)

theorem wrote_write (h : Orderly (k + 1) t) (hkind : kind ∈ sidebarKinds) :
    Wrote t.doc (t.write kind id set).doc ⟨kind, id⟩ set t.stamp := by
  have hw : Wrote t.nextHlc.1.doc (t.nextHlc.1.enqueue (upsertOp ⟨kind, id⟩ set t.stamp)).doc
      ⟨kind, id⟩ set t.stamp := wrote_enqueue (orderly_nextHlc h) hkind
  exact ⟨hw.other, hw.row, hw.reg⟩

/-- **A write to a row that was seen lands.** -/
theorem overlayReg_write (h : Orderly (k + 1) t) (hkind : kind ∈ sidebarKinds)
    (hs : Seen t ⟨kind, id⟩) (f : String) :
    overlayReg (t.write kind id set).doc ⟨kind, id⟩ f = match set[f]? with
      | none => overlayReg t.doc ⟨kind, id⟩ f
      | some v => ⟨t.stamp, v.nonNull⟩ := by
  rw [(wrote_write h hkind).reg]
  cases set[f]? with
  | none => rfl
  | some v => exact Reg.write_of_lt (stamp_lt h hkind hs f)

theorem overlayRow_write_of_ne {key : RowKey} (h : key ≠ ⟨kind, id⟩) :
    (t.write kind id set).doc.overlayRow key = t.doc.overlayRow key := by
  have hheld : held (t.write kind id set).doc key = held t.nextHlc.1.doc key :=
    held_enqueue_of_ne h
  rw [overlayRow_eq, overlayRow_eq, hheld]
  rfl

theorem overlayReg_write_of_ne {key : RowKey} (h : key ≠ ⟨kind, id⟩) (f : String) :
    overlayReg (t.write kind id set).doc key f = overlayReg t.doc key f := by
  rw [overlayReg, overlayReg, overlayRow_write_of_ne h]

end Write

end Zeron.Sidebar
