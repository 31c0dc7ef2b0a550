import Zeron.Registry.Row

/-!
# What one op can do to a row

* `RegistryRow.top`: the clock a delete has to beat; `top_le_iff` on live rows;
* **`applyOp_delete`, `applyOp_write`, `applyOp_skip`**: every outcome of `applyOp`;
* `top_le_applyOp`: the top never decreases;
* `RowKey`, `RegistryRow.body`: rows under their keys, up to their seqs;
* `RegistryRow.Wf`, `wf_applyOp`: what every row that ops build satisfies.
-/

namespace Zeron.Registry

open Std (ExtTreeMap)
open Zeron.Lww

/-- The row is there and not a tombstone. -/
def Live (row : Option RegistryRow) : Prop := ∃ r, row = some r ∧ r.deleted = false

instance (row : Option RegistryRow) : Decidable (Live row) :=
  match row with
  | none => isFalse fun ⟨_, h, _⟩ => nomatch h
  | some r => decidable_of_iff (r.deleted = false) ⟨fun h => ⟨r, rfl, h⟩, fun ⟨_, h, h'⟩ => by
      cases h; exact h'⟩

@[simp] theorem live_some {r : RegistryRow} : Live (some r) ↔ r.deleted = false :=
  ⟨fun ⟨_, h, h'⟩ => by cases h; exact h', fun h => ⟨r, rfl, h⟩⟩

@[simp] theorem not_live_none : ¬ Live none := fun ⟨_, h, _⟩ => by cases h

/-! ## The top of a row -/

theorem rank_foldl_le (l : List (String × Hlc)) (m : Option Hlc) (b : WithBot Hlc) :
    rank (l.foldl (fun m e => if hlcNewer e.2 m then some e.2 else m) m) ≤ b ↔
      rank m ≤ b ∧ ∀ e ∈ l, (e.2 : WithBot Hlc) ≤ b := by
  induction l generalizing m with
  | nil => simp
  | cons e l ih =>
    rw [List.foldl_cons, ih, List.forall_mem_cons, ← and_assoc]
    refine and_congr_left' ?_
    cases h : hlcNewer e.2 m with
    | true =>
      rw [if_pos rfl, rank_some]
      exact ⟨fun hb => ⟨(hlcNewer_iff.mp h).le.trans hb, hb⟩, fun hb => hb.2⟩
    | false =>
      rw [if_neg (by simp)]
      exact ⟨fun hb => ⟨hb, (hlcNewer_false_iff.mp h).trans hb⟩, fun hb => hb.1⟩

theorem rank_maxClock_le {r : RegistryRow} {b : WithBot Hlc} :
    rank r.maxClock ≤ b ↔ rank r.delHlc ≤ b ∧ ∀ k, (r.reg k).stamp ≤ b := by
  rw [RegistryRow.maxClock, ExtTreeMap.foldl_eq_foldl_toList, rank_foldl_le]
  refine and_congr_right fun _ => ⟨fun h k => ?_, fun h e he => ?_⟩
  · rw [RegistryRow.reg]
    cases hk : r.clocks[k]? with
    | none => exact bot_le
    | some c => exact h (k, c) (ExtTreeMap.mem_toList_iff_getElem?_eq_some.mpr hk)
  · have hk := ExtTreeMap.mem_toList_iff_getElem?_eq_some.mp he
    have := h e.1
    rwa [RegistryRow.reg, hk] at this

theorem maxClock_eq_some {r : RegistryRow} {h : Hlc} (hm : r.maxClock = some h) :
    r.delHlc = some h ∨ ∃ k : String, r.clocks[k]? = some h := by
  have hfold : ∀ (l : List (String × Hlc)) (m : Option Hlc),
      l.foldl (fun m e => if hlcNewer e.2 m then some e.2 else m) m = some h →
        m = some h ∨ ∃ e ∈ l, e.2 = h := by
    intro l
    induction l with
    | nil => exact fun m hm => Or.inl hm
    | cons e l ih =>
      intro m hm
      rcases ih _ hm with he | ⟨e', he', heq⟩
      · dsimp only at he
        split_ifs at he
        · exact Or.inr ⟨e, List.mem_cons_self, by simpa using he⟩
        · exact Or.inl he
      · exact Or.inr ⟨e', List.mem_cons_of_mem _ he', heq⟩
  rw [RegistryRow.maxClock, ExtTreeMap.foldl_eq_foldl_toList] at hm
  rcases hfold _ _ hm with hd | ⟨e, he, rfl⟩
  · exact Or.inl hd
  · exact Or.inr ⟨e.1, ExtTreeMap.mem_toList_iff_getElem?_eq_some.mp he⟩

/-- The clock a delete has to beat. -/
def RegistryRow.top (r : RegistryRow) : WithBot Hlc :=
  rank (if r.deleted then r.delHlc else r.maxClock)

theorem top_of_deleted {r : RegistryRow} (h : r.deleted = true) : r.top = rank r.delHlc := by
  rw [RegistryRow.top, if_pos h]

theorem top_of_live {r : RegistryRow} (h : r.deleted = false) : r.top = rank r.maxClock := by
  rw [RegistryRow.top, if_neg (by simp [h])]

theorem top_le_iff {r : RegistryRow} (h : r.deleted = false) {b : WithBot Hlc} :
    r.top ≤ b ↔ rank r.delHlc ≤ b ∧ ∀ k, (r.reg k).stamp ≤ b := by
  rw [top_of_live h, rank_maxClock_le]

theorem delHlc_le_top (r : RegistryRow) : rank r.delHlc ≤ r.top := by
  cases h : r.deleted with
  | true => exact (top_of_deleted h).ge
  | false => exact ((top_le_iff h).mp le_rfl).1

theorem stamp_le_top {r : RegistryRow} (h : r.deleted = false) (k : String) :
    (r.reg k).stamp ≤ r.top := ((top_le_iff h).mp le_rfl).2 k

/-! ## Bases -/

theorem baseFor_live {r : RegistryRow} (h : r.deleted = false) (op : RowOp) :
    baseFor (some r) op = some r := by
  simp [baseFor, h]

theorem baseFor_deleted {row : Option RegistryRow} {op : RowOp} {base : RegistryRow}
    (h : baseFor row op = some base) : base.deleted = false := by
  unfold baseFor at h
  split at h
  · split at h
    · cases h
    · cases h; rfl
  · split at h
    · split at h
      · cases h
      · cases h; rfl
    · rename_i hr
      cases h
      simpa using hr

theorem reg_baseFor {row : Option RegistryRow} {op : RowOp} {base : RegistryRow}
    (hrow : ¬ Live row) (h : baseFor row op = some base) (k : String) :
    base.reg k = ⟨⊥, none⟩ := by
  unfold baseFor at h
  split at h
  · split at h
    · cases h
    · cases h; simp [RegistryRow.reg]
  · split at h
    · split at h
      · cases h
      · cases h; simp [RegistryRow.reg]
    · rename_i r hr
      exact absurd (by simpa using hr) hrow

theorem baseFor_none (op : RowOp) : baseFor none op = if op.op = .update then none else
    some { kind := op.kind, id := op.id, seq := 0, deleted := false, delHlc := none,
           fields := ∅, clocks := ∅ } := rfl

theorem baseFor_tombstone {r : RegistryRow} (h : r.deleted = true) (op : RowOp) :
    baseFor (some r) op = if op.op = .update ∨ (op.hlc : WithBot Hlc) ≤ rank r.delHlc then none
      else some { r with deleted := false, fields := ∅, clocks := ∅ } := by
  simp only [baseFor, h, if_true, Bool.or_eq_true, decide_eq_true_eq, Bool.not_eq_true',
    hlcNewer_false_iff]

/-! ## Outcomes -/

/-- A tombstone in place of the row. -/
def RegistryRow.bury (r : RegistryRow) (hlc : Hlc) : RegistryRow :=
  { r with deleted := true, delHlc := some hlc, fields := ∅, clocks := ∅ }

@[simp] theorem top_bury (r : RegistryRow) (hlc : Hlc) : (r.bury hlc).top = hlc :=
  top_of_deleted rfl

@[simp] theorem top_tombstone (kind id : String) (hlc : Hlc) :
    (RegistryRow.tombstone kind id hlc).top = hlc := top_of_deleted rfl

theorem applyOp_delete_none {op : RowOp} (h : op.op = .delete) :
    applyOp none op = (some (.tombstone op.kind op.id op.hlc), true) := by
  simp [applyOp, h]

/-- **A delete buries the row iff it beats the row's top.** -/
theorem applyOp_delete {op : RowOp} (h : op.op = .delete) (r : RegistryRow) :
    applyOp (some r) op = if r.top < op.hlc then (some (r.bury op.hlc), true)
      else (some r, false) := by
  have hb : (if r.deleted then hlcNewer op.hlc r.delHlc else hlcNewer op.hlc r.maxClock) = true ↔
      r.top < op.hlc := by
    rw [RegistryRow.top, ← hlcNewer_iff]
    split <;> rfl
  simp only [applyOp, h, if_true, hb]
  rfl

theorem applyOp_skip {row : Option RegistryRow} {op : RowOp} (h : op.op ≠ .delete)
    (hb : baseFor row op = none) : applyOp row op = (row, false) := by
  simp [applyOp, h, hb]

/-- **Any other op merges its fields into its base.** -/
theorem applyOp_write {row : Option RegistryRow} {op : RowOp} {base : RegistryRow}
    (h : op.op ≠ .delete) (hb : baseFor row op = some base) :
    (applyOp row op).1 = some (base.merge op) ∧
      ((applyOp row op).2 = true ↔
        ¬ Live row ∨ ∃ k w, op.writeAt k = some w ∧ (base.reg k).stamp < w.1) := by
  have hfresh : (row.isNone || (row.any (·.deleted) && !base.deleted)) = true ↔ ¬ Live row := by
    rw [baseFor_deleted hb]
    cases row <;> simp
  have hdel := baseFor_deleted hb
  constructor
  · simp only [applyOp, h, if_false, hb]
    split
    · rw [fst_writeFields]
      rw [← merge_deleted base op] at hdel
      rw [← hdel]
    · rw [fst_writeFields]
  · rw [← hfresh, ← writeFields_changed op (base, _)]
    simp only [applyOp, h, if_false, hb]
    split <;> simp_all

theorem applyOp_some (r : RegistryRow) (op : RowOp) : ∃ r', (applyOp (some r) op).1 = some r' := by
  by_cases h : op.op = .delete
  · rw [applyOp_delete h]
    split_ifs
    · exact ⟨_, rfl⟩
    · exact ⟨_, rfl⟩
  · cases hb : baseFor (some r) op with
    | none => exact ⟨r, by rw [applyOp_skip h hb]⟩
    | some base => exact ⟨_, (applyOp_write h hb).1⟩

theorem applyOp_unchanged {row : Option RegistryRow} {op : RowOp}
    (h : (applyOp row op).2 = false) : (applyOp row op).1 = row := by
  by_cases hop : op.op = .delete
  · cases row with
    | none => rw [applyOp_delete_none hop] at h; cases h
    | some r =>
      rw [applyOp_delete hop] at h ⊢
      split_ifs at h ⊢
      rfl
  · cases hb : baseFor row op with
    | none => rw [applyOp_skip hop hb]
    | some base =>
      have hch := (applyOp_write hop hb).2.not.mp (by simp [h])
      rw [not_or, not_not] at hch
      obtain ⟨r, rfl, hr⟩ := hch.1
      rw [baseFor_live hr] at hb
      cases hb
      rw [(applyOp_write hop (baseFor_live hr op)).1, merge_eq_self]
      exact fun k w hw => not_lt.mp fun hlt => hch.2 ⟨k, w, hw, hlt⟩

theorem applyOp_changed {row : Option RegistryRow} {op : RowOp}
    (h : (applyOp row op).2 = true) : ∃ r', (applyOp row op).1 = some r' := by
  cases row with
  | some r => exact applyOp_some r op
  | none =>
    by_cases hop : op.op = .delete
    · exact ⟨_, by rw [applyOp_delete_none hop]⟩
    · cases hb : baseFor none op with
      | none => rw [applyOp_skip hop hb] at h; cases h
      | some base => exact ⟨_, (applyOp_write hop hb).1⟩

/-! ## The top never decreases -/

theorem top_le_base {r base : RegistryRow} {op : RowOp} (h : baseFor (some r) op = some base) :
    r.top ≤ base.top := by
  cases hr : r.deleted with
  | false =>
    rw [baseFor_live hr] at h
    cases h
    exact le_rfl
  | true =>
    rw [baseFor_tombstone hr] at h
    split_ifs at h
    cases h
    rw [top_of_deleted hr]
    exact delHlc_le_top { r with deleted := false, fields := ∅, clocks := ∅ }

theorem top_le_merge {base : RegistryRow} (h : base.deleted = false) (op : RowOp) :
    base.top ≤ (base.merge op).top := by
  rw [top_le_iff h]
  constructor
  · rw [← merge_delHlc base op]
    exact delHlc_le_top _
  · intro k
    exact (stamp_le_merge base op k).trans (stamp_le_top (by simpa using h) k)

/-- **No op lowers the clock a delete has to beat.** -/
theorem top_le_applyOp {r r' : RegistryRow} {op : RowOp} (h : (applyOp (some r) op).1 = some r') :
    r.top ≤ r'.top := by
  by_cases hop : op.op = .delete
  · rw [applyOp_delete hop] at h
    split_ifs at h with hlt
    · cases h
      exact hlt.le.trans (top_bury r op.hlc).ge
    · cases h
      exact le_rfl
  · cases hb : baseFor (some r) op with
    | none =>
      rw [applyOp_skip hop hb] at h
      cases h
      exact le_rfl
    | some base =>
      rw [(applyOp_write hop hb).1] at h
      cases h
      exact (top_le_base hb).trans (top_le_merge (baseFor_deleted hb) op)

/-! ## Keys and seqs -/

/-- A row's key in the table. -/
@[ext] structure RowKey where
  kind : String
  id : String
  deriving DecidableEq

def RegistryRow.key (r : RegistryRow) : RowKey := ⟨r.kind, r.id⟩

def RowOp.key (op : RowOp) : RowKey := ⟨op.kind, op.id⟩

@[simp] theorem key_rowToSeedOp (r : RegistryRow) : (rowToSeedOp r).key = r.key := by
  unfold rowToSeedOp
  split <;> rfl

theorem op_rowToSeedOp (r : RegistryRow) :
    (rowToSeedOp r).op = if r.deleted then .delete else .upsert := by
  unfold rowToSeedOp
  split <;> rfl

theorem key_applyOp {row : Option RegistryRow} {op : RowOp} {r' : RegistryRow}
    (hrow : ∀ r, row = some r → r.key = op.key) (h : (applyOp row op).1 = some r') :
    r'.key = op.key := by
  by_cases hop : op.op = .delete
  · cases row with
    | none => rw [applyOp_delete_none hop] at h; cases h; rfl
    | some r =>
      rw [applyOp_delete hop] at h
      split_ifs at h
      · cases h; exact hrow r rfl
      · cases h; exact hrow _ rfl
  · cases hb : baseFor row op with
    | none => rw [applyOp_skip hop hb] at h; exact hrow _ h
    | some base =>
      rw [(applyOp_write hop hb).1] at h
      cases h
      have hbase : base.key = op.key := by
        unfold baseFor at hb
        split at hb
        · split_ifs at hb
          cases hb; rfl
        · split_ifs at hb
          · rename_i r _ _
            cases hb; exact hrow r rfl
          · cases hb; exact hrow _ rfl
      simpa [RegistryRow.key] using hbase

/-- The row with another seq. -/
def RegistryRow.atSeq (n : ℕ) (r : RegistryRow) : RegistryRow := { r with seq := n }

/-- The row up to its seq. -/
def RegistryRow.body (r : RegistryRow) : RegistryRow := r.atSeq 0

@[simp] theorem reg_atSeq (n : ℕ) (r : RegistryRow) (k : String) : (r.atSeq n).reg k = r.reg k := rfl

/-! ## Well-formed rows -/

/-- What every row that ops build satisfies: a tombstone carries its clock and nothing else, and a
value has a clock. -/
structure RegistryRow.Wf (r : RegistryRow) : Prop where
  fields_empty : r.deleted = true → r.fields = ∅
  clocks_empty : r.deleted = true → r.clocks = ∅
  delHlc_some : r.deleted = true → ∃ h, r.delHlc = some h
  clocked : ∀ k, (r.reg k).value ≠ none → (r.reg k).stamp ≠ ⊥

theorem wf_tombstone (kind id : String) (hlc : Hlc) : (RegistryRow.tombstone kind id hlc).Wf :=
  ⟨fun _ => rfl, fun _ => rfl, fun _ => ⟨hlc, rfl⟩, fun k => by simp [RegistryRow.tombstone,
    RegistryRow.reg]⟩

theorem wf_bury (r : RegistryRow) (hlc : Hlc) : (r.bury hlc).Wf :=
  ⟨fun _ => rfl, fun _ => rfl, fun _ => ⟨hlc, rfl⟩, fun k => by simp [RegistryRow.bury,
    RegistryRow.reg]⟩

theorem wf_merge {base : RegistryRow} (hdel : base.deleted = false)
    (h : ∀ k, (base.reg k).value ≠ none → (base.reg k).stamp ≠ ⊥) (op : RowOp) :
    (base.merge op).Wf := by
  have hlive : (base.merge op).deleted ≠ true := by simp [hdel]
  refine ⟨fun h' => ?_, fun h' => ?_, fun h' => ?_, fun k hv => ?_⟩
  · exact absurd h' hlive
  · exact absurd h' hlive
  · exact absurd h' hlive
  · rw [reg_merge] at hv ⊢
    cases hw : op.writeAt k with
    | none =>
      rw [hw] at hv
      exact h k hv
    | some w => exact ((WithBot.bot_lt_coe w.1).trans_le (Reg.le_stamp_write _ w)).ne'

/-- **Ops keep rows well formed.** -/
theorem wf_applyOp {row : Option RegistryRow} {op : RowOp} {r' : RegistryRow}
    (hrow : ∀ r, row = some r → r.Wf) (h : (applyOp row op).1 = some r') : r'.Wf := by
  by_cases hop : op.op = .delete
  · cases row with
    | none =>
      rw [applyOp_delete_none hop] at h
      cases h
      exact wf_tombstone _ _ _
    | some r =>
      rw [applyOp_delete hop] at h
      split_ifs at h
      · cases h
        exact wf_bury _ _
      · cases h
        exact hrow r' rfl
  · cases hb : baseFor row op with
    | none =>
      rw [applyOp_skip hop hb] at h
      exact hrow r' h
    | some base =>
      rw [(applyOp_write hop hb).1] at h
      cases h
      refine wf_merge (baseFor_deleted hb) (fun k => ?_) op
      by_cases hl : Live row
      · obtain ⟨r, rfl, hr⟩ := hl
        rw [baseFor_live hr] at hb
        cases hb
        exact (hrow _ rfl).clocked k
      · rw [reg_baseFor hl hb]
        simp

theorem wf_applyOps {ops : List RowOp} {row : Option RegistryRow}
    (hrow : ∀ r, row = some r → r.Wf) : ∀ r, applyOps row ops = some r → r.Wf := by
  induction ops generalizing row with
  | nil => exact hrow
  | cons op ops ih => exact ih fun r h => wf_applyOp hrow h

end Zeron.Registry
