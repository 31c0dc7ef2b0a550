import Zeron.Lib.Json
import Zeron.Lib.Keyed
import Zeron.Lib.Lww
import Zeron.Registry.Hlc

/-!
# Registry rows and the merge

The row table's data (`crates/doc/src/registry.rs`): a row is a bag of fields with one clock each,
an op writes fields, deletes or revives.

* `RegistryRow`, `RowOp`, `applyOp`, `rowToSeedOp`: the source, branch by branch;
* `RegistryRow.reg`: a field as a last-writer-wins register;
* `reg_writeFields`, `writeFields_frame`, `writeFields_changed`: what the loop over `set` does;
* **`reg_merge`**: merging an op writes one register per field.
-/

namespace Zeron.Registry

open Std (ExtTreeMap)
open Zeron.Lww

/-- `BTreeMap<String, V>`. -/
abbrev SMap (V : Type) : Type := ExtTreeMap String V compare

structure RegistryRow where
  kind : String
  id : String
  /-- Server seq of the batch that last touched this row (0 locally). -/
  seq : ℕ
  deleted : Bool
  /-- Tombstone clock: an upsert newer than this revives the row. -/
  delHlc : Option Hlc
  fields : SMap Json
  /-- Per-field last-write clocks. -/
  clocks : SMap Hlc
  deriving DecidableEq

/-- `RegistryRow::tombstone`. -/
def RegistryRow.tombstone (kind id : String) (hlc : Hlc) : RegistryRow :=
  { kind, id, seq := 0, deleted := true, delHlc := some hlc, fields := ∅, clocks := ∅ }

/-- The newest clock anywhere on the row (delete-vs-live comparison base). -/
def RegistryRow.maxClock (row : RegistryRow) : Option Hlc :=
  row.clocks.foldl (fun m _ clock => if hlcNewer clock m then some clock else m) row.delHlc

inductive OpKind where
  /-- Creates, and revives tombstones when newer. -/
  | upsert
  /-- Never creates or revives. -/
  | update
  /-- Tombstones when causally newer than the row. -/
  | delete
  deriving DecidableEq

structure RowOp where
  kind : String
  id : String
  op : OpKind
  /-- Field writes; `null` deletes the field (still a clocked write). -/
  set : Option (SMap Json)
  /-- Clock for every write in `set` without an entry in `clocks`. -/
  hlc : Hlc
  /-- Per-field clock overrides. -/
  clocks : Option (SMap Hlc)
  deriving DecidableEq

/-- `RowOp::clock_for`. -/
def RowOp.clockFor (op : RowOp) (field : String) : Hlc :=
  (op.clocks.bind (·[field]?)).getD op.hlc

/-- The row a field write starts from; `none` where `apply_op` returns early, unchanged. -/
def baseFor (row : Option RegistryRow) (op : RowOp) : Option RegistryRow :=
  match row with
  | none =>
    if op.op = .update then none
    else some { kind := op.kind, id := op.id, seq := 0, deleted := false, delHlc := none,
                fields := ∅, clocks := ∅ }
  | some row =>
    if row.deleted then
      if op.op = .update || !hlcNewer op.hlc row.delHlc then none
      -- revival: the tombstone loses wholesale, the upsert's fields are the row
      else some { row with deleted := false, fields := ∅, clocks := ∅ }
    else some row

/-- One pass of the loop over `set`. -/
def writeField (op : RowOp) (acc : RegistryRow × Bool) (key : String) (value : Json) :
    RegistryRow × Bool :=
  let clock := op.clockFor key
  if !hlcNewer clock acc.1.clocks[key]? then acc
  else
    ({ acc.1 with
        fields := if value.isNull then acc.1.fields.erase key else acc.1.fields.insert key value
        clocks := acc.1.clocks.insert key clock }, true)

/-- The loop over `set`. -/
def writeFields (op : RowOp) (acc : RegistryRow × Bool) : RegistryRow × Bool :=
  match op.set with
  | none => acc
  | some set => set.foldl (writeField op) acc

/-- Apply one op to a row: the new row (`none` only for an `update` on a missing row) and whether
anything changed. -/
def applyOp (row : Option RegistryRow) (op : RowOp) : Option RegistryRow × Bool :=
  if op.op = .delete then
    match row with
    -- tombstone-on-missing guards against a late create racing the delete
    | none => (some (.tombstone op.kind op.id op.hlc), true)
    | some row =>
      let beats := if row.deleted then hlcNewer op.hlc row.delHlc
        else hlcNewer op.hlc row.maxClock
      if beats then
        (some { row with deleted := true, delHlc := some op.hlc, fields := ∅, clocks := ∅ }, true)
      else (some row, false)
  else
    match baseFor row op with
    | none => (row, false)
    | some base =>
      let changed := row.isNone || (row.any (·.deleted) && !base.deleted)
      let (base, changed) := writeFields op (base, changed)
      if changed then (some { base with deleted := false }, true) else (some base, false)

/-- A row as a re-seed op: one upsert carrying the row's original per-field clocks, or a delete
for tombstones. -/
def rowToSeedOp (row : RegistryRow) : RowOp :=
  if row.deleted then
    { kind := row.kind, id := row.id, op := .delete, set := none
      hlc := row.delHlc.getD (encodeHlc 0 0 "seed"), clocks := none }
  else
    { kind := row.kind, id := row.id, op := .upsert, set := some row.fields
      hlc := row.maxClock.getD (encodeHlc 0 0 "seed"), clocks := some row.clocks }

/-- Folding `apply_op` from a row. -/
def applyOps (row : Option RegistryRow) (ops : List RowOp) : Option RegistryRow :=
  ops.foldl (fun row op => (applyOp row op).1) row

/-! ## Fields as registers -/

/-- A field as a register: its clock and its value. -/
def RegistryRow.reg (row : RegistryRow) (key : String) : Reg Hlc Json :=
  ⟨rank row.clocks[key]?, row.fields[key]?⟩

/-- The write an op makes to a field. -/
def RowOp.writeAt (op : RowOp) (key : String) : Option (Hlc × Option Json) :=
  (op.set.bind (·[key]?)).map fun value => (op.clockFor key, value.nonNull)

/-- The row a base becomes once the op's fields are written. -/
def RegistryRow.merge (base : RegistryRow) (op : RowOp) : RegistryRow :=
  (writeFields op (base, false)).1

theorem RegistryRow.ext_reg {a b : RegistryRow} (hkind : a.kind = b.kind) (hid : a.id = b.id)
    (hseq : a.seq = b.seq) (hdel : a.deleted = b.deleted) (hhlc : a.delHlc = b.delHlc)
    (hreg : ∀ k, a.reg k = b.reg k) : a = b := by
  have hf : a.fields = b.fields :=
    ExtTreeMap.ext_getElem? fun k => congrArg Reg.value (hreg k)
  have hc : a.clocks = b.clocks :=
    ExtTreeMap.ext_getElem? fun k => rank_injective (congrArg Reg.stamp (hreg k))
  cases a; cases b
  simp_all

section WriteField

variable {op : RowOp} {acc : RegistryRow × Bool} {key : String} {value : Json}

theorem writeField_of_newer (h : hlcNewer (op.clockFor key) acc.1.clocks[key]? = true) :
    writeField op acc key value = ({ acc.1 with
      fields := if value.isNull then acc.1.fields.erase key else acc.1.fields.insert key value
      clocks := acc.1.clocks.insert key (op.clockFor key) }, true) := by
  simp [writeField, h]

theorem writeField_of_stale (h : hlcNewer (op.clockFor key) acc.1.clocks[key]? = false) :
    writeField op acc key value = acc := by
  simp [writeField, h]

variable (op acc key value)

theorem reg_writeField_self :
    (writeField op acc key value).1.reg key =
      (acc.1.reg key).write (op.clockFor key, value.nonNull) := by
  cases h : hlcNewer (op.clockFor key) acc.1.clocks[key]? with
  | true =>
    rw [writeField_of_newer h, Reg.write_of_lt (hlcNewer_iff.mp h)]
    cases hv : value.isNull <;> simp [RegistryRow.reg, Json.nonNull, hv]
  | false => rw [writeField_of_stale h, Reg.write_of_le (hlcNewer_false_iff.mp h)]

theorem reg_writeField_of_ne (k : String) (hk : k ≠ key) :
    (writeField op acc key value).1.reg k = acc.1.reg k := by
  cases h : hlcNewer (op.clockFor key) acc.1.clocks[key]? with
  | true =>
    rw [writeField_of_newer h]
    have hc : compare key k ≠ .eq := by simpa using Ne.symm hk
    cases hv : value.isNull <;>
      simp [RegistryRow.reg, ExtTreeMap.getElem?_insert, ExtTreeMap.getElem?_erase, hc]
  | false => rw [writeField_of_stale h]

theorem writeField_frame :
    (writeField op acc key value).1 = { acc.1 with
      fields := (writeField op acc key value).1.fields
      clocks := (writeField op acc key value).1.clocks } := by
  cases h : hlcNewer (op.clockFor key) acc.1.clocks[key]? with
  | true => rw [writeField_of_newer h]
  | false => rw [writeField_of_stale h]

@[simp] theorem writeField_kind : (writeField op acc key value).1.kind = acc.1.kind := by
  rw [writeField_frame]

@[simp] theorem writeField_id : (writeField op acc key value).1.id = acc.1.id := by
  rw [writeField_frame]

@[simp] theorem writeField_seq : (writeField op acc key value).1.seq = acc.1.seq := by
  rw [writeField_frame]

@[simp] theorem writeField_deleted : (writeField op acc key value).1.deleted = acc.1.deleted := by
  rw [writeField_frame]

@[simp] theorem writeField_delHlc : (writeField op acc key value).1.delHlc = acc.1.delHlc := by
  rw [writeField_frame]

theorem writeField_changed :
    (writeField op acc key value).2 = true ↔
      acc.2 = true ∨ (acc.1.reg key).stamp < op.clockFor key := by
  cases h : hlcNewer (op.clockFor key) acc.1.clocks[key]? with
  | true => simpa [writeField_of_newer h, RegistryRow.reg] using Or.inr (hlcNewer_iff.mp h)
  | false =>
    rw [writeField_of_stale h, or_iff_left]
    exact not_lt_of_ge (hlcNewer_false_iff.mp h)

variable {key} in
theorem writeField_comm {key' : String} (hne : key ≠ key') (value' : Json) :
    writeField op (writeField op acc key value) key' value' =
      writeField op (writeField op acc key' value') key value := by
  refine Prod.ext (RegistryRow.ext_reg (by simp) (by simp) (by simp) (by simp) (by simp)
    fun k => ?_) ?_
  · by_cases hk : k = key
    · subst hk
      rw [reg_writeField_of_ne _ _ _ _ _ hne, reg_writeField_self, reg_writeField_self,
        reg_writeField_of_ne _ _ _ _ _ hne]
    · rw [reg_writeField_of_ne op (writeField op acc key' value') key value k hk]
      by_cases hk' : k = key'
      · subst hk'
        rw [reg_writeField_self, reg_writeField_self, reg_writeField_of_ne _ _ _ _ _ hk]
      · rw [reg_writeField_of_ne _ _ _ _ _ hk', reg_writeField_of_ne _ _ _ _ _ hk',
          reg_writeField_of_ne _ _ _ _ _ hk]
  · rw [Bool.eq_iff_iff]
    simp only [writeField_changed, reg_writeField_of_ne _ _ _ _ _ hne,
      reg_writeField_of_ne _ _ _ _ _ hne.symm]
    rw [or_right_comm]

end WriteField

section WriteFields

variable (op : RowOp) (acc : RegistryRow × Bool)

/-- **The loop over `set` writes one register per field.** -/
theorem reg_writeFields (k : String) :
    (writeFields op acc).1.reg k = match op.writeAt k with
      | none => acc.1.reg k
      | some w => (acc.1.reg k).write w := by
  unfold writeFields RowOp.writeAt
  cases op.set with
  | none => rfl
  | some set =>
    have h := Keyed.foldl_keyed (writeField op) (fun s k => s.1.reg k)
      (fun k v r => r.write (op.clockFor k, v.nonNull)) (reg_writeField_self op)
      (reg_writeField_of_ne op) set acc k
    refine h.trans ?_
    simp only [Option.bind_some]
    cases set[k]? <;> rfl

theorem writeFields_frame :
    (writeFields op acc).1 = { acc.1 with
      fields := (writeFields op acc).1.fields, clocks := (writeFields op acc).1.clocks } := by
  have h : ∀ {ρ : Type} (f : RegistryRow → ρ),
      (∀ r fields clocks, f { r with fields := fields, clocks := clocks } = f r) →
        f (writeFields op acc).1 = f acc.1 := by
    intro ρ f hf
    unfold writeFields
    cases op.set with
    | none => rfl
    | some set =>
      refine Keyed.foldl_frame (f := fun s : RegistryRow × Bool => f s.1) (fun s k v => ?_) set acc
      rw [writeField_frame, hf]
  have h1 := h RegistryRow.kind fun _ _ _ => rfl
  have h2 := h RegistryRow.id fun _ _ _ => rfl
  have h3 := h RegistryRow.seq fun _ _ _ => rfl
  have h4 := h RegistryRow.deleted fun _ _ _ => rfl
  have h5 := h RegistryRow.delHlc fun _ _ _ => rfl
  dsimp only
  rw [← h1, ← h2, ← h3, ← h4, ← h5]

theorem foldl_writeField_changed : ∀ (l : List (String × Json)),
    l.Pairwise (fun a b => a.1 ≠ b.1) → ∀ acc : RegistryRow × Bool,
      ((l.foldl (fun s e => writeField op s e.1 e.2) acc).2 = true ↔
        acc.2 = true ∨ ∃ e ∈ l, (acc.1.reg e.1).stamp < op.clockFor e.1)
  | [], _, acc => by simp
  | e :: l, hd, acc => by
    obtain ⟨hfst, hd⟩ := List.pairwise_cons.mp hd
    have hrest : (∃ e' ∈ l, ((writeField op acc e.1 e.2).1.reg e'.1).stamp < op.clockFor e'.1) ↔
        ∃ e' ∈ l, (acc.1.reg e'.1).stamp < op.clockFor e'.1 :=
      exists_congr fun e' => and_congr_right fun he' => by
        rw [reg_writeField_of_ne _ _ _ _ _ (Ne.symm (hfst e' he'))]
    rw [List.foldl_cons, foldl_writeField_changed l hd, writeField_changed, hrest, or_assoc]
    simp

theorem writeFields_changed :
    (writeFields op acc).2 = true ↔
      acc.2 = true ∨ ∃ k w, op.writeAt k = some w ∧ (acc.1.reg k).stamp < w.1 := by
  unfold writeFields RowOp.writeAt
  cases hset : op.set with
  | none => simp
  | some set =>
    dsimp only
    rw [ExtTreeMap.foldl_eq_foldl_toList,
      foldl_writeField_changed op _ (Keyed.pairwise_toList set)]
    refine or_congr_right ⟨?_, ?_⟩
    · rintro ⟨⟨k, v⟩, he, hlt⟩
      rw [ExtTreeMap.mem_toList_iff_getElem?_eq_some] at he
      exact ⟨k, (op.clockFor k, v.nonNull), by simp [he], hlt⟩
    · rintro ⟨k, w, hw, hlt⟩
      simp only [Option.bind_some, Option.map_eq_some_iff] at hw
      obtain ⟨v, hv, rfl⟩ := hw
      exact ⟨(k, v), ExtTreeMap.mem_toList_iff_getElem?_eq_some.mpr hv, hlt⟩

end WriteFields

section Merge

variable (base : RegistryRow) (op : RowOp)

@[simp] theorem merge_kind : (base.merge op).kind = base.kind := by
  rw [RegistryRow.merge, writeFields_frame]

@[simp] theorem merge_id : (base.merge op).id = base.id := by
  rw [RegistryRow.merge, writeFields_frame]

@[simp] theorem merge_seq : (base.merge op).seq = base.seq := by
  rw [RegistryRow.merge, writeFields_frame]

@[simp] theorem merge_deleted : (base.merge op).deleted = base.deleted := by
  rw [RegistryRow.merge, writeFields_frame]

@[simp] theorem merge_delHlc : (base.merge op).delHlc = base.delHlc := by
  rw [RegistryRow.merge, writeFields_frame]

theorem reg_merge (k : String) : (base.merge op).reg k = match op.writeAt k with
    | none => base.reg k
    | some w => (base.reg k).write w := reg_writeFields op (base, false) k

variable {base op} in
theorem reg_merge_some {k : String} {w : Hlc × Option Json} (h : op.writeAt k = some w) :
    (base.merge op).reg k = (base.reg k).write w := by
  rw [reg_merge, h]

variable {base op} in
theorem reg_merge_none {k : String} (h : op.writeAt k = none) :
    (base.merge op).reg k = base.reg k := by
  rw [reg_merge, h]

theorem fst_writeFields (changed : Bool) : (writeFields op (base, changed)).1 = base.merge op := by
  refine RegistryRow.ext_reg ?_ ?_ ?_ ?_ ?_ fun k => ?_
  case refine_6 => rw [reg_writeFields, reg_merge]
  all_goals rw [writeFields_frame]; simp

theorem stamp_le_merge (k : String) : (base.reg k).stamp ≤ ((base.merge op).reg k).stamp := by
  rw [reg_merge]
  cases op.writeAt k with
  | none => exact le_rfl
  | some w => exact Reg.stamp_le_write _ _

theorem merge_eq_self (h : ∀ k w, op.writeAt k = some w → (w.1 : WithBot Hlc) ≤ (base.reg k).stamp) :
    base.merge op = base := by
  refine RegistryRow.ext_reg (by simp) (by simp) (by simp) (by simp) (by simp) fun k => ?_
  rw [reg_merge]
  cases hw : op.writeAt k with
  | none => rfl
  | some w => exact Reg.write_of_le (h k w hw)

variable {base op} in
theorem merge_eq_self_of_unchanged {changed : Bool}
    (h : ¬ (writeFields op (base, changed)).2 = true) : base.merge op = base := by
  rw [writeFields_changed, not_or] at h
  exact merge_eq_self base op fun k w hw => not_lt.mp fun hlt => h.2 ⟨k, w, hw, hlt⟩

end Merge

end Zeron.Registry
