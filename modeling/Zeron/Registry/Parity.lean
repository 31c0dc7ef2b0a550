import Zeron.Registry.Edge

/-!
# One merge in three languages

The client's merge (`applyOp`), the server's (`Edge.applyOp`) and the phone's (`Swift.applyOp`,
`apps/ios/Zeron/Sync/RegistryCore.swift`), step by step over a sequence of ops.

* `DictOrder`: the unspecified iteration order of a dictionary;
* **`swift_applyOp`**: the phone's merge is the client's, in any iteration order;
* `Agree`: the three give one row and one verdict at every step;
* **`agree_iff`**: they do iff no step is shadowed on the server.
-/

namespace Zeron.Registry

open Std (ExtTreeMap)
open Zeron.Lww

/-! ## The phone's merge -/

/-- An iteration order of dictionaries: every entry once. -/
structure DictOrder where
  entries : {V : Type} → SMap V → List (String × V)
  perm : ∀ {V : Type} (m : SMap V), (entries m).Perm m.toList

theorem toList_perm {V : Type} (m : SMap V) : m.toList.Perm m.toList := List.Perm.refl _

/-- `maxClock`. -/
def Swift.maxClock (order : DictOrder) (row : RegistryRow) : Option Hlc :=
  (order.entries row.clocks).foldl
    (fun max e => if max.all (· < e.2) then some e.2 else max) row.delHlc

/-- The end of `applyOp`: the loop over `set`, each pass as in the client, and the verdict. -/
def Swift.write (order : DictOrder) (row : Option RegistryRow) (op : RowOp) (base : RegistryRow) :
    Option RegistryRow × Bool :=
  let changed := row.isNone || (row.any (·.deleted) && !base.deleted)
  let (base, changed) := (order.entries (op.set.getD ∅)).foldl
    (fun acc e => writeField op acc e.1 e.2) (base, changed)
  if !changed then (some base, false) else (some { base with deleted := false }, true)

/-- `applyOp`; clocks are ASCII, on which `>` is the order of scalars. -/
def Swift.applyOp (order : DictOrder) (row : Option RegistryRow) (op : RowOp) :
    Option RegistryRow × Bool :=
  if op.op = .delete then
    match row with
    | none =>
      (some { kind := op.kind, id := op.id, seq := 0, deleted := true, delHlc := some op.hlc,
              fields := ∅, clocks := ∅ }, true)
    | some gone =>
      let beats := if gone.deleted then hlcNewer op.hlc gone.delHlc
        else hlcNewer op.hlc (Swift.maxClock order gone)
      if !beats then (some gone, false)
      else (some { gone with deleted := true, delHlc := some op.hlc, fields := ∅, clocks := ∅ }, true)
  else
    match row with
    | some r =>
      if r.deleted then
        if op.op = .update then (row, false)
        else if !hlcNewer op.hlc r.delHlc then (row, false)
        else Swift.write order row op { r with deleted := false, fields := ∅, clocks := ∅ }
      else Swift.write order row op r
    | none =>
      if op.op = .update then (none, false)
      else Swift.write order row op { kind := op.kind, id := op.id, seq := 0, deleted := false,
                                      delHlc := none, fields := ∅, clocks := ∅ }

section Swift

variable (order : DictOrder)

theorem swift_maxClock (row : RegistryRow) : Swift.maxClock order row = row.maxClock := by
  have hnew : ∀ (max : Option Hlc) (h : Hlc), max.all (· < h) = hlcNewer h max := fun max h => by
    cases max <;> rfl
  have hle : ∀ b, rank (Swift.maxClock order row) ≤ b ↔ rank row.maxClock ≤ b := fun b => by
    simp only [Swift.maxClock, hnew]
    rw [RegistryRow.maxClock, ExtTreeMap.foldl_eq_foldl_toList, rank_foldl_le, rank_foldl_le]
    simp only [(order.perm row.clocks).mem_iff]
  exact rank_injective (le_antisymm ((hle _).mpr le_rfl) ((hle _).mp le_rfl))

theorem swift_foldl (op : RowOp) (acc : RegistryRow × Bool) :
    (order.entries (op.set.getD ∅)).foldl (fun acc e => writeField op acc e.1 e.2) acc =
      writeFields op acc := by
  have hperm : ∀ set : SMap Json,
      (order.entries set).foldl (fun acc e => writeField op acc e.1 e.2) acc =
        set.foldl (writeField op) acc := fun set => by
    rw [ExtTreeMap.foldl_eq_foldl_toList]
    refine (order.perm set).foldl_eq' (fun a ha b hb acc => ?_) acc
    by_cases hk : a.1 = b.1
    · rw [(order.perm set).mem_iff, ExtTreeMap.mem_toList_iff_getElem?_eq_some] at ha hb
      rw [hk, hb] at ha
      rw [show a = b from Prod.ext hk (Option.some.inj ha).symm]
    · exact writeField_comm op acc a.2 hk b.2
  unfold writeFields
  cases op.set with
  | none => rw [Option.getD_none, hperm, ExtTreeMap.foldl_eq_foldl_toList]; rfl
  | some set => exact hperm set

theorem swift_write (row : Option RegistryRow) {op : RowOp} {base : RegistryRow}
    (hdel : op.op ≠ .delete) (hb : baseFor row op = some base) :
    Swift.write order row op base = applyOp row op := by
  simp only [Swift.write, applyOp, swift_foldl, hdel, if_false, hb]
  cases (writeFields op (base, _)).2 <;> rfl

theorem swift_applyOp_write (row : Option RegistryRow) {op : RowOp} (hdel : op.op ≠ .delete) :
    Swift.applyOp order row op = match baseFor row op with
      | none => (row, false)
      | some base => Swift.write order row op base := by
  cases row with
  | none =>
    simp only [Swift.applyOp, hdel, if_false, baseFor]
    split_ifs <;> rfl
  | some r =>
    simp only [Swift.applyOp, hdel, if_false, baseFor]
    by_cases hr : r.deleted = true
    · by_cases hu : op.op = .update
      · simp [hr, hu]
      · by_cases hn : hlcNewer op.hlc r.delHlc = true
        · simp [hr, hu, hn]
        · simp [hr, hu, hn]
    · simp [hr]

/-- **The phone merges as the client does**, whatever order its dictionaries iterate in. -/
theorem swift_applyOp : Swift.applyOp order = applyOp := by
  funext row op
  by_cases hdel : op.op = .delete
  · cases row with
    | none => simp [Swift.applyOp, applyOp, hdel, RegistryRow.tombstone]
    | some r =>
      simp only [Swift.applyOp, applyOp, hdel, if_true, swift_maxClock]
      cases if r.deleted then _ else _ <;> rfl
  · rw [swift_applyOp_write order row hdel]
    cases hb : baseFor row op with
    | none => rw [applyOp_skip hdel hb]
    | some base => exact swift_write order row hdel hb

end Swift

/-! ## Step by step -/

/-- The row and the verdict after each op. -/
def merges {ρ : Type} (merge : Option ρ → RowOp → Option ρ × Bool) :
    Option ρ → List RowOp → List (Option ρ × Bool)
  | _, [] => []
  | row, op :: ops => merge row op :: merges merge (merge row op).1 ops

/-- The three merges give the same row and the same verdict at every step. -/
def Agree (order : DictOrder) (row : Option RegistryRow) (ops : List RowOp) : Prop :=
  merges (Swift.applyOp order) row ops = merges applyOp row ops ∧
    merges Edge.applyOp (row.map (·.toJs)) ops =
      (merges applyOp row ops).map fun step => (step.1.map (·.toJs), step.2)

theorem forall_split_cons {α : Type} {P : List α → α → Prop} {a : α} {l : List α} :
    (∀ pre b post, a :: l = pre ++ b :: post → P pre b) ↔
      P [] a ∧ ∀ pre b post, l = pre ++ b :: post → P (a :: pre) b := by
  refine ⟨fun h => ⟨h [] a l rfl, fun pre b post he => h (a :: pre) b post (by rw [he]; rfl)⟩, ?_⟩
  rintro ⟨h, hl⟩ pre b post he
  cases pre with
  | nil => cases he; exact h
  | cons c pre => cases he; exact hl pre b post rfl

/-- **The three merges agree iff no step is shadowed** at the row it finds. -/
theorem agree_iff (order : DictOrder) {row : Option RegistryRow} {ops : List RowOp}
    (hrow : ∀ r, row = some r → r.InGrammar) (hops : ∀ op ∈ ops, op.InGrammar) :
    Agree order row ops ↔
      ∀ pre op post, ops = pre ++ op :: post → ¬ Shadowed (applyOps row pre) op := by
  rw [Agree, swift_applyOp, and_iff_right rfl]
  induction ops generalizing row with
  | nil => simp [merges]
  | cons op ops ih =>
    obtain ⟨hop, hops⟩ := List.forall_mem_cons.mp hops
    have hrow' : ∀ r, (applyOp row op).1 = some r → r.InGrammar := fun r h =>
      inGrammar_applyOp hrow hop h
    rw [forall_split_cons, merges, merges, List.map_cons, List.cons.injEq]
    by_cases hs : Shadowed row op
    · refine iff_of_false (fun h => ?_) fun h => h.1 hs
      exact edge_applyOp_shadowed hop hrow hs (congrArg Prod.fst h.1)
    · rw [edge_applyOp hop hrow hs, and_iff_right rfl, ih hrow' hops]
      exact ⟨fun h => ⟨hs, h⟩, fun h => h.2⟩

/-- Dictionaries that iterate in key order. -/
def keyOrder : DictOrder := ⟨fun m => m.toList, @toList_perm⟩

/-- An upsert that sets one field. -/
def setOp (field : String) : RowOp :=
  { kind := "chats", id := "c", op := .upsert, set := some {(field, .str "x")}
    hlc := "0000000000001-000000-a", clocks := none }

end Zeron.Registry
