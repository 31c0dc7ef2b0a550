import Zeron.Registry.Merge

/-!
# Convergence of registry rows

* `writesAt`: the writes a list of ops makes to one field;
* `reg_applyOps`: on a live row, ops are writes to registers;
* **`applyOps_perm`**: field writes with distinct clocks converge in any order;
* `sinceRevival`, **`reg_sinceRevival`**: a live row is the writes since its last revival;
* `rows_converge`: both, with the row's representation over any op sequence.
-/

namespace Zeron.Registry

open Std (ExtTreeMap)
open Zeron.Lww

/-- The writes the ops make to a field, in order; deletes make none. -/
def writesAt (ops : List RowOp) (key : String) : List (Hlc × Option Json) :=
  ops.filterMap fun op => if op.op = .delete then none else op.writeAt key

theorem writesAt_append (ops ops' : List RowOp) (k : String) :
    writesAt (ops ++ ops') k = writesAt ops k ++ writesAt ops' k := List.filterMap_append

theorem writesAt_delete {op : RowOp} (h : op.op = .delete) (k : String) : writesAt [op] k = [] := by
  simp [writesAt, h]

theorem writesAt_write {op : RowOp} (h : op.op ≠ .delete) (k : String) :
    writesAt [op] k = (op.writeAt k).toList := by
  simp only [writesAt, List.filterMap_cons, h, if_false, List.filterMap_nil]
  cases op.writeAt k <;> rfl

/-! ## One op, field by field -/

theorem reg_applyOp {row : Option RegistryRow} {op : RowOp} {r' : RegistryRow}
    (h : (applyOp row op).1 = some r') (hlive : r'.deleted = false) (k : String) :
    (¬ Live row ∧ r'.reg k = Reg.writes ⟨⊥, none⟩ (writesAt [op] k)) ∨
      ∃ r, row = some r ∧ r.deleted = false ∧ r'.reg k = (r.reg k).writes (writesAt [op] k) := by
  by_cases hop : op.op = .delete
  · -- a delete leaves a live row only where it loses
    cases row with
    | none =>
      rw [applyOp_delete_none hop] at h
      cases h
      exact absurd hlive (by simp [RegistryRow.tombstone])
    | some r =>
      rw [applyOp_delete hop] at h
      split_ifs at h
      · cases h
        exact absurd hlive (by simp [RegistryRow.bury])
      · cases h
        exact Or.inr ⟨r', rfl, hlive, by rw [writesAt_delete hop, Reg.writes_nil]⟩
  · rw [writesAt_write hop]
    cases hb : baseFor row op with
    | none =>
      rw [applyOp_skip hop hb] at h
      subst h
      rw [baseFor_live hlive] at hb
      exact absurd hb (by simp)
    | some base =>
      rw [(applyOp_write hop hb).1] at h
      cases h
      have hw : (base.merge op).reg k = (base.reg k).writes (op.writeAt k).toList := by
        rw [reg_merge]
        cases op.writeAt k <;> rfl
      by_cases hl : Live row
      · obtain ⟨r, rfl, hr⟩ := hl
        rw [baseFor_live hr] at hb
        cases hb
        exact Or.inr ⟨_, rfl, hr, hw⟩
      · exact Or.inl ⟨hl, by rw [hw, reg_baseFor hl hb]⟩

theorem applyOp_live {r : RegistryRow} {op : RowOp} (hr : r.deleted = false)
    (h : op.op ≠ .delete) : (applyOp (some r) op).1 = some (r.merge op) :=
  (applyOp_write h (baseFor_live hr op)).1

/-! ## Order independence -/

theorem reg_applyOps (ops : List RowOp) {r : RegistryRow} (hr : r.deleted = false)
    (hops : ∀ op ∈ ops, op.op ≠ .delete) :
    ∃ r', applyOps (some r) ops = some r' ∧ r'.kind = r.kind ∧ r'.id = r.id ∧ r'.seq = r.seq ∧
      r'.deleted = false ∧ r'.delHlc = r.delHlc ∧
      ∀ k, r'.reg k = (r.reg k).writes (writesAt ops k) := by
  induction ops generalizing r with
  | nil => exact ⟨r, rfl, rfl, rfl, rfl, hr, rfl, fun _ => rfl⟩
  | cons op ops ih =>
    obtain ⟨hop, hops⟩ := List.forall_mem_cons.mp hops
    obtain ⟨r', h', hkind, hid, hseq, hdel, hhlc, hreg⟩ :=
      ih (r := r.merge op) (by simpa using hr) hops
    refine ⟨r', ?_, by simpa using hkind, by simpa using hid, by simpa using hseq, hdel,
      by simpa using hhlc, fun k => ?_⟩
    · rw [applyOps, List.foldl_cons, applyOp_live hr hop]
      exact h'
    · have hw : (r.merge op).reg k = (r.reg k).writes (writesAt [op] k) := by
        rw [writesAt_write hop, reg_merge]
        cases op.writeAt k <;> rfl
      rw [hreg k, hw, ← Reg.writes_append, ← writesAt_append, List.singleton_append]

/-- **Field ops whose writes to each field have distinct clocks converge in any order.** -/
theorem applyOps_perm {r : RegistryRow} {ops ops' : List RowOp} (hr : r.deleted = false)
    (hops : ∀ op ∈ ops, op.op ≠ .delete) (hp : ops.Perm ops')
    (hd : ∀ k, (writesAt ops k).Pairwise fun a b => a.1 ≠ b.1) :
    applyOps (some r) ops = applyOps (some r) ops' := by
  obtain ⟨a, ha, akind, aid, aseq, adel, ahlc, areg⟩ := reg_applyOps ops hr hops
  obtain ⟨b, hb, bkind, bid, bseq, bdel, bhlc, breg⟩ :=
    reg_applyOps ops' hr fun op h => hops op (hp.mem_iff.mpr h)
  rw [ha, hb]
  congr 1
  refine RegistryRow.ext_reg (akind.trans bkind.symm) (aid.trans bid.symm) (aseq.trans bseq.symm)
    (adel.trans bdel.symm) (ahlc.trans bhlc.symm) fun k => ?_
  rw [areg, breg]
  exact Reg.writes_perm (hp.filterMap _) (hd k) _

/-! ## Since the last revival -/

/-- One op, with the ops applied since the row came to life (none while it is not live). -/
def track (acc : Option RegistryRow × List RowOp) (op : RowOp) :
    Option RegistryRow × List RowOp :=
  let row := (applyOp acc.1 op).1
  (row, if Live row then if Live acc.1 then acc.2 ++ [op] else [op] else [])

/-- The ops applied, from no row, since the row was created or last revived. -/
def sinceRevival (ops : List RowOp) : List RowOp := (ops.foldl track (none, [])).2

theorem fst_foldl_track (ops : List RowOp) (acc : Option RegistryRow × List RowOp) :
    (ops.foldl track acc).1 = applyOps acc.1 ops := by
  induction ops generalizing acc with
  | nil => rfl
  | cons op ops ih => exact ih _

/-- **A live row's registers are the writes since its last revival.** -/
theorem reg_sinceRevival (ops : List RowOp) {r : RegistryRow} (h : applyOps none ops = some r)
    (hlive : r.deleted = false) (k : String) :
    r.reg k = Reg.writes ⟨⊥, none⟩ (writesAt (sinceRevival ops) k) := by
  induction ops using List.reverseRecOn generalizing r with
  | nil => cases h
  | append_singleton ops op ih =>
    have hstep : (applyOp (applyOps none ops) op).1 = some r := by
      rw [applyOps, List.foldl_append] at h
      exact h
    have hs : sinceRevival (ops ++ [op]) =
        if Live (applyOps none ops) then sinceRevival ops ++ [op] else [op] := by
      rw [sinceRevival, List.foldl_append]
      simp only [List.foldl_cons, List.foldl_nil, track, fst_foldl_track]
      rw [if_pos ⟨r, hstep, hlive⟩]
      rfl
    rcases reg_applyOp hstep hlive k with ⟨hl, hreg⟩ | ⟨r₀, h₀, hl, hreg⟩
    · rw [hs, if_neg hl, hreg]
    · rw [hs, if_pos ⟨r₀, h₀, hl⟩, hreg, ih h₀ hl, writesAt_append, Reg.writes_append]

theorem writesAt_split {ops : List RowOp} {k : String} {pre post : List (Hlc × Option Json)}
    {w : Hlc × Option Json} (h : writesAt ops k = pre ++ w :: post) :
    ∃ before op after value, ops = before ++ op :: after ∧ op.op ≠ .delete ∧
      op.set.bind (·[k]?) = some value ∧ w = (op.clockFor k, value.nonNull) ∧
      writesAt before k = pre ∧ writesAt after k = post := by
  rw [writesAt, List.filterMap_eq_append_iff] at h
  obtain ⟨l₁, l₂, rfl, h₁, h₂⟩ := h
  obtain ⟨l₃, op, l₄, rfl, hnone, hop, h₄⟩ := List.filterMap_eq_cons_iff.mp h₂
  have hdel : op.op ≠ .delete := fun hd => by simp [hd] at hop
  rw [if_neg hdel, RowOp.writeAt, Option.map_eq_some_iff] at hop
  obtain ⟨value, hset, rfl⟩ := hop
  refine ⟨l₁ ++ l₃, op, l₄, value, by simp, hdel, hset, rfl, ?_, h₄⟩
  rw [writesAt_append, show writesAt l₁ k = pre from h₁,
    show writesAt l₃ k = [] from List.filterMap_eq_nil_iff.mpr hnone, List.append_nil]

theorem mem_writesAt {ops : List RowOp} {op : RowOp} {k : String} {value : Json} (h : op ∈ ops)
    (hdel : op.op ≠ .delete) (hset : op.set.bind (·[k]?) = some value) :
    (op.clockFor k, value.nonNull) ∈ writesAt ops k :=
  List.mem_filterMap.mpr ⟨op, h, by rw [if_neg hdel, RowOp.writeAt, hset]; rfl⟩

/-- The field is what the op with the greatest clock left: the first one, where clocks tie. -/
def HoldsGreatest (r : RegistryRow) (ops : List RowOp) (k : String) : Prop :=
  ∃ (before : List RowOp) (op : RowOp) (after : List RowOp) (value : Json),
    ops = before ++ op :: after ∧ op.op ≠ .delete ∧ op.set.bind (·[k]?) = some value ∧
    r.fields[k]? = value.nonNull ∧
    r.clocks[k]? = some (op.clockFor k) ∧
    (∀ u ∈ before, u.op ≠ .delete → (u.set.bind (·[k]?)).isSome → u.clockFor k < op.clockFor k) ∧
    ∀ u ∈ after, u.op ≠ .delete → (u.set.bind (·[k]?)).isSome → u.clockFor k ≤ op.clockFor k

theorem holdsGreatest_sinceRevival {ops : List RowOp} {r : RegistryRow}
    (h : applyOps none ops = some r) (hlive : r.deleted = false) {k : String} {v : Json}
    (hv : r.fields[k]? = some v) : HoldsGreatest r (sinceRevival ops) k := by
  have hreg := reg_sinceRevival ops h hlive k
  rcases Reg.writes_winner ⟨⊥, none⟩ (writesAt (sinceRevival ops) k) with
    ⟨he, _⟩ | ⟨pre, w, post, hl, he, _, hpre, hpost⟩
  · rw [he] at hreg
    rw [show r.fields[k]? = none from congrArg Reg.value hreg] at hv
    cases hv
  · obtain ⟨before, op, after, value, hs, hdel, hset, rfl, rfl, rfl⟩ := writesAt_split hl
    rw [he] at hreg
    refine ⟨before, op, after, value, hs, hdel, hset, congrArg Reg.value hreg,
      rank_injective (congrArg Reg.stamp hreg), fun u hu hud hus => ?_, fun u hu hud hus => ?_⟩
    · obtain ⟨value', hset'⟩ := Option.isSome_iff_exists.mp hus
      have hless := hpre _ (mem_writesAt hu hud hset')
      exact hless
    · obtain ⟨value', hset'⟩ := Option.isSome_iff_exists.mp hus
      have hle := hpost _ (mem_writesAt hu hud hset')
      exact hle

/-! ## The row's clock -/

theorem top_eq_maxClock {r : RegistryRow} (h : r.Wf) : r.top = rank r.maxClock := by
  cases hd : r.deleted with
  | false => exact top_of_live hd
  | true =>
    rw [top_of_deleted hd]
    refine le_antisymm (rank_maxClock_le.mp le_rfl).1 (rank_maxClock_le.mpr ⟨le_rfl, fun k => ?_⟩)
    rw [RegistryRow.reg, h.clocks_empty hd]
    exact bot_le

theorem maxClock_le_applyOps {r r' : RegistryRow} (hr : r.Wf) {ops : List RowOp}
    (h : applyOps (some r) ops = some r') : rank r.maxClock ≤ rank r'.maxClock := by
  induction ops generalizing r with
  | nil => cases h; exact le_rfl
  | cons op ops ih =>
    obtain ⟨r₁, h₁⟩ := applyOp_some r op
    rw [applyOps, List.foldl_cons, h₁] at h
    have hw : r₁.Wf := wf_applyOp (fun _ he => by cases he; exact hr) h₁
    refine le_trans ?_ (ih hw h)
    rw [← top_eq_maxClock hr, ← top_eq_maxClock hw]
    exact top_le_applyOp h₁

/-- **Rows converge and keep their representation.** -/
theorem rows_converge :
    (∀ (r : RegistryRow) (ops ops' : List RowOp), r.deleted = false →
      (∀ op ∈ ops, op.op ≠ .delete) → ops.Perm ops' →
      (∀ k, (writesAt ops k).Pairwise fun a b => a.1 ≠ b.1) →
      applyOps (some r) ops = applyOps (some r) ops') ∧
    ∀ (ops : List RowOp) (r : RegistryRow), applyOps none ops = some r →
      (r.deleted = true → r.fields = ∅ ∧ r.clocks = ∅) ∧
      (∀ (k : String) (clock : Hlc), r.clocks[k]? = some clock →
        (clock : WithBot Hlc) ≤ rank r.maxClock) ∧
      (∀ more r', applyOps (some r) more = some r' → rank r.maxClock ≤ rank r'.maxClock) ∧
      (r.deleted = false → ∀ (k : String) (v : Json), r.fields[k]? = some v →
        HoldsGreatest r (sinceRevival ops) k) := by
  refine ⟨fun r ops ops' hr hops hp hd => applyOps_perm hr hops hp hd, fun ops r h => ?_⟩
  have hw : r.Wf := wf_applyOps (fun _ h => by cases h) r h
  refine ⟨fun hd => ⟨hw.fields_empty hd, hw.clocks_empty hd⟩, fun k clock hk => ?_,
    fun more r' h' => maxClock_le_applyOps hw h',
    fun hlive k v hv => holdsGreatest_sinceRevival h hlive hv⟩
  have := (rank_maxClock_le.mp (le_refl (rank r.maxClock))).2 k
  rwa [RegistryRow.reg, hk] at this

/-! ## Why clocks, not ops -/

/-- A live row with no fields. -/
def blankRow : RegistryRow :=
  { kind := "doc", id := "d", seq := 0, deleted := false, delHlc := none, fields := ∅, clocks := ∅ }

/-- An upsert whose clock for `title` is its own override. -/
def overrideOp (hlc : Hlc) (title : String) : RowOp :=
  { kind := "doc", id := "d", op := .upsert, set := some {("title", .str title)}, hlc
    clocks := some {("title", "5")} }

/-- Two ops with distinct `hlc`s that override a field with one clock: the first one wins. -/
theorem distinct_hlcs_diverge :
    ¬ ∀ (r : RegistryRow) (ops ops' : List RowOp), r.deleted = false →
      (∀ op ∈ ops, op.op ≠ .delete) → ops.Perm ops' → (ops.map RowOp.hlc).Nodup →
      (applyOps (some r) ops).map RegistryRow.fields =
        (applyOps (some r) ops').map RegistryRow.fields := fun h =>
  absurd (h blankRow [overrideOp "1" "a", overrideOp "2" "b"]
    [overrideOp "2" "b", overrideOp "1" "a"] rfl (by decide) (List.Perm.swap _ _ _) (by decide))
    (by decide +kernel)

/-- Two writes in either order. -/
theorem rows_converge_two :
    applyOps (some blankRow) [overrideOp "1" "a", { overrideOp "2" "b" with clocks := none }] =
      applyOps (some blankRow) [{ overrideOp "2" "b" with clocks := none }, overrideOp "1" "a"] := by
  refine rows_converge.1 blankRow _ _ rfl (by decide) (List.Perm.swap _ _ _) fun k => ?_
  by_cases hk : k = "title"
  · subst hk; decide
  · have : ∀ op ∈ [overrideOp "1" "a", { overrideOp "2" "b" with clocks := none }],
        op.writeAt k = none := by
      simp [overrideOp, RowOp.writeAt, Ne.symm hk]
    simp [writesAt, this]

end Zeron.Registry
