import Zeron.Registry.Merge
import Zeron.Registry.Validate

/-!
# The merge as the server runs it

`applyOp` of `edge/src/registry-core.ts`. Objects stand in for maps there: a lookup of a key that
is not an own property falls through to `Object.prototype`, and `>` compares the texts of its
operands by UTF-16 code units.

* `JsVal`, `own`, `jsGt`: what a lookup gives and how it compares;
* `Edge.applyOp`: the merge;
* `ShadowedAt`, `Shadowed`: the writes that meet an inherited property;
* **`edge_applyOp`**: every other op merges as `applyOp` does;
* **`edge_applyOp_shadowed`**: a shadowed op does not;
* `RegistryRow.Stored`, **`edge_applyOp_clean`**: on the rows the server holds, its merge is the
  client's of the op without those writes (`RowOp.plain`).
-/

namespace Zeron.Registry

open Std (ExtTreeMap)
open Zeron.Lww

/-! ## Objects as maps -/

/-- The properties of `Object.prototype` whose names the field grammar admits. -/
def inheritedNames : List String :=
  ["constructor", "hasOwnProperty", "isPrototypeOf", "propertyIsEnumerable", "toLocaleString",
    "toString", "valueOf"]

/-- What a lookup of a clock gives: a string, or an inherited function. -/
inductive JsVal where
  | str (s : String)
  | builtin (name : String)
  deriving DecidableEq

/-- The text of an operand of `>`. -/
def JsVal.text : JsVal → String
  | .str s => s
  | .builtin name => "function " ++ (if name = "constructor" then "Object" else name) ++
      "() \x7b [native code] \x7d"

/-- The UTF-16 code units of a string. -/
def codeUnits (s : String) : List ℕ :=
  s.toList.flatMap fun c =>
    if c.toNat < 0x10000 then [c.toNat]
    else [0xD800 + (c.toNat - 0x10000) / 0x400, 0xDC00 + (c.toNat - 0x10000) % 0x400]

/-- `a > b` on strings. -/
def jsGt (a b : String) : Bool := codeUnits b < codeUnits a

/-- `m[key]`: an own property, or an inherited one. -/
def own (m : SMap JsVal) (key : String) : Option JsVal :=
  m[key]?.or (if key ∈ inheritedNames then some (.builtin key) else none)

structure JsRow where
  kind : String
  id : String
  seq : ℕ
  deleted : Bool
  delHlc : Option Hlc
  fields : SMap Json
  clocks : SMap JsVal
  deriving DecidableEq

/-- A row as an object. -/
def RegistryRow.toJs (r : RegistryRow) : JsRow :=
  { kind := r.kind, id := r.id, seq := r.seq, deleted := r.deleted, delHlc := r.delHlc,
    fields := r.fields, clocks := r.clocks.map fun _ h => .str h }

/-- `hlcNewer`. -/
def Edge.hlcNewer (a : JsVal) (b : Option JsVal) : Bool :=
  match b with
  | none => true
  | some b => jsGt a.text b.text

/-- `op.clocks?.[field] ?? op.hlc`. -/
def Edge.clockFor (op : RowOp) (field : String) : JsVal :=
  match op.clocks with
  | none => .str op.hlc
  | some clocks => (own (clocks.map fun _ h => .str h) field).getD (.str op.hlc)

/-- `maxClock`. -/
def Edge.maxClock (row : JsRow) : Option JsVal :=
  row.clocks.foldl (fun max _ clock => if Edge.hlcNewer clock max then some clock else max)
    (row.delHlc.map .str)

def Edge.baseFor (row : Option JsRow) (op : RowOp) : Option JsRow :=
  match row with
  | none =>
    if op.op = .update then none
    else some { kind := op.kind, id := op.id, seq := 0, deleted := false, delHlc := none,
                fields := ∅, clocks := ∅ }
  | some row =>
    if row.deleted then
      if op.op = .update then none
      else if !Edge.hlcNewer (.str op.hlc) (row.delHlc.map .str) then none
      else some { row with deleted := false, fields := ∅, clocks := ∅ }
    else some row

/-- One pass of the loop over `Object.entries(op.set)`. -/
def Edge.writeField (op : RowOp) (acc : JsRow × Bool) (key : String) (value : Json) :
    JsRow × Bool :=
  let clock := Edge.clockFor op key
  if !Edge.hlcNewer clock (own acc.1.clocks key) then acc
  else
    ({ acc.1 with
        fields := if value.isNull then acc.1.fields.erase key else acc.1.fields.insert key value
        clocks := acc.1.clocks.insert key clock }, true)

/-- `applyOp`. -/
def Edge.applyOp (row : Option JsRow) (op : RowOp) : Option JsRow × Bool :=
  if op.op = .delete then
    match row with
    | none =>
      (some { kind := op.kind, id := op.id, seq := 0, deleted := true, delHlc := some op.hlc,
              fields := ∅, clocks := ∅ }, true)
    | some row =>
      if (if row.deleted then Edge.hlcNewer (.str op.hlc) (row.delHlc.map .str)
          else Edge.hlcNewer (.str op.hlc) (Edge.maxClock row)) then
        (some { row with deleted := true, delHlc := some op.hlc, fields := ∅, clocks := ∅ }, true)
      else (some row, false)
  else
    match Edge.baseFor row op with
    | none => (row, false)
    | some base =>
      let changed := row.isNone || (row.any (·.deleted) && !base.deleted)
      let (written, changed) := (op.set.getD ∅).foldl (Edge.writeField op) (base, changed)
      if changed then (some { written with deleted := false }, true) else (some base, false)

/-! ## Comparison -/

theorem codeUnits_ascii {s : String} (h : ∀ c ∈ s.toList, c.toNat < 128) :
    codeUnits s = s.toList.map Char.toNat := by
  rw [codeUnits, ← List.flatMap_pure_eq_map, List.flatMap_congr]
  intro c hc
  rw [if_pos ((h c hc).trans (by omega))]
  rfl

theorem map_toNat_lt : ∀ a b : List Char, b.map Char.toNat < a.map Char.toNat ↔ b < a
  | [], [] => by simp
  | _ :: _, [] => by simp
  | [], _ :: _ => by simp
  | a :: as, b :: bs => by
    simp only [List.map_cons, List.cons_lt_cons_iff, map_toNat_lt as bs, Char.toNat_inj]
    rfl

theorem jsGt_iff {a b : String} (ha : ∀ c ∈ a.toList, c.toNat < 128)
    (hb : ∀ c ∈ b.toList, c.toNat < 128) : jsGt a b = true ↔ b < a := by
  rw [jsGt, decide_eq_true_iff, codeUnits_ascii ha, codeUnits_ascii hb, String.lt_iff_toList_lt,
    map_toNat_lt]

theorem jsGt_self (a : String) : jsGt a a = false := by
  simp [jsGt]

theorem jsGt_builtin {h : Hlc} (hh : hlcRe h = true) (name : String) :
    jsGt (JsVal.builtin name).text h = true ∧ jsGt h (JsVal.builtin name).text = false := by
  obtain ⟨ms, counter, device, hs, hlen, hms, -⟩ := hlcRe_iff.mp hh
  obtain ⟨d, ms, rfl⟩ := List.exists_cons_of_length_pos (by omega : 0 < ms.length)
  have hd : d.toNat < 102 := by
    have := (Char.isDigit_iff_toNat.mp (hms d List.mem_cons_self)).2
    have : '9'.toNat = 57 := rfl
    omega
  obtain ⟨f, hf⟩ : ∃ f, codeUnits (JsVal.builtin name).text = 102 :: f := by
    simp only [JsVal.text, codeUnits, String.toList_append, List.flatMap_append]
    exact ⟨_, rfl⟩
  have hc : codeUnits h = h.toList.map Char.toNat := codeUnits_ascii (ascii_of_hlcRe hh)
  simp only [jsGt, hf, hc, hs, List.cons_append, List.map_cons, List.cons_lt_cons_iff,
    decide_eq_true_eq, decide_eq_false_iff_not]
  exact ⟨Or.inl hd, by omega⟩

theorem edge_hlcNewer {a : Hlc} {b : Option Hlc} (ha : hlcRe a = true)
    (hb : ∀ h, b = some h → hlcRe h = true) :
    Edge.hlcNewer (.str a) (b.map .str) = hlcNewer a b := by
  cases b with
  | none => rfl
  | some b =>
    rw [Bool.eq_iff_iff]
    simpa [Edge.hlcNewer, hlcNewer, JsVal.text] using
      jsGt_iff (ascii_of_hlcRe ha) (ascii_of_hlcRe (hb b rfl))

/-! ## Shadowed writes -/

/-- A write whose lookups reach an inherited property: the field has no clock of its own yet, or
the op's overrides leave it out. -/
def ShadowedAt (clock : Option Hlc) (op : RowOp) (key : String) : Prop :=
  key ∈ inheritedNames ∧ (clock = none ∨ (op.clocks.any fun clocks => clocks[key]?.isNone) = true)

/-- The op reaches the loop over `set`, and one of its writes there is shadowed. -/
def Shadowed (row : Option RegistryRow) (op : RowOp) : Prop :=
  op.op ≠ .delete ∧ ∃ base, baseFor row op = some base ∧
    ∃ k, (op.set.bind (·[k]?)).isSome = true ∧ ShadowedAt base.clocks[k]? op k

theorem not_shadowed {op : RowOp}
    (h : ∀ k ∈ inheritedNames, (op.set.bind (·[k]?)).isSome = false) (row : Option RegistryRow) :
    ¬ Shadowed row op := by
  rintro ⟨-, base, -, k, hk, hin, -⟩
  rw [h k hin] at hk
  cases hk

/-! ## Rows in the grammar -/

/-- The clocks on the row are in the clock grammar. -/
structure RegistryRow.InGrammar (r : RegistryRow) : Prop where
  clocks : ∀ (k : String) (h : Hlc), r.clocks[k]? = some h → hlcRe h = true
  delHlc : ∀ h, r.delHlc = some h → hlcRe h = true

/-- The clocks the op carries are in the clock grammar. -/
structure RowOp.InGrammar (op : RowOp) : Prop where
  hlc : hlcRe op.hlc = true
  clockFor : ∀ k, hlcRe (op.clockFor k) = true

theorem RowOp.Valid.inGrammar {op : RowOp} (h : op.Valid) : op.InGrammar := by
  refine ⟨h.hlc, fun k => ?_⟩
  unfold RowOp.clockFor
  cases hc : op.clocks with
  | none => exact h.hlc
  | some clocks =>
    rw [Option.bind_some]
    cases hk : clocks[k]? with
    | none => exact h.hlc
    | some c => exact (h.clocks clocks hc k c hk).2

theorem inGrammar_of_reg {r : RegistryRow} (hdel : ∀ h, r.delHlc = some h → hlcRe h = true)
    (hreg : ∀ k (h : Hlc), (r.reg k).stamp = h → hlcRe h = true) : r.InGrammar :=
  ⟨fun k h hk => hreg k h (by rw [RegistryRow.reg, hk]; rfl), hdel⟩

theorem inGrammar_merge {base : RegistryRow} (hb : base.InGrammar) {op : RowOp}
    (h : op.InGrammar) : (base.merge op).InGrammar := by
  refine inGrammar_of_reg (by simpa using hb.delHlc) fun k hlc hk => ?_
  have hbase : ∀ hlc : Hlc, (base.reg k).stamp = hlc → hlcRe hlc = true := fun hlc hk =>
    hb.clocks k hlc (rank_injective hk)
  cases hw : op.writeAt k with
  | none => rw [reg_merge_none hw] at hk; exact hbase hlc hk
  | some w =>
    rw [reg_merge_some hw] at hk
    obtain ⟨v, -, rfl⟩ := Option.map_eq_some_iff.mp hw
    rcases lt_or_ge (base.reg k).stamp ((op.clockFor k : Hlc) : WithBot Hlc) with hlt | hle
    · rw [Reg.write_of_lt hlt] at hk
      rw [← WithBot.coe_inj.mp hk]
      exact h.clockFor k
    · rw [Reg.write_of_le hle] at hk
      exact hbase hlc hk

theorem inGrammar_baseFor {row : Option RegistryRow} {op : RowOp} {base : RegistryRow}
    (hrow : ∀ r, row = some r → r.InGrammar) (h : baseFor row op = some base) :
    base.InGrammar := by
  unfold baseFor at h
  split at h
  · split_ifs at h
    cases h
    exact ⟨by simp, by simp⟩
  · split_ifs at h
    · cases h
      exact ⟨by simp, (hrow _ rfl).delHlc⟩
    · cases h
      exact hrow _ rfl

theorem inGrammar_applyOp {row : Option RegistryRow} {op : RowOp} {r' : RegistryRow}
    (hrow : ∀ r, row = some r → r.InGrammar) (hop : op.InGrammar)
    (h : (applyOp row op).1 = some r') : r'.InGrammar := by
  by_cases hdel : op.op = .delete
  · have htomb : ∀ r : RegistryRow, (r.bury op.hlc).InGrammar := fun r =>
      ⟨by simp [RegistryRow.bury], fun hlc he => by cases he; exact hop.hlc⟩
    cases row with
    | none =>
      rw [applyOp_delete_none hdel] at h
      cases h
      exact htomb { kind := op.kind, id := op.id, seq := 0, deleted := true, delHlc := none,
                    fields := ∅, clocks := ∅ }
    | some r =>
      rw [applyOp_delete hdel] at h
      split_ifs at h
      · cases h; exact htomb r
      · cases h; exact hrow r' rfl
  · cases hb : baseFor row op with
    | none =>
      rw [applyOp_skip hdel hb] at h
      exact hrow r' h
    | some base =>
      rw [(applyOp_write hdel hb).1] at h
      cases h
      exact inGrammar_merge (inGrammar_baseFor hrow hb) hop

/-! ## Simulation -/

theorem clocks_toJs (r : RegistryRow) (k : String) :
    r.toJs.clocks[k]? = r.clocks[k]?.map .str := by
  simp [RegistryRow.toJs]

theorem toJs_injective : Function.Injective RegistryRow.toJs := by
  intro a b h
  have hc : a.clocks = b.clocks := ExtTreeMap.ext_getElem? fun k => by
    have := congrArg (fun r : JsRow => r.clocks[k]?) h
    simp only [clocks_toJs] at this
    exact Option.map_injective (fun _ _ h => JsVal.str.inj h) this
  cases a; cases b
  simp_all [RegistryRow.toJs]

section Loop

variable {op : RowOp} {key : String}

theorem own_toJs {r : RegistryRow} (h : r.clocks[key]? = none → key ∉ inheritedNames) :
    own r.toJs.clocks key = r.clocks[key]?.map .str := by
  rw [own, clocks_toJs]
  cases hk : r.clocks[key]? with
  | none => simp [h hk]
  | some c => rfl

theorem edge_clockFor
    (h : key ∈ inheritedNames → (op.clocks.any fun clocks => clocks[key]?.isNone) = false) :
    Edge.clockFor op key = .str (op.clockFor key) := by
  unfold Edge.clockFor RowOp.clockFor
  cases hc : op.clocks with
  | none => rfl
  | some clocks =>
    rw [hc] at h
    simp only [own, ExtTreeMap.getElem?_map, Option.bind_some]
    cases hk : clocks[key]? with
    | none =>
      have hin : key ∉ inheritedNames := fun hin => by simpa [hk] using h hin
      simp [hin]
    | some c => rfl

theorem edge_writeField (hop : op.InGrammar) {acc : RegistryRow × Bool}
    (hc : ∀ h, acc.1.clocks[key]? = some h → hlcRe h = true)
    (hs : ¬ ShadowedAt acc.1.clocks[key]? op key) (value : Json) :
    Edge.writeField op (acc.1.toJs, acc.2) key value =
      ((writeField op acc key value).1.toJs, (writeField op acc key value).2) := by
  have hown : own acc.1.toJs.clocks key = acc.1.clocks[key]?.map .str :=
    own_toJs fun hnone hin => hs ⟨hin, Or.inl hnone⟩
  have hclock : Edge.clockFor op key = .str (op.clockFor key) := edge_clockFor fun hin => by
    by_contra hne
    exact hs ⟨hin, Or.inr (by simpa using hne)⟩
  simp only [Edge.writeField, writeField, hown, hclock, edge_hlcNewer (hop.clockFor key) hc]
  by_cases hn : hlcNewer (op.clockFor key) acc.1.clocks[key]? = true
  · have : (acc.1.clocks.insert key (op.clockFor key)).map (fun _ h => JsVal.str h) =
        (acc.1.clocks.map fun _ h => JsVal.str h).insert key (.str (op.clockFor key)) := by
      refine ExtTreeMap.ext_getElem? fun k => ?_
      simp only [ExtTreeMap.getElem?_map, ExtTreeMap.getElem?_insert]
      split <;> rfl
    simp [RegistryRow.toJs, this, hn]
  · simp [hn]

theorem edge_foldl (hop : op.InGrammar) : ∀ (l : List (String × Json)),
    l.Pairwise (fun a b => a.1 ≠ b.1) → ∀ acc : RegistryRow × Bool,
    (∀ e ∈ l, ∀ h, acc.1.clocks[e.1]? = some h → hlcRe h = true) →
    (∀ e ∈ l, ¬ ShadowedAt acc.1.clocks[e.1]? op e.1) →
    l.foldl (fun s e => Edge.writeField op s e.1 e.2) (acc.1.toJs, acc.2) =
      let res := l.foldl (fun s e => writeField op s e.1 e.2) acc
      (res.1.toJs, res.2)
  | [], _, _, _, _ => rfl
  | e :: l, hd, acc, hc, hs => by
    obtain ⟨hfst, hd⟩ := List.pairwise_cons.mp hd
    obtain ⟨hce, hc⟩ := List.forall_mem_cons.mp hc
    obtain ⟨hse, hs⟩ := List.forall_mem_cons.mp hs
    -- the other listed fields' clocks are as before this pass
    have hrest : ∀ e' ∈ l, (writeField op acc e.1 e.2).1.clocks[e'.1]? = acc.1.clocks[e'.1]? :=
      fun e' he' => rank_injective (congrArg Reg.stamp
        (reg_writeField_of_ne op acc e.1 e.2 e'.1 (Ne.symm (hfst e' he'))))
    rw [List.foldl_cons, edge_writeField hop hce hse]
    exact edge_foldl hop l hd _ (fun e' he' => by rw [hrest e' he']; exact hc e' he')
      fun e' he' => by rw [hrest e' he']; exact hs e' he'

end Loop

section Apply

variable {row : Option RegistryRow} {op : RowOp}

theorem edge_maxClock {r : RegistryRow} (hr : r.InGrammar) :
    Edge.maxClock r.toJs = r.maxClock.map .str := by
  have h : ∀ (l : List (String × Hlc)) (m : Option Hlc), (∀ e ∈ l, hlcRe e.2 = true) →
      (∀ h, m = some h → hlcRe h = true) →
      (l.map fun e => (e.1, JsVal.str e.2)).foldl
        (fun max e => if Edge.hlcNewer e.2 max then some e.2 else max) (m.map .str) =
      (l.foldl (fun m e => if hlcNewer e.2 m then some e.2 else m) m).map .str := by
    intro l
    induction l with
    | nil => exact fun _ _ _ => rfl
    | cons e l ih =>
      intro m hl hm
      obtain ⟨he, hl⟩ := List.forall_mem_cons.mp hl
      simp only [List.map_cons, List.foldl_cons, edge_hlcNewer he hm]
      split_ifs
      · exact ih (some e.2) hl fun h hh => by cases hh; exact he
      · exact ih m hl hm
  rw [Edge.maxClock, RegistryRow.maxClock, ExtTreeMap.foldl_eq_foldl_toList,
    ExtTreeMap.foldl_eq_foldl_toList, RegistryRow.toJs, ExtTreeMap.toList_map]
  exact h _ _ (fun e he => hr.clocks e.1 e.2 (ExtTreeMap.mem_toList_iff_getElem?_eq_some.mp he))
    hr.delHlc

theorem edge_baseFor (hop : op.InGrammar) (hrow : ∀ r, row = some r → r.InGrammar) :
    Edge.baseFor (row.map (·.toJs)) op = (baseFor row op).map (·.toJs) := by
  cases row with
  | none =>
    simp only [Edge.baseFor, baseFor, Option.map_none]
    split_ifs
    · rfl
    · simp [RegistryRow.toJs]
  | some r =>
    have hnew := edge_hlcNewer hop.hlc (hrow r rfl).delHlc
    simp only [Edge.baseFor, baseFor, Option.map_some, RegistryRow.toJs] at hnew ⊢
    rw [hnew]
    by_cases hd : r.deleted = true
    · by_cases hu : op.op = .update
      · simp [hd, hu]
      · by_cases hn : hlcNewer op.hlc r.delHlc = true
        · simp [hd, hu, hn]
        · simp [hd, hu, hn]
    · simp [hd]

/-- **An op that is not shadowed merges as in the client.** -/
theorem edge_applyOp (hop : op.InGrammar) (hrow : ∀ r, row = some r → r.InGrammar)
    (hs : ¬ Shadowed row op) :
    Edge.applyOp (row.map (·.toJs)) op =
      ((applyOp row op).1.map (·.toJs), (applyOp row op).2) := by
  by_cases hdel : op.op = .delete
  · cases row with
    | none => simp [Edge.applyOp, applyOp, hdel, RegistryRow.toJs, RegistryRow.tombstone]
    | some r =>
      have hr := hrow r rfl
      have hnew := edge_hlcNewer hop.hlc hr.delHlc
      have hmax : Edge.hlcNewer (.str op.hlc) (Edge.maxClock r.toJs) = hlcNewer op.hlc r.maxClock := by
        rw [edge_maxClock hr]
        refine edge_hlcNewer hop.hlc fun h hh => ?_
        rcases maxClock_eq_some hh with hd | ⟨k, hk⟩
        · exact hr.delHlc h hd
        · exact hr.clocks k h hk
      simp only [Edge.applyOp, applyOp, hdel, if_true, Option.map_some, hmax]
      simp only [RegistryRow.toJs, hnew]
      split_ifs <;> simp_all [RegistryRow.toJs]
  · have hbase := edge_baseFor hop hrow
    cases hb : baseFor row op with
    | none =>
      rw [hb] at hbase
      simp [Edge.applyOp, applyOp, hdel, hb, hbase]
    | some base =>
      rw [hb] at hbase
      have hg := inGrammar_baseFor hrow hb
      have hloop : ∀ c, (op.set.getD ∅).foldl (Edge.writeField op) (base.toJs, c) =
          ((writeFields op (base, c)).1.toJs, (writeFields op (base, c)).2) := fun c => by
        unfold writeFields
        cases hset : op.set with
        | none => rfl
        | some set =>
          rw [Option.getD_some, ExtTreeMap.foldl_eq_foldl_toList, edge_foldl hop _
            (Keyed.pairwise_toList set) (base, c)]
          · simp only [ExtTreeMap.foldl_eq_foldl_toList]
          · exact fun e _ h hh => hg.clocks e.1 h hh
          · refine fun e he hsh => hs ⟨hdel, base, hb, e.1, ?_, hsh⟩
            rw [hset, Option.bind_some, ExtTreeMap.mem_toList_iff_getElem?_eq_some.mp he]
            rfl
      have hfresh : ((row.map (·.toJs)).isNone || ((row.map (·.toJs)).any (·.deleted) &&
          !base.toJs.deleted)) = (row.isNone || (row.any (·.deleted) && !base.deleted)) := by
        cases row <;> rfl
      simp only [Edge.applyOp, applyOp, hdel, if_false, hb, hbase, Option.map_some, hfresh, hloop]
      split_ifs with hch
      · rfl
      · rw [fst_writeFields, merge_eq_self_of_unchanged hch]
        rfl

theorem edge_foldl_clocks (op : RowOp) (base : JsRow) (c : Bool) {set : SMap Json} {k : String}
    {v : Json} (hk : set[k]? = some v) :
    (set.foldl (Edge.writeField op) (base, c)).1.clocks[k]? =
      if Edge.hlcNewer (Edge.clockFor op k) (own base.clocks k) then some (Edge.clockFor op k)
      else base.clocks[k]? := by
  have hloop := Keyed.foldl_keyed (Edge.writeField op) (fun s k => s.1.clocks[k]?)
    (fun k _ clock => if Edge.hlcNewer (Edge.clockFor op k)
        (clock.or (if k ∈ inheritedNames then some (.builtin k) else none))
      then some (Edge.clockFor op k) else clock)
    (fun s k v => ?_) (fun s k v k' hne => ?_) set (base, c) k
  · rw [hloop, hk]
    rfl
  · rw [Edge.writeField, own]
    split_ifs <;> simp_all
  · have hc : compare k k' ≠ .eq := by simpa using Ne.symm hne
    rw [Edge.writeField]
    split_ifs <;> simp [ExtTreeMap.getElem?_insert, hc]

theorem edge_foldl_unchanged (op : RowOp) : ∀ (l : List (String × Json)) (acc : JsRow × Bool),
    (l.foldl (fun s e => Edge.writeField op s e.1 e.2) acc).2 = false →
      l.foldl (fun s e => Edge.writeField op s e.1 e.2) acc = acc
  | [], _, _ => rfl
  | e :: l, acc, h => by
    rw [List.foldl_cons] at h ⊢
    have ih := edge_foldl_unchanged op l _ h
    rw [ih] at h ⊢
    rw [Edge.writeField] at h ⊢
    split_ifs at h ⊢
    rfl

theorem edge_clockFor_cases (op : RowOp) (k : String) :
    Edge.clockFor op k = .str (op.clockFor k) ∨ Edge.clockFor op k = .builtin k := by
  by_cases h : k ∈ inheritedNames ∧ (op.clocks.any fun clocks => clocks[k]?.isNone) = true
  · obtain ⟨clocks, hc, hk⟩ := (Option.any_eq_true _ _).mp h.2
    rw [Option.isNone_iff_eq_none] at hk
    exact Or.inr (by simp [Edge.clockFor, hc, own, hk, h.1])
  · exact Or.inl (edge_clockFor fun hin => by
      by_contra hne
      exact h ⟨hin, by simpa using hne⟩)

/-- **A shadowed op leaves a row that the client's merge does not.** -/
theorem edge_applyOp_shadowed (hop : op.InGrammar) (hrow : ∀ r, row = some r → r.InGrammar)
    (hs : Shadowed row op) :
    (Edge.applyOp (row.map (·.toJs)) op).1 ≠ (applyOp row op).1.map (·.toJs) := by
  obtain ⟨hdel, base, hb, k, hset, hin, hsh⟩ := hs
  obtain ⟨set, hset, v, hk⟩ : ∃ set, op.set = some set ∧ ∃ v, set[k]? = some v := by
    obtain ⟨v, hv⟩ := Option.isSome_iff_exists.mp hset
    obtain ⟨set, hs, hk⟩ := Option.bind_eq_some_iff.mp hv
    exact ⟨set, hs, v, hk⟩
  have hbase := edge_baseFor hop hrow
  rw [hb, Option.map_some] at hbase
  -- the server's row carries the clocks its loop left, changed or not
  obtain ⟨r', hr', hclocks⟩ : ∃ r', (Edge.applyOp (row.map (·.toJs)) op).1 = some r' ∧
      r'.clocks[k]? = if Edge.hlcNewer (Edge.clockFor op k) (own base.toJs.clocks k)
        then some (Edge.clockFor op k) else base.toJs.clocks[k]? := by
    simp only [Edge.applyOp, hdel, if_false, hbase, hset, Option.getD_some]
    generalize ((row.map (·.toJs)).isNone || _) = changed
    rw [← edge_foldl_clocks op base.toJs changed hk]
    cases hch : (set.foldl (Edge.writeField op) (base.toJs, changed)).2 with
    | true => exact ⟨_, rfl, rfl⟩
    | false =>
      rw [ExtTreeMap.foldl_eq_foldl_toList] at hch ⊢
      rw [edge_foldl_unchanged op _ _ hch]
      exact ⟨_, rfl, rfl⟩
  rw [hr', (applyOp_write hdel hb).1, Option.map_some]
  intro he
  have hat := congrArg (fun r : JsRow => r.clocks[k]?) (Option.some.inj he)
  simp only [clocks_toJs, hclocks] at hat
  cases hc : base.clocks[k]? with
  | none =>
    -- the inherited function is newer than every clock: the write is lost
    have hown : own base.toJs.clocks k = some (.builtin k) := by
      rw [own, clocks_toJs, hc]
      simp [hin]
    have hold : Edge.hlcNewer (Edge.clockFor op k) (some (.builtin k)) = false := by
      rcases edge_clockFor_cases op k with h | h
      · rw [h]; exact (jsGt_builtin (hop.clockFor k) k).2
      · rw [h]; exact jsGt_self _
    rw [hown, hold, if_neg (by simp), hc] at hat
    have hw : op.writeAt k = some (op.clockFor k, v.nonNull) := by
      rw [RowOp.writeAt, hset, Option.bind_some, hk]; rfl
    have hlt := (WithBot.bot_lt_coe (op.clockFor k)).trans_le
      (Reg.le_stamp_write (base.reg k) (op.clockFor k, v.nonNull))
    rw [← reg_merge_some hw, RegistryRow.reg, Option.map_eq_none_iff.mp hat.symm] at hlt
    exact absurd hlt (lt_irrefl _)
  | some c =>
    -- the override is the inherited function, and it is what gets stored
    have hclock : Edge.clockFor op k = .builtin k := by
      obtain ⟨clocks, hcl, hkn⟩ := (Option.any_eq_true _ _).mp
        (hsh.resolve_left (by rw [hc]; exact Option.some_ne_none c))
      rw [Option.isNone_iff_eq_none] at hkn
      simp [Edge.clockFor, hcl, own, hkn, hin]
    have hnew : Edge.hlcNewer (.builtin k) (own base.toJs.clocks k) = true := by
      rw [own_toJs fun h => absurd (h.symm.trans hc) (by simp), hc]
      exact (jsGt_builtin ((inGrammar_baseFor hrow hb).clocks k c hc) k).1
    rw [hclock, hnew, if_pos rfl] at hat
    cases hm : (base.merge op).clocks[k]? <;> simp [hm] at hat

end Apply

/-! ## Rows the server holds -/

/-- No field of the row has an inherited name. -/
def RegistryRow.Clean (r : RegistryRow) : Prop := ∀ k ∈ inheritedNames, r.clocks[k]? = none

/-- The op without its writes to inherited names. -/
def RowOp.plain (op : RowOp) : RowOp :=
  { op with set := op.set.map (·.filter fun k _ => k ∉ inheritedNames) }

@[simp] theorem plain_op (op : RowOp) : op.plain.op = op.op := rfl

@[simp] theorem plain_hlc (op : RowOp) : op.plain.hlc = op.hlc := rfl

@[simp] theorem plain_kind (op : RowOp) : op.plain.kind = op.kind := rfl

@[simp] theorem plain_id (op : RowOp) : op.plain.id = op.id := rfl

theorem inGrammar_plain {op : RowOp} (h : op.InGrammar) : op.plain.InGrammar := ⟨h.hlc, h.clockFor⟩

theorem baseFor_plain (row : Option RegistryRow) (op : RowOp) : baseFor row op.plain = baseFor row op :=
  rfl

theorem writeAt_plain (op : RowOp) (k : String) :
    op.plain.writeAt k = if k ∈ inheritedNames then none else op.writeAt k := by
  unfold RowOp.writeAt RowOp.plain
  cases op.set with
  | none => simp
  | some set =>
    simp only [Option.map_some, Option.bind_some, ExtTreeMap.getElem?_filter']
    by_cases hk : k ∈ inheritedNames
    · cases set[k]? <;> simp [hk]
    · cases set[k]? <;> simp [hk, RowOp.clockFor]

theorem not_shadowed_plain (row : Option RegistryRow) (op : RowOp) : ¬ Shadowed row op.plain := by
  refine not_shadowed (fun k hk => ?_) row
  unfold RowOp.plain
  cases op.set with
  | none => rfl
  | some set => simp [hk]

theorem edge_foldl_plain {op : RowOp} (hop : op.InGrammar) : ∀ (l : List (String × Json))
    (acc : JsRow × Bool), (∀ k ∈ inheritedNames, acc.1.clocks[k]? = none) →
    l.foldl (fun s e => Edge.writeField op s e.1 e.2) acc =
      (l.filter fun e => e.1 ∉ inheritedNames).foldl (fun s e => Edge.writeField op s e.1 e.2) acc
  | [], _, _ => rfl
  | e :: l, acc, hacc => by
    by_cases he : e.1 ∈ inheritedNames
    · have hown : own acc.1.clocks e.1 = some (.builtin e.1) := by simp [own, hacc e.1 he, he]
      have hold : Edge.hlcNewer (Edge.clockFor op e.1) (some (.builtin e.1)) = false := by
        rcases edge_clockFor_cases op e.1 with h | h
        · rw [h]; exact (jsGt_builtin (hop.clockFor e.1) e.1).2
        · rw [h]; exact jsGt_self _
      have hskip : Edge.writeField op acc e.1 e.2 = acc := by
        simp [Edge.writeField, hown, hold]
      rw [List.foldl_cons, hskip, List.filter_cons_of_neg (by simpa using he)]
      exact edge_foldl_plain hop l acc hacc
    · rw [List.filter_cons_of_pos (by simpa using he), List.foldl_cons, List.foldl_cons]
      refine edge_foldl_plain hop l _ fun k hk => ?_
      have hne : compare e.1 k ≠ .eq := by
        intro h
        rw [Std.LawfulEqOrd.eq_of_compare h] at he
        exact he hk
      rw [Edge.writeField]
      split_ifs <;> simp [ExtTreeMap.getElem?_insert, hne, hacc k hk]

theorem clean_baseFor {row : Option RegistryRow} {op : RowOp} {base : RegistryRow}
    (hrow : ∀ r, row = some r → r.Clean) (h : baseFor row op = some base) : base.Clean := by
  intro k hk
  by_cases hl : Live row
  · obtain ⟨r, rfl, hr⟩ := hl
    rw [baseFor_live hr] at h
    cases h
    exact hrow _ rfl k hk
  · exact rank_injective (congrArg Reg.stamp (reg_baseFor hl h k))

/-- **On the rows the server holds, its merge is the client's**, less the inherited names. -/
theorem edge_applyOp_clean {row : Option RegistryRow} {op : RowOp} (hop : op.InGrammar)
    (hrow : ∀ r, row = some r → r.InGrammar) (hclean : ∀ r, row = some r → r.Clean) :
    Edge.applyOp (row.map (·.toJs)) op =
      ((applyOp row op.plain).1.map (·.toJs), (applyOp row op.plain).2) := by
  rw [← edge_applyOp (inGrammar_plain hop) hrow (not_shadowed_plain row op)]
  by_cases hdel : op.op = .delete
  · simp only [Edge.applyOp, plain_op, hdel, if_true]
    rfl
  · have hbase := edge_baseFor hop hrow
    have hbase' : Edge.baseFor (row.map (·.toJs)) op.plain = Edge.baseFor (row.map (·.toJs)) op := rfl
    simp only [Edge.applyOp, plain_op, hdel, if_false, hbase', hbase]
    cases hb : baseFor row op with
    | none => rfl
    | some base =>
      have hloop : ∀ c, (op.set.getD ∅).foldl (Edge.writeField op) (base.toJs, c) =
          (op.plain.set.getD ∅).foldl (Edge.writeField op.plain) (base.toJs, c) := fun c => by
        have hpass : Edge.writeField op.plain = Edge.writeField op := rfl
        rw [hpass, RowOp.plain]
        cases op.set with
        | none => rfl
        | some set =>
          simp only [Option.map_some, Option.getD_some, ExtTreeMap.foldl_eq_foldl_toList,
            ExtTreeMap.toList_filter]
          refine edge_foldl_plain hop _ _ fun k hk => ?_
          rw [clocks_toJs, clean_baseFor hclean hb k hk]
          rfl
      simp only [Option.map_some, hloop]

/-- What every row in the room satisfies. -/
structure RegistryRow.Stored (r : RegistryRow) : Prop where
  wf : r.Wf
  inGrammar : r.InGrammar
  clean : r.Clean

theorem stored_applyOp {row : Option RegistryRow} {op : RowOp} {r' : RegistryRow}
    (hrow : ∀ r, row = some r → r.Stored) (hop : op.InGrammar)
    (h : (applyOp row op.plain).1 = some r') : r'.Stored := by
  refine ⟨wf_applyOp (fun r hr => (hrow r hr).wf) h,
    inGrammar_applyOp (fun r hr => (hrow r hr).inGrammar) (inGrammar_plain hop) h, fun k hk => ?_⟩
  by_cases hdel : op.op = .delete
  · cases row with
    | none =>
      rw [applyOp_delete_none (show op.plain.op = .delete from hdel)] at h
      cases h
      rfl
    | some r =>
      rw [applyOp_delete (show op.plain.op = .delete from hdel)] at h
      split_ifs at h
      · cases h; rfl
      · cases h; exact (hrow _ rfl).clean k hk
  · cases hb : baseFor row op with
    | none =>
      rw [applyOp_skip (show op.plain.op ≠ .delete from hdel) hb] at h
      exact (hrow r' h).clean k hk
    | some base =>
      rw [(applyOp_write (show op.plain.op ≠ .delete from hdel) hb).1] at h
      cases h
      have hw : op.plain.writeAt k = none := by rw [writeAt_plain, if_pos hk]
      exact rank_injective ((congrArg Reg.stamp (reg_merge_none hw)).trans
        (congrArg rank (clean_baseFor (fun r hr => (hrow r hr).clean) hb k hk)))

end Zeron.Registry
