import Zeron.Lib.Sorted
import Zeron.Sidebar.Doc

/-!
# What the sidebar shows

The lists of the sidebar, by what they say of one session and of one section.

* `overlayReg`: a field of a shown row as a register; `locationOf`: a place from two registers;
* **`mem_overlayRows`**, `nodup_overlayRows`: the rows of a kind;
* `pinKey`, **`mem_orderedSidebarPins`**: who is pinned, under which key;
* `ListedSection`, **`mem_sectionMembers`**: which sections are listed, and who is in them.
-/

namespace Zeron.Sidebar

open Registry Lww
open Std (ExtTreeMap)

/-! ## Merged rows -/

/-- The row of a key with the pending ops on it, tombstones included. -/
def held (doc : RegistryDoc) (key : RowKey) : Option RegistryRow :=
  (doc.pending.flatMap (·.ops)).foldl
    (fun row op => if op.key = key then (applyOp row op).1.or row else row) (doc.row key)

theorem overlayRow_eq (doc : RegistryDoc) (key : RowKey) :
    doc.overlayRow key = (held doc key).filter (!·.deleted) := rfl

theorem foldl_other {ops : List RowOp} {key : RowKey} {row : Option RegistryRow}
    (h : ∀ op ∈ ops, op.key ≠ key) :
    ops.foldl (fun row op => if op.key = key then (applyOp row op).1.or row else row) row =
      row := by
  induction ops with
  | nil => rfl
  | cons op ops ih =>
    obtain ⟨hop, hops⟩ := List.forall_mem_cons.mp h
    rw [List.foldl_cons, if_neg hop, ih hops]

theorem key_held {doc : RegistryDoc} (hk : doc.Keyed) {key : RowKey} {r : RegistryRow}
    (h : held doc key = some r) : r.key = key := by
  have hfold : ∀ (ops : List RowOp) (row : Option RegistryRow), (∀ r, row = some r → r.key = key) →
      ∀ r, ops.foldl (fun row op => if op.key = key then (applyOp row op).1.or row else row) row =
        some r → r.key = key := by
    intro ops
    induction ops with
    | nil => exact fun row hrow r h => hrow r h
    | cons op ops ih =>
      intro row hrow
      refine ih _ fun r hr => ?_
      dsimp only at hr
      split_ifs at hr with hop
      · cases happ : (applyOp row op).1 with
        | none =>
          rw [happ, Option.none_or] at hr
          exact hrow r hr
        | some r' =>
          rw [happ, Option.some_or] at hr
          cases hr
          exact key_applyOp (fun r'' hr'' => (hrow r'' hr'').trans hop.symm) happ |>.trans hop
      · exact hrow r hr
  exact hfold _ _ (fun r hr => hk key r hr) r h

theorem key_overlayRow {doc : RegistryDoc} (hk : doc.Keyed) {key : RowKey} {r : RegistryRow}
    (h : doc.overlayRow key = some r) : r.key = key :=
  key_held hk (Option.filter_eq_some_iff.mp h).1

/-! ## Rows of a kind -/

section Rows

variable {doc : RegistryDoc} {kind : String}

theorem mem_foldl_ids {ops : List RowOp} {ids : List String} {id : String} :
    id ∈ ops.foldl
        (fun ids op => if op.kind = kind ∧ op.id ∉ ids then ids ++ [op.id] else ids) ids ↔
      id ∈ ids ∨ ∃ op ∈ ops, op.kind = kind ∧ op.id = id := by
  induction ops generalizing ids with
  | nil => simp
  | cons op ops ih =>
    rw [List.foldl_cons, ih]
    split_ifs with h
    · simp [h.1, or_assoc, eq_comm]
    · simp only [List.mem_cons, exists_eq_or_imp]
      constructor
      · rintro (h' | h')
        · exact Or.inl h'
        · exact Or.inr (Or.inr h')
      · rintro (h' | ⟨hk, rfl⟩ | h')
        · exact Or.inl h'
        · exact Or.inl (by_contra fun hn => h ⟨hk, hn⟩)
        · exact Or.inr h'

theorem nodup_foldl_ids {ops : List RowOp} {ids : List String} (h : ids.Nodup) :
    (ops.foldl (fun ids op => if op.kind = kind ∧ op.id ∉ ids then ids ++ [op.id] else ids)
      ids).Nodup := by
  induction ops generalizing ids with
  | nil => exact h
  | cons op ops ih =>
    rw [List.foldl_cons]
    split_ifs with hop
    · refine ih (List.nodup_append.mpr ⟨h, by simp, fun a ha b hb => ?_⟩)
      rw [List.mem_singleton.mp hb]
      rintro rfl
      exact hop.2 ha
    · exact ih h

theorem nodup_overlayIds : (overlayIds doc kind).Nodup := by
  refine nodup_foldl_ids ?_
  have hkeys : doc.authoritative.keys.Nodup := ExtTreeMap.nodup_keys
  refine (hkeys.filter _).map_on fun a ha b hb he => ?_
  have hka : a.kind = kind := by simpa using (List.mem_filter.mp ha).2
  have hkb : b.kind = kind := by simpa using (List.mem_filter.mp hb).2
  exact RowKey.ext (hka.trans hkb.symm) he

theorem mem_overlayIds {id : String} {r : RegistryRow} (h : doc.overlayRow ⟨kind, id⟩ = some r) :
    id ∈ overlayIds doc kind := by
  unfold overlayIds
  rw [mem_foldl_ids]
  by_contra hno
  rw [not_or, not_exists] at hno
  obtain ⟨htable, hops⟩ := hno
  have hrow : doc.row ⟨kind, id⟩ = none := by
    refine ExtTreeMap.getElem?_eq_none fun hm => htable ?_
    exact List.mem_map.mpr
      ⟨⟨kind, id⟩, List.mem_filter.mpr ⟨ExtTreeMap.mem_keys.mpr hm, by simp⟩, rfl⟩
  rw [overlayRow_eq, held, foldl_other, hrow] at h
  · cases h
  · intro op hop hkey
    exact hops op ⟨hop, congrArg RowKey.kind hkey, congrArg RowKey.id hkey⟩

/-- **The rows of a kind are the shown ones.** -/
theorem mem_overlayRows {r : RegistryRow} :
    r ∈ overlayRows doc kind ↔ ∃ id, doc.overlayRow ⟨kind, id⟩ = some r := by
  unfold overlayRows
  rw [List.mem_filterMap]
  exact ⟨fun ⟨id, _, h⟩ => ⟨id, h⟩, fun ⟨id, h⟩ => ⟨id, mem_overlayIds h, h⟩⟩

theorem id_overlayRow (hk : doc.Keyed) {id : String} {r : RegistryRow}
    (h : doc.overlayRow ⟨kind, id⟩ = some r) : r.id = id := congrArg RowKey.id (key_overlayRow hk h)

theorem map_filterMap_id (hk : doc.Keyed) (ids : List String) :
    ((ids.filterMap fun id => doc.overlayRow ⟨kind, id⟩).map (·.id)).Sublist ids := by
  induction ids with
  | nil => exact List.Sublist.slnil
  | cons id ids ih =>
    rw [List.filterMap_cons]
    cases h : doc.overlayRow ⟨kind, id⟩ with
    | none => exact ih.cons id
    | some r =>
      rw [List.map_cons, id_overlayRow hk h]
      exact ih.cons_cons id

theorem nodup_overlayRows (hk : doc.Keyed) : ((overlayRows doc kind).map (·.id)).Nodup :=
  (map_filterMap_id hk _).nodup nodup_overlayIds

theorem mem_overlayRows_iff (hk : doc.Keyed) {r : RegistryRow} :
    r ∈ overlayRows doc kind ↔ doc.overlayRow ⟨kind, r.id⟩ = some r := by
  rw [mem_overlayRows]
  refine ⟨fun ⟨id, h⟩ => ?_, fun h => ⟨r.id, h⟩⟩
  rw [id_overlayRow hk h]
  exact h

end Rows

/-! ## Places -/

/-- A field of a row that may be missing, as a register. -/
def regOf (row : Option RegistryRow) (field : String) : Reg Hlc Json :=
  match row with
  | none => ⟨⊥, none⟩
  | some r => r.reg field

/-- A field of a shown row as a register. -/
def overlayReg (doc : RegistryDoc) (key : RowKey) (field : String) : Reg Hlc Json :=
  regOf (doc.overlayRow key) field

/-- The place two registers give a session: the location, unless the flag is newer. -/
def locationOf (location pinned : Reg Hlc Json) : String :=
  if location.stamp ≠ ⊥ ∧ pinned.stamp ≤ location.stamp then
    (location.value.bind Json.asStr).getD ""
  else if pinned.value.bind Json.asBool = some true then "pinned"
  else ""

/-- Where a session is shown. -/
def placement (doc : RegistryDoc) (id : String) : String :=
  sidebarLocation doc id (doc.overlayRow ⟨kindSidebarPins, id⟩)

section Places

variable {doc : RegistryDoc}

theorem overlayReg_of_some {key : RowKey} {r : RegistryRow} (h : doc.overlayRow key = some r)
    (field : String) : overlayReg doc key field = r.reg field := by
  rw [overlayReg, h]
  rfl

theorem overlayReg_of_none {key : RowKey} (h : doc.overlayRow key = none) (field : String) :
    overlayReg doc key field = ⟨⊥, none⟩ := by
  rw [overlayReg, h]
  rfl

/-- **A placement is read from two registers.** -/
theorem placement_eq (doc : RegistryDoc) (id : String) : placement doc id =
    locationOf (overlayReg doc ⟨kindLocations, id⟩ "location")
      (overlayReg doc ⟨kindSidebarPins, id⟩ "pinned") := by
  have hclock : ∀ (row : Option RegistryRow) (field : String),
      rank (row.bind (·.clocks[field]?)) = (regOf row field).stamp := by
    intro row field
    cases row <;> rfl
  have hvalue : ∀ (row : Option RegistryRow) (field : String),
      row.bind (·.fields[field]?) = (regOf row field).value := by
    intro row field
    cases row <;> rfl
  have hsome : ∀ c : Option Hlc, c.isSome = true ↔ rank c ≠ ⊥ := by
    intro c
    cases c <;> simp
  simp only [placement, sidebarLocation, hclock, hvalue, hsome]
  rfl

theorem isSome_location {id : String} (hne : placement doc id ≠ "")
    (hpin : placement doc id ≠ "pinned") : (doc.overlayRow ⟨kindLocations, id⟩).isSome = true := by
  cases h : doc.overlayRow ⟨kindLocations, id⟩ with
  | some r => rfl
  | none =>
    rw [placement_eq, overlayReg_of_none h, locationOf, if_neg (by simp)] at hne hpin
    split_ifs at hne hpin
    · exact absurd rfl hpin
    · exact absurd rfl hne

theorem mem_sectionMembers (hk : doc.Keyed) {sectionId id : String} :
    id ∈ sectionMembers doc sectionId ↔
      (doc.overlayRow ⟨kindLocations, id⟩).isSome = true ∧ placement doc id = sectionId := by
  unfold sectionMembers
  rw [List.mem_insertionSort, List.mem_map]
  constructor
  · rintro ⟨r, hr, rfl⟩
    obtain ⟨hr, hplace⟩ := List.mem_filter.mp hr
    rw [(mem_overlayRows_iff hk).mp hr]
    exact ⟨rfl, of_decide_eq_true hplace⟩
  · rintro ⟨hsome, hplace⟩
    obtain ⟨r, hr⟩ := Option.isSome_iff_exists.mp hsome
    have hid := id_overlayRow hk hr
    refine ⟨r, List.mem_filter.mpr ⟨mem_overlayRows.mpr ⟨id, hr⟩, ?_⟩, hid⟩
    rw [decide_eq_true_iff, hid]
    exact hplace

theorem nodup_sectionMembers (hk : doc.Keyed) (sectionId : String) :
    (sectionMembers doc sectionId).Nodup := by
  unfold sectionMembers
  rw [(List.perm_insertionSort _ _).nodup_iff]
  exact (List.filter_sublist.map _).nodup (nodup_overlayRows hk)

/-! ## Pins -/

/-- The order key a session is pinned under. -/
def pinKey (doc : RegistryDoc) (id : String) : Option String :=
  if placement doc id = "pinned" then
    ((overlayReg doc ⟨kindSidebarPins, id⟩ "orderKey").value.bind Json.asStr).filter
      validPinOrderKey
  else none

instance : Std.Antisymm pinLe where
  antisymm := by
    rintro ⟨a, k⟩ ⟨b, l⟩ (h | ⟨rfl, h⟩) (h' | ⟨he, h'⟩)
    · exact absurd h' (lt_asymm h)
    · exact absurd h (he ▸ lt_irrefl _)
    · exact absurd h' (lt_irrefl _)
    · exact Prod.ext (le_antisymm h h') rfl

instance : IsTrans (String × String) pinLe where
  trans := by
    rintro ⟨a, k⟩ ⟨b, l⟩ ⟨c, m⟩ (h | ⟨rfl, h⟩) (h' | ⟨rfl, h'⟩)
    · exact Or.inl (lt_trans h h')
    · exact Or.inl h
    · exact Or.inl h'
    · exact Or.inr ⟨rfl, le_trans h h'⟩

instance : Std.Total pinLe where
  total := by
    rintro ⟨a, k⟩ ⟨b, l⟩
    rcases lt_trichotomy k l with h | rfl | h
    · exact Or.inl (Or.inl h)
    · rcases le_total a b with h | h
      · exact Or.inl (Or.inr ⟨rfl, h⟩)
      · exact Or.inr (Or.inr ⟨rfl, h⟩)
    · exact Or.inr (Or.inl h)

theorem pairwise_orderedSidebarPins : (orderedSidebarPins doc).Pairwise pinLe :=
  List.pairwise_insertionSort pinLe _

/-- **Who is pinned, and under which key.** -/
theorem mem_orderedSidebarPins (hk : doc.Keyed) {id key : String} :
    (id, key) ∈ orderedSidebarPins doc ↔ pinKey doc id = some key := by
  unfold orderedSidebarPins
  rw [List.mem_insertionSort, List.mem_filterMap]
  constructor
  · rintro ⟨r, hr, h⟩
    rw [mem_overlayRows_iff hk] at hr
    split_ifs at h with hpinned
    obtain ⟨k, hkey, h⟩ := Option.bind_eq_some_iff.mp h
    split_ifs at h with hvalid
    cases h
    have hplace : placement doc r.id = "pinned" := by
      rw [placement, hr]
      simpa [sidebarLocationIsPinned] using hpinned
    rw [pinKey, if_pos hplace, overlayReg_of_some hr, Option.filter_eq_some_iff]
    exact ⟨hkey, hvalid⟩
  · intro h
    unfold pinKey at h
    split_ifs at h with hplace
    obtain ⟨hkey, hvalid⟩ := Option.filter_eq_some_iff.mp h
    cases hr : doc.overlayRow ⟨kindSidebarPins, id⟩ with
    | none =>
      rw [overlayReg_of_none hr] at hkey
      cases hkey
    | some r =>
      rw [overlayReg_of_some hr] at hkey
      have hid := id_overlayRow hk hr
      refine ⟨r, mem_overlayRows.mpr ⟨id, hr⟩, ?_⟩
      have hpinned : sidebarLocationIsPinned doc r.id r = true := by
        rw [placement, hr] at hplace
        simpa [sidebarLocationIsPinned, hid] using hplace
      rw [if_pos hpinned]
      refine Option.bind_eq_some_iff.mpr ⟨key, hkey, ?_⟩
      rw [if_pos hvalid, hid]

theorem map_fst_filterMap (f : RegistryRow → Option (String × String)) (rows : List RegistryRow)
    (hf : ∀ r p, f r = some p → p.1 = r.id) :
    ((rows.filterMap f).map (·.1)).Sublist (rows.map (·.id)) := by
  induction rows with
  | nil => exact List.Sublist.slnil
  | cons r rows ih =>
    rw [List.filterMap_cons, List.map_cons]
    cases hr : f r with
    | none => exact ih.cons r.id
    | some p =>
      rw [List.map_cons, hf r p hr]
      exact ih.cons_cons r.id

theorem nodup_orderedSidebarPins (hk : doc.Keyed) :
    ((orderedSidebarPins doc).map (·.1)).Nodup := by
  unfold orderedSidebarPins
  rw [((List.perm_insertionSort _ _).map _).nodup_iff]
  refine (map_fst_filterMap _ _ fun r p h => ?_).nodup (nodup_overlayRows hk)
  split_ifs at h
  obtain ⟨k, -, h⟩ := Option.bind_eq_some_iff.mp h
  split_ifs at h
  cases h
  rfl

end Places

/-! ## Sections -/

/-- A section is shown: its row is there, not deleted, and named. -/
def listedSection (doc : RegistryDoc) (id : String) : Bool :=
  (overlayReg doc ⟨kindSections, id⟩ "deleted").value.bind Json.asBool ≠ some true &&
    ((overlayReg doc ⟨kindSections, id⟩ "name").value.bind Json.asStr).isSome

/-- When a section was created. -/
def sectionCreated (doc : RegistryDoc) (id : String) : Option String :=
  (overlayReg doc ⟨kindSections, id⟩ "createdAt").value.bind Json.asStr

/-- Sections by creation, then by id. -/
def createdLe (doc : RegistryDoc) (a b : String) : Prop :=
  rank (sectionCreated doc a) < rank (sectionCreated doc b) ∨
    sectionCreated doc a = sectionCreated doc b ∧ a ≤ b

section Sections

variable {doc : RegistryDoc}

instance : IsTrans RegistryRow sectionLe where
  trans := by
    rintro a b c (h | ⟨he, h⟩) (h' | ⟨he', h'⟩)
    · exact Or.inl (lt_trans h h')
    · exact Or.inl (he' ▸ h)
    · exact Or.inl (he ▸ h')
    · exact Or.inr ⟨he.trans he', le_trans h h'⟩

instance : Std.Total sectionLe where
  total := by
    intro a b
    rcases lt_trichotomy (rank (createdAt a)) (rank (createdAt b)) with h | h | h
    · exact Or.inl (Or.inl h)
    · have he := rank_injective h
      rcases le_total a.id b.id with h | h
      · exact Or.inl (Or.inr ⟨he, h⟩)
      · exact Or.inr (Or.inr ⟨he.symm, h⟩)
    · exact Or.inr (Or.inl h)

instance : Std.Antisymm (createdLe doc) where
  antisymm := by
    rintro a b (h | ⟨he, h⟩) (h' | ⟨he', h'⟩)
    · exact absurd h' (lt_asymm h)
    · exact absurd h (he' ▸ lt_irrefl _)
    · exact absurd h' (he ▸ lt_irrefl _)
    · exact le_antisymm h h'

theorem mem_sidebarSections {s : SidebarSection} : s ∈ sidebarSections doc ↔
    ∃ r ∈ overlayRows doc kindSections, sectionDeleted r = false ∧
      ∃ name, r.fields["name"]?.bind Json.asStr = some name ∧
        s = { id := r.id, name, sessionIds := sectionMembers doc r.id
              collapsed := (r.fields["collapsed"]?.bind Json.asBool).getD false } := by
  unfold sidebarSections
  rw [List.mem_filterMap]
  constructor
  · rintro ⟨r, hr, h⟩
    obtain ⟨hr, hdel⟩ := List.mem_filter.mp ((List.mem_insertionSort _).mp hr)
    obtain ⟨name, hname, rfl⟩ := Option.map_eq_some_iff.mp h
    exact ⟨r, hr, by simpa using hdel, name, hname, rfl⟩
  · rintro ⟨r, hr, hdel, name, hname, rfl⟩
    refine ⟨r, (List.mem_insertionSort _).mpr (List.mem_filter.mpr ⟨hr, by simp [hdel]⟩), ?_⟩
    rw [hname]
    rfl

theorem sessionIds_of_mem {s : SidebarSection} (h : s ∈ sidebarSections doc) :
    s.sessionIds = sectionMembers doc s.id := by
  obtain ⟨r, -, -, name, -, rfl⟩ := mem_sidebarSections.mp h
  rfl

/-- **Which sections are listed.** -/
theorem mem_sectionIds (hk : doc.Keyed) {id : String} :
    id ∈ (sidebarSections doc).map (·.id) ↔ listedSection doc id = true := by
  rw [List.mem_map, listedSection, Bool.and_eq_true, decide_eq_true_iff]
  constructor
  · rintro ⟨s, hs, rfl⟩
    obtain ⟨r, hr, hdel, name, hname, rfl⟩ := mem_sidebarSections.mp hs
    rw [mem_overlayRows_iff hk] at hr
    rw [overlayReg_of_some hr, overlayReg_of_some hr]
    refine ⟨of_decide_eq_false hdel, ?_⟩
    exact Option.isSome_iff_exists.mpr ⟨name, hname⟩
  · rintro ⟨hdel, hname⟩
    obtain ⟨name, hname⟩ := Option.isSome_iff_exists.mp hname
    cases hr : doc.overlayRow ⟨kindSections, id⟩ with
    | none =>
      rw [overlayReg_of_none hr] at hname
      cases hname
    | some r =>
      rw [overlayReg_of_some hr] at hdel hname
      refine ⟨_, mem_sidebarSections.mpr
        ⟨r, mem_overlayRows.mpr ⟨id, hr⟩, ?_, name, hname, rfl⟩, id_overlayRow hk hr⟩
      exact decide_eq_false hdel

theorem nodup_sectionIds (hk : doc.Keyed) : ((sidebarSections doc).map (·.id)).Nodup := by
  have hsub : ∀ rows : List RegistryRow, ((rows.filterMap fun row =>
      (row.fields["name"]?.bind Json.asStr).map fun name =>
        ({ id := row.id, name, sessionIds := sectionMembers doc row.id
           collapsed := (row.fields["collapsed"]?.bind Json.asBool).getD false } :
          SidebarSection)).map (·.id)).Sublist (rows.map (·.id)) := by
    intro rows
    induction rows with
    | nil => exact List.Sublist.slnil
    | cons r rows ih =>
      rw [List.filterMap_cons, List.map_cons]
      cases r.fields["name"]?.bind Json.asStr with
      | none => exact ih.cons r.id
      | some name => exact ih.cons_cons r.id
  refine (hsub _).nodup ?_
  rw [((List.perm_insertionSort _ _).map _).nodup_iff]
  exact (List.filter_sublist.map _).nodup (nodup_overlayRows hk)

theorem pairwise_sectionIds (hk : doc.Keyed) :
    ((sidebarSections doc).map (·.id)).Pairwise (createdLe doc) := by
  rw [List.pairwise_map]
  unfold sidebarSections
  rw [List.pairwise_filterMap]
  refine (List.pairwise_insertionSort sectionLe _).imp_of_mem ?_
  intro a b ha hb hab s hs s' hs'
  have hcreated : ∀ {r : RegistryRow},
      r ∈ ((overlayRows doc kindSections).filter (!sectionDeleted ·)).insertionSort sectionLe →
        sectionCreated doc r.id = createdAt r := by
    intro r hr
    have hr := (List.mem_filter.mp ((List.mem_insertionSort _).mp hr)).1
    rw [mem_overlayRows_iff hk] at hr
    rw [sectionCreated, overlayReg_of_some hr]
    rfl
  obtain ⟨n, -, rfl⟩ := Option.map_eq_some_iff.mp hs
  obtain ⟨n', -, rfl⟩ := Option.map_eq_some_iff.mp hs'
  simp only [createdLe, hcreated ha, hcreated hb]
  exact hab

/-- **The order of the sections is the one of their creation.** -/
theorem sectionIds_eq (hk : doc.Keyed) {ids : List String} (hp : ids.Pairwise (createdLe doc))
    (hn : ids.Nodup) (hm : ∀ id, id ∈ ids ↔ listedSection doc id = true) :
    (sidebarSections doc).map (·.id) = ids :=
  Sorted.eq_of_mem_iff (pairwise_sectionIds hk) hp (nodup_sectionIds hk) hn fun id =>
    (mem_sectionIds hk).trans (hm id).symm

theorem forall₂_same {sections : List SidebarSection}
    (hid : sections.map (·.id) = (sidebarSections doc).map (·.id))
    (hm : ∀ s ∈ sections, s.sessionIds.Perm (sectionMembers doc s.id)) :
    List.Forall₂ SidebarSection.Same sections (sidebarSections doc) := by
  have hmem : ∀ s ∈ sidebarSections doc, s.sessionIds = sectionMembers doc s.id :=
    fun s hs => sessionIds_of_mem hs
  revert hid hm hmem
  generalize sidebarSections doc = shown
  induction sections generalizing shown with
  | nil =>
    intro hid _ _
    cases shown with
    | nil => exact List.Forall₂.nil
    | cons s shown => cases hid
  | cons s sections ih =>
    intro hid hm hmem
    cases shown with
    | nil => cases hid
    | cons s' shown =>
      rw [List.map_cons, List.map_cons, List.cons.injEq] at hid
      obtain ⟨hs, hm⟩ := List.forall_mem_cons.mp hm
      obtain ⟨hs', hmem⟩ := List.forall_mem_cons.mp hmem
      refine List.Forall₂.cons ⟨hid.1, ?_⟩ (ih shown hid.2 hm hmem)
      rw [hs', ← hid.1]
      exact hs

end Sections

end Zeron.Sidebar
