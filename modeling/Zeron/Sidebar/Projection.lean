import Zeron.Sidebar.Effect

/-!
# The projection against the registry

A pending change is shown by editing the lists (`SidebarPinChange.project`); the registry takes it
by writing rows (`changeSidebarPin`). On an orderly replica the two show one sidebar.

* **`map_fst_place`**: a key between the neighbors sorts the session to its place;
* `Moved.pins`, `Moved.members`: the lists after a change of one session;
* `AsWritten`, `Plain`: the replicas and the changes meant;
* **`projection_agrees`**: the projected lists are the ones read after the change;
* `import_unprojected`: an import, which is not projected.
-/

namespace Zeron.Sidebar

open Registry Lww
open Std (ExtTreeMap)

/-! ## Keys and places -/

section Place

variable {l l' : List (String × String)} {id key : String}

/-- The pins but one. -/
def pinsBut (l : List (String × String)) (id : String) : List (String × String) :=
  l.filter (·.1 ≠ id)

theorem mem_pinsBut {p : String × String} : p ∈ pinsBut l id ↔ p ∈ l ∧ p.1 ≠ id := by
  rw [pinsBut, List.mem_filter, decide_eq_true_iff]

theorem find?_of_mem (hn : (l.map (·.1)).Nodup) {p : String × String} (hp : p ∈ l) :
    l.find? (·.1 = p.1) = some p := by
  induction l with
  | nil => cases hp
  | cons q l ih =>
    rw [List.map_cons, List.nodup_cons] at hn
    rcases List.mem_cons.mp hp with rfl | hp
    · rw [List.find?_cons_of_pos (by simp)]
    · have hne : q.1 ≠ p.1 := fun he => hn.1 (he ▸ List.mem_map_of_mem hp)
      rw [List.find?_cons_of_neg (by simpa using hne)]
      exact ih hn.2 hp

theorem nodup_of_map_fst (hn : (l.map (·.1)).Nodup) : l.Nodup := List.Nodup.of_map _ hn

theorem snd_le_of_pinLe {a b : String × String} (h : pinLe a b) : a.2 ≤ b.2 := by
  rcases h with h | ⟨h, -⟩
  · exact h.le
  · exact h.le

theorem neighborKeys_insertIdx (hn : (l.map (·.1)).Nodup) {i : ℕ}
    (hi : i ≤ (pinsBut l id).length) :
    neighborKeys l (((pinsBut l id).map (·.1)).insertIdx i id) id =
      (if i = 0 then none else (pinsBut l id)[i - 1]?.map (·.2),
        (pinsBut l id)[i]?.map (·.2)) := by
  have hnotin : id ∉ (pinsBut l id).map (·.1) := by
    rw [List.mem_map]
    rintro ⟨p, hp, rfl⟩
    exact (mem_pinsBut.mp hp).2 rfl
  have hi' : i ≤ ((pinsBut l id).map (·.1)).length := by
    rw [List.length_map]
    exact hi
  have hkey : ∀ j : ℕ, (((pinsBut l id).map (·.1))[j]?.bind fun a =>
      (l.find? (·.1 = a)).map (·.2)) = (pinsBut l id)[j]?.map (·.2) := by
    intro j
    rw [List.getElem?_map]
    cases hj : (pinsBut l id)[j]? with
    | none => rfl
    | some p =>
      have hp := (mem_pinsBut.mp (List.mem_of_getElem? hj)).1
      rw [Option.map_some, Option.bind_some, find?_of_mem hn hp]
  unfold neighborKeys
  dsimp only
  rw [Sorted.idxOf_insertIdx hi' hnotin, List.getElem?_insertIdx_of_gt (Nat.lt_succ_self i),
    Nat.succ_sub_one, hkey]
  by_cases hzero : i = 0
  · rw [if_pos hzero, if_pos hzero]
  · rw [if_neg hzero, if_neg hzero, List.getElem?_insertIdx_of_lt (by omega), hkey]

/-- **A key between its neighbors puts the session at its place.** -/
theorem map_fst_place (hl : l.Pairwise pinLe) (hn : (l.map (·.1)).Nodup) (hl' : l'.Pairwise pinLe)
    (hn' : (l'.map (·.1)).Nodup) {after before : Option String}
    (hkey : Between (neighborKeys l (place (l.map (·.1)) id after before) id).1
      (neighborKeys l (place (l.map (·.1)) id after before) id).2 key)
    (hmem : ∀ p, p ∈ l' ↔ p = (id, key) ∨ p ∈ l ∧ p.1 ≠ id) :
    l'.map (·.1) = place (l.map (·.1)) id after before := by
  have hothers : (l.map (·.1)).filter (· ≠ id) = (pinsBut l id).map (·.1) :=
    List.filter_map
  unfold place at hkey ⊢
  dsimp only at hkey ⊢
  rw [hothers] at hkey ⊢
  have hi := placeIndex_le ((pinsBut l id).map (·.1)) after before
  rw [List.length_map] at hi
  revert hi hkey
  generalize placeIndex ((pinsBut l id).map (·.1)) after before = i
  intro hkey hi
  rw [neighborKeys_insertIdx hn hi] at hkey
  obtain ⟨hlow, hup⟩ := hkey
  dsimp only at hlow hup
  have hsorted : (pinsBut l id).Pairwise pinLe := hl.filter _
  have hnodup : (pinsBut l id).Nodup := (nodup_of_map_fst hn).filter _
  have hmono : ∀ j j' (hj : j < (pinsBut l id).length)
      (hj' : j' < (pinsBut l id).length), j ≤ j' →
      ((pinsBut l id)[j]).2 ≤ ((pinsBut l id)[j']).2 := by
    intro j j' hj hj' hle
    rcases Nat.eq_or_lt_of_le hle with rfl | hlt
    · exact le_rfl
    · exact snd_le_of_pinLe (List.pairwise_iff_getElem.mp hsorted j j' hj hj' hlt)
  have hcand : l' = (pinsBut l id).insertIdx i (id, key) := by
    refine Sorted.eq_of_mem_iff hl' (Sorted.pairwise_insertIdx hi hsorted ?_ ?_)
      (nodup_of_map_fst hn') (Sorted.nodup_insertIdx hi hnodup ?_) fun p => ?_
    · intro b hb
      obtain ⟨j, hj, rfl⟩ := List.mem_take_iff_getElem.mp hb
      have hj' : j < i := by omega
      have hpos : i ≠ 0 := by omega
      have hlast : i - 1 < (pinsBut l id).length := by omega
      have hlt := hlow (pinsBut l id)[i - 1].2 (by
        rw [if_neg hpos, List.getElem?_eq_getElem hlast]
        rfl)
      exact Or.inl ((hmono j (i - 1) (by omega) (by omega) (by omega)).trans_lt hlt)
    · intro b hb
      obtain ⟨j, hj, rfl⟩ := List.mem_drop_iff_getElem.mp hb
      have hfirst : i < (pinsBut l id).length := by omega
      have hlt := hup (pinsBut l id)[i].2 (by
        rw [List.getElem?_eq_getElem hfirst]
        rfl)
      exact Or.inl (hlt.trans_le (hmono i (i + j) (by omega) (by omega) (by omega)))
    · exact fun hm => (mem_pinsBut.mp hm).2 rfl
    · rw [hmem, Sorted.mem_insertIdx_iff hi, mem_pinsBut]
  rw [hcand, List.map_insertIdx]

end Place

/-! ## The lists after a change of one session -/

section Lists

variable {doc doc' : RegistryDoc} {id place : String} {key : Option String}

theorem Moved.mem_pins (h : Moved doc doc' id place key) (hk : doc.Keyed) (hk' : doc'.Keyed)
    (p : String × String) :
    p ∈ orderedSidebarPins doc' ↔
      some p = key.map (id, ·) ∨ p ∈ orderedSidebarPins doc ∧ p.1 ≠ id := by
  obtain ⟨y, k⟩ := p
  rw [mem_orderedSidebarPins hk', mem_orderedSidebarPins hk]
  by_cases hy : y = id
  · subst hy
    rw [h.key]
    cases key <;> simp [eq_comm]
  · rw [(h.others y hy).2]
    cases key <;> simp [hy]

theorem Moved.pins_of_none (h : Moved doc doc' id place none) (hk : doc.Keyed) (hk' : doc'.Keyed) :
    (orderedSidebarPins doc').map (·.1) =
      ((orderedSidebarPins doc).map (·.1)).filter (· ≠ id) := by
  have hothers : ((orderedSidebarPins doc).map (·.1)).filter (· ≠ id) =
      (pinsBut (orderedSidebarPins doc) id).map (·.1) := List.filter_map
  rw [hothers]
  refine congrArg (List.map (·.1)) (Sorted.eq_of_mem_iff pairwise_orderedSidebarPins
    (pairwise_orderedSidebarPins.filter _) (nodup_of_map_fst (nodup_orderedSidebarPins hk'))
    ((nodup_of_map_fst (nodup_orderedSidebarPins hk)).filter _) fun p => ?_)
  rw [h.mem_pins hk hk', ← pinsBut, mem_pinsBut]
  simp

theorem Moved.pins_of_some {k : String} (h : Moved doc doc' id place (some k)) (hk : doc.Keyed)
    (hk' : doc'.Keyed) {after before : Option String}
    (hbetween : Between
      (neighborKeys (orderedSidebarPins doc)
        (Sidebar.place ((orderedSidebarPins doc).map (·.1)) id after before) id).1
      (neighborKeys (orderedSidebarPins doc)
        (Sidebar.place ((orderedSidebarPins doc).map (·.1)) id after before) id).2 k) :
    (orderedSidebarPins doc').map (·.1) =
      Sidebar.place ((orderedSidebarPins doc).map (·.1)) id after before := by
  refine map_fst_place pairwise_orderedSidebarPins (nodup_orderedSidebarPins hk)
    pairwise_orderedSidebarPins (nodup_orderedSidebarPins hk') hbetween fun p => ?_
  rw [h.mem_pins hk hk', Option.map_some, Option.some.injEq]

theorem Moved.listed (h : Moved doc doc' id place key) (s : String) :
    listedSection doc' s = listedSection doc s := by
  rw [listedSection, listedSection, h.sections s _ (by decide), h.sections s _ (by decide)]

theorem Moved.created (h : Moved doc doc' id place key) (s : String) :
    sectionCreated doc' s = sectionCreated doc s := by
  rw [sectionCreated, sectionCreated, h.sections s _ (by decide)]

theorem Moved.sectionIds (h : Moved doc doc' id place key) (hk : doc.Keyed) (hk' : doc'.Keyed) :
    (sidebarSections doc').map (·.id) = (sidebarSections doc).map (·.id) := by
  have hle : createdLe doc' = createdLe doc := by
    funext a b
    rw [createdLe, createdLe, h.created a, h.created b]
  refine sectionIds_eq hk' ?_ (nodup_sectionIds hk) fun s => ?_
  · rw [hle]
    exact pairwise_sectionIds hk
  · rw [mem_sectionIds hk, h.listed]

/-- A section that sessions can be placed in. -/
def ProperId (s : String) : Prop := s ≠ "" ∧ s ≠ "pinned"

theorem mem_sectionMembers_iff (hk : doc.Keyed) {s : String} (hs : ProperId s) {y : String} :
    y ∈ sectionMembers doc s ↔ placement doc y = s := by
  rw [mem_sectionMembers hk]
  refine ⟨fun h => h.2, fun h => ⟨isSome_location ?_ ?_, h⟩⟩
  · rw [h]
    exact hs.1
  · rw [h]
    exact hs.2

theorem Moved.mem_members (h : Moved doc doc' id place key) (hk : doc.Keyed) (hk' : doc'.Keyed)
    {s : String} (hs : ProperId s) (y : String) :
    y ∈ sectionMembers doc' s ↔ y = id ∧ place = s ∨ y ∈ sectionMembers doc s ∧ y ≠ id := by
  rw [mem_sectionMembers_iff hk' hs, mem_sectionMembers_iff hk hs]
  by_cases hy : y = id
  · subst hy
    rw [h.place]
    simp
  · rw [(h.others y hy).1]
    simp [hy]

end Lists

/-! ## Agreement -/

/-- A replica whose sidebar rows are as the clients write them, with room for the ticks of a
change. -/
structure AsWritten (t : Clocked) : Prop extends Orderly 16 t where
  /-- The ids of sections pass `valid_section_id`. -/
  proper : ∀ s, listedSection t.doc s = true → ProperId s
  /-- A live section has a name. -/
  named : ∀ s, liveSidebarSection t.doc s = true → listedSection t.doc s = true

/-- The changes the projection follows. An import is resolved by the registry alone. -/
def Plain (t : Clocked) : SidebarPinChange → Prop
  | .pin _ _ _ | .move _ _ _ => True
  -- the session is in no listed section
  | .unpin id => ∀ s, listedSection t.doc s = true → placement t.doc id ≠ s
  | .section (.create id _) => listedSection t.doc id = true ∨
    t.doc.overlayRow ⟨kindSections, id⟩ = none ∧ (∀ y, placement t.doc y ≠ id) ∧
      -- the listed sections are older than the clock the replica mints next
      ∀ s, listedSection t.doc s = true → rank (sectionCreated t.doc s) < t.stamp
  | .section (.rename _ _) | .section (.collapse _ _) | .section (.delete _)
  | .section (.assign _ _) => True
  | .section (.import sections) =>
    -- every section has a row already
    ∀ s ∈ sections, (t.doc.overlayRow ⟨kindSections, s.id⟩).isSome = true

section Agree

variable {t : Clocked} {before : SidebarPreferences}

theorem sidebarPreferences_eq {doc : RegistryDoc} (h : sidebarPinsInitialized doc = true) :
    sidebarPreferences doc = some
      { pinnedSessionIds := (orderedSidebarPins doc).map (·.1)
        sections := sidebarSections doc } := by
  rw [sidebarPreferences, if_pos h]

theorem initialized_of_some {doc : RegistryDoc} (h : sidebarPreferences doc = some before) :
    sidebarPinsInitialized doc = true ∧
      before.pinnedSessionIds = (orderedSidebarPins doc).map (·.1) ∧
      before.sections = sidebarSections doc := by
  unfold sidebarPreferences at h
  split_ifs at h with hinit
  cases h
  exact ⟨hinit, rfl, rfl⟩

theorem current_eq (h : sidebarPinsInitialized t.doc = true) :
    t.current = (orderedSidebarPins t.doc).map (·.1) := by
  rw [Clocked.current, sidebarPreferences_eq h]
  rfl

theorem agrees_of_moved {t' : Clocked} {id place : String} {key : Option String}
    (h : AsWritten t) (hk' : t'.doc.Keyed) (hbefore : sidebarPreferences t.doc = some before)
    (hmoved : Moved t.doc t'.doc id place key) {change : SidebarPinChange}
    (hpins : change.project before.pinnedSessionIds = (orderedSidebarPins t'.doc).map (·.1))
    (hids : (change.projectSections before.sections).map (·.id) = before.sections.map (·.id))
    (hmem : ∀ s ∈ change.projectSections before.sections, ProperId s.id →
      s.sessionIds.Nodup ∧ ∀ y, y ∈ s.sessionIds ↔
        y = id ∧ place = s.id ∨ y ∈ sectionMembers t.doc s.id ∧ y ≠ id) :
    ∃ after, sidebarPreferences t'.doc = some after ∧ Agrees (change.projected before) after := by
  obtain ⟨hinit, -, hsections⟩ := initialized_of_some hbefore
  refine ⟨_, sidebarPreferences_eq (hmoved.initialized.trans hinit), hpins, ?_⟩
  refine forall₂_same ?_ fun s hs => ?_
  · show (change.projectSections before.sections).map (·.id) = _
    rw [hids, hmoved.sectionIds h.keyed hk', hsections]
  · have hlisted : listedSection t.doc s.id = true := by
      rw [← mem_sectionIds h.keyed, ← hsections, ← hids]
      exact List.mem_map_of_mem hs
    have hproper := h.proper s.id hlisted
    obtain ⟨hnodup, hmem⟩ := hmem s hs hproper
    rw [List.perm_ext_iff_of_nodup hnodup (nodup_sectionMembers hk' s.id)]
    intro y
    rw [hmem, hmoved.mem_members h.keyed hk' hproper]

/-- The lists agree after a change of one section's row. -/
theorem agrees_of_section {t' : Clocked} {id : String} (hk' : t'.doc.Keyed)
    (hbefore : sidebarPreferences t.doc = some before) (hk : t.doc.Keyed)
    (hrows : ∀ key, key ≠ ⟨kindSections, id⟩ → t'.doc.overlayRow key = t.doc.overlayRow key)
    {change : SidebarSectionChange}
    (hpins : ∀ ids : List String, (SidebarPinChange.section change).project ids = ids)
    (hids : (change.project before.sections).map (·.id) = (sidebarSections t'.doc).map (·.id))
    (hmem : ∀ s ∈ change.project before.sections, ProperId s.id ∧ s.sessionIds.Nodup ∧
      ∀ y, y ∈ s.sessionIds ↔ placement t.doc y = s.id) :
    ∃ after, sidebarPreferences t'.doc = some after ∧
      Agrees ((SidebarPinChange.section change).projected before) after := by
  obtain ⟨hinit, hpinned, -⟩ := initialized_of_some hbefore
  have hsame : ∀ y, placement t'.doc y = placement t.doc y ∧ pinKey t'.doc y = pinKey t.doc y :=
    fun y => place_congr (hrows _ (key_ne sections_ne.1.symm _ _))
      (hrows _ (key_ne sections_ne.2.symm _ _))
  have hinit' : sidebarPinsInitialized t'.doc = true := by
    rw [← hinit, sidebarPinsInitialized, sidebarPinsInitialized,
      hrows _ (key_ne (by decide : kindPreferences ≠ kindSections) _ _)]
  refine ⟨_, sidebarPreferences_eq hinit', ?_, forall₂_same hids fun s hs => ?_⟩
  · show (SidebarPinChange.section change).project before.pinnedSessionIds = _
    rw [hpins, hpinned]
    refine congrArg (List.map (·.1)) (Sorted.eq_of_mem_iff pairwise_orderedSidebarPins
      pairwise_orderedSidebarPins (nodup_of_map_fst (nodup_orderedSidebarPins hk))
      (nodup_of_map_fst (nodup_orderedSidebarPins hk')) fun p => ?_)
    rw [mem_orderedSidebarPins hk, mem_orderedSidebarPins hk', (hsame p.1).2]
  · obtain ⟨hproper, hnodup, hmem⟩ := hmem s hs
    rw [List.perm_ext_iff_of_nodup hnodup (nodup_sectionMembers hk' s.id)]
    intro y
    rw [hmem, mem_sectionMembers_iff hk' hproper, (hsame y).1]

theorem AsWritten.members (h : AsWritten t) {s : SidebarSection} (hs : s ∈ sidebarSections t.doc) :
    ProperId s.id ∧ s.sessionIds.Nodup ∧ ∀ y, y ∈ s.sessionIds ↔ placement t.doc y = s.id := by
  have hproper := h.proper s.id ((mem_sectionIds h.keyed).mp (List.mem_map_of_mem hs))
  rw [sessionIds_of_mem hs]
  exact ⟨hproper, nodup_sectionMembers h.keyed s.id,
    fun y => mem_sectionMembers_iff h.keyed hproper⟩

end Agree

/-! ## Rows under their keys -/

section Keyed

variable {t : Clocked}

theorem keyed_nextHlc (h : t.doc.Keyed) : t.nextHlc.1.doc.Keyed := h

theorem keyed_observe (h : t.doc.Keyed) (kind id : String) : (t.observe kind id).doc.Keyed := h

theorem keyed_observeSession (h : t.doc.Keyed) (id : String) : (t.observeSession id).doc.Keyed := h

theorem keyed_write (h : t.doc.Keyed) (kind id : String) (set : SMap Json) :
    (t.write kind id set).doc.Keyed := by
  rw [write_eq]
  exact keyed_enqueue (keyed_nextHlc h)

theorem keyed_initialized (h : t.doc.Keyed) : t.initializeSidebarPins.doc.Keyed := by
  unfold Clocked.initializeSidebarPins
  split_ifs
  · exact h
  · exact keyed_write h _ _ _

theorem keyed_writeSidebarLocation (h : t.doc.Keyed) (id location : String) :
    (t.writeSidebarLocation id location).doc.Keyed := by
  rw [writeSidebarLocation_eq]
  exact keyed_write (keyed_observeSession h id) _ _ _

theorem keyed_pinnedAt (h : t.doc.Keyed) (id key : String) (pinned : Bool) :
    (pinnedAt t id key pinned).doc.Keyed := by
  unfold pinnedAt
  refine keyed_enqueue ?_
  cases pinned
  · exact keyed_nextHlc h
  · exact keyed_writeSidebarLocation (keyed_nextHlc h) id "pinned"

theorem keyed_editSection (h : t.doc.Keyed) (id : String) (set : SMap Json) :
    (t.editSection id set).doc.Keyed := by
  unfold Clocked.editSection
  split_ifs
  · exact keyed_write (keyed_observe h _ _) _ _ _
  · exact h

theorem keyed_createSection (h : t.doc.Keyed) (id name : String) :
    (t.createSection id name).doc.Keyed := by
  unfold Clocked.createSection
  split_ifs
  · exact keyed_write (keyed_nextHlc h) _ _ _
  · exact h

theorem keyed_assignSession (h : t.doc.Keyed) (id : String) (sectionId : Option String) :
    (t.assignSession id sectionId).1.doc.Keyed := by
  unfold Clocked.assignSession
  split_ifs
  · exact h
  · exact h
  · have hmoved : (assignedAt t id (sectionId.getD "")).doc.Keyed :=
      keyed_writeSidebarLocation (keyed_write (keyed_observe h _ _) _ _ _) _ _
    cases sectionId with
    | none => exact hmoved
    | some s => exact keyed_editSection (keyed_initialized hmoved) _ _

end Keyed

/-! ## The changes of a session -/

section Session

variable {t : Clocked} {before : SidebarPreferences}

theorem filter_sessionIds {s : SidebarSection} {id place : String} (hne : place ≠ s.id)
    (hn : s.sessionIds.Nodup) {doc : RegistryDoc} (hm : s.sessionIds = sectionMembers doc s.id) :
    (s.without id).sessionIds.Nodup ∧ ∀ y, y ∈ (s.without id).sessionIds ↔
      y = id ∧ place = s.id ∨ y ∈ sectionMembers doc s.id ∧ y ≠ id := by
  refine ⟨hn.filter _, fun y => ?_⟩
  show y ∈ s.sessionIds.filter (· ≠ id) ↔ _
  rw [List.mem_filter, decide_eq_true_iff, hm]
  constructor
  · exact fun hy => Or.inr hy
  · rintro (⟨-, he⟩ | hy)
    · exact absurd he hne
    · exact hy

/-- Pins and moves, once they are accepted. -/
theorem agrees_place (h : AsWritten t) (hbefore : sidebarPreferences t.doc = some before)
    {id : String} {after beforeId : Option String} {pinned : Bool} {change : SidebarPinChange}
    (hchange : change = if pinned then .pin id after beforeId else .move id after beforeId)
    (hlisted : pinned = false → placement t.doc id = "pinned")
    (hproject : change.project before.pinnedSessionIds =
      place before.pinnedSessionIds id after beforeId)
    (hok : ((t.observeSession id).placePin id (change.project t.current) pinned).2 = none) :
    ∃ after, sidebarPreferences
        ((t.observeSession id).placePin id (change.project t.current) pinned).1.doc = some after ∧
      Agrees (change.projected before) after := by
  obtain ⟨hinit, hpinned, hsections⟩ := initialized_of_some hbefore
  have hcurrent : t.current = before.pinnedSessionIds := by
    rw [current_eq hinit, hpinned]
  rw [hcurrent, hproject] at hok ⊢
  obtain ⟨key, hvalid, hbetween, heq⟩ := placePin_ok hok
  have hobs := orderly_observeSession h.toOrderly id
  have hseen := (seen_observeSession h.toOrderly id).2
  have hpins : orderedSidebarPins (t.observeSession id).doc = orderedSidebarPins t.doc := rfl
  rw [hpins, hpinned] at hbetween
  have hmoved : Moved t.doc (pinnedAt (t.observeSession id) id key pinned).doc id "pinned"
      (some key) := by
    have hmoved : Moved (t.observeSession id).doc (pinnedAt (t.observeSession id) id key pinned).doc
        id "pinned" (some key) := by
      cases pinned with
      | true => exact moved_pin (hobs.mono (by omega) : Orderly (0 + 5) _) hseen hvalid
      | false =>
        exact moved_move (hobs.mono (by omega) : Orderly (0 + 2) _) hseen hvalid (hlisted rfl)
    exact ⟨hmoved.place, hmoved.key, hmoved.others, hmoved.sections, hmoved.initialized⟩
  have hk' := keyed_pinnedAt (t := t.observeSession id) h.keyed id key pinned
  rw [heq]
  refine agrees_of_moved h hk' hbefore hmoved ?_ ?_ fun s hs hproper => ?_
  · rw [hproject, hmoved.pins_of_some h.keyed hk' hbetween, hpinned]
  · subst hchange
    cases pinned
    · rfl
    · exact List.map_map ..
  · subst hchange
    rw [hsections] at hs
    cases pinned with
    | true =>
      obtain ⟨s', hs', rfl⟩ := List.mem_map.mp hs
      have hm := sessionIds_of_mem hs'
      exact filter_sessionIds (s := s') hproper.2.symm (h.members hs').2.1 hm
    | false =>
      have hs : s ∈ sidebarSections t.doc := hs
      obtain ⟨-, hnodup, hmem⟩ := h.members hs
      refine ⟨hnodup, fun y => ?_⟩
      rw [hmem, mem_sectionMembers_iff h.keyed hproper]
      constructor
      · intro hy
        refine Or.inr ⟨hy, ?_⟩
        rintro rfl
        exact hproper.2 (hy.symm.trans (hlisted rfl))
      · rintro (⟨-, he⟩ | ⟨hy, -⟩)
        · exact absurd he.symm hproper.2
        · exact hy

/-- An unpin of a session that is in no listed section. -/
theorem agrees_unpin (h : AsWritten t) (hbefore : sidebarPreferences t.doc = some before)
    {id : String} (hplain : ∀ s, listedSection t.doc s = true → placement t.doc id ≠ s)
    (listed : Bool) :
    ∃ after, sidebarPreferences ((if listed then (t.observeSession id).writeSidebarLocation id ""
        else t.observeSession id).write kindSidebarPins id {("pinned", .bool false)}).doc =
      some after ∧ Agrees ((SidebarPinChange.unpin id).projected before) after := by
  obtain ⟨hinit, hpinned, hsections⟩ := initialized_of_some hbefore
  have hobs := orderly_observeSession h.toOrderly id
  obtain ⟨hloc, hpin⟩ := seen_observeSession h.toOrderly id
  have hmoved := moved_unpin (hobs.mono (by omega) : Orderly (0 + 4) _) hloc hpin listed
  have hmoved : Moved t.doc _ id "" none :=
    ⟨hmoved.place, hmoved.key, hmoved.others, hmoved.sections, hmoved.initialized⟩
  have hk' : ((if listed then (t.observeSession id).writeSidebarLocation id ""
      else t.observeSession id).write kindSidebarPins id {("pinned", .bool false)}).doc.Keyed := by
    refine keyed_write ?_ _ _ _
    cases listed
    · exact keyed_observeSession h.keyed id
    · exact keyed_writeSidebarLocation (keyed_observeSession h.keyed id) id ""
  refine agrees_of_moved h hk' hbefore hmoved ?_ rfl fun s hs hproper => ?_
  · rw [hmoved.pins_of_none h.keyed hk', hpinned]
    rfl
  · have hmem' : s ∈ sidebarSections t.doc := hsections ▸ hs
    have hlisted := (mem_sectionIds h.keyed).mp (List.mem_map_of_mem (f := (·.id)) hmem')
    obtain ⟨-, hnodup, hmem⟩ := h.members hmem'
    refine ⟨hnodup, fun y => ?_⟩
    rw [hmem, mem_sectionMembers_iff h.keyed hproper]
    constructor
    · intro hy
      refine Or.inr ⟨hy, ?_⟩
      rintro rfl
      exact hplain s.id hlisted hy
    · rintro (⟨-, he⟩ | ⟨hy, -⟩)
      · exact absurd he.symm hproper.1
      · exact hy

/-- An assignment, once it is accepted. -/
theorem agrees_assign (h : AsWritten t) (hbefore : sidebarPreferences t.doc = some before)
    {id : String} {sectionId : Option String} (hsection : sectionId ≠ some "pinned")
    (hok : (t.assignSession id sectionId).2 = none) :
    ∃ after, sidebarPreferences (t.assignSession id sectionId).1.doc = some after ∧
      Agrees ((SidebarPinChange.section (.assign id sectionId)).projected before) after := by
  obtain ⟨hinit, hpinned, hsections⟩ := initialized_of_some hbefore
  have hmoved := moved_assign (h.toOrderly.mono (by omega) : Orderly (0 + 5) t) hinit hsection hok
  have hk' := keyed_assignSession h.keyed id sectionId
  refine agrees_of_moved h hk' hbefore hmoved ?_ ?_ fun s hs hproper => ?_
  · rw [hmoved.pins_of_none h.keyed hk', hpinned]
    rfl
  · show (before.sections.map _).map _ = _
    rw [List.map_map]
    refine List.map_congr_left fun s _ => ?_
    dsimp only [Function.comp]
    split_ifs <;> rfl
  · rw [hsections] at hs
    obtain ⟨s', hs', rfl⟩ := List.mem_map.mp hs
    have hm := sessionIds_of_mem hs'
    obtain ⟨-, hnodup, -⟩ := h.members hs'
    dsimp only at hproper ⊢
    by_cases hin : sectionId = some (s'.without id).id
    · rw [if_pos hin] at hproper ⊢
      have hid : s'.id = sectionId.getD "" := by
        rw [hin]
        rfl
      refine ⟨?_, fun y => ?_⟩
      · refine List.nodup_append.mpr ⟨hnodup.filter _, by simp, fun a ha b hb => ?_⟩
        rw [List.mem_singleton.mp hb]
        simpa using (List.mem_filter.mp ha).2
      · show y ∈ s'.sessionIds.filter (· ≠ id) ++ [id] ↔
          y = id ∧ sectionId.getD "" = s'.id ∨ y ∈ sectionMembers t.doc s'.id ∧ y ≠ id
        rw [List.mem_append, List.mem_filter, decide_eq_true_iff, hm, List.mem_singleton, hid]
        constructor
        · rintro (hy | rfl)
          · exact Or.inr hy
          · exact Or.inl ⟨rfl, rfl⟩
        · rintro (⟨rfl, -⟩ | hy)
          · exact Or.inr rfl
          · exact Or.inl hy
    · rw [if_neg hin] at hproper ⊢
      have hne : sectionId.getD "" ≠ s'.id := by
        cases sectionId with
        | none => exact hproper.1.symm
        | some s'' => exact fun he => hin (congrArg some he)
      exact filter_sessionIds hne hnodup hm

end Session

/-! ## The changes of a section -/

section Section

variable {t : Clocked} {before : SidebarPreferences}

theorem ids_updateFirst (id : String) {f : SidebarSection → SidebarSection}
    (hf : ∀ s, (f s).id = s.id) (sections : List SidebarSection) :
    (updateFirst id f sections).map (·.id) = sections.map (·.id) := by
  induction sections with
  | nil => rfl
  | cons s sections ih =>
    rw [updateFirst]
    split_ifs
    · rw [List.map_cons, List.map_cons, hf]
    · rw [List.map_cons, List.map_cons, ih]

theorem mem_updateFirst {id : String} {f : SidebarSection → SidebarSection}
    {sections : List SidebarSection} {s : SidebarSection} (h : s ∈ updateFirst id f sections) :
    s ∈ sections ∨ ∃ s' ∈ sections, s = f s' := by
  induction sections with
  | nil => cases h
  | cons s' sections ih =>
    rw [updateFirst] at h
    split_ifs at h
    · rcases List.mem_cons.mp h with rfl | h
      · exact Or.inr ⟨s', List.mem_cons_self, rfl⟩
      · exact Or.inl (List.mem_cons_of_mem _ h)
    · rcases List.mem_cons.mp h with rfl | h
      · exact Or.inl List.mem_cons_self
      · rcases ih h with h | ⟨s'', hs'', rfl⟩
        · exact Or.inl (List.mem_cons_of_mem _ h)
        · exact Or.inr ⟨s'', List.mem_cons_of_mem _ hs'', rfl⟩

theorem AsWritten.members_updateFirst (h : AsWritten t) {id : String}
    {f : SidebarSection → SidebarSection} (hf : ∀ s, (f s).id = s.id)
    (hf' : ∀ s, (f s).sessionIds = s.sessionIds) {s : SidebarSection}
    (hs : s ∈ updateFirst id f (sidebarSections t.doc)) :
    ProperId s.id ∧ s.sessionIds.Nodup ∧ ∀ y, y ∈ s.sessionIds ↔ placement t.doc y = s.id := by
  rcases mem_updateFirst hs with hs | ⟨s', hs', rfl⟩
  · exact h.members hs
  · rw [hf, hf']
    exact h.members hs'

theorem sectionIds_of_same {t' : Clocked} (hk : t.doc.Keyed) (hk' : t'.doc.Keyed)
    (hlisted : ∀ s, listedSection t'.doc s = listedSection t.doc s)
    (hcreated : ∀ s, sectionCreated t'.doc s = sectionCreated t.doc s) :
    (sidebarSections t'.doc).map (·.id) = (sidebarSections t.doc).map (·.id) := by
  have hle : createdLe t'.doc = createdLe t.doc := by
    funext a b
    rw [createdLe, createdLe, hcreated a, hcreated b]
  refine sectionIds_eq hk' ?_ (nodup_sectionIds hk) fun s => ?_
  · rw [hle]
    exact pairwise_sectionIds hk
  · rw [mem_sectionIds hk, hlisted]

theorem section_congr {doc doc' : RegistryDoc} {s : String}
    (h : doc'.overlayRow ⟨kindSections, s⟩ = doc.overlayRow ⟨kindSections, s⟩) :
    listedSection doc' s = listedSection doc s ∧ sectionCreated doc' s = sectionCreated doc s := by
  refine ⟨?_, ?_⟩
  · rw [listedSection, listedSection, overlayReg, overlayReg, h]
    rfl
  · rw [sectionCreated, sectionCreated, overlayReg, h]
    rfl

theorem agrees_collapse (h : AsWritten t) (hbefore : sidebarPreferences t.doc = some before)
    (id : String) (collapsed : Bool) :
    ∃ after, sidebarPreferences (t.collapseSection id collapsed).doc = some after ∧
      Agrees ((SidebarPinChange.section (.collapse id collapsed)).projected before) after := by
  obtain ⟨-, -, hsections⟩ := initialized_of_some hbefore
  have hk' : (t.collapseSection id collapsed).doc.Keyed := keyed_editSection h.keyed id _
  have hreg : ∀ {f : String}, f ≠ "collapsed" → ∀ s,
      overlayReg (t.collapseSection id collapsed).doc ⟨kindSections, s⟩ f =
        overlayReg t.doc ⟨kindSections, s⟩ f :=
    fun hf s => overlayReg_collapse (h.toOrderly.mono (by omega) : Orderly (0 + 1) t) collapsed hf s
  refine agrees_of_section hk' hbefore h.keyed (fun key hkey => overlayRow_editSection t id _ hkey)
    (fun _ => rfl) ?_ fun s hs => ?_
  · rw [sectionIds_of_same h.keyed hk' (fun s => ?_) (fun s => ?_), hsections]
    · exact ids_updateFirst id (f := ({ · with collapsed })) (fun _ => rfl) _
    · rw [listedSection, listedSection, hreg (by decide), hreg (by decide)]
    · rw [sectionCreated, sectionCreated, hreg (by decide)]
  · rw [hsections] at hs
    exact h.members_updateFirst (f := ({ · with collapsed })) (fun _ => rfl) (fun _ => rfl) hs

theorem agrees_rename (h : AsWritten t) (hbefore : sidebarPreferences t.doc = some before)
    (id name : String) :
    ∃ after, sidebarPreferences (t.renameSection id name).doc = some after ∧
      Agrees ((SidebarPinChange.section (.rename id name)).projected before) after := by
  obtain ⟨-, -, hsections⟩ := initialized_of_some hbefore
  have hk' : (t.renameSection id name).doc.Keyed := keyed_editSection h.keyed id _
  have hrows : ∀ key, key ≠ ⟨kindSections, id⟩ →
      (t.renameSection id name).doc.overlayRow key = t.doc.overlayRow key :=
    fun key hkey => overlayRow_editSection t id _ hkey
  have hreg : ∀ f, overlayReg (t.renameSection id name).doc ⟨kindSections, id⟩ f = _ :=
    fun f => overlayReg_editSection (h.toOrderly.mono (by omega) : Orderly (0 + 1) t) f
  have hkept : ∀ {f : String}, f ≠ "name" →
      overlayReg (t.renameSection id name).doc ⟨kindSections, id⟩ f =
        overlayReg t.doc ⟨kindSections, id⟩ f := by
    intro f hf
    rw [hreg, getElem?_singleton_field, if_neg hf.symm, ite_self]
  refine agrees_of_section hk' hbefore h.keyed hrows (fun _ => rfl) ?_ fun s hs => ?_
  · rw [sectionIds_of_same h.keyed hk' (fun s => ?_) (fun s => ?_), hsections]
    · exact ids_updateFirst id (f := ({ · with name })) (fun _ => rfl) _
    · by_cases hs : s = id
      · subst hs
        cases hlive : liveSidebarSection t.doc s with
        | false =>
          rw [Clocked.renameSection, Clocked.editSection, hlive]
          rfl
        | true =>
          -- a live section is listed, and stays so under its new name
          have hname : (overlayReg (t.renameSection s name).doc ⟨kindSections, s⟩ "name").value =
              some (.str name) := by
            rw [hreg, hlive, if_pos rfl, getElem?_singleton_field, if_pos rfl]
            rfl
          have hlisted := h.named s hlive
          rw [hlisted]
          rw [listedSection, Bool.and_eq_true] at hlisted
          rw [listedSection, hkept (by decide), hlisted.1, hname]
          rfl
      · exact (section_congr (hrows _ (key_ne_id _ hs))).1
    · by_cases hs : s = id
      · subst hs
        rw [sectionCreated, sectionCreated, hkept (by decide)]
      · exact (section_congr (hrows _ (key_ne_id _ hs))).2
  · rw [hsections] at hs
    exact h.members_updateFirst (f := ({ · with name })) (fun _ => rfl) (fun _ => rfl) hs

theorem agrees_delete (h : AsWritten t) (hbefore : sidebarPreferences t.doc = some before)
    (id : String) :
    ∃ after, sidebarPreferences (t.deleteSection id).doc = some after ∧
      Agrees ((SidebarPinChange.section (.delete id)).projected before) after := by
  obtain ⟨-, -, hsections⟩ := initialized_of_some hbefore
  have hk' : (t.deleteSection id).doc.Keyed := by
    rw [Clocked.deleteSection]
    exact keyed_write (keyed_observe h.keyed _ _) _ _ _
  have hrows : ∀ key, key ≠ ⟨kindSections, id⟩ →
      (t.deleteSection id).doc.overlayRow key = t.doc.overlayRow key :=
    fun key hkey => overlayRow_deleteSection t id hkey
  have hgone : listedSection (t.deleteSection id).doc id = false := by
    rw [listedSection, overlayReg_deleteSection (h.toOrderly.mono (by omega) : Orderly (0 + 1) t)]
    rfl
  refine agrees_of_section hk' hbefore h.keyed hrows (fun _ => rfl) ?_ fun s hs => ?_
  · show (before.sections.filter (·.id ≠ id)).map (·.id) = _
    have hfilter : (before.sections.filter (·.id ≠ id)).map (·.id) =
        (before.sections.map (·.id)).filter (· ≠ id) := by
      rw [List.filter_map]
      rfl
    rw [hfilter, hsections]
    refine (sectionIds_eq hk' ?_ ((nodup_sectionIds h.keyed).filter _) fun s => ?_).symm
    · refine ((pairwise_sectionIds h.keyed).filter _).imp_of_mem fun {a b} ha hb hle => ?_
      have hne : ∀ {x : String}, x ∈ ((sidebarSections t.doc).map (·.id)).filter (· ≠ id) →
          sectionCreated (t.deleteSection id).doc x = sectionCreated t.doc x := by
        intro x hx
        have hx : x ≠ id := by simpa using (List.mem_filter.mp hx).2
        exact (section_congr (hrows _ (key_ne_id _ hx))).2
      rw [createdLe, hne ha, hne hb]
      exact hle
    · rw [List.mem_filter, decide_eq_true_iff, mem_sectionIds h.keyed]
      by_cases hs : s = id
      · subst hs
        simp [hgone]
      · simp [hs, (section_congr (hrows _ (key_ne_id _ hs))).1]
  · have hs : s ∈ before.sections.filter (·.id ≠ id) := hs
    rw [hsections] at hs
    exact h.members (List.mem_filter.mp hs).1

theorem agrees_create (h : AsWritten t) (hbefore : sidebarPreferences t.doc = some before)
    {id name : String} (hid : ProperId id) (hplain : Plain t (.section (.create id name))) :
    ∃ after, sidebarPreferences (t.createSection id name).doc = some after ∧
      Agrees ((SidebarPinChange.section (.create id name)).projected before) after := by
  obtain ⟨-, -, hsections⟩ := initialized_of_some hbefore
  have hk' := keyed_createSection h.keyed id name
  have hrows : ∀ key, key ≠ ⟨kindSections, id⟩ →
      (t.createSection id name).doc.overlayRow key = t.doc.overlayRow key :=
    fun key hkey => overlayRow_createSection t id name hkey
  have hany : before.sections.any (·.id = id) = listedSection t.doc id := by
    rw [Bool.eq_iff_iff, ← mem_sectionIds h.keyed, hsections]
    simp
  rcases hplain with hlisted | ⟨hnone, hempty, hnewest⟩
  · -- the section is there: nothing is written
    have hsame : t.createSection id name = t := by
      rw [Clocked.createSection, if_neg]
      rw [Option.isNone_iff_eq_none]
      intro hnone
      rw [listedSection, overlayReg_of_none hnone, overlayReg_of_none hnone] at hlisted
      exact absurd hlisted (by decide)
    have hproject : SidebarSectionChange.project before.sections (.create id name) =
        before.sections := by
      rw [SidebarSectionChange.project, if_pos (hany.trans hlisted)]
    rw [hsame]
    have hidle : ∀ key, key ≠ ⟨kindSections, id⟩ → t.doc.overlayRow key = t.doc.overlayRow key :=
      fun key _ => rfl
    refine agrees_of_section (t := t) h.keyed hbefore h.keyed hidle (fun _ => rfl) ?_
      fun s hs => ?_
    · rw [hproject, hsections]
    · rw [hproject, hsections] at hs
      exact h.members hs
  · have hunlisted : listedSection t.doc id = false := by
      rw [listedSection, overlayReg_of_none hnone, overlayReg_of_none hnone]
      rfl
    have hproject : SidebarSectionChange.project before.sections (.create id name) =
        before.sections ++ [{ id, name, sessionIds := [], collapsed := false }] := by
      rw [SidebarSectionChange.project, if_neg (by rw [hany, hunlisted]; decide)]
    obtain ⟨hnew, hcreated⟩ := overlayReg_createSection
      (h.toOrderly.mono (by omega) : Orderly (0 + 2) t) hnone
    have hne : ∀ {s}, s ∈ (sidebarSections t.doc).map (·.id) → s ≠ id := by
      rintro s hs rfl
      rw [mem_sectionIds h.keyed, hunlisted] at hs
      cases hs
    refine agrees_of_section hk' hbefore h.keyed hrows (fun _ => rfl) ?_ fun s hs => ?_
    · rw [hproject, List.map_append, hsections]
      refine (sectionIds_eq hk' ?_ ?_ fun s => ?_).symm
      · refine List.pairwise_append.mpr ⟨?_, List.pairwise_singleton _ _, fun a ha b hb => ?_⟩
        · refine (pairwise_sectionIds h.keyed).imp_of_mem fun {a b} ha hb hle => ?_
          rw [createdLe, (section_congr (hrows _ (key_ne_id _ (hne ha)))).2,
            (section_congr (hrows _ (key_ne_id _ (hne hb)))).2]
          exact hle
        · obtain rfl : b = id := List.mem_singleton.mp hb
          refine Or.inl ?_
          rw [hcreated, (section_congr (hrows _ (key_ne_id _ (hne ha)))).2]
          exact hnewest a ((mem_sectionIds h.keyed).mp ha)
      · refine List.nodup_append.mpr ⟨nodup_sectionIds h.keyed, by simp, fun a ha b hb => ?_⟩
        obtain rfl : b = id := List.mem_singleton.mp hb
        exact hne ha
      · rw [List.mem_append, mem_sectionIds h.keyed]
        by_cases hs : s = id
        · subst hs
          simp [hnew]
        · simp [hs, (section_congr (hrows _ (key_ne_id _ hs))).1]
    · rw [hproject, List.mem_append, hsections, List.mem_singleton] at hs
      rcases hs with hs | rfl
      · exact h.members hs
      · refine ⟨hid, List.nodup_nil, fun y => iff_of_false (by simp) (hempty y)⟩

end Section

/-! ## Every change -/

section Change

variable {t : Clocked} {before : SidebarPreferences}

theorem validId_ne_empty {id : String} (h : validId id = true) : id ≠ "" := by
  rintro rfl
  exact absurd h (by decide)

theorem properId_of_valid {id : String} (h : validSectionId id = true) : ProperId id := by
  rw [validSectionId, Bool.and_eq_true, decide_eq_true_iff] at h
  exact ⟨validId_ne_empty h.1, h.2⟩

theorem agrees_idle (hbefore : sidebarPreferences t.doc = some before)
    {change : SidebarPinChange} (hpins : change.project before.pinnedSessionIds =
      before.pinnedSessionIds)
    (hsections : change.projectSections before.sections = before.sections) :
    Agrees (change.projected before) before := by
  obtain ⟨-, -, hshown⟩ := initialized_of_some hbefore
  refine ⟨hpins, ?_⟩
  show List.Forall₂ _ (change.projectSections before.sections) before.sections
  rw [hsections, hshown]
  refine forall₂_same rfl fun s hs => ?_
  rw [sessionIds_of_mem hs]

theorem placement_of_mem_current (hk : t.doc.Keyed) (hinit : sidebarPinsInitialized t.doc = true)
    {id : String} (h : id ∈ t.current) : placement t.doc id = "pinned" := by
  rw [current_eq hinit, List.mem_map] at h
  obtain ⟨⟨y, k⟩, hp, rfl⟩ := h
  rw [mem_orderedSidebarPins hk, pinKey] at hp
  split_ifs at hp with hplace
  exact hplace

theorem foldl_importSection {sections : List SidebarSection}
    (h : ∀ s ∈ sections, (t.doc.overlayRow ⟨kindSections, s.id⟩).isSome = true) :
    sections.foldl Clocked.importSection t = t := by
  induction sections with
  | nil => rfl
  | cons s sections ih =>
    obtain ⟨hs, hrest⟩ := List.forall_mem_cons.mp h
    rw [List.foldl_cons, Clocked.importSection, if_pos hs]
    exact ih hrest

theorem agrees_changeSection (h : AsWritten t) (hbefore : sidebarPreferences t.doc = some before)
    {change : SidebarSectionChange} (hplain : Plain t (.section change))
    (hok : (t.changeSidebarSection change).2 = none) :
    ∃ after, sidebarPreferences (t.changeSidebarSection change).1.doc = some after ∧
      Agrees ((SidebarPinChange.section change).projected before) after := by
  have hinit := (initialized_of_some hbefore).1
  unfold Clocked.changeSidebarSection at hok ⊢
  split at hok
  · cases hok
  · rename_i hcheck
    rw [initialize_of_initialized hinit] at hok ⊢
    cases change with
    | create id name =>
      have hid : validSectionId id = true := by
        rw [checkSection] at hcheck
        split_ifs at hcheck with hbad
        simp only [Bool.or_eq_true, not_or, Bool.not_eq_true, Bool.not_eq_false'] at hbad
        exact hbad.1
      exact agrees_create h hbefore (properId_of_valid hid) hplain
    | rename id name => exact agrees_rename h hbefore id name
    | collapse id collapsed => exact agrees_collapse h hbefore id collapsed
    | delete id => exact agrees_delete h hbefore id
    | assign sessionId sectionId =>
      refine agrees_assign h hbefore ?_ hok
      rintro rfl
      exact absurd hcheck (by simp [checkSection, validSectionId])
    | «import» sections =>
      dsimp only
      rw [foldl_importSection hplain]
      exact ⟨before, hbefore, agrees_idle hbefore rfl rfl⟩

end Change

/-! ## A replica that has just started -/

/-- A replica that is ready, without a pin or a section. -/
def ready : Clocked :=
  (Clocked.mk (RegistryDoc.new "a") fun _ => 5).initializeSidebarPins

theorem held_ready {key : RowKey} (h : key.kind ∈ sidebarKinds) : held ready.doc key = none := by
  have hne : key ≠ ⟨kindPreferences, sidebarPinsStateId⟩ := by
    rintro rfl
    exact absurd h (by decide)
  have hready : ready = (Clocked.mk (RegistryDoc.new "a") fun _ => 5).nextHlc.1.enqueue
      (upsertOp ⟨kindPreferences, sidebarPinsStateId⟩ {("initialized", .bool true)}
        (Clocked.mk (RegistryDoc.new "a") fun _ => 5).stamp) := by
    rw [ready, Clocked.initializeSidebarPins, if_neg (by decide +kernel), write_eq]
  have hkey : (upsertOp ⟨kindPreferences, sidebarPinsStateId⟩ {("initialized", .bool true)}
      (Clocked.mk (RegistryDoc.new "a") fun _ => 5).stamp).key =
        ⟨kindPreferences, sidebarPinsStateId⟩ := rfl
  rw [hready, held_enqueue_of_ne (by rw [hkey]; exact hne)]
  show ((∅ : Table)[key]?) = none
  simp

theorem ready_row {key : RowKey} (h : key.kind ∈ sidebarKinds) :
    ready.doc.overlayRow key = none := by
  rw [overlayRow_eq, held_ready h]
  rfl

theorem asWritten_ready : AsWritten ready where
  keyed := keyed_initialized fun key r hr => by simp [RegistryDoc.row, RegistryDoc.new] at hr
  kept key hkey r hr := by
    rw [held_ready hkey] at hr
    cases hr
  counter := by decide +kernel
  clock := by decide +kernel
  now _ := by
    have hnow : ∀ n, ready.now n = 5 := by
      intro n
      rw [ready, Clocked.initializeSidebarPins, if_neg (by decide +kernel)]
      rfl
    rw [hnow]
    decide +kernel
  dated key hkey c hc := by
    obtain ⟨r, hr, -⟩ := hc
    rw [held_ready hkey] at hr
    cases hr
  proper s hs := by
    rw [listedSection, overlayReg_of_none (ready_row sections_mem),
      overlayReg_of_none (ready_row sections_mem)] at hs
    cases hs
  named s hs := by
    rw [liveSidebarSection, ready_row sections_mem] at hs
    cases hs

end Zeron.Sidebar
