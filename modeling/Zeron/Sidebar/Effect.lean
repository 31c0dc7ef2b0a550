import Zeron.Sidebar.Write

/-!
# What a change does to places, pins and sections

Each branch of `changeSidebarPin` on an orderly replica, by what is shown afterwards.

* `Moved`: one session has a new place and key, all else is shown as before;
* **`moved_pin`, `moved_move`, `moved_unpin`, `moved_assign`**: the changes of one session;
* `Resectioned`: one section's row has changed, no session has moved;
* **`resectioned_create`, `resectioned_edit`, `resectioned_delete`**: the changes of one section.
-/

namespace Zeron.Sidebar

open Registry Lww
open Std (ExtTreeMap)

/-! ## Field sets -/

theorem getElem?_singleton_field (a f : String) (v : Json) :
    ({(a, v)} : SMap Json)[f]? = if a = f then some v else none := by
  show ((∅ : SMap Json).insert a v)[f]? = _
  rw [ExtTreeMap.getElem?_insert]
  by_cases h : a = f
  · subst h
    simp
  · simp [h]

theorem getElem?_insert_field (a f : String) (v : Json) (set : SMap Json) :
    (insert (a, v) set)[f]? = if a = f then some v else set[f]? := by
  show (set.insert a v)[f]? = _
  rw [ExtTreeMap.getElem?_insert]
  by_cases h : a = f
  · subst h
    simp
  · simp [h]

theorem pins_mem : kindSidebarPins ∈ sidebarKinds := by decide

theorem locations_mem : kindLocations ∈ sidebarKinds := by decide

theorem sections_mem : kindSections ∈ sidebarKinds := by decide

theorem key_ne {kind kind' : String} (h : kind ≠ kind') (id id' : String) :
    (⟨kind, id⟩ : RowKey) ≠ ⟨kind', id'⟩ := fun he => h (congrArg RowKey.kind he)

theorem key_ne_id (kind : String) {id id' : String} (h : id ≠ id') :
    (⟨kind, id⟩ : RowKey) ≠ ⟨kind, id'⟩ := fun he => h (congrArg RowKey.id he)

theorem locations_ne_pins : kindLocations ≠ kindSidebarPins := by decide

theorem sections_ne : kindSections ≠ kindLocations ∧ kindSections ≠ kindSidebarPins := by decide

theorem preferences_ne : kindPreferences ∉ sidebarKinds := by decide

/-! ## Locations -/

/-- A location written under a clock above all past ones. -/
structure LocationWritten (t t' : Clocked) (id location : String) : Prop where
  stamp : ∃ s : Hlc, (∀ c, Past t.doc.clock c → c < s) ∧ Past t'.doc.clock s ∧
    overlayReg t'.doc ⟨kindLocations, id⟩ "location" = ⟨s, some (.str location)⟩
  other : ∀ key, key ≠ ⟨kindLocations, id⟩ → t'.doc.overlayRow key = t.doc.overlayRow key

section Location

variable {t : Clocked} {k : ℕ}

theorem orderly_observeSession (h : Orderly k t) (id : String) : Orderly k (t.observeSession id) :=
  orderly_observe (orderly_observe h locations_mem) pins_mem

theorem overlayRow_observeSession (t : Clocked) (id : String) (key : RowKey) :
    (t.observeSession id).doc.overlayRow key = t.doc.overlayRow key := rfl

theorem seen_observeSession (h : Orderly k t) (id : String) :
    Seen (t.observeSession id) ⟨kindLocations, id⟩ ∧
      Seen (t.observeSession id) ⟨kindSidebarPins, id⟩ :=
  ⟨seen_of_observe (orderly_observe h locations_mem) pins_mem (seen_observe h locations_mem),
    seen_observe (orderly_observe h locations_mem) pins_mem⟩

theorem count_observeSession (h : Orderly k t) (id : String) :
    t.doc.clock.count ≤ (t.observeSession id).doc.clock.count :=
  (clock_observe h locations_mem).2.1.trans
    (clock_observe (orderly_observe h locations_mem) pins_mem).2.1

theorem writeSidebarLocation_eq (t : Clocked) (id location : String) :
    t.writeSidebarLocation id location =
      (t.observeSession id).write kindLocations id {("location", .str location)} := rfl

theorem orderly_writeSidebarLocation (h : Orderly (k + 2) t) (id location : String) :
    Orderly k (t.writeSidebarLocation id location) := by
  rw [writeSidebarLocation_eq]
  exact orderly_write (orderly_observeSession h id)

theorem past_write (h : Orderly (k + 1) t) (kind id : String) (set : SMap Json) :
    Past (t.write kind id set).doc.clock t.stamp := by
  refine (past_stamp h).mono ?_
  rw [write_eq, clock_enqueue]
  exact (count_nextHlc (orderly_nextHlc h).counter).2.1.le

/-- **`write_sidebar_location` lands.** -/
theorem locationWritten (h : Orderly (k + 1) t) (id location : String) :
    LocationWritten t (t.writeSidebarLocation id location) id location := by
  have ho := orderly_observeSession h id
  refine ⟨⟨(t.observeSession id).stamp, fun c hc => ?_, ?_, ?_⟩, fun key hkey => ?_⟩
  · exact past_lt_stamp ho (hc.mono (count_observeSession h id))
  · rw [writeSidebarLocation_eq]
    exact past_write ho _ _ _
  · rw [writeSidebarLocation_eq,
      overlayReg_write ho locations_mem (seen_observeSession h id).1 "location",
      getElem?_singleton_field, if_pos rfl]
    rfl
  · rw [writeSidebarLocation_eq, overlayRow_write_of_ne hkey, overlayRow_observeSession]

end Location

/-! ## One session -/

/-- What is shown after a change of one session. -/
structure Moved (doc doc' : RegistryDoc) (id place : String) (key : Option String) : Prop where
  place : placement doc' id = place
  key : pinKey doc' id = key
  others : ∀ y, y ≠ id → placement doc' y = placement doc y ∧ pinKey doc' y = pinKey doc y
  /-- The rows of the sections are shown as before, but for a flag. -/
  sections : ∀ s f, f ≠ "collapsed" →
    overlayReg doc' ⟨kindSections, s⟩ f = overlayReg doc ⟨kindSections, s⟩ f
  initialized : sidebarPinsInitialized doc' = sidebarPinsInitialized doc

theorem place_congr {doc doc' : RegistryDoc} {y : String}
    (hloc : doc'.overlayRow ⟨kindLocations, y⟩ = doc.overlayRow ⟨kindLocations, y⟩)
    (hpin : doc'.overlayRow ⟨kindSidebarPins, y⟩ = doc.overlayRow ⟨kindSidebarPins, y⟩) :
    placement doc' y = placement doc y ∧ pinKey doc' y = pinKey doc y := by
  have hplace : placement doc' y = placement doc y := by
    rw [placement_eq, placement_eq, overlayReg, overlayReg, hloc, hpin]
    rfl
  refine ⟨hplace, ?_⟩
  rw [pinKey, pinKey, hplace, overlayReg, hpin]
  rfl

theorem moved_of_rows {doc doc' : RegistryDoc} {id place : String} {key : Option String}
    (hplace : placement doc' id = place) (hkey : pinKey doc' id = key)
    (hrows : ∀ k : RowKey, k ≠ ⟨kindLocations, id⟩ → k ≠ ⟨kindSidebarPins, id⟩ →
      k.kind ≠ kindSections → doc'.overlayRow k = doc.overlayRow k)
    (hsections : ∀ s f, f ≠ "collapsed" →
      overlayReg doc' ⟨kindSections, s⟩ f = overlayReg doc ⟨kindSections, s⟩ f) :
    Moved doc doc' id place key := by
  refine ⟨hplace, hkey, fun y hy => place_congr ?_ ?_, hsections, ?_⟩
  · exact hrows _ (key_ne_id _ hy) (key_ne locations_ne_pins _ _) sections_ne.1.symm
  · exact hrows _ (key_ne locations_ne_pins.symm _ _) (key_ne_id _ hy) sections_ne.2.symm
  · have hprefs : ∀ kind ∈ sidebarKinds, kindPreferences ≠ kind :=
      fun kind hkind he => preferences_ne (he ▸ hkind)
    rw [sidebarPinsInitialized, sidebarPinsInitialized,
      hrows _ (key_ne (hprefs _ locations_mem) _ _) (key_ne (hprefs _ pins_mem) _ _)
        (hprefs _ sections_mem)]

theorem locationOf_of_le {s : Hlc} {location : String} {pinned : Reg Hlc Json}
    (h : pinned.stamp ≤ s) : locationOf ⟨s, some (.str location)⟩ pinned = location := by
  rw [locationOf, if_pos ⟨WithBot.coe_ne_bot, h⟩]
  rfl

theorem locationOf_of_lt {location pinned : Reg Hlc Json} (h : location.stamp < pinned.stamp)
    (hflag : pinned.value = some (.bool false)) : locationOf location pinned = "" := by
  rw [locationOf, if_neg fun hc => absurd hc.2 (not_le.mpr h), if_neg]
  rw [hflag]
  decide

section Session

variable {t : Clocked} {k : ℕ}

/-- The fields of a pin's op. -/
def pinFields (key : String) (pinned : Bool) : SMap Json :=
  if pinned then insert ("pinned", Json.bool true) {("orderKey", .str key)}
  else {("orderKey", .str key)}

theorem getElem?_pinFields (key : String) (pinned : Bool) :
    (pinFields key pinned)["orderKey"]? = some (.str key) ∧
      (pinFields key pinned)["pinned"]? = if pinned then some (.bool true) else none := by
  cases pinned
  · exact ⟨by rw [pinFields, if_neg (by simp), getElem?_singleton_field, if_pos rfl],
      by rw [pinFields, if_neg (by simp), getElem?_singleton_field, if_neg (by decide)]; rfl⟩
  · refine ⟨?_, ?_⟩
    · rw [pinFields, if_pos rfl, getElem?_insert_field, if_neg (by decide),
        getElem?_singleton_field, if_pos rfl]
    · rw [pinFields, if_pos rfl, getElem?_insert_field, if_pos rfl]
      rfl

/-- The bounds of the new key: those of the neighbors in the new list. -/
def neighborKeys (pins : List (String × String)) (next : List String) (id : String) :
    Option String × Option String :=
  let keyFor := fun id => (pins.find? (·.1 = id)).map (·.2)
  (if next.idxOf id = 0 then none else next[next.idxOf id - 1]?.bind keyFor,
    next[next.idxOf id + 1]?.bind keyFor)

/-- What `placePin` leaves, where it is accepted. -/
def pinnedAt (t : Clocked) (id key : String) (pinned : Bool) : Clocked :=
  (if pinned then t.nextHlc.1.writeSidebarLocation id "pinned" else t.nextHlc.1).enqueue
    (upsertOp ⟨kindSidebarPins, id⟩ (pinFields key pinned) t.stamp)

/-- **The end of a pin or a move**, where it is accepted. -/
theorem placePin_ok {id : String} {next : List String} {pinned : Bool}
    (hok : (t.placePin id next pinned).2 = none) :
    ∃ key, validPinOrderKey key = true ∧
      Between (neighborKeys (orderedSidebarPins t.doc) next id).1
        (neighborKeys (orderedSidebarPins t.doc) next id).2 key ∧
      (t.placePin id next pinned).1 = pinnedAt t id key pinned := by
  unfold Clocked.placePin at hok ⊢
  dsimp only at hok ⊢
  split at hok
  · cases hok
  · rename_i key hkey
    obtain ⟨hvalid, hbetween⟩ := pinOrderKeyBetween_ok hkey
    refine ⟨key, hvalid, hbetween, ?_⟩
    cases pinned <;> rfl

theorem Wrote.overlayRow {doc doc' : RegistryDoc} {key : RowKey} {set : SMap Json} {hlc : Hlc}
    (h : Wrote doc doc' key set hlc) {key' : RowKey} (hne : key' ≠ key) :
    doc'.overlayRow key' = doc.overlayRow key' := by
  rw [overlayRow_eq, overlayRow_eq, h.other key' hne]

theorem overlayReg_congr {doc doc' : RegistryDoc} {key : RowKey}
    (h : doc'.overlayRow key = doc.overlayRow key) (f : String) :
    overlayReg doc' key f = overlayReg doc key f := by
  rw [overlayReg, overlayReg, h]

theorem seen_writeSidebarLocation (h : Orderly (k + 1) t) (id location : String) {key : RowKey}
    (hs : Seen t key) : Seen (t.writeSidebarLocation id location) key := by
  rw [writeSidebarLocation_eq]
  refine seen_write (orderly_observeSession h id) locations_mem ?_
  exact seen_of_observe (orderly_observe h locations_mem) pins_mem
    (seen_of_observe h locations_mem hs)

theorem pinKey_of_pinned {doc : RegistryDoc} {id key : String} {stamp : WithBot Hlc}
    (hplace : placement doc id = "pinned") (hvalid : validPinOrderKey key = true)
    (hreg : overlayReg doc ⟨kindSidebarPins, id⟩ "orderKey" = ⟨stamp, some (.str key)⟩) :
    pinKey doc id = some key := by
  rw [pinKey, if_pos hplace, hreg]
  exact Option.filter_some_pos hvalid

theorem pinKey_of_ne {doc : RegistryDoc} {id : String} (h : placement doc id ≠ "pinned") :
    pinKey doc id = none := by
  rw [pinKey, if_neg h]

/-- **A pin places the session among the pinned.** -/
theorem moved_pin (h : Orderly (k + 5) t) {id key : String}
    (hseen : Seen t ⟨kindSidebarPins, id⟩) (hvalid : validPinOrderKey key = true) :
    Moved t.doc (pinnedAt t id key true).doc id "pinned" (some key) := by
  have hnext : Orderly (k + 4) t.nextHlc.1 := orderly_nextHlc h
  obtain ⟨⟨s, habove, -, hloc⟩, hother⟩ := locationWritten hnext id "pinned"
  have hwrote : Wrote _ _ ⟨kindSidebarPins, id⟩ (pinFields key true) t.stamp :=
    wrote_enqueue (orderly_writeSidebarLocation (k := k + 2) hnext id "pinned") pins_mem
  have hland : ∀ f v, (pinFields key true)[f]? = some v →
      overlayReg (pinnedAt t id key true).doc ⟨kindSidebarPins, id⟩ f =
        ⟨t.stamp, v.nonNull⟩ := by
    intro f v hv
    have hreg := hwrote.reg f
    rw [hv] at hreg
    refine hreg.trans (Reg.write_of_lt ?_)
    rw [overlayReg_congr (hother _ (key_ne locations_ne_pins.symm _ _))]
    exact stamp_lt h pins_mem hseen f
  have hrow : overlayReg (pinnedAt t id key true).doc ⟨kindLocations, id⟩ "location" =
      ⟨s, some (.str "pinned")⟩ := by
    rw [← hloc]
    exact overlayReg_congr (hwrote.overlayRow (key_ne locations_ne_pins _ _)) "location"
  have hplace : placement (pinnedAt t id key true).doc id = "pinned" := by
    rw [placement_eq, hrow, hland "pinned" (.bool true) (getElem?_pinFields key true).2]
    exact locationOf_of_le (WithBot.coe_le_coe.mpr (habove _ (past_stamp h)).le)
  refine moved_of_rows hplace (pinKey_of_pinned hplace hvalid
    (hland "orderKey" (.str key) (getElem?_pinFields key true).1)) ?_ ?_
  · intro k' hloc hpin _
    exact (hwrote.overlayRow hpin).trans (hother k' hloc)
  · intro s f _
    exact overlayReg_congr ((hwrote.overlayRow (key_ne sections_ne.2 _ _)).trans
      (hother _ (key_ne sections_ne.1 _ _))) f

/-- **A move changes the key of a pinned session only.** -/
theorem moved_move (h : Orderly (k + 2) t) {id key : String}
    (hseen : Seen t ⟨kindSidebarPins, id⟩) (hvalid : validPinOrderKey key = true)
    (hpinned : placement t.doc id = "pinned") :
    Moved t.doc (pinnedAt t id key false).doc id "pinned" (some key) := by
  have hnext : Orderly (k + 1) t.nextHlc.1 := orderly_nextHlc h
  have hwrote : Wrote _ _ ⟨kindSidebarPins, id⟩ (pinFields key false) t.stamp :=
    wrote_enqueue hnext pins_mem
  have hkey : overlayReg (pinnedAt t id key false).doc ⟨kindSidebarPins, id⟩ "orderKey" =
      ⟨t.stamp, some (.str key)⟩ := by
    have hreg := hwrote.reg "orderKey"
    rw [(getElem?_pinFields key false).1] at hreg
    exact hreg.trans (Reg.write_of_lt (stamp_lt h pins_mem hseen "orderKey"))
  have hflag : overlayReg (pinnedAt t id key false).doc ⟨kindSidebarPins, id⟩ "pinned" =
      overlayReg t.doc ⟨kindSidebarPins, id⟩ "pinned" := by
    have hreg := hwrote.reg "pinned"
    rw [(getElem?_pinFields key false).2] at hreg
    exact hreg
  have hplace : placement (pinnedAt t id key false).doc id = "pinned" := by
    have hlocation : overlayReg (pinnedAt t id key false).doc ⟨kindLocations, id⟩ "location" =
        overlayReg t.doc ⟨kindLocations, id⟩ "location" :=
      overlayReg_congr (hwrote.overlayRow (key_ne locations_ne_pins _ _)) "location"
    rw [placement_eq, hflag, hlocation]
    rw [placement_eq] at hpinned
    exact hpinned
  refine moved_of_rows hplace (pinKey_of_pinned hplace hvalid hkey) ?_ ?_
  · exact fun k' _ hpin _ => hwrote.overlayRow hpin
  · exact fun s f _ => overlayReg_congr (hwrote.overlayRow (key_ne sections_ne.2 _ _)) f

/-- **An unpin leaves the session nowhere**, whether or not its location is written. -/
theorem moved_unpin (h : Orderly (k + 4) t) {id : String}
    (hloc : Seen t ⟨kindLocations, id⟩) (hpin : Seen t ⟨kindSidebarPins, id⟩) (listed : Bool) :
    Moved t.doc ((if listed then t.writeSidebarLocation id "" else t).write kindSidebarPins id
      {("pinned", .bool false)}).doc id "" none := by
  have key : ∀ t' : Clocked, Orderly (k + 2) t' → Seen t' ⟨kindLocations, id⟩ →
      Seen t' ⟨kindSidebarPins, id⟩ →
      (∀ k' : RowKey, k' ≠ ⟨kindLocations, id⟩ → t'.doc.overlayRow k' = t.doc.overlayRow k') →
      Moved t.doc (t'.write kindSidebarPins id {("pinned", .bool false)}).doc id "" none := by
    intro t' h' hloc' hpin' hother
    have hflag : overlayReg (t'.write kindSidebarPins id {("pinned", .bool false)}).doc
        ⟨kindSidebarPins, id⟩ "pinned" = ⟨t'.stamp, some (.bool false)⟩ := by
      rw [overlayReg_write h' pins_mem hpin', getElem?_singleton_field, if_pos rfl]
      rfl
    have hplace :
        placement (t'.write kindSidebarPins id {("pinned", .bool false)}).doc id = "" := by
      rw [placement_eq, hflag, overlayReg_write_of_ne (key_ne locations_ne_pins _ _)]
      exact locationOf_of_lt (stamp_lt h' locations_mem hloc' "location") rfl
    refine moved_of_rows hplace (pinKey_of_ne (by rw [hplace]; decide)) ?_ ?_
    · intro k' hk hk' _
      rw [overlayRow_write_of_ne hk', hother k' hk]
    · intro s f _
      rw [overlayReg_write_of_ne (key_ne sections_ne.2 _ _)]
      exact overlayReg_congr (hother _ (key_ne sections_ne.1 _ _)) f
  cases listed with
  | false => exact key t (h.mono (by omega)) hloc hpin fun _ _ => rfl
  | true =>
    exact key _ (orderly_writeSidebarLocation h id "") (seen_writeSidebarLocation h id "" hloc)
      (seen_writeSidebarLocation h id "" hpin) (locationWritten h id "").other

end Session

/-! ## One section -/

section Edit

variable {t : Clocked} {k : ℕ} {id : String} {set : SMap Json}

theorem overlayRow_editSection (t : Clocked) (id : String) (set : SMap Json) {key : RowKey}
    (h : key ≠ ⟨kindSections, id⟩) :
    (t.editSection id set).doc.overlayRow key = t.doc.overlayRow key := by
  unfold Clocked.editSection
  split_ifs with hlive
  · rw [overlayRow_write_of_ne h, overlayRow_observe]
  · rfl

/-- **An edit of a live section lands.** -/
theorem overlayReg_editSection (h : Orderly (k + 1) t) (f : String) :
    overlayReg (t.editSection id set).doc ⟨kindSections, id⟩ f =
      match if liveSidebarSection t.doc id then set[f]? else none with
      | none => overlayReg t.doc ⟨kindSections, id⟩ f
      | some v => ⟨(t.observe kindSections id).stamp, v.nonNull⟩ := by
  unfold Clocked.editSection
  split_ifs with hlive
  · exact overlayReg_write (orderly_observe h sections_mem) sections_mem
      (seen_observe h sections_mem) f
  · rfl

theorem overlayReg_collapse (h : Orderly (k + 1) t) (collapsed : Bool) {f : String}
    (hf : f ≠ "collapsed") (s : String) :
    overlayReg (t.collapseSection id collapsed).doc ⟨kindSections, s⟩ f =
      overlayReg t.doc ⟨kindSections, s⟩ f := by
  by_cases hs : s = id
  · subst hs
    rw [Clocked.collapseSection, overlayReg_editSection h, getElem?_singleton_field,
      if_neg hf.symm, ite_self]
  · exact overlayReg_congr (overlayRow_editSection t id _ (key_ne_id _ hs)) f

/-- **A deletion lands.** -/
theorem overlayReg_deleteSection (h : Orderly (k + 1) t) :
    (overlayReg (t.deleteSection id).doc ⟨kindSections, id⟩ "deleted").value =
      some (.bool true) := by
  rw [Clocked.deleteSection, overlayReg_write (orderly_observe h sections_mem) sections_mem
    (seen_observe h sections_mem), getElem?_singleton_field, if_pos rfl]
  rfl

theorem overlayRow_deleteSection (t : Clocked) (id : String) {key : RowKey}
    (h : key ≠ ⟨kindSections, id⟩) :
    (t.deleteSection id).doc.overlayRow key = t.doc.overlayRow key := by
  rw [Clocked.deleteSection, overlayRow_write_of_ne h, overlayRow_observe]

theorem overlayRow_createSection (t : Clocked) (id name : String) {key : RowKey}
    (h : key ≠ ⟨kindSections, id⟩) :
    (t.createSection id name).doc.overlayRow key = t.doc.overlayRow key := by
  unfold Clocked.createSection
  split_ifs
  · exact overlayRow_write_of_ne h
  · rfl

/-- **A new section has its name, and the clock the replica minted for it.** -/
theorem overlayReg_createSection (h : Orderly (k + 2) t) {name : String}
    (hnone : t.doc.overlayRow ⟨kindSections, id⟩ = none) :
    listedSection (t.createSection id name).doc id = true ∧
      sectionCreated (t.createSection id name).doc id = some t.stamp := by
  have hnext : Orderly (k + 1) t.nextHlc.1 := orderly_nextHlc h
  have hseen : Seen t.nextHlc.1 ⟨kindSections, id⟩ := by
    rintro c ⟨r, hr, -⟩
    rw [held_nextHlc, ← h.overlayRow sections_mem, hnone] at hr
    cases hr
  have hreg : ∀ f, overlayReg (t.createSection id name).doc ⟨kindSections, id⟩ f =
      match ({("name", .str name), ("collapsed", .bool false), ("deleted", .bool false),
        ("createdAt", .str t.stamp)} : SMap Json)[f]? with
      | none => overlayReg t.doc ⟨kindSections, id⟩ f
      | some v => ⟨t.nextHlc.1.stamp, v.nonNull⟩ := by
    intro f
    rw [Clocked.createSection, if_pos (Option.isNone_iff_eq_none.mpr hnone)]
    exact overlayReg_write hnext sections_mem hseen f
  simp only [listedSection, sectionCreated, hreg, getElem?_insert_field, getElem?_singleton_field]
  exact ⟨rfl, rfl⟩

end Edit

/-! ## Assignments -/

theorem Moved.edit {doc doc' doc'' : RegistryDoc} {id place : String} {key : Option String}
    (h : Moved doc doc' id place key)
    (hrows : ∀ k : RowKey, k.kind ≠ kindSections → doc''.overlayRow k = doc'.overlayRow k)
    (hsections : ∀ s f, f ≠ "collapsed" →
      overlayReg doc'' ⟨kindSections, s⟩ f = overlayReg doc' ⟨kindSections, s⟩ f) :
    Moved doc doc'' id place key := by
  have hsame : ∀ y, placement doc'' y = placement doc' y ∧ pinKey doc'' y = pinKey doc' y :=
    fun y => place_congr (hrows _ sections_ne.1.symm) (hrows _ sections_ne.2.symm)
  refine ⟨(hsame id).1.trans h.place, (hsame id).2.trans h.key, fun y hy => ?_,
    fun s f hf => ?_, ?_⟩
  · rw [(hsame y).1, (hsame y).2]
    exact h.others y hy
  · rw [hsections s f hf, h.sections s f hf]
  · rw [← h.initialized, sidebarPinsInitialized, sidebarPinsInitialized,
      hrows ⟨kindPreferences, sidebarPinsStateId⟩ (by decide)]

section Assign

variable {t : Clocked} {k : ℕ}

/-- The two registers of an assignment. -/
def assignedAt (t : Clocked) (id place : String) : Clocked :=
  ((t.observe kindSidebarPins id).write kindSidebarPins id
    {("pinned", .bool false)}).writeSidebarLocation id place

theorem moved_assignedAt (h : Orderly (k + 4) t) {id place : String} (hplace : place ≠ "pinned") :
    Moved t.doc (assignedAt t id place).doc id place none := by
  have hobs : Orderly (k + 4) (t.observe kindSidebarPins id) := orderly_observe h pins_mem
  have hflag : Orderly (k + 2) ((t.observe kindSidebarPins id).write kindSidebarPins id
      {("pinned", .bool false)}) := orderly_write hobs
  obtain ⟨⟨s, habove, -, hloc⟩, hother⟩ := locationWritten hflag id place
  have hpinned : overlayReg (assignedAt t id place).doc ⟨kindSidebarPins, id⟩ "pinned" =
      ⟨(t.observe kindSidebarPins id).stamp, some (.bool false)⟩ := by
    rw [assignedAt, overlayReg_congr (hother _ (key_ne locations_ne_pins.symm _ _)),
      overlayReg_write hobs pins_mem (seen_observe h pins_mem), getElem?_singleton_field,
      if_pos rfl]
    rfl
  have hshown : placement (assignedAt t id place).doc id = place := by
    have hloc : overlayReg (assignedAt t id place).doc ⟨kindLocations, id⟩ "location" =
        ⟨s, some (.str place)⟩ := hloc
    rw [placement_eq, hpinned, hloc]
    exact locationOf_of_le (WithBot.coe_le_coe.mpr (habove _ (past_write hobs _ _ _)).le)
  refine moved_of_rows hshown (pinKey_of_ne (by rw [hshown]; exact hplace)) ?_ ?_
  · intro k' hk hk' _
    rw [assignedAt, hother k' hk, overlayRow_write_of_ne hk', overlayRow_observe]
  · intro s f _
    rw [assignedAt, overlayReg_congr (hother _ (key_ne sections_ne.1 _ _)),
      overlayReg_write_of_ne (key_ne sections_ne.2 _ _)]
    rfl

theorem initialize_of_initialized (h : sidebarPinsInitialized t.doc = true) :
    t.initializeSidebarPins = t := by
  rw [Clocked.initializeSidebarPins, if_pos h]

/-- **An assignment puts the session in the section**, or nowhere. -/
theorem moved_assign (h : Orderly (k + 5) t) (hinit : sidebarPinsInitialized t.doc = true)
    {id : String} {sectionId : Option String} (hsection : sectionId ≠ some "pinned")
    (hok : (t.assignSession id sectionId).2 = none) :
    Moved t.doc (t.assignSession id sectionId).1.doc id (sectionId.getD "") none := by
  have hmoved :
      Moved t.doc (assignedAt t id (sectionId.getD "")).doc id (sectionId.getD "") none := by
    refine moved_assignedAt (k := k + 1) h ?_
    cases sectionId with
    | none => decide
    | some s => exact fun he => hsection (congrArg some he)
  have horder : Orderly (k + 1) (assignedAt t id (sectionId.getD "")) :=
    orderly_writeSidebarLocation (orderly_write (orderly_observe h pins_mem)) _ _
  unfold Clocked.assignSession at hok ⊢
  split_ifs at hok ⊢ with hdead hgone
  cases sectionId with
  | none => exact hmoved
  | some s =>
    have hready : sidebarPinsInitialized (assignedAt t id s).doc = true :=
      hmoved.initialized.trans hinit
    show Moved t.doc
      ((assignedAt t id s).initializeSidebarPins.collapseSection s false).doc id s none
    rw [initialize_of_initialized hready]
    refine hmoved.edit (fun k' hk' => ?_) fun s' f hf => overlayReg_collapse horder false hf s'
    exact overlayRow_editSection _ _ _ fun he => hk' (congrArg RowKey.kind he)

end Assign

end Zeron.Sidebar
