import Zeron.Registry.Parity
import Zeron.Sidebar.Reads

/-!
# The sidebar on the phone

The phone's pins (`apps/ios/Zeron/Sync/RegistryCore.swift`). It has no sections and reads a pin's
own flag; its replica is the desktop's, merged by `Swift.applyOp`.

* `Phone.overlayRow`, **`phone_overlayRow`**: the overlay, which is the desktop's;
* `Phone.orderedSidebarPins`, `Phone.changeSidebarPin`: the source;
* `flagKey`, **`mem_phone_pins`**: who is pinned on a phone, under which key;
* **`phone_pins_eq_iff`**: on the same rows, phone and desktop agree iff flags and places do.
-/

namespace Zeron.Sidebar

open Registry Lww
open Std (ExtTreeMap)

namespace Phone

variable (order : DictOrder)

/-- `overlayRow`. -/
def overlayRow (doc : RegistryDoc) (key : RowKey) : Option RegistryRow :=
  ((doc.pending.flatMap (·.ops)).foldl (fun row op =>
    if op.key = key then (Swift.applyOp order row op).1.or row else row) (doc.row key)).filter
      (!·.deleted)

/-- `overlayRows`. The dictionary's ids are taken in key order, which the sort below settles. -/
def overlayRows (doc : RegistryDoc) (kind : String) : List RegistryRow :=
  (overlayIds doc kind).filterMap fun id => overlayRow order doc ⟨kind, id⟩

/-- `sidebarPinsInitialized`. -/
def sidebarPinsInitialized (doc : RegistryDoc) : Bool :=
  (overlayRow order doc ⟨kindPreferences, sidebarPinsStateId⟩).isSome

/-- `orderedSidebarPins`. -/
def orderedSidebarPins (doc : RegistryDoc) : List (String × String) :=
  ((overlayRows order doc kindSidebarPins).filterMap fun row =>
    if row.fields["pinned"]?.bind Json.asBool = some true then
      (row.fields["orderKey"]?.bind Json.asStr).bind fun key =>
        if validPinOrderKey key then some (row.id, key) else none
    else none).insertionSort pinLe

/-- `PinOrder.between`, over the desktop's loop. -/
def between (lower upper : Option String) (nonce : String) : Option String :=
  if lower.all validPinOrderKey && upper.all validPinOrderKey &&
      (lower.all fun a => upper.all fun b => decide (a < b)) && nonce.toList ≠ [] &&
      nonce.toList.length ≤ nonceBytes &&
      nonce.toList.all (fun c => 0 < c.toNat && c.toNat < 128) then
    ((allocate nonce.toList maxPinOrderKeyBytes ((lower.map String.toList).getD [])
      (upper.map String.toList)).filter (·.length ≤ maxPinOrderKeyBytes)).map String.ofList
  else none

/-- `split(separator: "-", maxSplits: 2)` into three parts, the first two as numbers. Empty parts
are left out. -/
def hlcParts (clock : Hlc) : Option (ℕ × ℕ) :=
  let first := clock.toList.dropWhile (· = '-')
  let second := (first.dropWhile (· ≠ '-')).dropWhile (· = '-')
  if (second.dropWhile (· ≠ '-')).tail = [] then none
  else do
    let ms ← parseUpTo (2 ^ 63 - 1) (first.takeWhile (· ≠ '-'))
    let counter ← parseUpTo (2 ^ 32 - 1) (second.takeWhile (· ≠ '-'))
    some (ms, counter)

/-- `clocks.values.max()`. -/
def maxFieldClock (row : RegistryRow) : Option Hlc :=
  row.clocks.foldl (fun m _ clock => if hlcNewer clock m then some clock else m) none

/-- The clock moved up to a pin's newest field. -/
def observe (t : Clocked) (id : String) : Clocked :=
  match ((overlayRow order t.doc ⟨kindSidebarPins, id⟩).bind maxFieldClock).bind hlcParts with
  | none => t
  | some (ms, counter) =>
    if t.doc.clock.lastMs < ms ∨ t.doc.clock.lastMs = ms ∧ t.doc.clock.counter < counter then
      { t with doc := { t.doc with clock := { lastMs := ms, counter := counter } } }
    else t

/-- `initializeSidebarPins`. -/
def initializeSidebarPins (t : Clocked) : Clocked :=
  if sidebarPinsInitialized order t.doc then t
  else t.write kindPreferences sidebarPinsStateId {("initialized", .bool true)}

/-- The fields of a placed pin. -/
def placeFields (key : String) (pinned : Option Bool) : SMap Json :=
  if pinned = some true then insert ("pinned", .bool true) {("orderKey", .str key)}
  else {("orderKey", .str key)}

/-- `changeSidebarPin`. A move (`pinned: nil`) never writes membership. -/
def changeSidebarPin (t : Clocked) (id : String) (pinned : Option Bool)
    (after before : Option String) : Clocked × Bool :=
  if !sidebarPinsInitialized order t.doc || id = "" then (t, false)
  else
    let t := observe order t id
    let current := orderedSidebarPins order t.doc
    if pinned = some false then
      (t.write kindSidebarPins id {("pinned", .bool false)}, true)
    else if pinned.isNone ∧ !current.any (·.1 = id) then (t, false)
    else if !current.any (·.1 = id) ∧ 200 ≤ current.length then (t, false)
    else
      let others := current.filter (·.1 ≠ id)
      let index := placeIndex (others.map (·.1)) after before
      let (t, hlc) := t.nextHlc
      match between (if 0 < index then others[index - 1]?.map (·.2) else none)
          (others[index]?.map (·.2)) hlc with
      | none => (t, false)
      | some key =>
        (t.enqueue { kind := kindSidebarPins, id, op := .upsert
                     set := some (placeFields key pinned), hlc, clocks := none }, true)

end Phone

section Pins

variable (order : DictOrder) {doc : RegistryDoc}

/-- **The phone shows the rows the desktop shows.** -/
@[simp] theorem phone_overlayRow (key : RowKey) :
    Phone.overlayRow order doc key = doc.overlayRow key := by
  rw [Phone.overlayRow, swift_applyOp]
  rfl

@[simp] theorem phone_overlayRows (kind : String) :
    Phone.overlayRows order doc kind = overlayRows doc kind := by
  simp only [Phone.overlayRows, overlayRows, phone_overlayRow]

/-- The valid order key of a session's pin. -/
def orderKey (doc : RegistryDoc) (id : String) : Option String :=
  ((overlayReg doc ⟨kindSidebarPins, id⟩ "orderKey").value.bind Json.asStr).filter validPinOrderKey

/-- The flag of a session's pin. -/
def flagged (doc : RegistryDoc) (id : String) : Bool :=
  (overlayReg doc ⟨kindSidebarPins, id⟩ "pinned").value.bind Json.asBool = some true

theorem pinKey_eq (doc : RegistryDoc) (id : String) :
    pinKey doc id = if placement doc id = "pinned" then orderKey doc id else none := rfl

/-- **Who is pinned on a phone, and under which key.** -/
theorem mem_phone_pins (hk : doc.Keyed) {id key : String} :
    (id, key) ∈ Phone.orderedSidebarPins order doc ↔
      (if flagged doc id then orderKey doc id else none) = some key := by
  unfold Phone.orderedSidebarPins
  rw [List.mem_insertionSort, List.mem_filterMap, phone_overlayRows]
  constructor
  · rintro ⟨r, hr, h⟩
    rw [mem_overlayRows_iff hk] at hr
    split_ifs at h with hflag
    obtain ⟨k, hkey, h⟩ := Option.bind_eq_some_iff.mp h
    split_ifs at h with hvalid
    cases h
    have hflagged : flagged doc r.id = true := by
      rw [flagged, overlayReg_of_some hr, decide_eq_true_iff]
      exact hflag
    rw [if_pos hflagged, orderKey, overlayReg_of_some hr, Option.filter_eq_some_iff]
    exact ⟨hkey, hvalid⟩
  · intro h
    split_ifs at h with hflag
    obtain ⟨hkey, hvalid⟩ := Option.filter_eq_some_iff.mp h
    cases hr : doc.overlayRow ⟨kindSidebarPins, id⟩ with
    | none =>
      rw [overlayReg_of_none hr] at hkey
      cases hkey
    | some r =>
      rw [overlayReg_of_some hr] at hkey
      have hid := id_overlayRow hk hr
      refine ⟨r, mem_overlayRows.mpr ⟨id, hr⟩, ?_⟩
      rw [flagged, overlayReg_of_some hr, decide_eq_true_iff] at hflag
      have hflag : r.fields["pinned"]?.bind Json.asBool = some true := hflag
      rw [if_pos hflag]
      refine Option.bind_eq_some_iff.mpr ⟨key, hkey, ?_⟩
      rw [if_pos hvalid, hid]

theorem pairwise_phone_pins : (Phone.orderedSidebarPins order doc).Pairwise pinLe :=
  List.pairwise_insertionSort pinLe _

theorem nodup_phone_pins (hk : doc.Keyed) :
    ((Phone.orderedSidebarPins order doc).map (·.1)).Nodup := by
  unfold Phone.orderedSidebarPins
  rw [((List.perm_insertionSort _ _).map _).nodup_iff, phone_overlayRows]
  refine (map_fst_filterMap _ _ fun r p h => ?_).nodup (nodup_overlayRows hk)
  split_ifs at h
  obtain ⟨k, -, h⟩ := Option.bind_eq_some_iff.mp h
  split_ifs at h
  cases h
  rfl

/-- **On the same rows the lists agree iff every key's flag agrees with its place.** -/
theorem phone_pins_eq_iff (hk : doc.Keyed) :
    Phone.orderedSidebarPins order doc = orderedSidebarPins doc ↔
      ∀ id, (orderKey doc id).isSome = true →
        (flagged doc id = true ↔ placement doc id = "pinned") := by
  constructor
  · intro h id hsome
    obtain ⟨key, hkey⟩ := Option.isSome_iff_exists.mp hsome
    have hmem : (id, key) ∈ Phone.orderedSidebarPins order doc ↔
        (id, key) ∈ orderedSidebarPins doc := by
      rw [h]
    rw [mem_phone_pins order hk, mem_orderedSidebarPins hk, pinKey_eq, hkey] at hmem
    by_cases hf : flagged doc id = true <;> by_cases hp : placement doc id = "pinned" <;>
      simp [hf, hp] at hmem ⊢
  · intro h
    have hnodup : ∀ {l : List (String × String)}, (l.map (·.1)).Nodup → l.Nodup :=
      fun hn => List.Nodup.of_map _ hn
    refine Sorted.eq_of_mem_iff (pairwise_phone_pins order) pairwise_orderedSidebarPins
      (hnodup (nodup_phone_pins order hk)) (hnodup (nodup_orderedSidebarPins hk)) ?_
    rintro ⟨id, key⟩
    rw [mem_phone_pins order hk, mem_orderedSidebarPins hk, pinKey_eq]
    cases hkey : orderKey doc id with
    | none => simp
    | some k =>
      have hiff := h id (by rw [hkey]; rfl)
      by_cases hf : flagged doc id = true
      · rw [if_pos hf, if_pos (hiff.mp hf)]
      · rw [if_neg hf, if_neg fun hp => hf (hiff.mpr hp)]

end Pins

end Zeron.Sidebar
