import Zeron.Lib.Json

/-!
# The queue of unsent messages

The `queue` container of a session document (`crates/doc/src/queue.rs`): a movable list whose
elements any peer may write. Reading goes over the deep values and normalises (`queued_from_json`
trims the id and skips what it cannot read); every edit finds its element again by the raw id.

* `QueueItem`, `queuedFromJson`, `indexOf` and the operations: the source, branch by branch;
* `Placed`: where `indexOf` finds an id; `place` computes every operation from it;
* `row_retype`, `row_write`: what an edited and a pushed element read back as.
-/

namespace Zeron.Session

open Std (ExtTreeMap)

/-! ## Texts -/

/-- `char::is_whitespace`: the code points with the property White_Space. -/
def isWhitespace (c : Char) : Bool :=
  let n := c.toNat
  (9 ≤ n && n ≤ 13) || n = 0x20 || n = 0x85 || n = 0xA0 || n = 0x1680 ||
    (0x2000 ≤ n && n ≤ 0x200A) || n = 0x2028 || n = 0x2029 || n = 0x202F || n = 0x205F ||
    n = 0x3000

/-- `str::trim`. -/
def trim (s : String) : String :=
  String.ofList ((s.toList.dropWhile isWhitespace).rdropWhile isWhitespace)

/-- `s.trim().is_empty()`. -/
def isBlank (s : String) : Bool := trim s = ""

/-! ## Rows -/

/-- Why a queued row is not currently eligible for delivery. -/
inductive QueueDeliveryGate where
  | editing (leaseId ownerDeviceId ownerInstanceId : String) (acquiredAtMs expiresAtMs : ℤ)
      (baseTextHash : String)
  | reviewRequired (previousLeaseId ownerDeviceId : String) (sinceMs : ℤ) (baseTextHash : String)
  deriving DecidableEq

/-- One unsent message waiting its turn. -/
structure QueuedMessage where
  id : String
  text : String
  attachments : List String
  holdForTurnEnd : Bool
  issuedBy : String
  issuedAt : ℤ
  editedAt : Option ℤ
  deliveryGate : Option QueueDeliveryGate
  deriving DecidableEq

/-- `ValueOrContainer`, a container by its deep value. -/
inductive Slot where
  | value (v : Json)
  | container (deep : Json)
  deriving DecidableEq

def Slot.deep : Slot → Json
  | .value v => v
  | .container v => v

/-- The fields of a map container. -/
abbrev Fields : Type := ExtTreeMap String Slot compare

inductive Content where
  /-- A map container, what the writers of this file make. -/
  | map (fields : Fields)
  /-- Anything else a peer can put in the list: an inline value, another container. -/
  | other (slot : Slot)

/-- An element of the movable list. Its identity survives moves and edits. -/
structure QueueItem where
  cid : ℕ
  content : Content

abbrev Queue : Type := List QueueItem

/-- `Value::get` on the deep value. -/
def Content.get : Content → String → Option Json
  | .map fields, k => (fields[k]?).map Slot.deep
  | .other slot, k =>
    match slot.deep with
    | .obj members => (members.find? (·.1 = k)).map (·.2)
    | _ => none

/-- `to_value` of a gate. -/
def gateToJson : QueueDeliveryGate → Json
  | .editing lease device inst acquired expires hash =>
    .obj [("kind", .str "editing"), ("leaseId", .str lease), ("ownerDeviceId", .str device),
      ("ownerInstanceId", .str inst), ("acquiredAtMs", .num acquired),
      ("expiresAtMs", .num expires), ("baseTextHash", .str hash)]
  | .reviewRequired lease device since hash =>
    .obj [("kind", .str "reviewRequired"), ("previousLeaseId", .str lease),
      ("ownerDeviceId", .str device), ("sinceMs", .num since), ("baseTextHash", .str hash)]

/-- `from_value::<QueueDeliveryGate>`: an object with the tag `kind`, or the sequence of the tag
and the fields in order. -/
def gateFromJson : Json → Option QueueDeliveryGate
  | .obj members => do
    let get (k : String) : Option Json := (members.find? (·.1 = k)).map (·.2)
    let str (k : String) : Option String := (get k).bind Json.asStr
    let num (k : String) : Option ℤ := (get k).bind Json.asI64
    match ← str "kind" with
    | "editing" =>
      return .editing (← str "leaseId") (← str "ownerDeviceId") (← str "ownerInstanceId")
        (← num "acquiredAtMs") (← num "expiresAtMs") (← str "baseTextHash")
    | "reviewRequired" =>
      return .reviewRequired (← str "previousLeaseId") (← str "ownerDeviceId") (← num "sinceMs")
        (← str "baseTextHash")
    | _ => none
  | .arr [.str "editing", .str lease, .str device, .str inst, .num acquired, .num expires,
      .str hash] => some (.editing lease device inst acquired expires hash)
  | .arr [.str "reviewRequired", .str lease, .str device, .num since, .str hash] =>
    some (.reviewRequired lease device since hash)
  | _ => none

theorem gateFromJson_gateToJson (g : QueueDeliveryGate) : gateFromJson (gateToJson g) = some g := by
  cases g <;> rfl

/-- A gate this version cannot read fails closed. -/
def QueueDeliveryGate.unknown : QueueDeliveryGate := .reviewRequired "" "" 0 ""

/-- The barrier on a row. -/
def readGate : Option Json → Option QueueDeliveryGate
  | none | some .null => none
  | some gate => some ((gateFromJson gate).getD .unknown)

/-- The row of a value with members `get`, its id and its text read. -/
def rowFrom (get : String → Option Json) (id text : String) : QueuedMessage :=
  { id, text
    attachments := ((get "attachments").bind Json.asStrings).getD []
    holdForTurnEnd := ((get "holdForTurnEnd").bind Json.asBool).getD false
    issuedBy := ((get "issuedBy").bind Json.asStr).getD ""
    issuedAt := ((get "issuedAt").bind Json.asI64).getD 0
    editedAt := (get "editedAt").bind Json.asI64
    deliveryGate := readGate (get "deliveryGate") }

/-- `queued_from_json` on a value with members `get`. -/
def queuedFromJson (get : String → Option Json) : Option QueuedMessage :=
  match (get "id").bind Json.asStr, (get "text").bind Json.asStr with
  | some raw, some text =>
    if trim raw = "" ∨ isBlank text then none else some (rowFrom get (trim raw) text)
  | _, _ => none

/-- The row an element reads as; `none` for a malformed one. -/
def QueueItem.row? (e : QueueItem) : Option QueuedMessage := queuedFromJson e.content.get

/-- The queue in send order. -/
def readQueue (D : Queue) : List QueuedMessage := D.filterMap QueueItem.row?

/-! ## Operations -/

/-- The raw `id` of a map container, where it is a plain string: what `index_of` compares. -/
def QueueItem.storedId (e : QueueItem) : Option String :=
  match e.content with
  | .map fields =>
    match fields["id"]? with
    | some (.value (.str s)) => some s
    | _ => none
  | .other _ => none

def indexOf (D : Queue) (id : String) : Option ℕ := D.findIdx? (·.storedId = some id)

/-- An optional field is written only where there is one. -/
def putSome (fields : Fields) (k : String) : Option Json → Fields
  | some v => fields.insert k (.value v)
  | none => fields

/-- `write_queued_map` into a fresh container. -/
def writeQueuedMap (m : QueuedMessage) : Fields :=
  let fields : Fields := ∅
  let fields := fields.insert "id" (.value (.str m.id))
  let fields := fields.insert "text" (.value (.str m.text))
  let fields := fields.insert "issuedBy" (.value (.str m.issuedBy))
  let fields := fields.insert "issuedAt" (.value (.num m.issuedAt))
  let fields := putSome fields "attachments"
    (if m.attachments = [] then none else some (.arr (m.attachments.map .str)))
  let fields := putSome fields "holdForTurnEnd"
    (if m.holdForTurnEnd then some (.bool true) else none)
  let fields := putSome fields "editedAt" (m.editedAt.map .num)
  putSome fields "deliveryGate" (m.deliveryGate.map gateToJson)

/-- The refusals of `push_queued` and `insert_queued`. -/
def checkQueued (m : QueuedMessage) : Except String Unit :=
  if isBlank m.id then .error "queued message id required"
  else if isBlank m.text then .error "queued message text required"
  else .ok ()

/-- `push_queued`; `cid` is the identity the new container gets. -/
def pushQueued (D : Queue) (cid : ℕ) (m : QueuedMessage) : Except String Queue := do
  checkQueued m
  return D ++ [⟨cid, .map (writeQueuedMap m)⟩]

/-- `insert_queued`, the undo of a failed send. -/
def insertQueued (D : Queue) (cid index : ℕ) (m : QueuedMessage) : Except String Queue := do
  checkQueued m
  return D.insertIdx (min index D.length) ⟨cid, .map (writeQueuedMap m)⟩

/-- `remove_queued`: `false` when it was already gone. -/
def removeQueued (D : Queue) (id : String) : Bool × Queue :=
  match indexOf D id with
  | none => (false, D)
  | some i => (true, D.eraseIdx i)

/-- The map container under an id, and what an edit does to it; `false` when there is none or
`f` declines. -/
def editQueued (D : Queue) (id : String) (f : Fields → Option Fields) : Bool × Queue :=
  match indexOf D id with
  | none => (false, D)
  | some i =>
    match D[i]? with
    | some ⟨cid, .map fields⟩ =>
      match f fields with
      | some fields' => (true, D.set i ⟨cid, .map fields'⟩)
      | none => (false, D)
    | _ => (false, D)

/-- The writes of a changed text. -/
def retype (text : String) (now : ℤ) (fields : Fields) : Fields :=
  (fields.insert "text" (.value (.str text))).insert "editedAt" (.value (.num now))

def unchanged (text : String) (fields : Fields) : Bool :=
  fields["text"]? = some (.value (.str text))

/-- `set_queued_text`: an empty text is the delete gesture. -/
def setQueuedText (D : Queue) (id text : String) (now : ℤ) : Bool × Queue :=
  if isBlank text then removeQueued D id
  else editQueued D id fun fields =>
    if unchanged text fields then none else some (retype text now fields)

/-- `set_queued_delivery_gate`. -/
def setQueuedDeliveryGate (D : Queue) (id : String) (gate : Option QueueDeliveryGate) :
    Bool × Queue :=
  editQueued D id fun fields =>
    some (match gate with
      | some gate => fields.insert "deliveryGate" (.value (gateToJson gate))
      | none => fields.erase "deliveryGate")

/-- The writes of `finish_queued_edit_with_attachments` on the container. -/
def finishEdit (replacement : Option String) (attachments : Option (List String)) (now : ℤ)
    (fields : Fields) : Fields :=
  let fields := match replacement with
    | some text => if unchanged text fields then fields else retype text now fields
    | none => fields
  let fields := match attachments with
    | some paths => (fields.insert "attachments" (.value (.arr (paths.map .str)))).insert
        "editedAt" (.value (.num now))
    | none => fields
  fields.erase "deliveryGate"

/-- `finish_queued_edit_with_attachments`. -/
def finishQueuedEdit (D : Queue) (id : String) (replacement : Option String)
    (attachments : Option (List String)) (now : ℤ) : Bool × Queue :=
  if replacement.any isBlank then removeQueued D id
  else editQueued D id fun fields => some (finishEdit replacement attachments now fields)

/-- `move_queued`, the target clamped to the queue's bounds. -/
def moveQueued (D : Queue) (id : String) (target : ℕ) : Bool × Queue :=
  match indexOf D id with
  | none => (false, D)
  | some i =>
    let target := min target (D.length - 1)
    if i = target then (false, D)
    else match D[i]? with
      | some e => (true, (D.eraseIdx i).insertIdx target e)
      | none => (false, D)

/-- `take_queued`. -/
def takeQueued (D : Queue) (id : String) : Option QueuedMessage × Queue :=
  match indexOf D id with
  | none => (none, D)
  | some i =>
    let item := (readQueue D).find? (·.id = id)
    if item.any (·.deliveryGate.isSome) then (none, D)
    else (item, D.eraseIdx i)

/-- `take_queue_head`. -/
def takeQueueHead (D : Queue) : Option QueuedMessage × Queue :=
  match readQueue D with
  | [] => (none, D)
  | head :: _ => takeQueued D head.id

/-! ## What an element reads as -/

theorem queuedFromJson_eq_some {get : String → Option Json} {m : QueuedMessage} :
    queuedFromJson get = some m ↔ ∃ raw text, (get "id").bind Json.asStr = some raw ∧
      (get "text").bind Json.asStr = some text ∧ trim raw ≠ "" ∧ isBlank text = false ∧
      m = rowFrom get (trim raw) text := by
  constructor
  · intro h
    unfold queuedFromJson at h
    split at h
    · rename_i raw text hraw htext
      split at h
      · cases h
      · rename_i hok
        rw [not_or] at hok
        exact ⟨raw, text, hraw, htext, hok.1, by simpa using hok.2, (Option.some.inj h).symm⟩
    · cases h
  · rintro ⟨raw, text, hraw, htext, hid, hblank, rfl⟩
    simp only [queuedFromJson, hraw, htext, hid, hblank, false_or, Bool.false_eq_true, if_false]

theorem map_of_stored {e : QueueItem} {id : String} (h : e.storedId = some id) :
    ∃ fields, e = ⟨e.cid, .map fields⟩ ∧ fields["id"]? = some (.value (.str id)) := by
  obtain ⟨cid, content⟩ := e
  cases content with
  | other slot => cases h
  | map fields =>
    refine ⟨fields, rfl, ?_⟩
    simp only [QueueItem.storedId] at h
    split at h
    · rename_i s hs
      rw [hs, Option.some.inj h]
    · cases h

@[simp] theorem get_insert (fields : Fields) (k j : String) (v : Json) :
    (Content.map (fields.insert k (.value v))).get j =
      if k = j then some v else (Content.map fields).get j := by
  by_cases h : k = j
  · subst h
    simp [Content.get, Slot.deep]
  · simp [Content.get, ExtTreeMap.getElem?_insert, h]

@[simp] theorem get_erase (fields : Fields) (k j : String) :
    (Content.map (fields.erase k)).get j =
      if k = j then none else (Content.map fields).get j := by
  by_cases h : k = j
  · subst h
    simp [Content.get]
  · simp [Content.get, ExtTreeMap.getElem?_erase, h]

@[simp] theorem get_putSome (fields : Fields) (k j : String) (v : Option Json) :
    (Content.map (putSome fields k v)).get j =
      if k = j then v.or ((Content.map fields).get j) else (Content.map fields).get j := by
  cases v <;> simp [putSome]

@[simp] theorem get_empty (j : String) : (Content.map ∅).get j = none := by
  simp [Content.get]

theorem row_retype {cid : ℕ} {fields : Fields} {m : QueuedMessage} {text : String} {now : ℤ}
    (h : QueueItem.row? ⟨cid, .map fields⟩ = some m) (ht : isBlank text = false) :
    QueueItem.row? ⟨cid, .map (retype text now fields)⟩ =
      some { m with text, editedAt := some now } := by
  obtain ⟨raw, old, hraw, -, hid, -, rfl⟩ := Iff.mp queuedFromJson_eq_some h
  refine Iff.mpr queuedFromJson_eq_some ⟨raw, text, ?_, ?_, hid, ht, ?_⟩
  · simpa [retype, get_insert] using hraw
  · simp [retype, get_insert, Json.asStr]
  · simp [rowFrom, retype, get_insert, Json.asI64]

theorem readGate_gateToJson (gate : QueueDeliveryGate) :
    readGate (some (gateToJson gate)) = some gate := by
  have hread := gateFromJson_gateToJson gate
  cases gate <;> exact congrArg (fun g => some (Option.getD g .unknown)) hread

theorem row_release {cid : ℕ} {fields : Fields} {m : QueuedMessage}
    (h : QueueItem.row? ⟨cid, .map fields⟩ = some m) :
    QueueItem.row? ⟨cid, .map (fields.erase "deliveryGate")⟩ =
      some { m with deliveryGate := none } := by
  obtain ⟨raw, text, hraw, htext, hid, ht, rfl⟩ := Iff.mp queuedFromJson_eq_some h
  refine Iff.mpr queuedFromJson_eq_some ⟨raw, text, ?_, ?_, hid, ht, ?_⟩
  · simpa using hraw
  · simpa using htext
  · simp [rowFrom, readGate]

theorem row_gate {cid : ℕ} {fields : Fields} {m : QueuedMessage} (gate : QueueDeliveryGate)
    (h : QueueItem.row? ⟨cid, .map fields⟩ = some m) :
    QueueItem.row? ⟨cid, .map (fields.insert "deliveryGate" (.value (gateToJson gate)))⟩ =
      some { m with deliveryGate := some gate } := by
  obtain ⟨raw, text, hraw, htext, hid, ht, rfl⟩ := Iff.mp queuedFromJson_eq_some h
  refine Iff.mpr queuedFromJson_eq_some ⟨raw, text, ?_, ?_, hid, ht, ?_⟩
  · simpa using hraw
  · simpa using htext
  · simp [rowFrom, readGate_gateToJson]

theorem row_attach {cid : ℕ} {fields : Fields} {m : QueuedMessage} (paths : List String) (now : ℤ)
    (h : QueueItem.row? ⟨cid, .map fields⟩ = some m) :
    QueueItem.row? ⟨cid, .map ((fields.insert "attachments"
        (.value (.arr (paths.map .str)))).insert "editedAt" (.value (.num now)))⟩ =
      some { m with attachments := paths, editedAt := some now } := by
  obtain ⟨raw, text, hraw, htext, hid, ht, rfl⟩ := Iff.mp queuedFromJson_eq_some h
  refine Iff.mpr queuedFromJson_eq_some ⟨raw, text, ?_, ?_, hid, ht, ?_⟩
  · simpa using hraw
  · simpa using htext
  · simp [rowFrom, Json.asStrings_strings, Json.asI64]

theorem text_of_unchanged {cid : ℕ} {fields : Fields} {m : QueuedMessage} {text : String}
    (h : QueueItem.row? ⟨cid, .map fields⟩ = some m) (hu : unchanged text fields = true) :
    m.text = text := by
  obtain ⟨raw, old, -, hold, -, -, rfl⟩ := Iff.mp queuedFromJson_eq_some h
  have hget : fields["text"]? = some (.value (.str text)) := by simpa [unchanged] using hu
  simpa [Content.get, hget, Slot.deep, Json.asStr, rowFrom] using hold.symm

/-- The row a resolved edit leaves, `changed` where the text was another one. -/
def QueuedMessage.finished (m : QueuedMessage) (changed : Bool) (replacement : Option String)
    (attachments : Option (List String)) (now : ℤ) : QueuedMessage :=
  { m with
    text := replacement.getD m.text
    attachments := attachments.getD m.attachments
    editedAt := if changed || attachments.isSome then some now else m.editedAt
    deliveryGate := none }

theorem row_finish {cid : ℕ} {fields : Fields} {m : QueuedMessage} {replacement : Option String}
    (attachments : Option (List String)) (now : ℤ)
    (h : QueueItem.row? ⟨cid, .map fields⟩ = some m) (hr : replacement.any isBlank = false) :
    QueueItem.row? ⟨cid, .map (finishEdit replacement attachments now fields)⟩ =
      some (m.finished (replacement.any (!unchanged · fields)) replacement attachments now) := by
  have htyped : ∃ fields', QueueItem.row? ⟨cid, .map fields'⟩ =
        some { m with
          text := replacement.getD m.text
          editedAt := if replacement.any (!unchanged · fields) then some now else m.editedAt } ∧
      finishEdit replacement attachments now fields = finishEdit none attachments now fields' := by
    cases replacement with
    | none => exact ⟨fields, h, rfl⟩
    | some text =>
      by_cases hu : unchanged text fields
      · obtain rfl := text_of_unchanged h hu
        exact ⟨fields, by simpa [hu] using h, by simp [finishEdit, hu]⟩
      · exact ⟨retype text now fields, by simp [hu, row_retype h (by simpa using hr)],
          by simp [finishEdit, hu]⟩
  obtain ⟨fields', hrow, hfin⟩ := htyped
  rw [hfin]
  cases attachments with
  | none => simpa [finishEdit, QueuedMessage.finished] using row_release hrow
  | some paths =>
    simpa [finishEdit, QueuedMessage.finished] using row_release (row_attach paths now hrow)

theorem row_write (cid : ℕ) {m : QueuedMessage} (h : checkQueued m = .ok ()) :
    QueueItem.row? ⟨cid, .map (writeQueuedMap m)⟩ = some { m with id := trim m.id } := by
  obtain ⟨hid, ht⟩ : isBlank m.id = false ∧ isBlank m.text = false := by
    unfold checkQueued at h
    split_ifs at h with h₁ h₂
    exact ⟨by simpa using h₁, by simpa using h₂⟩
  have hgate (gate : Option QueueDeliveryGate) : readGate (gate.map gateToJson) = gate := by
    cases gate with
    | none => rfl
    | some gate => exact readGate_gateToJson gate
  refine Iff.mpr queuedFromJson_eq_some ⟨m.id, m.text, ?_, ?_, by simpa [isBlank] using hid, ht, ?_⟩
  · simp [writeQueuedMap, Json.asStr]
  · simp [writeQueuedMap, Json.asStr]
  · have hpaths : ((if m.attachments = [] then none
        else some (Json.arr (m.attachments.map .str))).bind Json.asStrings).getD [] =
          m.attachments := by
      split_ifs with h
      · exact h.symm
      · simp [Json.asStrings_strings]
    have hhold : ((if m.holdForTurnEnd then some (Json.bool true) else none).bind
        Json.asBool).getD false = m.holdForTurnEnd := by
      cases m.holdForTurnEnd <;> rfl
    have hedited : (m.editedAt.map Json.num).bind Json.asI64 = m.editedAt := by
      cases m.editedAt <;> rfl
    simp [rowFrom, writeQueuedMap, Json.asStr, Json.asI64, hpaths, hhold, hedited, hgate]

end Zeron.Session
