import Zeron.Registry.Doc
import Zeron.Session.Queue
import Zeron.Sidebar.Change
import Zeron.Sidebar.OrderKey

/-!
# The sidebar in the registry

Pins, sections and placements as registry rows (`crates/doc/src/registry/sidebar_pins.rs`,
`sidebar_sections.rs`): a pin row holds an order key and the flag older apps read, a location row
the one place of a session, a section row its metadata.

* `Clocked`: a replica and the wall clock's readings to come;
* `sidebarLocation`, `orderedSidebarPins`, `sidebarSections`, `sidebarPreferences`: the reads;
* `changeSidebarSection`, `changeSidebarPin`: the writes, with their error texts.
-/

namespace Zeron.Sidebar

open Registry
open Std (ExtTreeMap)

def kindPreferences : String := "preferences"

def kindChats : String := "chats"

def kindSidebarPins : String := "sidebarPins"

/-- `SECTIONS`. -/
def kindSections : String := "sidebarSections"

/-- `LOCATIONS`. -/
def kindLocations : String := "sidebarLocations"

/-- Readiness only; membership and order live on individual pins. -/
def sidebarPinsStateId : String := "sidebarPins"

def maxSidebarPins : ℕ := 200

/-! ## Reads -/

/-- The ids of `overlay_rows`: those of the table, then those only pending ops name. -/
def overlayIds (doc : RegistryDoc) (kind : String) : List String :=
  (doc.pending.flatMap (·.ops)).foldl
    (fun ids op => if op.kind = kind ∧ op.id ∉ ids then ids ++ [op.id] else ids)
    ((doc.authoritative.keys.filter (·.kind = kind)).map (·.id))

/-- `overlay_rows`: all live rows of a kind. -/
def overlayRows (doc : RegistryDoc) (kind : String) : List RegistryRow :=
  (overlayIds doc kind).filterMap fun id => doc.overlayRow ⟨kind, id⟩

/-- `sidebar_location`. Older apps write only `pinned`: a later toggle of theirs is honored. -/
def sidebarLocation (doc : RegistryDoc) (id : String) (pin : Option RegistryRow) : String :=
  let location := doc.overlayRow ⟨kindLocations, id⟩
  let locationClock : Option Hlc := location.bind (·.clocks["location"]?)
  let pinClock : Option Hlc := pin.bind (·.clocks["pinned"]?)
  if locationClock.isSome ∧ rank pinClock ≤ rank locationClock then
    ((location.bind (·.fields["location"]?)).bind Json.asStr).getD ""
  else if (pin.bind (·.fields["pinned"]?)).bind Json.asBool = some true then "pinned"
  else ""

/-- `sidebar_location_is_pinned`. -/
def sidebarLocationIsPinned (doc : RegistryDoc) (id : String) (pin : RegistryRow) : Bool :=
  sidebarLocation doc id (some pin) = "pinned"

/-- Pins by key, then by id. -/
def pinLe (a b : String × String) : Prop := a.2 < b.2 ∨ a.2 = b.2 ∧ a.1 ≤ b.1

instance : DecidableRel pinLe := fun _ _ => inferInstanceAs (Decidable (_ ∨ _))

/-- `ordered_sidebar_pins`: ids with their order keys. -/
def orderedSidebarPins (doc : RegistryDoc) : List (String × String) :=
  ((overlayRows doc kindSidebarPins).filterMap fun row =>
    if sidebarLocationIsPinned doc row.id row then
      (row.fields["orderKey"]?.bind Json.asStr).bind fun key =>
        if validPinOrderKey key then some (row.id, key) else none
    else none).insertionSort pinLe

/-- `fields.get("createdAt").and_then(Value::as_str)`. -/
def createdAt (row : RegistryRow) : Option String := row.fields["createdAt"]?.bind Json.asStr

/-- `fields.get("deleted").and_then(Value::as_bool) == Some(true)`. -/
def sectionDeleted (row : RegistryRow) : Bool :=
  row.fields["deleted"]?.bind Json.asBool = some true

/-- Section rows by creation, then by id. -/
def sectionLe (a b : RegistryRow) : Prop :=
  rank (createdAt a) < rank (createdAt b) ∨ createdAt a = createdAt b ∧ a.id ≤ b.id

instance : DecidableRel sectionLe := fun _ _ => inferInstanceAs (Decidable (_ ∨ _))

/-- The sessions placed in a section, in order. -/
def sectionMembers (doc : RegistryDoc) (sectionId : String) : List String :=
  (((overlayRows doc kindLocations).filter fun r =>
    sidebarLocation doc r.id (doc.overlayRow ⟨kindSidebarPins, r.id⟩) = sectionId).map
      (·.id)).insertionSort (· ≤ ·)

/-- `sidebar_sections`. -/
def sidebarSections (doc : RegistryDoc) : List SidebarSection :=
  (((overlayRows doc kindSections).filter (!sectionDeleted ·)).insertionSort sectionLe).filterMap
    fun row => (row.fields["name"]?.bind Json.asStr).map fun name =>
      { id := row.id, name, sessionIds := sectionMembers doc row.id
        collapsed := (row.fields["collapsed"]?.bind Json.asBool).getD false }

/-- `sidebar_pins_initialized`. -/
def sidebarPinsInitialized (doc : RegistryDoc) : Bool :=
  (doc.overlayRow ⟨kindPreferences, sidebarPinsStateId⟩).isSome

/-- `sidebar_preferences`. -/
def sidebarPreferences (doc : RegistryDoc) : Option SidebarPreferences :=
  if sidebarPinsInitialized doc then
    some { pinnedSessionIds := (orderedSidebarPins doc).map (·.1), sections := sidebarSections doc }
  else none

/-- `live_sidebar_section`. -/
def liveSidebarSection (doc : RegistryDoc) (id : String) : Bool :=
  (doc.overlayRow ⟨kindSections, id⟩).any (!sectionDeleted ·)

/-! ## Clocks -/

/-- A number may carry a plus sign. -/
def dropPlus : List Char → List Char
  | '+' :: l => l
  | l => l

/-- `parse::<i64>`, `parse::<u32>` of a text without a minus sign. -/
def parseUpTo (max : ℕ) (l : List Char) : Option ℕ :=
  let l := dropPlus l
  if l ≠ [] ∧ l.all Char.isDigit ∧ Nat.ofDigitChars 10 l 0 ≤ max then
    some (Nat.ofDigitChars 10 l 0)
  else none

/-- `clock.splitn(3, '-')`, its first two parts as numbers. -/
def hlcParts (clock : Hlc) : Option (ℕ × ℕ) :=
  match clock.toList.dropWhile (· ≠ '-') with
  | [] => none
  | _ :: rest => do
    let ms ← parseUpTo (2 ^ 63 - 1) (clock.toList.takeWhile (· ≠ '-'))
    let counter ← parseUpTo (2 ^ 32 - 1) (rest.takeWhile (· ≠ '-'))
    some (ms, counter)

/-- The clock moved up to a row's newest one. -/
def observeRow (clock : HlcClock) (row : Option RegistryRow) : HlcClock :=
  match (row.bind (·.maxClock)).bind hlcParts with
  | none => clock
  | some (ms, counter) =>
    if clock.lastMs < ms ∨ clock.lastMs = ms ∧ clock.counter < counter then
      { lastMs := ms, counter := counter }
    else clock

/-! ## Writes -/

/-- A replica and the wall clock's readings to come. -/
structure Clocked where
  doc : RegistryDoc
  now : ℕ → ℤ

namespace Clocked

/-- `observe_sidebar_row`. -/
def observe (t : Clocked) (kind id : String) : Clocked :=
  { t with doc := { t.doc with clock := observeRow t.doc.clock (t.doc.overlayRow ⟨kind, id⟩) } }

/-- `next_hlc`. -/
def nextHlc (t : Clocked) : Clocked × Hlc :=
  ({ doc := (t.doc.nextHlc (t.now 0)).1, now := later t.now }, (t.doc.nextHlc (t.now 0)).2)

/-- `enqueue_ops` of one op. -/
def enqueue (t : Clocked) (op : RowOp) : Clocked :=
  { doc := t.doc.enqueueOps t.now [op], now := later t.now }

/-- `write` of an upsert. -/
def write (t : Clocked) (kind id : String) (set : SMap Json) : Clocked :=
  let (t, hlc) := t.nextHlc
  t.enqueue { kind, id, op := .upsert, set := some set, hlc, clocks := none }

/-- `initialize_sidebar_pins`. Readiness survives restarts even when the list is empty. -/
def initializeSidebarPins (t : Clocked) : Clocked :=
  if sidebarPinsInitialized t.doc then t
  else t.write kindPreferences sidebarPinsStateId {("initialized", .bool true)}

/-- `write_sidebar_location`. -/
def writeSidebarLocation (t : Clocked) (id location : String) : Clocked :=
  ((t.observe kindLocations id).observe kindSidebarPins id).write kindLocations id
    {("location", .str location)}

end Clocked

def validId (id : String) : Bool := idRe id

def validSectionId (id : String) : Bool := validId id && id ≠ "pinned"

def validName (name : String) : Bool := !Session.isBlank name && name.toList.length ≤ 120

/-- The checks on a section change. -/
def checkSection : SidebarSectionChange → Option String
  | .create id name | .rename id name =>
    if !validSectionId id || !validName name then some "Invalid section name or ID" else none
  | .collapse id _ | .delete id => if !validSectionId id then some "Invalid section ID" else none
  | .assign sessionId sectionId =>
    if !validId sessionId || sectionId.any (!validSectionId ·) then
      some "Invalid section membership"
    else none
  | .import sections =>
    if sections.any fun s =>
        !validSectionId s.id || !validName s.name || s.sessionIds.any (!validId ·) then
      some "Invalid section import"
    else none

namespace Clocked

/-- Existing ids, including deleted sections, are never resurrected. -/
def createSection (t : Clocked) (id name : String) : Clocked :=
  if (t.doc.overlayRow ⟨kindSections, id⟩).isNone then
    let (t, created) := t.nextHlc
    t.write kindSections id {("name", .str name), ("collapsed", .bool false),
      ("deleted", .bool false), ("createdAt", .str created)}
  else t

/-- A write to a live section, under a clock that has seen it. -/
def editSection (t : Clocked) (id : String) (set : SMap Json) : Clocked :=
  if liveSidebarSection t.doc id then (t.observe kindSections id).write kindSections id set else t

def renameSection (t : Clocked) (id name : String) : Clocked :=
  t.editSection id {("name", .str name)}

def collapseSection (t : Clocked) (id : String) (collapsed : Bool) : Clocked :=
  t.editSection id {("collapsed", .bool collapsed)}

def deleteSection (t : Clocked) (id : String) : Clocked :=
  (t.observe kindSections id).write kindSections id {("deleted", .bool true)}

/-- The two registers of an assignment; a section that takes a session opens. -/
def assignSession (t : Clocked) (sessionId : String) (sectionId : Option String) :
    Clocked × Option String :=
  if sectionId.any (!liveSidebarSection t.doc ·) then (t, some "Section no longer exists")
  else if (t.doc.overlayRow ⟨kindChats, sessionId⟩).isNone then
    (t, some "Session no longer exists")
  else
    -- keep legacy clients from displaying section members as pins
    let t := (t.observe kindSidebarPins sessionId).write kindSidebarPins sessionId
      {("pinned", .bool false)}
    let t := t.writeSidebarLocation sessionId (sectionId.getD "")
    match sectionId with
    | none => (t, none)
    | some id => (t.initializeSidebarPins.collapseSection id false, none)

/-- One session of an imported section. -/
def importSession (sectionId : String) (t : Clocked) (id : String) : Clocked :=
  if (t.doc.overlayRow ⟨kindLocations, id⟩).isNone ∧
      !(orderedSidebarPins t.doc).any (·.1 = id) ∧
      (t.doc.overlayRow ⟨kindChats, id⟩).isSome then
    t.writeSidebarLocation id sectionId
  else t

/-- One imported section: a replay must not undo a rename, deletion, collapse or move. -/
def importSection (t : Clocked) (s : SidebarSection) : Clocked :=
  if (t.doc.overlayRow ⟨kindSections, s.id⟩).isSome then t
  else
    let t := t.initializeSidebarPins.createSection s.id s.name
    let t := s.sessionIds.foldl (importSession s.id) t
    t.initializeSidebarPins.collapseSection s.id s.collapsed

/-- `change_sidebar_section`: the replica, and an error text. -/
def changeSidebarSection (t : Clocked) (change : SidebarSectionChange) : Clocked × Option String :=
  match checkSection change with
  | some error => (t, some error)
  | none =>
    let t := t.initializeSidebarPins
    match change with
    | .create id name => (t.createSection id name, none)
    | .rename id name => (t.renameSection id name, none)
    | .collapse id collapsed => (t.collapseSection id collapsed, none)
    | .delete id => (t.deleteSection id, none)
    | .assign sessionId sectionId => t.assignSession sessionId sectionId
    | .import sections => (sections.foldl importSection t, none)

/-- `observe_sidebar_row` of the session's location, then of its pin. -/
def observeSession (t : Clocked) (id : String) : Clocked :=
  (t.observe kindLocations id).observe kindSidebarPins id

/-- The pinned ids `change_sidebar_pin` starts from. -/
def current (t : Clocked) : List String :=
  ((sidebarPreferences t.doc).map (·.pinnedSessionIds)).getD []

/-- The end of `change_sidebar_pin`: a key between the new neighbors. -/
def placePin (t : Clocked) (id : String) (next : List String)
    (pinned : Bool) : Clocked × Option String :=
  let pins := orderedSidebarPins t.doc
  let keyFor := fun id => (pins.find? (·.1 = id)).map (·.2)
  let index := next.idxOf id
  let lower := if index = 0 then none else next[index - 1]?.bind keyFor
  let upper := next[index + 1]?.bind keyFor
  let (t, hlc) := t.nextHlc
  match pinOrderKeyBetween lower upper hlc with
  | .error error => (t, some error)
  | .ok key =>
    let set : SMap Json := {("orderKey", .str key)}
    let (set, t) := if pinned then
        (set.insert "pinned" (.bool true), t.writeSidebarLocation id "pinned")
      else (set, t)
    (t.enqueue { kind := kindSidebarPins, id, op := .upsert, set := some set, hlc, clocks := none },
      none)

/-- `change_sidebar_pin`. -/
def changeSidebarPin (t : Clocked) (change : SidebarPinChange) : Clocked × Option String :=
  match change with
  | .section change => t.changeSidebarSection change
  | .pin id _ _ =>
    if !validId id then (t, some "Invalid pinned session ID")
    else if id ∉ t.current ∧ maxSidebarPins ≤ t.current.length then
      (t, some "You can pin up to 200 sessions")
    else if (t.doc.overlayRow ⟨kindChats, id⟩).isNone then (t, some "Session no longer exists")
    else (t.initializeSidebarPins.observeSession id).placePin id
      (change.project t.current) true
  | .move id _ _ =>
    if !validId id then (t, some "Invalid pinned session ID")
    else if id ∉ t.current then (t.initializeSidebarPins.observeSession id, none)
    else (t.initializeSidebarPins.observeSession id).placePin id
      (change.project t.current) false
  | .unpin id =>
    if !validId id then (t, some "Invalid pinned session ID")
    else
      let before := t.current
      let t := t.initializeSidebarPins.observeSession id
      let t := if before.contains id then t.writeSidebarLocation id "" else t
      (t.write kindSidebarPins id {("pinned", .bool false)}, none)

end Clocked

end Zeron.Sidebar
