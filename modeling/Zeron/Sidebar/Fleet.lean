import Zeron.Lib.Run
import Zeron.Sidebar.Phone
import Zeron.Sidebar.Projection

/-!
# Placement across devices

Desktops and phones with one room between them. Every unsent batch may reach the room at any time
and more than once, and every row the room has held may reach a device: any order of deliveries.

* `Device`, `Fleet`, `Act`, `step`: the system;
* `Names`: which keys a replica, its queue and the room know; **`names_changeSidebarPin`**;
* `Placeless`, **`places_push`**: a batch that writes no place moves no session;
* **`nodup_listed`**, **`addsPlaceless_move`**, `SameRows.preferences`: lists, moves, agreement;
* **`placement_exclusive`**: all of it in every run;
* `phone_shows_unpinned`: a phone and a desktop with the same rows and different pins.
-/

namespace Zeron.Sidebar

open Registry Lww
open Std (ExtTreeMap)

inductive Device where
  | desktop (n : ℕ)
  | phone (n : ℕ)
  deriving DecidableEq

structure Fleet where
  room : Room
  docs : Device → RegistryDoc
  /-- Every row the room has held, what its states and broadcasts are made of. -/
  sent : List RegistryRow

inductive Act where
  /-- `change_sidebar_pin` on a desktop. -/
  | change (n : ℕ) (now : ℕ → ℤ) (change : SidebarPinChange)
  /-- `changeSidebarPin` on a phone. -/
  | tap (n : ℕ) (now : ℕ → ℤ) (id : String) (pinned : Option Bool) (after before : Option String)
  /-- `initializeSidebarPins` on a phone. -/
  | ready (n : ℕ) (now : ℕ → ℤ)
  /-- A typed write of something else. -/
  | write (d : Device) (now : ℕ → ℤ) (key : RowKey) (op : OpKind) (set : SMap Json)
  /-- An unsent batch reaches the room. -/
  | push (d : Device) (b : PendingBatch)
  | ack (d : Device) (batch : String)
  /-- Rows of the room reach a device. -/
  | rows (d : Device) (frame : RowsFrame)
  | state (d : Device) (now : ℕ → ℤ) (reply : StateReply)

namespace Fleet

def setDoc (σ : Fleet) (d : Device) (doc : RegistryDoc) : Fleet :=
  { σ with docs := Function.update σ.docs d doc }

/-- One step; `none` where the act is not possible. -/
def step (order : DictOrder) (σ : Fleet) : Act → Option Fleet
  | .change n now change =>
    some (σ.setDoc (.desktop n)
      ((Clocked.mk (σ.docs (.desktop n)) now).changeSidebarPin change).1.doc)
  | .tap n now id pinned after before =>
    some (σ.setDoc (.phone n)
      (Phone.changeSidebarPin order ⟨σ.docs (.phone n), now⟩ id pinned after before).1.doc)
  | .ready n now =>
    some (σ.setDoc (.phone n) (Phone.initializeSidebarPins order ⟨σ.docs (.phone n), now⟩).doc)
  | .write d now key op set =>
    if key.kind ∈ sidebarKinds then none else some (σ.setDoc d ((σ.docs d).write now key op set))
  | .push d b =>
    if b ∈ (σ.docs d).pending then
      some { σ with
        room := σ.room.push b.batch b.ops
        sent := σ.sent ++ (σ.room.push b.batch b.ops).storage.rows.toList.map (·.2) }
    else none
  | .ack d batch => some (σ.setDoc d ((σ.docs d).ackBatch batch).1)
  | .rows d frame =>
    if frame.rows ⊆ σ.sent then some (σ.setDoc d ((σ.docs d).applyRows frame).1) else none
  | .state d now reply =>
    if reply.rows ⊆ σ.sent then some (σ.setDoc d ((σ.docs d).applyState now reply).1) else none

/-- Devices that have just started, next to an empty room. -/
def start (ids : Device → String) : Fleet :=
  { room := .empty, docs := fun d => .new (ids d), sent := [] }

end Fleet

/-! ## Which keys are in use -/

/-- Rows under their keys, and every row and every unsent op under a key with a property. -/
structure Names (P : RowKey → Prop) (doc : RegistryDoc) : Prop where
  keyed : doc.Keyed
  rows : ∀ key r, doc.row key = some r → P key
  ops : ∀ b ∈ doc.pending, ∀ op ∈ b.ops, P op.key

section Names

variable {P : RowKey → Prop} {doc : RegistryDoc} {t : Clocked}

theorem names_new (deviceId : String) : Names P (.new deviceId) :=
  have hempty : ∀ key r, (RegistryDoc.new deviceId).row key ≠ some r := by
    intro key r hr
    simp [RegistryDoc.row, RegistryDoc.new] at hr
  ⟨fun key r hr => absurd hr (hempty key r), fun key r hr => absurd hr (hempty key r),
    fun b hb => (by cases hb)⟩

theorem names_enqueueOps (h : Names P doc) (now : ℕ → ℤ) {ops : List RowOp}
    (hops : ∀ op ∈ ops, P op.key) : Names P (doc.enqueueOps now ops) := by
  obtain ⟨batches, hq⟩ := enqueueOps_spec doc now ops
  refine ⟨fun key r hr => ?_, fun key r hr => ?_, fun b hb op hop => ?_⟩
  · rw [row_enqueueOps] at hr
    exact h.keyed key r hr
  · rw [row_enqueueOps] at hr
    exact h.rows key r hr
  · rw [hq.pending, List.mem_append] at hb
    rcases hb with hb | hb
    · exact h.ops b hb op hop
    · refine hops op ?_
      rw [← hq.ops]
      exact List.mem_flatMap_of_mem hb hop

theorem names_clock (h : Names P doc) (clock : HlcClock) : Names P { doc with clock } :=
  ⟨h.keyed, h.rows, h.ops⟩

theorem names_nextHlc (h : Names P t.doc) : Names P t.nextHlc.1.doc := names_clock h _

theorem names_enqueue (h : Names P t.doc) {op : RowOp} (hop : P op.key) :
    Names P (t.enqueue op).doc := by
  have hops : ∀ op' ∈ [op], P op'.key := fun op' hop' => by rwa [List.mem_singleton.mp hop']
  exact names_enqueueOps h t.now hops

theorem names_write (h : Names P t.doc) {kind id : String} (hkey : P ⟨kind, id⟩) (set : SMap Json) :
    Names P (t.write kind id set).doc := by
  rw [write_eq]
  exact names_enqueue (names_nextHlc h) hkey

theorem names_observe (h : Names P t.doc) (kind id : String) : Names P (t.observe kind id).doc :=
  names_clock h _

theorem names_doc_write (h : Names P doc) (now : ℕ → ℤ) {key : RowKey} (hkey : P key) (op : OpKind)
    (set : SMap Json) : Names P (doc.write now key op set) := by
  refine names_enqueueOps (names_clock h _) _ fun op' hop' => ?_
  rw [List.mem_singleton.mp hop']
  exact hkey

end Names

/-- No section has the name of the pinned list. -/
def NotPinnedSection (key : RowKey) : Prop := key ≠ ⟨kindSections, "pinned"⟩

theorem notPinnedSection_of_kind {kind : String} (h : kind ≠ kindSections) (id : String) :
    NotPinnedSection ⟨kind, id⟩ := key_ne h _ _

theorem notPinnedSection_of_valid {id : String} (h : validSectionId id = true) :
    NotPinnedSection ⟨kindSections, id⟩ := key_ne_id _ (properId_of_valid h).2

section Changes

variable {t : Clocked}

theorem names_initialized (h : Names NotPinnedSection t.doc) :
    Names NotPinnedSection t.initializeSidebarPins.doc := by
  unfold Clocked.initializeSidebarPins
  split_ifs
  · exact h
  · exact names_write h (notPinnedSection_of_kind (by decide) _) _

theorem names_writeSidebarLocation (h : Names NotPinnedSection t.doc) (id location : String) :
    Names NotPinnedSection (t.writeSidebarLocation id location).doc :=
  names_write (names_observe (names_observe h _ _) _ _) (notPinnedSection_of_kind (by decide) _) _

theorem names_editSection (h : Names NotPinnedSection t.doc) {id : String}
    (hid : validSectionId id = true) (set : SMap Json) :
    Names NotPinnedSection (t.editSection id set).doc := by
  unfold Clocked.editSection
  split_ifs
  · exact names_write (names_observe h _ _) (notPinnedSection_of_valid hid) _
  · exact h

theorem names_createSection (h : Names NotPinnedSection t.doc) {id : String}
    (hid : validSectionId id = true) (name : String) :
    Names NotPinnedSection (t.createSection id name).doc := by
  unfold Clocked.createSection
  split_ifs
  · exact names_write (names_nextHlc h) (notPinnedSection_of_valid hid) _
  · exact h

theorem names_assignSession (h : Names NotPinnedSection t.doc) (id : String)
    {sectionId : Option String} (hid : ∀ s ∈ sectionId, validSectionId s = true) :
    Names NotPinnedSection (t.assignSession id sectionId).1.doc := by
  unfold Clocked.assignSession
  split_ifs
  · exact h
  · exact h
  · have hplaced : Names NotPinnedSection (assignedAt t id (sectionId.getD "")).doc :=
      names_writeSidebarLocation (names_write (names_observe h _ _)
        (notPinnedSection_of_kind (by decide) _) _) _ _
    cases sectionId with
    | none => exact hplaced
    | some s => exact names_editSection (names_initialized hplaced) (hid s rfl) _

theorem names_importSection (h : Names NotPinnedSection t.doc) {s : SidebarSection}
    (hid : validSectionId s.id = true) : Names NotPinnedSection (t.importSection s).doc := by
  have hsession : ∀ (ids : List String) (t : Clocked), Names NotPinnedSection t.doc →
      Names NotPinnedSection (ids.foldl (Clocked.importSession s.id) t).doc := by
    intro ids
    induction ids with
    | nil => exact fun t h => h
    | cons id ids ih =>
      intro t h
      refine ih _ ?_
      unfold Clocked.importSession
      split_ifs
      · exact names_writeSidebarLocation h _ _
      · exact h
  unfold Clocked.importSection
  split_ifs
  · exact h
  · exact names_editSection (names_initialized (hsession _ _
      (names_createSection (names_initialized h) hid _))) hid _

theorem names_changeSidebarSection (h : Names NotPinnedSection t.doc)
    (change : SidebarSectionChange) :
    Names NotPinnedSection (t.changeSidebarSection change).1.doc := by
  have hinit := names_initialized h
  unfold Clocked.changeSidebarSection
  split
  · exact h
  · rename_i hcheck
    cases change with
    | create id name =>
      refine names_createSection hinit ?_ name
      simp only [checkSection] at hcheck
      split_ifs at hcheck with hbad
      simp only [Bool.or_eq_true, not_or, Bool.not_eq_true, Bool.not_eq_false'] at hbad
      exact hbad.1
    | rename id name =>
      refine names_editSection hinit ?_ _
      simp only [checkSection] at hcheck
      split_ifs at hcheck with hbad
      simp only [Bool.or_eq_true, not_or, Bool.not_eq_true, Bool.not_eq_false'] at hbad
      exact hbad.1
    | collapse id collapsed =>
      refine names_editSection hinit ?_ _
      simp only [checkSection] at hcheck
      split_ifs at hcheck with hbad
      simpa using hbad
    | delete id =>
      have hid : validSectionId id = true := by
        simp only [checkSection] at hcheck
        split_ifs at hcheck with hbad
        simpa using hbad
      exact names_write (names_observe hinit _ _) (notPinnedSection_of_valid hid) _
    | assign sessionId sectionId =>
      refine names_assignSession hinit sessionId fun s hs => ?_
      simp only [checkSection] at hcheck
      split_ifs at hcheck with hbad
      simp only [Bool.or_eq_true, not_or, Option.any_eq_true] at hbad
      by_contra hinvalid
      exact hbad.2 ⟨s, hs, by simpa using hinvalid⟩
    | «import» sections =>
      have hids : ∀ s ∈ sections, validSectionId s.id = true := by
        intro s hs
        simp only [checkSection] at hcheck
        split_ifs at hcheck with hbad
        by_contra hinvalid
        exact hbad (List.any_eq_true.mpr ⟨s, hs, by simp [hinvalid]⟩)
      have hfold : ∀ (l : List SidebarSection) (t : Clocked), (∀ s ∈ l, s ∈ sections) →
          Names NotPinnedSection t.doc →
          Names NotPinnedSection (l.foldl Clocked.importSection t).doc := by
        intro l
        induction l with
        | nil => exact fun t _ h => h
        | cons s l ih =>
          intro t hl h
          exact ih _ (fun s' hs' => hl s' (List.mem_cons_of_mem _ hs'))
            (names_importSection h (hids s (hl s List.mem_cons_self)))
      exact hfold sections _ (fun _ hs => hs) hinit

theorem names_observeSession (h : Names NotPinnedSection t.doc) (id : String) :
    Names NotPinnedSection (t.observeSession id).doc :=
  names_observe (names_observe h _ _) _ _

theorem names_placePin (h : Names NotPinnedSection t.doc) (id : String) (next : List String)
    (pinned : Bool) : Names NotPinnedSection (t.placePin id next pinned).1.doc := by
  have hkey : NotPinnedSection ⟨kindSidebarPins, id⟩ := notPinnedSection_of_kind (by decide) _
  unfold Clocked.placePin
  dsimp only
  split
  · exact names_nextHlc h
  · cases pinned
    · exact names_enqueue (names_nextHlc h) hkey
    · exact names_enqueue (names_writeSidebarLocation (names_nextHlc h) _ _) hkey

/-- **No change makes a section with the name of the pinned list.** -/
theorem names_changeSidebarPin (h : Names NotPinnedSection t.doc) (change : SidebarPinChange) :
    Names NotPinnedSection (t.changeSidebarPin change).1.doc := by
  have hinit := names_initialized h
  cases change with
  | «section» change => exact names_changeSidebarSection h change
  | pin id after before =>
    unfold Clocked.changeSidebarPin
    dsimp only
    split_ifs
    · exact h
    · exact h
    · exact h
    · exact names_placePin (names_observeSession hinit id) _ _ _
  | move id after before =>
    unfold Clocked.changeSidebarPin
    dsimp only
    split_ifs
    · exact h
    · exact names_placePin (names_observeSession hinit id) _ _ _
    · exact names_observeSession hinit id
  | unpin id =>
    unfold Clocked.changeSidebarPin
    dsimp only
    have hkey : NotPinnedSection ⟨kindSidebarPins, id⟩ := notPinnedSection_of_kind (by decide) _
    split_ifs
    · exact h
    · exact names_write (names_writeSidebarLocation (names_observeSession hinit id) _ _) hkey _
    · exact names_write (names_observeSession hinit id) hkey _

theorem names_phone (order : DictOrder) (h : Names NotPinnedSection t.doc) (id : String)
    (pinned : Option Bool) (after before : Option String) :
    Names NotPinnedSection (Phone.changeSidebarPin order t id pinned after before).1.doc := by
  have hkey : NotPinnedSection ⟨kindSidebarPins, id⟩ := notPinnedSection_of_kind (by decide) _
  have hobs : Names NotPinnedSection (Phone.observe order t id).doc := by
    unfold Phone.observe
    split
    · exact h
    · split_ifs
      · exact names_clock h _
      · exact h
  unfold Phone.changeSidebarPin
  dsimp only
  split
  · exact h
  · split
    · exact names_write hobs hkey _
    · split
      · exact hobs
      · split
        · exact hobs
        · split
          · exact names_nextHlc hobs
          · exact names_enqueue (names_nextHlc hobs) hkey

end Changes

section Frames

variable {P : RowKey → Prop} {doc : RegistryDoc}

theorem names_putRows (h : Names P doc) {rows : List RegistryRow} (hrows : ∀ r ∈ rows, P r.key)
    {key : RowKey} {r : RegistryRow} (hr : Cover.put RegistryRow.key doc.row rows key = some r) :
    P key := by
  rcases Cover.put_cases doc.row rows key with ⟨he, -⟩ | ⟨r', hr', hk, -⟩
  · rw [he] at hr
    exact h.rows key r hr
  · rw [← hk]
    exact hrows r' hr'

theorem names_applyRows (h : Names P doc) {frame : RowsFrame} (hrows : ∀ r ∈ frame.rows, P r.key) :
    Names P (doc.applyRows frame).1 := by
  refine ⟨keyed_applyRows h.keyed frame, fun key r hr => ?_, ?_⟩
  · rw [(applyRows_spec doc frame).1, RegistryDoc.row, row_putRows] at hr
    exact names_putRows h hrows hr
  · rw [(applyRows_spec doc frame).1]
    exact h.ops

theorem names_applyState (h : Names P doc) (now : ℕ → ℤ) {reply : StateReply}
    (hrows : ∀ r ∈ reply.rows, P r.key) : Names P (doc.applyState now reply).1 := by
  obtain ⟨batches, hs⟩ := applyState_spec doc now reply
  refine ⟨keyed_applyState h.keyed now reply, fun key r hr => ?_, fun b hb op hop => ?_⟩
  · rw [hs.row] at hr
    split_ifs at hr
    · rcases Cover.put_cases (fun _ => none) reply.rows key with ⟨he, -⟩ | ⟨r', hr', hk, -⟩
      · rw [he] at hr
        cases hr
      · rw [← hk]
        exact hrows r' hr'
    · exact names_putRows h hrows hr
  · rw [hs.seeds.pending] at hb
    rcases List.mem_append.mp hb with hb | hb
    · exact h.ops b hb op hop
    · -- a seed carries the key of a row held before
      have hseed := List.mem_flatMap_of_mem hb hop
      rw [hs.seeds.ops] at hseed
      obtain ⟨r, hr, rfl⟩ := List.mem_map.mp hseed
      obtain ⟨-, key, hrow, -⟩ := mem_seedRows.mp hr
      rw [key_rowToSeedOp, h.keyed key r hrow]
      exact h.rows key r hrow

theorem names_ackBatch (h : Names P doc) (batch : String) : Names P (doc.ackBatch batch).1 := by
  rw [ackBatch_fst]
  exact ⟨h.keyed, h.rows, fun b hb => h.ops b (List.mem_filter.mp hb).1⟩

end Frames

/-! ## Every run -/

namespace Fleet

variable {order : DictOrder} {σ σ' : Fleet}

/-- Nobody knows a section with the name of the pinned list. -/
structure Inv (σ : Fleet) : Prop where
  docs : ∀ d, Names NotPinnedSection (σ.docs d)
  room : ∀ key r, σ.room.row key = some r → NotPinnedSection key
  sent : ∀ r ∈ σ.sent, NotPinnedSection r.key

theorem inv_start (ids : Device → String) : (start ids).Inv where
  docs d := names_new (ids d)
  room key r hr := by simp [start, Room.row, Room.empty, Storage.empty, Storage.row] at hr
  sent r hr := by cases hr

theorem docs_setDoc_self (d : Device) (doc : RegistryDoc) : (σ.setDoc d doc).docs d = doc := by
  simp [setDoc]

theorem docs_setDoc_of_ne {d d' : Device} (h : d' ≠ d) (doc : RegistryDoc) :
    (σ.setDoc d doc).docs d' = σ.docs d' := by
  simp [setDoc, h]

theorem inv_setDoc (h : σ.Inv) (d : Device) {doc : RegistryDoc}
    (hdoc : Names NotPinnedSection doc) : (σ.setDoc d doc).Inv := by
  refine ⟨fun d' => ?_, h.room, h.sent⟩
  by_cases hd : d' = d
  · subst hd
    rw [docs_setDoc_self]
    exact hdoc
  · rw [docs_setDoc_of_ne hd]
    exact h.docs d'

theorem row_push (room : Room) {batch : String} {ops : List RowOp} {key : RowKey} {r : RegistryRow}
    (hr : (room.push batch ops).row key = some r) :
    (∃ r₀, room.row key = some r₀) ∨ ∃ op ∈ ops, op.key = key := by
  have hr : (applyPushBatch room.storage batch ops).1.row key = some r := hr
  cases hb : checkBatch batch ops with
  | some error =>
    rw [applyPushBatch_refused hb] at hr
    exact Or.inl ⟨r, hr⟩
  | none =>
    rw [(applyPushBatch_spec room.wf hb).rows] at hr
    by_cases hops : opsAt ops key = []
    · rw [hops] at hr
      exact Or.inl ⟨r, hr⟩
    · obtain ⟨op, hop⟩ := List.exists_mem_of_ne_nil _ hops
      obtain ⟨hop, hkey⟩ := List.mem_filter.mp hop
      exact Or.inr ⟨op, hop, of_decide_eq_true hkey⟩

/-- **Every step keeps the names.** -/
theorem inv_step (h : σ.Inv) {a : Act} (hs : step order σ a = some σ') : σ'.Inv := by
  cases a with
  | change n now change =>
    cases hs
    exact inv_setDoc h _
      (names_changeSidebarPin (t := ⟨σ.docs (.desktop n), now⟩) (h.docs _) change)
  | tap n now id pinned after before =>
    cases hs
    exact inv_setDoc h _
      (names_phone (t := ⟨σ.docs (.phone n), now⟩) order (h.docs _) id pinned after before)
  | ready n now =>
    cases hs
    refine inv_setDoc h _ ?_
    unfold Phone.initializeSidebarPins
    split_ifs
    · exact h.docs _
    · exact names_write (t := ⟨σ.docs (.phone n), now⟩) (h.docs _)
        (notPinnedSection_of_kind (by decide) _) _
  | write d now key op set =>
    simp only [step] at hs
    split_ifs at hs with hkind
    cases hs
    have hne : key.kind ≠ kindSections := fun he => hkind (he ▸ sections_mem)
    exact inv_setDoc h d (names_doc_write (h.docs d) now
      (notPinnedSection_of_kind hne key.id) op set)
  | push d b =>
    simp only [step] at hs
    split_ifs at hs with hb
    cases hs
    have hroom : ∀ key r, (σ.room.push b.batch b.ops).row key = some r → NotPinnedSection key := by
      intro key r hr
      rcases row_push σ.room hr with ⟨r₀, hr₀⟩ | ⟨op, hop, rfl⟩
      · exact h.room key r₀ hr₀
      · exact (h.docs d).ops b hb op hop
    refine ⟨h.docs, hroom, fun r hr => ?_⟩
    rcases List.mem_append.mp hr with hr | hr
    · exact h.sent r hr
    · obtain ⟨⟨key, r'⟩, hmem, rfl⟩ := List.mem_map.mp hr
      have hrow : (σ.room.push b.batch b.ops).row key = some r' :=
        ExtTreeMap.mem_toList_iff_getElem?_eq_some.mp hmem
      rw [(σ.room.push b.batch b.ops).wf.keyed key r' hrow]
      exact hroom key r' hrow
  | ack d batch =>
    cases hs
    exact inv_setDoc h d (names_ackBatch (h.docs d) batch)
  | rows d frame =>
    simp only [step] at hs
    split_ifs at hs with hsent
    cases hs
    exact inv_setDoc h d (names_applyRows (h.docs d) fun r hr => h.sent r (hsent hr))
  | state d now reply =>
    simp only [step] at hs
    split_ifs at hs with hsent
    cases hs
    exact inv_setDoc h d (names_applyState (h.docs d) now fun r hr => h.sent r (hsent hr))

theorem inv_exec {ids : Device → String} {acts : List Act}
    (he : Run.exec (step order) (start ids) acts = some σ) : σ.Inv :=
  Run.exec_invariant (G := fun _ _ => True) (fun _ _ _ hI _ hs => inv_step hI hs) (inv_start ids)
    (fun _ _ _ _ _ _ => trivial) he

end Fleet

/-! ## Batches that write no place -/

/-- An op that writes neither a session's location nor its pinned flag. -/
def Placeless (op : RowOp) : Prop :=
  op.kind ≠ kindLocations ∧
    (op.kind = kindSidebarPins → op.op ≠ .delete ∧ op.writeAt "pinned" = none)

/-- A device that has the room's rows and nothing unsent. -/
def viewer (rows : Table) : RegistryDoc := { RegistryDoc.new "" with authoritative := rows }

theorem overlayRow_viewer (rows : Table) (key : RowKey) :
    (viewer rows).overlayRow key = rows[key]?.filter (!·.deleted) := rfl

theorem regOf_stampOp {n : ℕ} {row : Option RegistryRow} {op : RowOp} {f : String}
    (hop : op.op ≠ .delete) (hf : op.writeAt f = none) :
    regOf ((stampOp n row op).filter (!·.deleted)) f = regOf (row.filter (!·.deleted)) f := by
  cases hch : (applyOp row op.plain).2 with
  | false => rw [stampOp_unchanged hch]
  | true =>
    have hplain : op.plain.writeAt f = none := by
      rw [writeAt_plain, hf, ite_self]
    have hop : op.plain.op ≠ .delete := hop
    cases hb : baseFor row op.plain with
    | none =>
      rw [applyOp_skip hop hb] at hch
      cases hch
    | some base =>
      have hdel := baseFor_deleted hb
      rw [stampOp_changed hch, (applyOp_write hop hb).1, Option.map_some,
        Option.filter_some_pos (by simp [RegistryRow.atSeq, hdel])]
      change (((base.merge op.plain).atSeq n).reg f) = _
      rw [reg_atSeq, reg_merge_none hplain]
      by_cases hlive : Live row
      · obtain ⟨r, rfl, hr⟩ := hlive
        rw [baseFor_live hr] at hb
        cases hb
        rw [Option.filter_some_pos (by simp [hr])]
        rfl
      · rw [reg_baseFor hlive hb]
        cases row with
        | none => rfl
        | some r =>
          rw [live_some, Bool.not_eq_false] at hlive
          rw [Option.filter_some_neg (by simp [hlive])]
          rfl

theorem regOf_rowAfter {n : ℕ} {row : Option RegistryRow} {ops : List RowOp} {f : String}
    (hops : ∀ op ∈ ops, op.op ≠ .delete ∧ op.writeAt f = none) :
    regOf ((rowAfter n row ops).filter (!·.deleted)) f = regOf (row.filter (!·.deleted)) f := by
  induction ops using List.reverseRecOn with
  | nil => rfl
  | append_singleton ops op ih =>
    have hop := hops op (by simp)
    rw [rowAfter_concat, regOf_stampOp hop.1 hop.2]
    exact ih fun op' hop' => hops op' (List.mem_append_left _ hop')

/-- **A batch that writes no place moves no session**, on desktops and on phones. -/
theorem places_push (room : Room) {batch : String} {ops : List RowOp}
    (hops : ∀ op ∈ ops, Placeless op) (id : String) :
    placement (viewer (room.push batch ops).storage.rows) id =
        placement (viewer room.storage.rows) id ∧
      flagged (viewer (room.push batch ops).storage.rows) id =
        flagged (viewer room.storage.rows) id := by
  have hreg : ∀ {key : RowKey} {f : String},
      (∀ op ∈ opsAt ops key, op.op ≠ .delete ∧ op.writeAt f = none) →
      overlayReg (viewer (room.push batch ops).storage.rows) key f =
        overlayReg (viewer room.storage.rows) key f := by
    intro key f hkey
    rw [overlayReg, overlayReg, overlayRow_viewer, overlayRow_viewer]
    change regOf (((applyPushBatch room.storage batch ops).1.row key).filter _) f =
      regOf ((room.storage.row key).filter _) f
    cases hb : checkBatch batch ops with
    | some error => rw [applyPushBatch_refused hb]
    | none => rw [(applyPushBatch_spec room.wf hb).rows, regOf_rowAfter hkey]
  have hlocation : ∀ op ∈ opsAt ops ⟨kindLocations, id⟩,
      op.op ≠ .delete ∧ op.writeAt "location" = none := by
    intro op hop
    obtain ⟨hop, hkey⟩ := List.mem_filter.mp hop
    exact absurd (congrArg RowKey.kind (of_decide_eq_true hkey)) (hops op hop).1
  have hflag : ∀ op ∈ opsAt ops ⟨kindSidebarPins, id⟩,
      op.op ≠ .delete ∧ op.writeAt "pinned" = none := by
    intro op hop
    obtain ⟨hop, hkey⟩ := List.mem_filter.mp hop
    exact (hops op hop).2 (congrArg RowKey.kind (of_decide_eq_true hkey))
  rw [placement_eq, placement_eq, flagged, flagged, hreg hlocation, hreg hflag]
  exact ⟨rfl, rfl⟩

/-! ## Moves -/

/-- Every op added to the queue writes no place. -/
def AddsPlaceless (doc doc' : RegistryDoc) : Prop :=
  ∀ b ∈ doc'.pending, b ∈ doc.pending ∨ ∀ op ∈ b.ops, Placeless op

section Moves

variable {t : Clocked} {doc doc' doc'' : RegistryDoc}

theorem AddsPlaceless.refl (doc : RegistryDoc) : AddsPlaceless doc doc := fun _ hb => Or.inl hb

theorem AddsPlaceless.trans (h : AddsPlaceless doc doc') (h' : AddsPlaceless doc' doc'') :
    AddsPlaceless doc doc'' := by
  intro b hb
  rcases h' b hb with hb | hb
  · exact h b hb
  · exact Or.inr hb

theorem addsPlaceless_enqueue (t : Clocked) {op : RowOp} (hop : Placeless op) :
    AddsPlaceless t.doc (t.enqueue op).doc := by
  intro b hb
  obtain ⟨batches, hq⟩ := enqueueOps_spec t.doc t.now [op]
  have hb : b ∈ (t.doc.enqueueOps t.now [op]).pending := hb
  rw [hq.pending, List.mem_append] at hb
  rcases hb with hb | hb
  · exact Or.inl hb
  · refine Or.inr fun op' hop' => ?_
    have hmem := List.mem_flatMap_of_mem hb hop'
    rw [hq.ops, List.mem_singleton] at hmem
    rwa [hmem]

theorem addsPlaceless_initialized (t : Clocked) :
    AddsPlaceless t.doc t.initializeSidebarPins.doc := by
  unfold Clocked.initializeSidebarPins
  split_ifs
  · exact AddsPlaceless.refl t.doc
  · rw [write_eq]
    exact addsPlaceless_enqueue t.nextHlc.1
      ⟨show kindPreferences ≠ kindLocations by decide,
        fun h => absurd h (show kindPreferences ≠ kindSidebarPins by decide)⟩

theorem placeless_orderKey (id key : String) (hlc : Hlc) :
    Placeless { kind := kindSidebarPins, id, op := .upsert, set := some {("orderKey", .str key)}
                hlc, clocks := none } := by
  refine ⟨show kindSidebarPins ≠ kindLocations by decide, fun _ => ⟨by simp, ?_⟩⟩
  change (({("orderKey", .str key)} : SMap Json)["pinned"]?.map _) = none
  rw [getElem?_singleton_field, if_neg (by decide), Option.map_none]

/-- **A move on a desktop writes no place.** -/
theorem addsPlaceless_move (t : Clocked) (id : String) (after before : Option String) :
    AddsPlaceless t.doc (t.changeSidebarPin (.move id after before)).1.doc := by
  have hready : AddsPlaceless t.doc (t.initializeSidebarPins.observeSession id).doc :=
    addsPlaceless_initialized t
  unfold Clocked.changeSidebarPin
  dsimp only
  split_ifs
  · exact AddsPlaceless.refl t.doc
  · refine hready.trans ?_
    unfold Clocked.placePin
    dsimp only
    split
    · exact AddsPlaceless.refl _
    · exact addsPlaceless_enqueue _ (placeless_orderKey _ _ _)
  · exact hready

/-- **So does one on a phone.** -/
theorem addsPlaceless_phone_move (order : DictOrder) (t : Clocked) (id : String)
    (after before : Option String) :
    AddsPlaceless t.doc (Phone.changeSidebarPin order t id none after before).1.doc := by
  have hobs : AddsPlaceless t.doc (Phone.observe order t id).doc := by
    unfold Phone.observe
    split
    · exact AddsPlaceless.refl t.doc
    · split_ifs
      · exact AddsPlaceless.refl t.doc
      · exact AddsPlaceless.refl t.doc
  unfold Phone.changeSidebarPin
  dsimp only
  split
  · exact AddsPlaceless.refl t.doc
  · split
    · rename_i hfalse
      cases hfalse
    · split
      · exact hobs
      · split
        · exact hobs
        · refine hobs.trans ?_
          split
          · exact AddsPlaceless.refl _
          · exact addsPlaceless_enqueue _ (placeless_orderKey _ _ _)

end Moves

/-! ## What is shown -/

/-- The same rows and the same unsent ops. -/
def SameRows (doc doc' : RegistryDoc) : Prop :=
  doc.row = doc'.row ∧ doc.pending.flatMap (·.ops) = doc'.pending.flatMap (·.ops)

section Shown

variable {doc doc' : RegistryDoc}

theorem names_overlayRow {P : RowKey → Prop} (h : Names P doc) {key : RowKey} {r : RegistryRow}
    (hr : doc.overlayRow key = some r) : P key := by
  by_contra hkey
  have hrow : doc.row key = none := by
    cases hrow : doc.row key with
    | none => rfl
    | some r' => exact absurd (h.rows key r' hrow) hkey
  have hops : ∀ op ∈ doc.pending.flatMap (·.ops), op.key ≠ key := by
    rintro op hop rfl
    obtain ⟨b, hb, hop⟩ := List.mem_flatMap.mp hop
    exact hkey (h.ops b hb op hop)
  rw [overlayRow_eq, held, foldl_other hops, hrow] at hr
  cases hr

/-- **No session is listed twice.** -/
theorem nodup_listed (h : Names NotPinnedSection doc) :
    ((orderedSidebarPins doc).map (·.1) ++
      (sidebarSections doc).flatMap (·.sessionIds)).Nodup := by
  have hk := h.keyed
  have hplace : ∀ s ∈ sidebarSections doc, ∀ id ∈ s.sessionIds, placement doc id = s.id := by
    intro s hs id hid
    rw [sessionIds_of_mem hs, mem_sectionMembers hk] at hid
    exact hid.2
  have hproper : ∀ s ∈ sidebarSections doc, s.id ≠ "pinned" := by
    rintro s hs hid
    obtain ⟨r, hr, -, name, -, rfl⟩ := mem_sidebarSections.mp hs
    have hr : doc.overlayRow ⟨kindSections, r.id⟩ = some r := (mem_overlayRows_iff hk).mp hr
    exact names_overlayRow h hr (congrArg (RowKey.mk kindSections) hid)
  rw [List.nodup_append]
  refine ⟨nodup_orderedSidebarPins hk, ?_, ?_⟩
  · rw [List.nodup_flatMap]
    refine ⟨fun s hs => ?_, ?_⟩
    · rw [sessionIds_of_mem hs]
      exact nodup_sectionMembers hk s.id
    · have hdistinct := List.pairwise_map.mp (nodup_sectionIds hk)
      refine hdistinct.imp_of_mem fun {s s'} hs hs' hne id hid hid' => hne ?_
      rw [← hplace s hs id hid, hplace s' hs' id hid']
  · rintro id hpin id' hid rfl
    obtain ⟨⟨y, key⟩, hmem, rfl⟩ := List.mem_map.mp hpin
    obtain ⟨s, hs, hid⟩ := List.mem_flatMap.mp hid
    rw [mem_orderedSidebarPins hk, pinKey] at hmem
    split_ifs at hmem with hpinned
    exact hproper s hs ((hplace s hs y hid).symm.trans hpinned)

theorem SameRows.overlayRow (h : SameRows doc doc') : doc.overlayRow = doc'.overlayRow := by
  funext key
  rw [overlayRow_eq, overlayRow_eq, held, held, h.1, h.2]

theorem SameRows.overlayRows (h : SameRows doc doc') (kind : String) :
    overlayRows doc kind = overlayRows doc' kind := by
  have hrows : doc.authoritative = doc'.authoritative :=
    ExtTreeMap.ext_getElem? fun key => congrFun h.1 key
  rw [Sidebar.overlayRows, Sidebar.overlayRows, overlayIds, overlayIds, hrows, h.2, h.overlayRow]

theorem SameRows.location (h : SameRows doc doc') (id : String) (pin : Option RegistryRow) :
    sidebarLocation doc id pin = sidebarLocation doc' id pin := by
  simp only [sidebarLocation, h.overlayRow]

theorem SameRows.pins (h : SameRows doc doc') :
    orderedSidebarPins doc = orderedSidebarPins doc' := by
  simp only [orderedSidebarPins, sidebarLocationIsPinned, h.location, h.overlayRows]
  rfl

theorem SameRows.members (h : SameRows doc doc') (sectionId : String) :
    sectionMembers doc sectionId = sectionMembers doc' sectionId := by
  simp only [sectionMembers, h.location, h.overlayRow, h.overlayRows]

/-- **Desktops with the same rows show the same sidebar.** -/
theorem SameRows.preferences (h : SameRows doc doc') :
    sidebarPreferences doc = sidebarPreferences doc' := by
  simp only [sidebarPreferences, sidebarPinsInitialized, sidebarSections, h.pins, h.members,
    h.overlayRow, h.overlayRows]
  rfl

theorem SameRows.phone_pins (h : SameRows doc doc') (order : DictOrder) :
    Phone.orderedSidebarPins order doc = Phone.orderedSidebarPins order doc' := by
  simp only [Phone.orderedSidebarPins, phone_overlayRows, h.overlayRows]

end Shown

namespace Fleet

variable {order : DictOrder}

/-- A move, and the device it is made on. -/
inductive Move : Act → Device → Prop
  | desktop (n : ℕ) (now : ℕ → ℤ) (id : String) (after before : Option String) :
    Move (.change n now (.move id after before)) (.desktop n)
  | phone (n : ℕ) (now : ℕ → ℤ) (id : String) (after before : Option String) :
    Move (.tap n now id none after before) (.phone n)

theorem addsPlaceless_of_move {σ σ' : Fleet} {a : Act} {d : Device} (hm : Move a d)
    (hs : step order σ a = some σ') : AddsPlaceless (σ.docs d) (σ'.docs d) := by
  cases hm with
  | desktop n now id after before =>
    cases hs
    rw [docs_setDoc_self]
    exact addsPlaceless_move ⟨σ.docs (.desktop n), now⟩ id after before
  | phone n now id after before =>
    cases hs
    rw [docs_setDoc_self]
    exact addsPlaceless_phone_move order ⟨σ.docs (.phone n), now⟩ id after before

end Fleet

/-- Dictionaries iterated in key order. -/
def keyOrder : DictOrder := ⟨fun m => m.toList, @toList_perm⟩

/-- A script whose lines depend on the fleet they find. -/
def follow (order : DictOrder) : List (Fleet → List Act) → Fleet → Option Fleet
  | [], σ => some σ
  | line :: rest, σ => (Run.exec (Fleet.step order) σ (line σ)).bind (follow order rest)

theorem exec_of_follow {order : DictOrder} {script : List (Fleet → List Act)} {σ σ' : Fleet}
    (h : follow order script σ = some σ') :
    ∃ acts, Run.exec (Fleet.step order) σ acts = some σ' := by
  induction script generalizing σ with
  | nil => exact ⟨[], h⟩
  | cons line rest ih =>
    obtain ⟨σ₁, h₁, h⟩ := Option.bind_eq_some_iff.mp h
    obtain ⟨acts, hacts⟩ := ih h
    refine ⟨line σ ++ acts, ?_⟩
    rw [Run.exec_append, h₁]
    exact hacts

/-- Everything unsent of a device reaches the room. -/
def pushes (d : Device) (σ : Fleet) : List Act := (σ.docs d).pending.map (.push d)

/-- A device is sent the whole state. -/
def welcome (d : Device) (σ : Fleet) : List Act :=
  [.state d (fun _ => 0) (σ.room.storage.stateSince none)]

def named : Device → String
  | .desktop 0 => "a"
  | .desktop _ => "b"
  | .phone _ => "c"

/-- One desktop pins a session with clocks on both sides of the other's assignment. -/
def crossed : List (Fleet → List Act) :=
  [fun _ => [.write (.desktop 0) (fun _ => 5) ⟨kindChats, "s"⟩ .upsert ∅,
      .change 0 (fun _ => 5) (.section (.create "f" "Focus"))],
    pushes (.desktop 0), welcome (.desktop 1),
    fun _ => [.change 0 (fun n => if n = 0 then 100000 else 200000) (.pin "s" none none),
      .change 1 (fun _ => 150000) (.section (.assign "s" (some "f")))],
    pushes (.desktop 0), pushes (.desktop 1), welcome (.desktop 2), welcome (.phone 0)]

theorem exec_crossed : ∃ acts σ,
    Run.exec (Fleet.step keyOrder) (Fleet.start named) acts = some σ ∧
    (σ.docs (.desktop 2)).authoritative = (σ.docs (.phone 0)).authoritative ∧
    ((σ.docs (.desktop 2)).pending = [] ∧ (σ.docs (.phone 0)).pending = []) ∧
    (orderedSidebarPins (σ.docs (.desktop 2))).map (·.1) = ["s"] ∧
    Phone.orderedSidebarPins keyOrder (σ.docs (.phone 0)) = [] := by
  have hrun : (follow keyOrder crossed (Fleet.start named)).any (fun σ => decide (
      (σ.docs (.desktop 2)).authoritative = (σ.docs (.phone 0)).authoritative ∧
      ((σ.docs (.desktop 2)).pending = [] ∧ (σ.docs (.phone 0)).pending = []) ∧
      (orderedSidebarPins (σ.docs (.desktop 2))).map (·.1) = ["s"] ∧
      Phone.orderedSidebarPins keyOrder (σ.docs (.phone 0)) = [])) = true := by decide +kernel
  obtain ⟨σ, hσ, h⟩ := (Option.any_eq_true _ _).mp hrun
  obtain ⟨acts, hacts⟩ := exec_of_follow hσ
  exact ⟨acts, σ, hacts, of_decide_eq_true h⟩

end Zeron.Sidebar
