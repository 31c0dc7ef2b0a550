import Zeron.Session.Queue

/-!
# Queue rows are addressable, and taken once

Reading and editing meet at the id: a row is found again when no earlier element bears its id,
raw or as read.

* `Placed`: an element and what stands before and after it, under the raw id it stores;
  `removeQueued_placed`, `editQueued_placed`, `takeQueued_placed`: every operation at its place;
* `QueueAct`, `QueueRun`: any order of local operations and merges of a peer's updates, with what
  the takes handed out; `distinct_apply`, `inv_step`, `inv_run`;
* **`queue_rows_kept`**: a row that is the first to bear its id can be edited, removed and taken
  by it, unless its delivery gate holds it back; nothing else is deleted; a run takes each row
  once.
-/

namespace Zeron.Session

/-! ## Where an id is found -/

/-- The first element that stores `id` is `e`, behind `pre`. -/
structure Placed (D : Queue) (id : String) (pre : Queue) (e : QueueItem) (post : Queue) : Prop where
  split : D = pre ++ e :: post
  stored : e.storedId = some id
  first : ∀ x ∈ pre, x.storedId ≠ some id

theorem Placed.indexOf {D pre post : Queue} {id : String} {e : QueueItem}
    (h : Placed D id pre e post) : indexOf D id = some pre.length := by
  obtain ⟨rfl, hstored, hfirst⟩ := h
  unfold Session.indexOf
  induction pre with
  | nil => simp [List.findIdx?_cons, hstored]
  | cons x pre ih =>
    have hx : x.storedId ≠ some id := hfirst x List.mem_cons_self
    simp [List.findIdx?_cons, hx, ih fun y hy => hfirst y (List.mem_cons_of_mem _ hy)]

theorem Placed.getElem {D pre post : Queue} {id : String} {e : QueueItem}
    (h : Placed D id pre e post) : D[pre.length]? = some e := by
  rw [h.split]
  simp

theorem first_or_none (D : Queue) (p : QueueItem → Prop) :
    (∃ pre e post, D = pre ++ e :: post ∧ p e ∧ ∀ x ∈ pre, ¬ p x) ∨ ∀ x ∈ D, ¬ p x := by
  classical
  cases h : D.find? (p ·) with
  | none => exact .inr fun x hx => by simpa using List.find?_eq_none.mp h x hx
  | some e =>
    obtain ⟨he, pre, post, rfl, hpre⟩ := List.find?_eq_some_iff_append.mp h
    exact .inl ⟨pre, e, post, rfl, by simpa using he, fun x hx => by simpa using hpre x hx⟩

theorem placed_or_absent (D : Queue) (id : String) :
    (∃ pre e post, Placed D id pre e post) ∨ indexOf D id = none := by
  rcases first_or_none D (·.storedId = some id) with ⟨pre, e, post, hsplit, hstored, hfirst⟩ | h
  · exact .inl ⟨pre, e, post, hsplit, hstored, hfirst⟩
  · exact .inr (by simpa [indexOf] using h)

section Place

variable {D pre post : Queue} {id : String} {e : QueueItem}

theorem eraseIdx_placed (h : Placed D id pre e post) : D.eraseIdx pre.length = pre ++ post := by
  rw [h.split, List.eraseIdx_append_of_length_le (Nat.le_refl _)]
  simp

theorem removeQueued_placed (h : Placed D id pre e post) :
    removeQueued D id = (true, pre ++ post) := by
  rw [removeQueued, h.indexOf]
  exact congrArg (Prod.mk true) (eraseIdx_placed h)

theorem editQueued_placed (h : Placed D id pre e post) (f : Fields → Option Fields) :
    ∃ fields, e = ⟨e.cid, .map fields⟩ ∧ editQueued D id f =
      match f fields with
      | some fields' => (true, pre ++ ⟨e.cid, .map fields'⟩ :: post)
      | none => (false, D) := by
  obtain ⟨fields, he, -⟩ := map_of_stored h.stored
  refine ⟨fields, he, ?_⟩
  have hget : D[pre.length]? = some ⟨e.cid, .map fields⟩ := he ▸ h.getElem
  rw [editQueued, h.indexOf]
  simp only [hget]
  cases f fields with
  | none => rfl
  | some fields' =>
    simp only [h.split, List.set_append_right _ _ (Nat.le_refl pre.length), Nat.sub_self,
      List.set_cons_zero]

theorem takeQueued_placed (h : Placed D id pre e post) :
    takeQueued D id =
      if ((readQueue D).find? (·.id = id)).any (·.deliveryGate.isSome) then (none, D)
      else ((readQueue D).find? (·.id = id), pre ++ post) := by
  rw [takeQueued, h.indexOf]
  simp only [eraseIdx_placed h]

end Place

/-- An element bears an id: it stores it raw, or reads as a row under it. -/
def QueueItem.Bears (e : QueueItem) (id : String) : Prop :=
  e.storedId = some id ∨ ∃ m, e.row? = some m ∧ m.id = id

/-- The element `e` behind `pre` is the first to bear `id`, and stores it raw. -/
structure Addressed (pre : Queue) (e : QueueItem) (id : String) : Prop where
  stored : e.storedId = some id
  first : ∀ x ∈ pre, ¬ x.Bears id

theorem Addressed.placed {pre : Queue} {e : QueueItem} {id : String} (h : Addressed pre e id)
    (post : Queue) : Placed (pre ++ e :: post) id pre e post :=
  ⟨rfl, h.stored, fun x hx hs => h.first x hx (.inl hs)⟩

theorem find_addressed {pre : Queue} {e : QueueItem} {m : QueuedMessage}
    (h : Addressed pre e m.id) (hm : e.row? = some m) (post : Queue) :
    (readQueue (pre ++ e :: post)).find? (·.id = m.id) = some m := by
  have hpre : (readQueue pre).find? (·.id = m.id) = none := by
    rw [List.find?_eq_none]
    intro x hx hid
    obtain ⟨y, hy, hxy⟩ := List.mem_filterMap.mp hx
    exact h.first y hy (.inr ⟨x, hxy, by simpa using hid⟩)
  rw [readQueue, List.filterMap_append, List.filterMap_cons_some hm, List.find?_append]
  rw [readQueue] at hpre
  simp [hpre]

/-- **A take of an addressed row**: its gate holds it back, or it is handed out and deleted. -/
theorem takeQueued_addressed {pre : Queue} {e : QueueItem} {m : QueuedMessage}
    (h : Addressed pre e m.id) (hm : e.row? = some m) (post : Queue) :
    takeQueued (pre ++ e :: post) m.id =
      if m.deliveryGate.isSome then (none, pre ++ e :: post) else (some m, pre ++ post) := by
  rw [takeQueued_placed (h.placed post), find_addressed h hm post]
  rfl

theorem setQueuedText_addressed {pre : Queue} {e : QueueItem} {m : QueuedMessage}
    (h : Addressed pre e m.id) (hm : e.row? = some m) (post : Queue) {text : String} (now : ℤ)
    (ht : isBlank text = false) :
    (m.text = text ∧
      setQueuedText (pre ++ e :: post) m.id text now = (false, pre ++ e :: post)) ∨
    ∃ e', e'.cid = e.cid ∧ e'.row? = some { m with text, editedAt := some now } ∧
      setQueuedText (pre ++ e :: post) m.id text now = (true, pre ++ e' :: post) := by
  obtain ⟨fields, he, hedit⟩ := editQueued_placed (h.placed post)
    (fun fields => if unchanged text fields then none else some (retype text now fields))
  rw [setQueuedText, ht, if_neg Bool.false_ne_true, hedit]
  by_cases hu : unchanged text fields
  · exact .inl ⟨text_of_unchanged (he ▸ hm) hu, by rw [if_pos hu]⟩
  · exact .inr ⟨⟨e.cid, .map (retype text now fields)⟩, rfl, row_retype (he ▸ hm) ht,
      by rw [if_neg hu]⟩

theorem finishQueuedEdit_addressed {pre : Queue} {e : QueueItem} {m : QueuedMessage}
    (h : Addressed pre e m.id) (hm : e.row? = some m) (post : Queue)
    {replacement : Option String} (attachments : Option (List String)) (now : ℤ)
    (hr : replacement.any isBlank = false) :
    ∃ e' changed, e'.cid = e.cid ∧
      e'.row? = some (m.finished changed replacement attachments now) ∧
      finishQueuedEdit (pre ++ e :: post) m.id replacement attachments now =
        (true, pre ++ e' :: post) := by
  obtain ⟨fields, he, hedit⟩ := editQueued_placed (h.placed post)
    (fun fields => some (finishEdit replacement attachments now fields))
  refine ⟨⟨e.cid, .map (finishEdit replacement attachments now fields)⟩, _, rfl,
    row_finish attachments now (he ▸ hm) hr, ?_⟩
  rw [finishQueuedEdit, hr, if_neg Bool.false_ne_true, hedit]

theorem setQueuedDeliveryGate_addressed {pre : Queue} {e : QueueItem} {m : QueuedMessage}
    (h : Addressed pre e m.id) (hm : e.row? = some m) (post : Queue)
    (gate : Option QueueDeliveryGate) :
    ∃ e', e'.cid = e.cid ∧ e'.row? = some { m with deliveryGate := gate } ∧
      setQueuedDeliveryGate (pre ++ e :: post) m.id gate = (true, pre ++ e' :: post) := by
  cases gate with
  | none =>
    obtain ⟨fields, he, hedit⟩ := editQueued_placed (h.placed post) fun fields =>
      some (fields.erase "deliveryGate")
    exact ⟨⟨e.cid, .map _⟩, rfl, row_release (he ▸ hm), hedit⟩
  | some gate =>
    obtain ⟨fields, he, hedit⟩ := editQueued_placed (h.placed post) fun fields =>
      some (fields.insert "deliveryGate" (.value (gateToJson gate)))
    exact ⟨⟨e.cid, .map _⟩, rfl, row_gate gate (he ▸ hm), hedit⟩

/-! ## Runs -/

inductive QueueAct where
  | push (cid : ℕ) (m : QueuedMessage)
  | insert (cid index : ℕ) (m : QueuedMessage)
  | setText (id text : String) (now : ℤ)
  | setGate (id : String) (gate : Option QueueDeliveryGate)
  | finishEdit (id : String) (replacement : Option String) (attachments : Option (List String))
      (now : ℤ)
  | move (id : String) (target : ℕ)
  | remove (id : String)
  | take (id : String)
  | takeHead
  /-- Peers' updates are imported: any list of distinct elements. -/
  | merge (D' : Queue)

def cids (D : Queue) : List ℕ := D.map QueueItem.cid

/-- What an operation hands out and leaves. -/
def QueueAct.apply (D : Queue) : QueueAct → Option QueuedMessage × Queue
  | .push cid m => (none, (pushQueued D cid m).toOption.getD D)
  | .insert cid index m => (none, (insertQueued D cid index m).toOption.getD D)
  | .setText id text now => (none, (setQueuedText D id text now).2)
  | .setGate id gate => (none, (setQueuedDeliveryGate D id gate).2)
  | .finishEdit id replacement attachments now =>
    (none, (finishQueuedEdit D id replacement attachments now).2)
  | .move id target => (none, (moveQueued D id target).2)
  | .remove id => (none, (removeQueued D id).2)
  | .take id => takeQueued D id
  | .takeHead => takeQueueHead D
  | .merge D' => (none, D')

/-- The first element to bear `id`, where there is one, stores it raw and reads under it. -/
def Clear (D : Queue) (id : String) : Prop :=
  ∀ (pre : List QueueItem) (e : QueueItem) (post : List QueueItem), D = pre ++ e :: post →
    e.Bears id → (∀ x ∈ pre, ¬ x.Bears id) →
    e.storedId = some id ∧ ∃ m, e.row? = some m ∧ m.id = id

/-- New containers are new, merged lists hold no element twice, and takes are by a clear id. -/
def QueueAct.Admits (D : Queue) : QueueAct → Prop
  | .push cid _ | .insert cid _ _ => cid ∉ cids D
  | .take id => Clear D id
  | .takeHead => ∀ m, (readQueue D).head? = some m → Clear D m.id
  | .merge D' => (cids D').Nodup
  | _ => True

/-- A queue, the messages its takes handed out so far, each of these with the element deleted for
it, and every entry of an element. -/
structure QueueRun where
  queue : Queue
  sent : List QueuedMessage
  taken : List (QueueItem × QueuedMessage)
  entered : List ℕ

/-- The elements of `D` that are gone in `D'`. -/
def gone (D D' : Queue) : List QueueItem := D.filter (·.cid ∉ cids D')

def QueueRun.step (s : QueueRun) (a : QueueAct) : QueueRun :=
  let (out, D') := a.apply s.queue
  { queue := D'
    sent := s.sent ++ out.toList
    taken := s.taken ++ (out.toList.flatMap fun m => (gone s.queue D').map (·, m))
    entered := s.entered ++ (cids D').filter (· ∉ cids s.queue) }

def QueueRun.run (s : QueueRun) (acts : List QueueAct) : QueueRun := acts.foldl QueueRun.step s

/-- Every step of a run is admitted where it is taken. -/
def QueueRun.Admitted (s : QueueRun) : List QueueAct → Prop
  | [] => True
  | a :: acts => a.Admits s.queue ∧ (s.step a).Admitted acts

def QueueRun.start (D : Queue) : QueueRun := { queue := D, sent := [], taken := [], entered := cids D }

/-! ## Accounting -/

/-- **A take by a clear id**: nothing, or the element that reads as the message. -/
theorem take_cases {D : Queue} {id : String} (h : Clear D id) :
    takeQueued D id = (none, D) ∨ ∃ pre e post m, D = pre ++ e :: post ∧ e.row? = some m ∧
      takeQueued D id = (some m, pre ++ post) := by
  rcases first_or_none D (·.Bears id) with ⟨pre, e, post, rfl, hbears, hfirst⟩ | hnone
  · obtain ⟨hstored, m, hm, rfl⟩ := h pre e post rfl hbears hfirst
    have htake := takeQueued_addressed ⟨hstored, hfirst⟩ hm post
    by_cases hgate : m.deliveryGate.isSome
    · exact .inl (by rw [htake, if_pos hgate])
    · exact .inr ⟨pre, e, post, m, rfl, hm, by rw [htake, if_neg hgate]⟩
  · have hindex : indexOf D id = none := by
      rcases placed_or_absent D id with ⟨pre, e, post, hp⟩ | hindex
      · exact absurd (.inl hp.stored) (hnone e (by rw [hp.split]; simp))
      · exact hindex
    exact .inl (by rw [takeQueued, hindex])

theorem takeHead_cases {D : Queue} (h : ∀ m, (readQueue D).head? = some m → Clear D m.id) :
    takeQueueHead D = (none, D) ∨ ∃ pre e post m, D = pre ++ e :: post ∧ e.row? = some m ∧
      takeQueueHead D = (some m, pre ++ post) := by
  unfold takeQueueHead
  cases hread : readQueue D with
  | nil => exact .inl rfl
  | cons head rest => exact take_cases (h head (by rw [hread]; rfl))

theorem cids_edit (D : Queue) (id : String) (f : Fields → Option Fields) :
    cids (editQueued D id f).2 = cids D := by
  rcases placed_or_absent D id with ⟨pre, e, post, hp⟩ | hindex
  · obtain ⟨fields, -, hedit⟩ := editQueued_placed hp f
    rw [hedit]
    cases f fields with
    | none => rfl
    | some fields' => simp [cids, hp.split]
  · rw [editQueued, hindex]

theorem cids_remove (D : Queue) (id : String) :
    (cids (removeQueued D id).2).Sublist (cids D) := by
  unfold removeQueued
  cases indexOf D id with
  | none => exact List.Sublist.refl _
  | some i => exact (List.eraseIdx_sublist D i).map _

theorem cids_move (D : Queue) (id : String) (target : ℕ) :
    (cids (moveQueued D id target).2).Perm (cids D) := by
  rcases placed_or_absent D id with ⟨pre, e, post, hp⟩ | hindex
  · rw [moveQueued, hp.indexOf]
    simp only [hp.getElem, eraseIdx_placed hp]
    split_ifs with h
    · exact .refl _
    · refine List.Perm.map _ ((List.perm_insertIdx _ _ ?_).trans ?_)
      · rw [hp.split, List.length_append, List.length_append, List.length_cons]
        omega
      · rw [hp.split]
        exact List.perm_middle.symm
  · rw [moveQueued, hindex]

theorem apply_cases {D : Queue} {a : QueueAct} (ha : a.Admits D) :
    (a.apply D).1 = none ∨ ∃ pre e post m, D = pre ++ e :: post ∧ e.row? = some m ∧
      a.apply D = (some m, pre ++ post) := by
  cases a with
  | take id => exact (take_cases ha).imp_left fun h => congrArg Prod.fst h
  | takeHead => exact (takeHead_cases ha).imp_left fun h => congrArg Prod.fst h
  | _ => exact .inl rfl

theorem distinct_erase {pre post : Queue} {e : QueueItem} (h : (cids (pre ++ e :: post)).Nodup) :
    (cids (pre ++ post)).Nodup :=
  h.sublist (((List.sublist_cons_self e post).append_left pre).map _)

theorem distinct_take {D : Queue} (hD : (cids D).Nodup) {r : Option QueuedMessage × Queue}
    (h : r = (none, D) ∨ ∃ pre e post m, D = pre ++ e :: post ∧ e.row? = some m ∧
      r = (some m, pre ++ post)) : (cids r.2).Nodup := by
  rcases h with rfl | ⟨pre, e, post, m, rfl, -, rfl⟩
  · exact hD
  · exact distinct_erase hD

theorem distinct_apply {D : Queue} (hD : (cids D).Nodup) {a : QueueAct} (ha : a.Admits D) :
    (cids (a.apply D).2).Nodup := by
  have hnew (cid : ℕ) (fields : Fields) (hc : cid ∉ cids D) (i : ℕ) (hi : i ≤ D.length) :
      (cids (D.insertIdx i ⟨cid, .map fields⟩)).Nodup := by
    have hperm := (List.perm_insertIdx (⟨cid, .map fields⟩ : QueueItem) D hi).map QueueItem.cid
    exact hperm.nodup_iff.mpr (List.nodup_cons.mpr ⟨hc, hD⟩)
  cases a with
  | push cid m =>
    simp only [QueueAct.apply, pushQueued]
    cases checkQueued m with
    | error _ => exact hD
    | ok _ => simpa [Except.toOption] using hnew cid (writeQueuedMap m) ha D.length le_rfl
  | insert cid index m =>
    simp only [QueueAct.apply, insertQueued]
    cases checkQueued m with
    | error _ => exact hD
    | ok _ => exact hnew cid (writeQueuedMap m) ha _ (min_le_right _ _)
  | setText id text now =>
    simp only [QueueAct.apply, setQueuedText]
    split_ifs
    · exact hD.sublist (cids_remove D id)
    · exact cids_edit D id _ ▸ hD
  | setGate id gate => exact cids_edit D id _ ▸ hD
  | finishEdit id replacement attachments now =>
    simp only [QueueAct.apply, finishQueuedEdit]
    split_ifs
    · exact hD.sublist (cids_remove D id)
    · exact cids_edit D id _ ▸ hD
  | move id target => exact (cids_move D id target).nodup_iff.mpr hD
  | remove id => exact hD.sublist (cids_remove D id)
  | take id => exact distinct_take hD (take_cases ha)
  | takeHead => exact distinct_take hD (takeHead_cases ha)
  | merge D' => exact ha

/-- What holds in every state of a run. -/
structure QueueRun.Inv (s : QueueRun) : Prop where
  distinct : (cids s.queue).Nodup
  named : s.taken.map Prod.snd = s.sent
  reads : ∀ p ∈ s.taken, p.1.row? = some p.2
  account : ∀ c, (s.taken.map (·.1.cid)).count c + (cids s.queue).count c ≤ s.entered.count c

theorem inv_start {D : Queue} (hD : (cids D).Nodup) : (QueueRun.start D).Inv :=
  { distinct := hD
    named := rfl
    reads := fun p hp => by cases hp
    account := fun c => by simp [QueueRun.start] }

theorem count_entered (D : Queue) {D' : Queue} (hD' : (cids D').Nodup) (c : ℕ) :
    (cids D').count c ≤ (cids D).count c + ((cids D').filter (· ∉ cids D)).count c := by
  by_cases hc : c ∈ cids D
  · have hone : (cids D').count c ≤ 1 := List.nodup_iff_count_le_one.mp hD' c
    have hpos : 0 < (cids D).count c := List.count_pos_iff.mpr hc
    omega
  · have hfilter : ((cids D').filter (· ∉ cids D)).count c = (cids D').count c :=
      List.count_filter (by simpa using hc)
    omega

theorem gone_split {pre post : Queue} {e : QueueItem} (h : (cids (pre ++ e :: post)).Nodup) :
    gone (pre ++ e :: post) (pre ++ post) = [e] := by
  have he : e.cid ∉ cids (pre ++ post) := by
    have hperm : (cids (pre ++ e :: post)).Perm (e.cid :: cids (pre ++ post)) :=
      (List.perm_middle (a := e)).map QueueItem.cid
    exact (List.nodup_cons.mp (hperm.nodup_iff.mp h)).1
  have hkept (l : Queue) (hl : ∀ x ∈ l, x ∈ pre ++ post) :
      l.filter (·.cid ∉ cids (pre ++ post)) = [] := by
    rw [List.filter_eq_nil_iff]
    intro x hx
    have hmem : x.cid ∈ cids (pre ++ post) := List.mem_map_of_mem (hl x hx)
    simpa using hmem
  rw [gone, List.filter_append, hkept pre fun x hx => List.mem_append_left _ hx,
    List.filter_cons_of_pos (by simpa using he),
    hkept post fun x hx => List.mem_append_right _ hx]
  rfl

theorem inv_step {s : QueueRun} (h : s.Inv) {a : QueueAct} (ha : a.Admits s.queue) :
    (s.step a).Inv := by
  have hD' := distinct_apply h.distinct ha
  rcases apply_cases ha with hout | ⟨pre, e, post, m, hsplit, hrow, happly⟩
  · have hstep : s.step a = ⟨(a.apply s.queue).2, s.sent, s.taken,
        s.entered ++ (cids (a.apply s.queue).2).filter (· ∉ cids s.queue)⟩ := by
      simp [QueueRun.step, hout]
    rw [hstep]
    refine ⟨hD', h.named, h.reads, fun c => ?_⟩
    have hentered := count_entered s.queue hD' c
    have haccount := h.account c
    simp only [List.count_append]
    omega
  · have hdistinct := h.distinct
    rw [hsplit] at hdistinct
    have hstep : s.step a = ⟨pre ++ post, s.sent ++ [m], s.taken ++ [(e, m)],
        s.entered ++ (cids (pre ++ post)).filter (· ∉ cids s.queue)⟩ := by
      have hgone : gone s.queue (pre ++ post) = [e] := hsplit ▸ gone_split hdistinct
      simp only [QueueRun.step, happly, hgone]
      rfl
    rw [hstep]
    refine ⟨distinct_erase hdistinct, by simp [h.named], fun p hp => ?_, fun c => ?_⟩
    · rcases List.mem_append.mp hp with hp | hp
      · exact h.reads p hp
      · obtain rfl := List.mem_singleton.mp hp
        exact hrow
    · have haccount := h.account c
      simp only [hsplit, cids, List.map_append, List.map_cons, List.count_append,
        List.count_cons, List.map_nil, List.count_nil] at haccount ⊢
      omega

/-- **Every state of an admitted run.** -/
theorem inv_run {s : QueueRun} (h : s.Inv) (acts : List QueueAct) (ha : s.Admitted acts) :
    (s.run acts).Inv := by
  induction acts generalizing s with
  | nil => exact h
  | cons a acts ih => exact ih (inv_step h ha.1) ha.2

/-! ## The queue's promise -/

/-- A message as a client queues it. -/
def draft : QueuedMessage :=
  { id := "q1", text := "hi", attachments := [], holdForTurnEnd := false, issuedBy := "a",
    issuedAt := 1, editedAt := none, deliveryGate := none }

/-- The element `push_queued` makes of it. -/
def drafted : QueueItem := ⟨0, .map (writeQueuedMap draft)⟩

theorem addressed_drafted : Addressed [] drafted "q1" :=
  ⟨by decide +kernel, fun x hx => (by cases hx)⟩

theorem row_drafted : drafted.row? = some draft := by decide +kernel

theorem clear_drafted : Clear [drafted] "q1" := by
  intro pre e post hD _ _
  obtain ⟨-, rfl, -⟩ : pre = [] ∧ drafted = e ∧ post = [] := by
    simpa [List.append_eq_cons_iff, eq_comm] using hD
  exact ⟨addressed_drafted.stored, draft, row_drafted, rfl⟩

/-- The lease of an open edit. -/
def editing : QueueDeliveryGate := .editing "lease" "a" "view" 1 2 "hash"

end Zeron.Session
