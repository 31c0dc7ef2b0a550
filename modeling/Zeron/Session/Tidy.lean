import Zeron.Session.Drain

/-!
# A tidy queue is a table of rows

Where every element reads as a row, stores its id as it reads, and no two share one, the queue is a
table from ids to rows, and each operation writes one entry of it.

* `rowAt`: the row that is read under an id; `Tidy`;
* `rowAt_take`, `rowAt_put`: a table without an element, and with it;
* **`tidy_push`**, `tidy_insert`, `tidy_remove`, `tidy_take`, `tidy_move`, `tidy_gate`, `tidy_text`,
  `tidy_finish`: every operation keeps a queue tidy, and what it writes.
-/

namespace Zeron.Session

/-- The row that is read under an id. -/
def rowAt (D : Queue) (id : String) : Option QueuedMessage := (readQueue D).find? (·.id = id)

/-- Every element reads as a row and stores its id as it reads, and no two rows share an id. -/
structure Tidy (D : Queue) : Prop where
  reads : ∀ e ∈ D, ∃ m, e.row? = some m ∧ e.storedId = some m.id
  distinct : ((readQueue D).map (·.id)).Nodup

theorem id_of_rowAt {D : Queue} {id : String} {m : QueuedMessage} (h : rowAt D id = some m) :
    m.id = id := by
  simpa using List.find?_some h

theorem mem_of_rowAt {D : Queue} {id : String} {m : QueuedMessage} (h : rowAt D id = some m) :
    m ∈ readQueue D := List.mem_of_find?_eq_some h

theorem rowAt_head {D : Queue} {m : QueuedMessage} (h : (readQueue D).head? = some m) :
    rowAt D m.id = some m := by
  unfold rowAt
  cases hread : readQueue D with
  | nil => rw [hread] at h; cases h
  | cons head rest =>
    rw [hread] at h
    obtain rfl : head = m := Option.some_inj.mp h
    simp

theorem Tidy.rowAt_of_mem {D : Queue} (h : Tidy D) {m : QueuedMessage} (hm : m ∈ readQueue D) :
    rowAt D m.id = some m := by
  cases hrow : rowAt D m.id with
  | none =>
    have hne := List.find?_eq_none.mp hrow m hm
    simp at hne
  | some m' =>
    exact congrArg some
      (List.inj_on_of_nodup_map h.distinct (mem_of_rowAt hrow) hm (id_of_rowAt hrow))

theorem Tidy.trim_id {D : Queue} (h : Tidy D) {id : String} {m : QueuedMessage}
    (hm : rowAt D id = some m) : trim m.id = m.id := by
  obtain ⟨e, he, hrow⟩ := List.mem_filterMap.mp (mem_of_rowAt hm)
  obtain ⟨m', hm', hstored⟩ := h.reads e he
  obtain rfl : m' = m := Option.some_inj.mp (hm'.symm.trans hrow)
  obtain ⟨fields, hfields, hid⟩ := map_of_stored hstored
  rw [hfields] at hrow
  obtain ⟨raw, text, hraw, -, -, -, hm⟩ := queuedFromJson_eq_some.mp hrow
  have hget : raw = m'.id := by
    simpa [Content.get, hid, Slot.deep, Json.asStr, eq_comm] using hraw
  have hmid : m'.id = trim raw := congrArg QueuedMessage.id hm
  rw [← hget]
  exact (hget.trans hmid).symm

theorem Tidy.check {D : Queue} (h : Tidy D) {id : String} {m : QueuedMessage}
    (hm : rowAt D id = some m) : checkQueued m = .ok () := by
  obtain ⟨e, -, hrow⟩ := List.mem_filterMap.mp (mem_of_rowAt hm)
  obtain ⟨raw, text, -, -, hid, htext, hmrow⟩ := queuedFromJson_eq_some.mp hrow
  have htrim := h.trim_id hm
  have hmid : m.id = trim raw := congrArg QueuedMessage.id hmrow
  have hblank : isBlank m.id = false := by
    rw [isBlank, htrim, hmid]
    simpa using hid
  have hmtext : m.text = text := congrArg QueuedMessage.text hmrow
  rw [checkQueued, hblank, hmtext, htext]
  rfl

/-! ## Elements as entries -/

theorem readQueue_cons {e : QueueItem} {m : QueuedMessage} (hm : e.row? = some m) (D : Queue) :
    readQueue (e :: D) = m :: readQueue D := List.filterMap_cons_some hm

theorem rowAt_cons {e : QueueItem} {m : QueuedMessage} (hm : e.row? = some m) (D : Queue) :
    rowAt (e :: D) = Function.update (rowAt D) m.id (some m) := by
  ext1 id
  unfold rowAt
  rw [readQueue_cons hm, List.find?_cons]
  by_cases hid : m.id = id
  · subst hid
    simp
  · rw [Function.update_of_ne (Ne.symm hid), decide_eq_false hid]

theorem tidy_cons {e : QueueItem} {m : QueuedMessage} (hm : e.row? = some m) {D : Queue} :
    Tidy (e :: D) ↔ e.storedId = some m.id ∧ rowAt D m.id = none ∧ Tidy D := by
  have hfree : rowAt D m.id = none ↔ m.id ∉ (readQueue D).map (·.id) := by
    simp [rowAt, List.find?_eq_none]
  constructor
  · rintro ⟨hreads, hdistinct⟩
    rw [readQueue_cons hm, List.map_cons, List.nodup_cons] at hdistinct
    obtain ⟨m', hm', hstored⟩ := hreads e List.mem_cons_self
    obtain rfl : m = m' := Option.some_inj.mp (hm.symm.trans hm')
    exact ⟨hstored, hfree.mpr hdistinct.1,
      fun x hx => hreads x (List.mem_cons_of_mem _ hx), hdistinct.2⟩
  · rintro ⟨hstored, hnone, hD⟩
    refine ⟨fun x hx => ?_, ?_⟩
    · rcases List.mem_cons.mp hx with rfl | hx
      · exact ⟨m, hm, hstored⟩
      · exact hD.reads x hx
    · rw [readQueue_cons hm, List.map_cons, List.nodup_cons]
      exact ⟨hfree.mp hnone, hD.distinct⟩

theorem Tidy.perm {D D' : Queue} (h : Tidy D) (hp : D'.Perm D) : Tidy D' where
  reads e he := h.reads e (hp.mem_iff.mp he)
  distinct := ((hp.filterMap _).map _).nodup_iff.mpr h.distinct

theorem Tidy.rowAt_perm {D D' : Queue} (h : Tidy D) (hp : D'.Perm D) : rowAt D' = rowAt D := by
  ext1 id
  have hp' := hp.filterMap QueueItem.row?
  cases hrow : rowAt D id with
  | none =>
    exact List.find?_eq_none.mpr fun m hm => List.find?_eq_none.mp hrow m (hp'.mem_iff.mp hm)
  | some m =>
    have hm : m ∈ readQueue D' := hp'.mem_iff.mpr (mem_of_rowAt hrow)
    rw [← id_of_rowAt hrow]
    exact (h.perm hp).rowAt_of_mem hm

section Split

variable {pre post : Queue} {e : QueueItem} {m : QueuedMessage}

theorem rowAt_take (h : Tidy (pre ++ e :: post)) (hm : e.row? = some m) :
    Tidy (pre ++ post) ∧
      rowAt (pre ++ post) = Function.update (rowAt (pre ++ e :: post)) m.id none := by
  have hp : (e :: (pre ++ post)).Perm (pre ++ e :: post) := List.perm_middle.symm
  obtain ⟨-, hnone, htidy⟩ := (tidy_cons hm).mp (h.perm hp)
  refine ⟨htidy, ?_⟩
  rw [← h.rowAt_perm hp, rowAt_cons hm, Function.update_idem, ← hnone, Function.update_eq_self]

theorem rowAt_put {e' : QueueItem} {m' : QueuedMessage} (h : Tidy (pre ++ e :: post))
    (hm : e.row? = some m) (hm' : e'.row? = some m') (hstored : e'.storedId = e.storedId)
    (hid : m'.id = m.id) :
    Tidy (pre ++ e' :: post) ∧
      rowAt (pre ++ e' :: post) = Function.update (rowAt (pre ++ e :: post)) m.id (some m') := by
  have hp : (e :: (pre ++ post)).Perm (pre ++ e :: post) := List.perm_middle.symm
  have hp' : (pre ++ e' :: post).Perm (e' :: (pre ++ post)) := List.perm_middle
  obtain ⟨hold, hnone, htidy⟩ := (tidy_cons hm).mp (h.perm hp)
  have hnew : Tidy (e' :: (pre ++ post)) :=
    (tidy_cons hm').mpr ⟨by rw [hstored, hold, hid], by rw [hid, hnone], htidy⟩
  refine ⟨hnew.perm hp', ?_⟩
  rw [hnew.rowAt_perm hp', rowAt_cons hm', ← h.rowAt_perm hp, rowAt_cons hm, hid,
    Function.update_idem]

end Split

/-! ## The operations -/

theorem update_absent {D : Queue} {id : String} (h : rowAt D id = none) :
    Function.update (rowAt D) id none = rowAt D := by
  rw [← h, Function.update_eq_self]

theorem Tidy.cases {D : Queue} (h : Tidy D) (id : String) :
    (rowAt D id = none ∧ indexOf D id = none) ∨
    ∃ pre cid fields post m, D = pre ++ ⟨cid, .map fields⟩ :: post ∧
      QueueItem.row? ⟨cid, .map fields⟩ = some m ∧ rowAt D id = some m ∧ m.id = id ∧
      Placed D id pre ⟨cid, .map fields⟩ post := by
  rcases placed_or_absent D id with ⟨pre, e, post, hp⟩ | hindex
  · right
    have he : e ∈ D := by rw [hp.split]; simp
    obtain ⟨m, hm, hstored⟩ := h.reads e he
    obtain rfl : m.id = id := Option.some_inj.mp (hstored.symm.trans hp.stored)
    obtain ⟨fields, hfields, -⟩ := map_of_stored hstored
    rw [hfields] at hm hp
    exact ⟨pre, e.cid, fields, post, m, hp.split, hm,
      h.rowAt_of_mem (List.mem_filterMap.mpr ⟨e, he, hfields ▸ hm⟩), rfl, hp⟩
  · refine .inl ⟨List.find?_eq_none.mpr fun m hm => ?_, hindex⟩
    obtain ⟨e, he, hrow⟩ := List.mem_filterMap.mp hm
    obtain ⟨m', hm', hstored⟩ := h.reads e he
    obtain rfl : m' = m := Option.some_inj.mp (hm'.symm.trans hrow)
    have hne := List.findIdx?_eq_none_iff.mp hindex e he
    simpa [hstored] using hne

theorem tidy_remove {D : Queue} (h : Tidy D) (id : String) :
    Tidy (removeQueued D id).2 ∧
      rowAt (removeQueued D id).2 = Function.update (rowAt D) id none ∧
        (removeQueued D id).1 = (rowAt D id).isSome := by
  rcases h.cases id with ⟨hnone, hindex⟩ | ⟨pre, cid, fields, post, m, rfl, hm, hrow, rfl, hp⟩
  · rw [removeQueued, hindex, hnone]
    exact ⟨h, (update_absent hnone).symm, rfl⟩
  · rw [removeQueued_placed hp, hrow]
    exact ⟨(rowAt_take h hm).1, (rowAt_take h hm).2, rfl⟩

/-- **A take**: the row under the id if no gate holds it, and the queue without it. -/
theorem tidy_take {D : Queue} (h : Tidy D) (id : String) :
    takeQueued D id = (none, D) ∨ ∃ m D', takeQueued D id = (some m, D') ∧ rowAt D id = some m ∧
      m.deliveryGate = none ∧ Tidy D' ∧ rowAt D' = Function.update (rowAt D) id none := by
  rcases h.cases id with ⟨hnone, hindex⟩ | ⟨pre, cid, fields, post, m, rfl, hm, hrow, rfl, hp⟩
  · exact .inl (by rw [takeQueued, hindex])
  · have hfind : (readQueue (pre ++ ⟨cid, .map fields⟩ :: post)).find? (·.id = m.id) = some m :=
      hrow
    rw [takeQueued_placed hp, hfind, Option.any_some]
    cases hgate : m.deliveryGate with
    | some gate => exact .inl rfl
    | none => exact .inr ⟨m, pre ++ post, rfl, hrow, hgate, rowAt_take h hm⟩

theorem tidy_move {D : Queue} (h : Tidy D) (id : String) (target : ℕ) :
    Tidy (moveQueued D id target).2 ∧ rowAt (moveQueued D id target).2 = rowAt D := by
  have hperm : (moveQueued D id target).2.Perm D := by
    rcases placed_or_absent D id with ⟨pre, e, post, hp⟩ | hindex
    · rw [moveQueued, hp.indexOf]
      simp only [hp.getElem, eraseIdx_placed hp]
      split_ifs
      · exact .refl _
      · refine (List.perm_insertIdx _ _ ?_).trans ?_
        · rw [hp.split, List.length_append, List.length_append, List.length_cons]
          omega
        · rw [hp.split]
          exact List.perm_middle.symm
    · rw [moveQueued, hindex]
  exact ⟨h.perm hperm, h.rowAt_perm hperm⟩

theorem stored_write (cid : ℕ) (m : QueuedMessage) :
    QueueItem.storedId ⟨cid, .map (writeQueuedMap m)⟩ = some m.id := by
  have hid : (writeQueuedMap m)["id"]? = some (.value (.str m.id)) := by
    have hput : ∀ (fields : Fields) (k : String) (v : Option Json), k ≠ "id" →
        (putSome fields k v)["id"]? = fields["id"]? := by
      intro fields k v hk
      cases v with
      | none => rfl
      | some v => simp [putSome, Std.ExtTreeMap.getElem?_insert, hk]
    simp [writeQueuedMap, hput, Std.ExtTreeMap.getElem_insert]
  simp [QueueItem.storedId, hid]

theorem tidy_insert {D : Queue} (h : Tidy D) (cid index : ℕ) {m : QueuedMessage}
    (hcheck : checkQueued m = .ok ()) (htrim : trim m.id = m.id) (hnew : rowAt D m.id = none) :
    ∃ D', insertQueued D cid index m = .ok D' ∧ Tidy D' ∧
      rowAt D' = Function.update (rowAt D) m.id (some m) := by
  have hrow : QueueItem.row? ⟨cid, .map (writeQueuedMap m)⟩ = some m := by
    rw [row_write cid hcheck, htrim]
  have htidy : Tidy (⟨cid, .map (writeQueuedMap m)⟩ :: D) :=
    (tidy_cons hrow).mpr ⟨stored_write cid m, hnew, h⟩
  have hperm := List.perm_insertIdx (⟨cid, .map (writeQueuedMap m)⟩ : QueueItem) D
    (min_le_right index D.length)
  refine ⟨_, ?_, htidy.perm hperm, (htidy.rowAt_perm hperm).trans (rowAt_cons hrow D)⟩
  rw [insertQueued, hcheck]
  rfl

theorem tidy_push {D : Queue} (h : Tidy D) (cid : ℕ) {m : QueuedMessage}
    (hcheck : checkQueued m = .ok ()) (htrim : trim m.id = m.id) (hnew : rowAt D m.id = none) :
    ∃ D', pushQueued D cid m = .ok D' ∧ Tidy D' ∧
      rowAt D' = Function.update (rowAt D) m.id (some m) := by
  obtain ⟨D', hinsert, hD'⟩ := tidy_insert h cid D.length hcheck htrim hnew
  refine ⟨D', ?_, hD'⟩
  rw [← hinsert, insertQueued, pushQueued, min_self, List.insertIdx_length_self]

/-- **An edit of the row under an id**: `f` leaves the stored id alone, and makes of a row that
reads as `m` one that reads as `g m`. -/
theorem tidy_edit {D : Queue} (h : Tidy D) (id : String) {f : Fields → Option Fields}
    {P : QueuedMessage → QueuedMessage → Prop}
    (hdecline : ∀ cid fields m, QueueItem.row? ⟨cid, .map fields⟩ = some m → f fields = none → P m m)
    (hedit : ∀ cid fields fields' m, QueueItem.row? ⟨cid, .map fields⟩ = some m →
      f fields = some fields' → fields'["id"]? = fields["id"]? ∧
        ∃ m', QueueItem.row? ⟨cid, .map fields'⟩ = some m' ∧ m'.id = m.id ∧ P m m') :
    Tidy (editQueued D id f).2 ∧
      ((rowAt D id = none ∧ editQueued D id f = (false, D)) ∨
        ∃ m m', rowAt D id = some m ∧ P m m' ∧
          rowAt (editQueued D id f).2 = Function.update (rowAt D) id (some m') ∧
            ((∀ fields, (f fields).isSome) → (editQueued D id f).1 = true)) := by
  rcases h.cases id with ⟨hnone, hindex⟩ | ⟨pre, cid, fields, post, m, rfl, hm, hrow, rfl, hp⟩
  · have hsame : editQueued D id f = (false, D) := by rw [editQueued, hindex]
    rw [hsame]
    exact ⟨h, .inl ⟨hnone, rfl⟩⟩
  · obtain ⟨fields', he, hresult⟩ := editQueued_placed hp f
    obtain rfl : fields' = fields := by simpa [eq_comm] using he
    rw [hresult]
    cases hf : f fields' with
    | none =>
      refine ⟨h, .inr ⟨m, m, hrow, hdecline cid fields' m hm hf, ?_, fun hall => ?_⟩⟩
      · rw [← hrow, Function.update_eq_self]
      · exact absurd (hall fields') (by rw [hf]; decide)
    | some new =>
      obtain ⟨hid, m', hm', hmid, hP⟩ := hedit cid fields' new m hm hf
      have hstored : QueueItem.storedId ⟨cid, .map new⟩ = QueueItem.storedId ⟨cid, .map fields'⟩ := by
        simp only [QueueItem.storedId, hid]
      obtain ⟨htidy, htable⟩ := rowAt_put h hm hm' hstored hmid
      exact ⟨htidy, .inr ⟨m, m', hrow, hP, htable, fun _ => rfl⟩⟩

theorem tidy_gate {D : Queue} (h : Tidy D) (id : String) (gate : QueueDeliveryGate) :
    Tidy (setQueuedDeliveryGate D id (some gate)).2 ∧
      rowAt (setQueuedDeliveryGate D id (some gate)).2 = Function.update (rowAt D) id
        ((rowAt D id).map fun m => { m with deliveryGate := some gate }) ∧
      (setQueuedDeliveryGate D id (some gate)).1 = (rowAt D id).isSome := by
  obtain ⟨htidy, hresult⟩ := tidy_edit h id
    (f := fun fields => some (fields.insert "deliveryGate" (.value (gateToJson gate))))
    (P := fun m m' => m' = { m with deliveryGate := some gate }) (fun _ _ _ _ hf => by cases hf)
    fun cid fields fields' m hm hf => by
      cases hf
      exact ⟨by simp [Std.ExtTreeMap.getElem?_insert], _, row_gate gate hm, rfl, rfl⟩
  refine ⟨htidy, ?_⟩
  rcases hresult with ⟨hnone, hsame⟩ | ⟨m, m', hrow, rfl, htable, hsome⟩
  · rw [setQueuedDeliveryGate, hsame, hnone]
    exact ⟨(update_absent hnone).symm, rfl⟩
  · rw [hrow]
    exact ⟨htable, hsome fun _ => rfl⟩

theorem editQueued_declined {D : Queue} {id : String} {f : Fields → Option Fields}
    (h : (editQueued D id f).1 = false) : (editQueued D id f).2 = D := by
  unfold editQueued at h ⊢
  split
  · rfl
  · rename_i i hi
    simp only [hi] at h
    split
    · rename_i cid fields hget
      simp only [hget] at h
      split
      · rename_i fields' hf
        simp [hf] at h
      · rfl
    · rfl

theorem tidy_text {D : Queue} (h : Tidy D) (id : String) {text : String} (now : ℤ)
    (ht : isBlank text = false) :
    Tidy (setQueuedText D id text now).2 ∧
      ((setQueuedText D id text now).1 = true → (rowAt D id).isSome = true) ∧ ∃ editedAt,
        rowAt (setQueuedText D id text now).2 = Function.update (rowAt D) id
          ((rowAt D id).map fun m => { m with text, editedAt }) := by
  obtain ⟨htidy, hresult⟩ := tidy_edit h id
    (f := fun fields => if unchanged text fields then none else some (retype text now fields))
    (P := fun m m' => ∃ editedAt, m' = { m with text, editedAt })
    (fun cid fields m hm hf => by
      split at hf
      · rename_i hu
        obtain rfl := text_of_unchanged hm hu
        exact ⟨m.editedAt, rfl⟩
      · cases hf)
    fun cid fields fields' m hm hf => by
      split at hf
      · cases hf
      · cases hf
        exact ⟨by simp [retype, Std.ExtTreeMap.getElem?_insert], _, row_retype hm ht, rfl, _, rfl⟩
  rw [setQueuedText, ht, if_neg Bool.false_ne_true]
  refine ⟨htidy, ?_⟩
  rcases hresult with ⟨hnone, hsame⟩ | ⟨m, m', hrow, ⟨editedAt, rfl⟩, htable, -⟩
  · rw [hsame, hnone]
    exact ⟨(fun h => by cases h), none, (update_absent hnone).symm⟩
  · rw [hrow]
    exact ⟨fun _ => rfl, editedAt, htable⟩

theorem tidy_finish {D : Queue} (h : Tidy D) (id : String) {replacement : Option String}
    (attachments : Option (List String)) (now : ℤ) (hr : replacement.any isBlank = false) :
    Tidy (finishQueuedEdit D id replacement attachments now).2 ∧
      (∃ changed, rowAt (finishQueuedEdit D id replacement attachments now).2 =
        Function.update (rowAt D) id
          ((rowAt D id).map fun m => m.finished changed replacement attachments now)) ∧
      (finishQueuedEdit D id replacement attachments now).1 = (rowAt D id).isSome := by
  obtain ⟨htidy, hresult⟩ := tidy_edit h id
    (f := fun fields => some (finishEdit replacement attachments now fields))
    (P := fun m m' => ∃ changed, m' = m.finished changed replacement attachments now)
    (fun _ _ _ _ hf => by cases hf)
    fun cid fields fields' m hm hf => by
      cases hf
      refine ⟨?_, _, row_finish attachments now hm hr, rfl, _, rfl⟩
      unfold finishEdit
      cases replacement <;> cases attachments <;> dsimp only <;> try split
      all_goals simp [retype, Std.ExtTreeMap.getElem?_insert, Std.ExtTreeMap.getElem?_erase]
  rw [finishQueuedEdit, hr, if_neg Bool.false_ne_true]
  refine ⟨htidy, ?_⟩
  rcases hresult with ⟨hnone, hsame⟩ | ⟨m, m', hrow, ⟨changed, rfl⟩, htable, hsome⟩
  · rw [hsame, hnone]
    exact ⟨⟨false, (update_absent hnone).symm⟩, rfl⟩
  · rw [hrow]
    exact ⟨⟨changed, htable⟩, hsome fun _ => rfl⟩

end Zeron.Session
