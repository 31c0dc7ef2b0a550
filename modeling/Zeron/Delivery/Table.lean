import Zeron.Delivery.Host

/-!
# What a call does to the rows

* `Applied`: what an effect leaves of the rows and adds to the log, one lemma an effect;
* `Section.hand`: the row a call has taken; `Section.Ready`: what it has read of the rows;
* `SectionStep`, **`section_step`**: a step of a call by what it does to the rows;
* `TableInv`, `tableInv_step`: the queue stays a table of rows, and what is in hand is not in it.
-/

namespace Zeron.Delivery

open Session

/-! ## Effects -/

/-- The host after an effect on a tidy document: the rows are `table`, and `events` are noted. -/
structure Applied (h h' : Host) (table : String → Option QueuedMessage) (events : List Event) :
    Prop where
  tidy : Tidy h'.doc
  rows : rowAt h'.doc = table
  log : h'.log = h.log ++ events
  saved : h'.saved = h.saved
  hash : h'.queueTextHash = h.queueTextHash
  known : h.known ⊆ h'.known

theorem Applied.mem_known {h h' : Host} {table : String → Option QueuedMessage}
    {events : List Event} (ha : Applied h h' table events) {id : String} (hid : id ∈ h.known) :
    id ∈ h'.known :=
  Finset.mem_of_subset ha.known hid

section Apply

variable {h : Host} (ht : Tidy h.doc)
include ht

theorem applied_same {h' : Host} {events : List Event} (hdoc : h'.doc = h.doc)
    (hlog : h'.log = h.log ++ events) (hsaved : h'.saved = h.saved)
    (hhash : h'.queueTextHash = h.queueTextHash) (hknown : h'.known = h.known) :
    Applied h h' (rowAt h.doc) events :=
  ⟨hdoc ▸ ht, by rw [hdoc], hlog, hsaved, hhash, by rw [hknown]⟩

theorem applied_remove (id : String) :
    Applied h (h.apply (.remove id)) (Function.update (rowAt h.doc) id none)
      (if (rowAt h.doc id).isSome then [.removed id] else []) := by
  obtain ⟨htidy, htable, hsome⟩ := tidy_remove ht id
  rw [← hsome]
  unfold Host.apply
  dsimp only
  split
  · rename_i doc hremove
    rw [hremove] at htidy htable ⊢
    exact ⟨htidy, htable, rfl, rfl, rfl, Finset.Subset.refl _⟩
  · rename_i doc hremove
    rw [hremove] at hsome ⊢
    have hnone : rowAt h.doc id = none := by simpa using hsome.symm
    rw [update_absent hnone]
    exact ⟨ht, rfl, (List.append_nil _).symm, rfl, rfl, Finset.Subset.refl _⟩

theorem applied_grant {id : String} (lease text : String) (gate : QueueDeliveryGate)
    (hsome : (rowAt h.doc id).isSome = true) :
    Applied h (h.apply (.grant id lease text gate))
        (Function.update (rowAt h.doc) id
          ((rowAt h.doc id).map fun m => { m with deliveryGate := some gate }))
        [.granted id lease text] ∧ lease ∈ (h.apply (.grant id lease text gate)).known := by
  obtain ⟨htidy, htable, hset⟩ := tidy_gate ht id gate
  unfold Host.apply
  dsimp only
  split
  · rename_i doc hgate
    rw [hgate] at htidy htable
    exact ⟨⟨htidy, htable, rfl, rfl, rfl, Finset.subset_insert _ _⟩, Finset.mem_insert_self _ _⟩
  · rename_i doc hgate
    rw [hgate, hsome] at hset
    cases hset

theorem applied_regate (id : String) (gate : QueueDeliveryGate) :
    Applied h (h.apply (.regate id gate))
      (Function.update (rowAt h.doc) id
        ((rowAt h.doc id).map fun m => { m with deliveryGate := some gate })) [] :=
  ⟨(tidy_gate ht id gate).1, (tidy_gate ht id gate).2.1, (List.append_nil _).symm, rfl, rfl,
    Finset.Subset.refl _⟩

theorem applied_finish {id : String} (lease : String) {replacement : Option String}
    (attachments : Option (List String)) (nowMs : ℤ) (hsome : (rowAt h.doc id).isSome = true) :
    (replacement.any isBlank = true ∧
      Applied h (h.apply (.finish id lease replacement attachments nowMs))
        (Function.update (rowAt h.doc) id none) [.ended id lease, .removed id]) ∨
    (replacement.any isBlank = false ∧ ∃ changed,
      Applied h (h.apply (.finish id lease replacement attachments nowMs))
        (Function.update (rowAt h.doc) id
          ((rowAt h.doc id).map fun m => m.finished changed replacement attachments nowMs))
        [.ended id lease, .resolved id replacement attachments]) := by
  unfold Host.apply
  dsimp only
  cases hblank : replacement.any isBlank with
  | true =>
    obtain ⟨htidy, htable, hremove⟩ := tidy_remove ht id
    rw [finishQueuedEdit, if_pos hblank]
    refine .inl ⟨rfl, ?_⟩
    split
    · rename_i doc hfinish
      rw [hfinish] at htidy htable
      exact ⟨htidy, htable, by simp, rfl, rfl, Finset.Subset.refl _⟩
    · rename_i doc hfinish
      rw [hfinish, hsome] at hremove
      cases hremove
  | false =>
    obtain ⟨htidy, ⟨changed, htable⟩, hfound⟩ := tidy_finish ht id attachments nowMs hblank
    refine .inr ⟨rfl, changed, ?_⟩
    split
    · rename_i doc hfinish
      rw [hfinish] at htidy htable
      exact ⟨htidy, htable, by simp, rfl, rfl, Finset.Subset.refl _⟩
    · rename_i doc hfinish
      rw [hfinish, hsome] at hfound
      cases hfound

theorem applied_take {id : String} (road : Road) {m : QueuedMessage}
    (hrow : rowAt h.doc id = some m) (hgate : m.deliveryGate = none) :
    Applied h (h.apply (.take id road)) (Function.update (rowAt h.doc) id none)
      [.taken id road] := by
  have htaken : (takeQueued h.doc id).1 = some m := by
    rcases ht.cases id with ⟨hnone, -⟩ | ⟨pre, cid, fields, post, m', hsplit, -, hrow', -, hp⟩
    · cases hrow.symm.trans hnone
    · obtain rfl := Option.some_inj.mp (hrow.symm.trans hrow')
      have hfind : (readQueue h.doc).find? (·.id = id) = some m := hrow
      rw [takeQueued_placed hp, hfind, Option.any_some, hgate]
      rfl
  rcases tidy_take ht id with hnone | ⟨m', D', htake, -, -, htidy, htable⟩
  · rw [hnone] at htaken
    cases htaken
  · unfold Host.apply
    dsimp only
    rw [htake]
    exact ⟨htidy, htable, rfl, rfl, rfl, Finset.Subset.refl _⟩

theorem applied_putBack {m : QueuedMessage} (hcheck : checkQueued m = .ok ())
    (htrim : trim m.id = m.id) (hnew : rowAt h.doc m.id = none) :
    Applied h (h.apply (.putBack m)) (Function.update (rowAt h.doc) m.id (some m)) [] := by
  obtain ⟨D', hinsert, htidy, htable⟩ := tidy_insert ht h.nextCid 0 hcheck htrim hnew
  unfold Host.apply
  dsimp only
  rw [hinsert]
  exact ⟨htidy, htable, (List.append_nil _).symm, rfl, rfl, Finset.Subset.refl _⟩

theorem applied_push {m : QueuedMessage} (htrim : trim m.id = m.id)
    (hnew : rowAt h.doc m.id = none) :
    h.push m = h ∨
      (Applied h (h.push m) (Function.update (rowAt h.doc) m.id (some m))
        [.queued m.id m.text m.attachments] ∧ m.id ∈ (h.push m).known) := by
  cases hcheck : checkQueued m with
  | error e =>
    left
    rw [Host.push, pushQueued, hcheck]
    rfl
  | ok _ =>
    obtain ⟨D', hpush, htidy, htable⟩ := tidy_push ht h.nextCid hcheck htrim hnew
    right
    rw [Host.push, hpush]
    exact ⟨⟨htidy, htable, rfl, rfl, rfl, Finset.subset_insert _ _⟩, Finset.mem_insert_self _ _⟩

/-- A row goes with its text, keeps it, or is retyped. -/
theorem applied_retype (id text : String) (nowMs : ℤ) :
    (isBlank text = true ∧ Applied h (h.retype id text nowMs)
      (Function.update (rowAt h.doc) id none)
      (if (rowAt h.doc id).isSome then [.removed id] else [])) ∨
    (isBlank text = false ∧ h.retype id text nowMs = h ∧
      ∀ m, rowAt h.doc id = some m → m.text = text) ∨
    (isBlank text = false ∧ (rowAt h.doc id).isSome = true ∧ ∃ editedAt,
      Applied h (h.retype id text nowMs) (Function.update (rowAt h.doc) id
        ((rowAt h.doc id).map fun m => { m with text, editedAt })) [.retyped id text]) := by
  cases hblank : isBlank text with
  | true =>
    refine .inl ⟨rfl, ?_⟩
    have hremove := applied_remove ht id
    unfold Host.retype
    unfold Host.apply at hremove
    rw [setQueuedText, if_pos hblank]
    simpa only [hblank, if_true] using hremove
  | false =>
    refine .inr ?_
    obtain ⟨htidy, hfound, editedAt, htable⟩ := tidy_text ht id nowMs hblank
    cases hset : setQueuedText h.doc id text nowMs with
    | mk changed doc =>
      rw [hset] at htidy htable hfound
      cases changed with
      | true =>
        refine .inr ⟨rfl, hfound rfl, editedAt, ?_⟩
        simp only [Host.retype, hset, hblank]
        exact ⟨htidy, htable, rfl, rfl, rfl, Finset.Subset.refl _⟩
      | false =>
        refine .inl ⟨rfl, by simp only [Host.retype, hset], fun m hm => ?_⟩
        have hdoc : doc = h.doc := by
          rw [setQueuedText, if_neg (by rw [hblank]; decide)] at hset
          have hsame := editQueued_declined (congrArg Prod.fst hset)
          rw [hset] at hsame
          exact hsame
        have hrow := congrFun htable id
        rw [hdoc, Function.update_self, hm, Option.map_some, Option.some_inj] at hrow
        exact congrArg QueuedMessage.text hrow

end Apply

/-! ## Calls -/

/-- The row that a call has taken, and that no one has yet. -/
def Section.hand : Section → Option QueuedMessage
  | .thaw m _ | .steer m _ | .interrupt m _ | .start m _ _ | .fail m _ _ _ | .putBack m _ _ => some m
  | _ => none

/-- The generation and the text hash of a gate stand on the row under `id`. -/
def Gated (D : Queue) (id lease hash : String) : Prop :=
  ∀ m, rowAt D id = some m → ∃ gate, m.deliveryGate = some gate ∧ gate.lease = lease ∧
    gate.baseTextHash = hash

/-- The editing lease on a row has expired at the time, if there is one. -/
def Expired (D : Queue) (id : String) (nowMs : ℤ) : Prop :=
  ∀ m, rowAt D id = some m → ∀ lease owner inst acquiredAtMs expiresAtMs hash,
    m.deliveryGate = some (.editing lease owner inst acquiredAtMs expiresAtMs hash) →
      expiresAtMs ≤ nowMs

/-- What a call has read of the rows before it writes. -/
def Section.Ready (h : Host) : Section → Prop
  | .grant item lease gate _ => item.id ∈ h.known ∧ ∃ owner inst nowMs expiresAtMs,
      gate = .editing lease owner inst nowMs expiresAtMs (h.queueTextHash item.text) ∧
        Expired h.doc item.id nowMs
  | .extend id lease gate _ => id ∈ h.known ∧ ∃ owner inst acquiredAtMs expiresAtMs hash,
      gate = .editing lease owner inst acquiredAtMs expiresAtMs hash ∧ Gated h.doc id lease hash
  | .lapse id gate _ => id ∈ h.known ∧ ∃ lease owner sinceMs hash,
      gate = .reviewRequired lease owner sinceMs hash ∧ Gated h.doc id lease hash ∧
        Expired h.doc id sinceMs
  | .resolve id lease action _ _ => id ∈ h.known ∧ ∃ hash, Gated h.doc id lease hash ∧
      (action = .commit → ∀ m, rowAt h.doc id = some m → h.queueTextHash m.text = hash)
  | _ => True

/-- The gate of a new lease is written, and its client has not been told. -/
def Section.leasing : Section → Bool
  | .keep _ _ _ _ | .acquired _ _ _ _ => true
  | _ => false

/-- The effect does nothing to the rows. -/
def Effect.Quiet : Effect → Prop
  | .none | .arm _ | .pause _ | .interrupted => True
  | _ => False

/-- A step of a call, by what it does to the rows. -/
inductive SectionStep (h : Host) (a : Answer) : Section → Effect → Option Section → Prop
  | quiet {s : Section} {e : Effect} {s' : Option Section} (he : e.Quiet)
      (hhand : s'.bind Section.hand = s.hand) (hready : ∀ t ∈ s', t.Ready h ∧ t.leasing = false) :
      SectionStep h a s e s'
  | remove {id : String} : SectionStep h a (.remove id) (.remove id) none
  | grant {item : QueuedMessage} {lease : String} {gate : QueueDeliveryGate} {expiresAtMs : ℤ}
      (hsome : (rowAt h.doc item.id).isSome = true) :
      SectionStep h a (.grant item lease gate expiresAtMs) (.grant item.id lease item.text gate)
        (some (.keep item lease gate.baseTextHash expiresAtMs))
  | keep {item : QueuedMessage} {lease hash : String} {expiresAtMs : ℤ} :
      SectionStep h a (.keep item lease hash expiresAtMs) (.save a.saved)
        (some (.acquired item lease hash expiresAtMs))
  | acquired {item : QueuedMessage} {lease hash : String} {expiresAtMs : ℤ} :
      SectionStep h a (.acquired item lease hash expiresAtMs)
        (.acquire ⟨item.id, lease, expiresAtMs⟩) none
  | extend {id lease : String} {gate : QueueDeliveryGate} {expiresAtMs : ℤ} :
      SectionStep h a (.extend id lease gate expiresAtMs) (.regate id gate)
        (some (.extended ⟨id, lease, expiresAtMs⟩))
  | lapse {id : String} {gate : QueueDeliveryGate} {outcome : Outcome} :
      SectionStep h a (.lapse id gate outcome) (.regate id gate) (some (.saving outcome))
  | resolve {id lease : String} {action : FinishQueueEditAction} {replacement : Option String}
      {attachments : Option (List String)} (hsome : (rowAt h.doc id).isSome = true) :
      SectionStep h a (.resolve id lease action replacement attachments)
        (.finish id lease replacement attachments a.nowMs) (some (.saving (.finished action)))
  | saving {outcome : Outcome} : SectionStep h a (.saving outcome) (.save a.saved) none
  | take {id : String} {road : Road} {m : QueuedMessage} (hrow : rowAt h.doc id = some m)
      (hgate : m.deliveryGate = none) :
      SectionStep h a (.take id road) (.take id road) (some (.dispatch m road))
  | sent {s : Section} {m : QueuedMessage} {road : Road} {was : Bool} (hs : s.hand = some m) :
      SectionStep h a s (.hand m.id road) (some (.sent m road was))
  | halfway {s : Section} {m : QueuedMessage} {road : Road} {was : Bool} {error : String}
      (hs : s.hand = some m) (hreply : a.reply = .halfway error) :
      SectionStep h a s (.hand m.id road) (some (.fail m road was error))
  | accept {m : QueuedMessage} {road : Road} {was : Bool} {s' : Option Section}
      (hs' : s' = none ∨ s' = some .head) :
      SectionStep h a (.sent m road was) (.accept m.id road) s'
  | putBack {m : QueuedMessage} {road : Road} {error : String} :
      SectionStep h a (.putBack m road error) (.putBack m) none

theorem gated_self {D : Queue} {id : String} {m : QueuedMessage} {gate : QueueDeliveryGate}
    (hrow : rowAt D id = some m) (hgate : m.deliveryGate = some gate) :
    Gated D id gate.lease gate.baseTextHash := by
  intro m' hm'
  obtain rfl := Option.some_inj.mp (hrow.symm.trans hm')
  exact ⟨gate, hgate, rfl, rfl⟩

theorem expired_self {D : Queue} {id : String} {m : QueuedMessage} {nowMs : ℤ}
    (hrow : rowAt D id = some m)
    (hexpired : ∀ lease owner inst acquiredAtMs expiresAtMs hash, m.deliveryGate =
      some (.editing lease owner inst acquiredAtMs expiresAtMs hash) → expiresAtMs ≤ nowMs) :
    Expired D id nowMs := by
  intro m' hm'
  obtain rfl := Option.some_inj.mp (hrow.symm.trans hm')
  exact hexpired

section Quiet

variable {h : Host} {a : Answer} {s : Section}

theorem step_ends (outcome : Outcome) (hhand : s.hand = none)
    (hs : s.step h a = (.none, .inr outcome)) :
    SectionStep h a s (s.step h a).1 (s.step h a).2.getLeft? := by
  rw [hs]
  exact .quiet trivial hhand.symm fun _ ht => by cases ht

theorem step_goes (t : Section) (hs : s.step h a = (.none, .inl t))
    (hgoes : t.hand = s.hand ∧ t.leasing = false) (hready : t.Ready h) :
    SectionStep h a s (s.step h a).1 (s.step h a).2.getLeft? := by
  rw [hs]
  refine .quiet trivial hgoes.1 fun t' ht' => ?_
  cases Option.some_inj.mp ht'
  exact ⟨hready, hgoes.2⟩

theorem step_dispatches {m : QueuedMessage} (road : Road) (was : Bool) (hhand : s.hand = some m)
    (hs : s.step h a = (.hand m.id road, .inl (.sent m road was)) ∨
      (∃ error, a.reply = .halfway error ∧
        s.step h a = (.hand m.id road, .inl (.fail m road was error))) ∨
      (∃ error, s.step h a = (.none, .inl (.fail m road was error))) ∨
      s.step h a = (.none, .inl (.start m road was))) :
    SectionStep h a s (s.step h a).1 (s.step h a).2.getLeft? := by
  rcases hs with hs | ⟨error, hreply, hs⟩ | ⟨error, hs⟩ | hs
  · rw [hs]
    exact .sent hhand
  · rw [hs]
    exact .halfway hhand hreply
  · exact step_goes _ hs ⟨hhand.symm, rfl⟩ trivial
  · exact step_goes _ hs ⟨hhand.symm, rfl⟩ trivial

end Quiet

theorem section_step {h : Host} (ht : Tidy h.doc)
    (hk : ∀ id m, rowAt h.doc id = some m → id ∈ h.known) (a : Answer) (s : Section) :
    SectionStep h a s (s.step h a).1 (s.step h a).2.getLeft? := by
  cases s with
  | remove id => exact .remove
  | keep item lease hash expiresAtMs => exact .keep
  | acquired item lease hash expiresAtMs => exact .acquired
  | lapse id gate outcome => exact .lapse
  | saving outcome => exact .saving
  | putBack m road error => exact .putBack
  | extended t => exact .quiet trivial rfl fun _ ht => by cases ht
  | cancelUndo outcome => exact .quiet trivial rfl fun _ ht => by cases ht
  | cancelPause => exact .quiet trivial rfl fun t ht => by cases ht; exact ⟨trivial, rfl⟩
  | sent m road was => cases road <;> exact .accept (by simp [Section.step])
  | thaw m road =>
    cases road <;> exact .quiet trivial rfl fun t ht => by cases ht; exact ⟨trivial, rfl⟩
  | begin id ownerDeviceId ownerInstanceId =>
    cases hrow : rowAt h.doc id with
    | none => exact step_ends .missing rfl (by simp only [Section.step, hrow])
    | some item =>
      have hid := id_of_rowAt hrow
      -- the gate of the new lease, where no lease is in force
      have hgrant : Expired h.doc id a.nowMs → (Section.begin id ownerDeviceId
          ownerInstanceId).step h a = (.none, .inl (.grant item a.newId (.editing a.newId
            ownerDeviceId ownerInstanceId a.nowMs (a.nowMs + queueEditLeaseMs)
            (h.queueTextHash item.text)) (a.nowMs + queueEditLeaseMs))) →
          SectionStep h a (.begin id ownerDeviceId ownerInstanceId) _ _ := fun hexpired hs =>
        step_goes _ hs ⟨rfl, rfl⟩
          ⟨hid.symm ▸ hk id item hrow, _, _, _, _, rfl, hid.symm ▸ hexpired⟩
      cases hgate : item.deliveryGate with
      | none =>
        refine hgrant (expired_self hrow ?_) (by simp only [Section.step, hrow, hgate])
        rw [hgate]
        exact fun _ _ _ _ _ _ h => by cases h
      | some gate =>
        cases gate with
        | reviewRequired =>
          refine hgrant (expired_self hrow ?_) (by simp only [Section.step, hrow, hgate])
          rw [hgate]
          exact fun _ _ _ _ _ _ h => by cases h
        | editing lease owner inst acquiredAtMs expiresAtMs hash =>
          by_cases hexp : expiresAtMs > a.nowMs
          · exact step_ends (.locked owner expiresAtMs) rfl (by simp only [Section.step, hrow, hgate, if_pos hexp])
          · refine hgrant (expired_self hrow ?_)
              (by simp only [Section.step, hrow, hgate, if_neg hexp])
            intro lease' owner' inst' acquired' expires' hash' heq
            rw [hgate] at heq
            cases heq
            exact not_lt.mp hexp
  | grant item lease gate expiresAtMs =>
    have hset := (tidy_gate ht item.id gate).2.2
    cases hsome : (rowAt h.doc item.id).isSome with
    | true =>
      simp only [Section.step, hset, hsome, if_true]
      exact .grant hsome
    | false =>
      rw [hsome] at hset
      exact step_ends .missing rfl (by simp only [Section.step, hset]; rfl)
  | renew id lease =>
    cases hrow : rowAt h.doc id with
    | none => exact step_ends .missing rfl (by simp only [Section.step, hrow])
    | some item =>
      cases hgate : item.deliveryGate with
      | none => exact step_ends .lost rfl (by simp only [Section.step, hrow, hgate])
      | some gate =>
        cases gate with
        | reviewRequired => exact step_ends .lost rfl (by simp only [Section.step, hrow, hgate])
        | editing current owner inst acquiredAtMs expiresAtMs hash =>
          have hgated := gated_self hrow hgate
          by_cases hlease : current = lease
          · subst hlease
            by_cases hexp : expiresAtMs ≤ a.nowMs
            · refine step_goes (.lapse id (review current owner a.nowMs hash) .lost)
                (by simp only [Section.step, hrow, hgate, ne_eq, not_true_eq_false, if_false,
                  if_pos hexp]) ⟨rfl, rfl⟩
                ⟨hk id item hrow, _, _, _, _, rfl, hgated, expired_self hrow ?_⟩
              intro lease' owner' inst' acquired' expires' hash' heq
              rw [hgate] at heq
              cases heq
              exact hexp
            · exact step_goes (.extend id current (.editing current owner inst acquiredAtMs
                (a.nowMs + queueEditLeaseMs) hash) (a.nowMs + queueEditLeaseMs))
                (by simp only [Section.step, hrow, hgate, ne_eq, not_true_eq_false, if_false,
                  if_neg hexp]) ⟨rfl, rfl⟩ ⟨hk id item hrow, _, _, _, _, _, rfl, hgated⟩
          · exact step_ends .lost rfl (by simp only [Section.step, hrow, hgate, ne_eq, hlease,
              not_false_eq_true, if_true])
  | extend id lease gate expiresAtMs =>
    have hset := (tidy_gate ht id gate).2.2
    cases hsome : (rowAt h.doc id).isSome with
    | true =>
      simp only [Section.step, hset, hsome, if_true]
      exact .extend
    | false =>
      rw [hsome] at hset
      exact step_ends .missing rfl (by simp only [Section.step, hset]; rfl)
  | finish id lease action text expectedTextHash attachments =>
    by_cases hbad : action = .commit ∧ (text = none ∨ expectedTextHash = none)
    · exact step_ends (.error "commit requires text and expectedTextHash") rfl
        (by simp only [Section.step, if_pos hbad])
    cases hrow : rowAt h.doc id with
    | none => exact step_ends .missing rfl (by simp only [Section.step, if_neg hbad, hrow])
    | some item =>
      cases hgate : item.deliveryGate with
      | none => exact step_ends .lost rfl (by simp only [Section.step, if_neg hbad, hrow, hgate])
      | some gate =>
        by_cases hlease : gate.lease ≠ lease
        · exact step_ends .lost rfl
            (by simp only [Section.step, if_neg hbad, hrow, hgate, if_pos hlease])
        by_cases hconflict : action = .commit ∧ (expectedTextHash ≠ some gate.baseTextHash ∨
            h.queueTextHash item.text ≠ gate.baseTextHash)
        · exact step_ends (.conflict item.text) rfl
            (by simp only [Section.step, if_neg hbad, hrow, hgate, if_neg hlease, if_pos hconflict])
        have hready : ∀ replacement attachments',
            (Section.resolve id lease action replacement attachments').Ready h := by
          refine fun _ _ => ⟨hk id item hrow, gate.baseTextHash,
            not_not.mp hlease ▸ gated_self hrow hgate, ?_⟩
          intro hcommit m hm
          obtain rfl := Option.some_inj.mp (hrow.symm.trans hm)
          exact not_not.mp fun hne => hconflict ⟨hcommit, .inr hne⟩
        have hs : ∃ replacement attachments', (Section.finish id lease action text expectedTextHash
            attachments).step h a =
              (.none, .inl (.resolve id lease action replacement attachments')) := by
          simp only [Section.step, if_neg hbad, hrow, hgate, if_neg hlease, if_neg hconflict]
          cases action <;> exact ⟨_, _, rfl⟩
        obtain ⟨replacement, attachments', hs⟩ := hs
        exact step_goes _ hs ⟨rfl, rfl⟩ (hready replacement attachments')
  | resolve id lease action replacement attachments =>
    have hfound : (finishQueuedEdit h.doc id replacement attachments a.nowMs).1 =
        (rowAt h.doc id).isSome := by
      cases hblank : replacement.any isBlank with
      | true => rw [finishQueuedEdit, if_pos hblank]; exact (tidy_remove ht id).2.2
      | false => exact (tidy_finish ht id attachments a.nowMs hblank).2.2
    cases hsome : (rowAt h.doc id).isSome with
    | true =>
      simp only [Section.step, hfound, hsome, if_true]
      exact .resolve hsome
    | false =>
      rw [hsome] at hfound
      exact step_ends .missing rfl (by simp only [Section.step, hfound]; rfl)
  | expire t =>
    cases hrow : rowAt h.doc t.id with
    | none => exact step_ends (.done false) rfl (by simp only [Section.step, hrow, Option.bind_none])
    | some item =>
      cases hgate : item.deliveryGate with
      | none => exact step_ends (.done false) rfl (by simp only [Section.step, hrow, Option.bind_some, hgate])
      | some gate =>
        cases gate with
        | reviewRequired =>
          exact step_ends (.done false) rfl (by simp only [Section.step, hrow, Option.bind_some, hgate])
        | editing current owner inst acquiredAtMs expiresAtMs hash =>
          have hgated := gated_self hrow hgate
          by_cases hstale : current ≠ t.leaseId ∨ expiresAtMs ≠ t.expiresAtMs ∨ expiresAtMs > a.nowMs
          · exact step_ends (.done false) rfl
              (by simp only [Section.step, hrow, Option.bind_some, hgate, if_pos hstale])
          · refine step_goes (.lapse t.id (review current owner a.nowMs hash) (.done true))
              (by simp only [Section.step, hrow, Option.bind_some, hgate, if_neg hstale])
              ⟨rfl, rfl⟩ ⟨hk t.id item hrow, _, _, _, _, rfl, hgated, expired_self hrow ?_⟩
            intro lease' owner' inst' acquired' expires' hash' heq
            rw [hgate] at heq
            cases heq
            exact not_lt.mp fun hlt => hstale (.inr (.inr hlt))
  | drain =>
    by_cases hgo : (!a.wired || h.queuePaused) = true
    · exact step_ends (.done false) rfl (by simp only [Section.step, if_pos hgo])
    · exact step_goes .head (by simp only [Section.step, if_neg hgo]) ⟨rfl, rfl⟩ trivial
  | head =>
    cases hhead : (readQueue h.doc).head? with
    | none => exact step_ends (.done true) rfl (by simp only [Section.step, hhead])
    | some row =>
      have hrow := rowAt_head hhead
      cases hgate : row.deliveryGate with
      | none =>
        exact step_goes (.check row.id) (by simp only [Section.step, hhead, hgate])
          ⟨rfl, rfl⟩ trivial
      | some gate =>
        cases gate with
        | reviewRequired => exact step_ends (.done true) rfl (by simp only [Section.step, hhead, hgate])
        | editing lease owner inst acquiredAtMs expiresAtMs hash =>
          have hgated := gated_self hrow hgate
          by_cases hexp : expiresAtMs ≤ a.nowMs
          · refine step_goes (.lapse row.id (review lease owner a.nowMs hash) (.done true))
              (by simp only [Section.step, hhead, hgate, if_pos hexp]) ⟨rfl, rfl⟩
              ⟨hk row.id row hrow, _, _, _, _, rfl, hgated, expired_self hrow ?_⟩
            intro lease' owner' inst' acquired' expires' hash' heq
            rw [hgate] at heq
            cases heq
            exact hexp
          · have hs : Section.head.step h a = (.arm ⟨row.id, lease, expiresAtMs⟩, .inr (.done true)) := by
              simp only [Section.step, hhead, hgate, if_neg hexp]
            rw [hs]
            exact .quiet trivial rfl fun _ ht => by cases ht
  | check id =>
    cases hbusy : a.turnInFlight with
    | true => exact step_ends (.done true) rfl (by simp only [Section.step, hbusy]; rfl)
    | false =>
      exact step_goes (.take id .drain) (by simp only [Section.step, hbusy]; rfl)
        ⟨rfl, rfl⟩ trivial
  | sendNow id =>
    cases hrow : rowAt h.doc id with
    | none => exact step_ends (.done false) rfl (by simp only [Section.step, hrow])
    | some candidate =>
      by_cases hgate : candidate.deliveryGate.isSome = true
      · exact step_ends (.error "queued message is blocked for editing or review") rfl
          (by simp only [Section.step, hrow, if_pos hgate])
      · exact step_goes (.take id .sendNow) (by simp only [Section.step, hrow, if_neg hgate])
          ⟨rfl, rfl⟩ trivial
  | steerNow id =>
    by_cases hwired : (!a.wired) = true
    · exact step_ends (.error "sessions engine not wired") rfl
        (by simp only [Section.step, if_pos hwired])
    by_cases hsteers : (!a.steersMidTurn) = true
    · exact step_ends (.error "the selected agent cannot accept mid-turn steering") rfl
        (by simp only [Section.step, if_neg hwired, if_pos hsteers])
    cases hrow : rowAt h.doc id with
    | none =>
      exact step_ends (.done false) rfl
        (by simp only [Section.step, if_neg hwired, if_neg hsteers, hrow])
    | some candidate =>
      by_cases hfiles : candidate.attachments ≠ []
      · exact step_ends (.error "messages with attachments cannot be steered mid-turn") rfl
          (by simp only [Section.step, if_neg hwired, if_neg hsteers, hrow, if_pos hfiles])
      by_cases hgate : candidate.deliveryGate.isSome = true
      · exact step_ends (.error "queued message is blocked for editing or review") rfl
          (by simp only [Section.step, if_neg hwired, if_neg hsteers, hrow, if_neg hfiles,
            if_pos hgate])
      · exact step_goes (.take id .steerNow) (by simp only [Section.step, if_neg hwired,
          if_neg hsteers, hrow, if_neg hfiles, if_neg hgate]) ⟨rfl, rfl⟩ trivial
  | take id road =>
    rcases tidy_take ht id with hnone | ⟨m, D', htake, hrow, hgate, -, -⟩
    · exact step_ends (.done false) rfl (by simp only [Section.step, hnone])
    · simp only [Section.step, htake]
      exact .take hrow hgate
  | steer m was =>
    refine step_dispatches .steerNow was (m := m) rfl ?_
    by_cases hwired : (!a.wired) = true
    · exact .inr (.inr (.inl ⟨"sessions engine not wired",
        by simp only [Section.step, if_pos hwired]⟩))
    cases hreply : a.reply with
    | accepted => exact .inl (by simp only [Section.step, if_neg hwired, hreply])
    | halfway error =>
      exact .inr (.inl ⟨error, rfl, by simp only [Section.step, if_neg hwired, hreply]⟩)
    | notSteerable =>
      exact .inr (.inr (.inr (by simp only [Section.step, if_neg hwired, hreply])))
    | noRun | noConfig | failed error =>
      exact .inr (.inr (.inl ⟨a.reply.error, by simp only [Section.step, if_neg hwired, hreply]⟩))
  | interrupt m was =>
    refine step_dispatches .sendNow was (m := m) rfl ?_
    by_cases hwired : (!a.wired) = true
    · exact .inr (.inr (.inl ⟨"sessions engine not wired",
        by simp only [Section.step, if_pos hwired]⟩))
    cases hbusy : a.turnInFlight with
    | false => exact .inr (.inr (.inr (by simp only [Section.step, if_neg hwired, hbusy])))
    | true =>
      cases hreply : a.reply with
      | failed error =>
        exact .inr (.inr (.inl ⟨error, by simp only [Section.step, if_neg hwired, hbusy, hreply]⟩))
      | _ => exact .inr (.inr (.inr (by simp only [Section.step, if_neg hwired, hbusy, hreply])))
  | start m road was =>
    refine step_dispatches road was (m := m) rfl ?_
    by_cases hwired : road = .drain ∧ a.wired = false
    · exact .inr (.inr (.inl ⟨"sessions engine not wired",
        by simp only [Section.step, if_pos hwired]⟩))
    cases hreply : a.reply with
    | accepted => exact .inl (by simp only [Section.step, if_neg hwired, hreply])
    | halfway error =>
      exact .inr (.inl ⟨error, rfl, by simp only [Section.step, if_neg hwired, hreply]⟩)
    | _ => exact .inr (.inr (.inl ⟨a.reply.error, by simp only [Section.step, if_neg hwired, hreply]⟩))
  | fail m road was error =>
    refine .quiet ?_ ?_ fun t ht => ?_
    · cases road <;> cases was <;> trivial
    · rfl
    · cases ht
      exact ⟨trivial, rfl⟩
  | cancel =>
    cases hbusy : a.turnInFlight with
    | false => exact step_ends (.done false) rfl (by simp only [Section.step, hbusy]; rfl)
    | true =>
      exact step_goes .cancelPause (by simp only [Section.step, hbusy]; rfl) ⟨rfl, rfl⟩
        trivial
  | cancelRun =>
    refine .quiet ?_ ?_ fun t ht => ?_
    · simp only [Section.step]
      split <;> trivial
    · simp only [Section.step]
      split <;> rfl
    · simp only [Section.step] at ht
      split at ht <;> cases ht <;> exact ⟨trivial, rfl⟩

/-! ## The table of a run -/

/-- The prompt of a held steer has an id that is nothing else's. -/
def Minted (w : World) : Act → Prop
  | .holdSteer messageId _ _ => trim messageId = messageId ∧ messageId ∉ w.host.known
  | _ => True

/-- The row can be put back under its id. -/
def Restorable (h : Host) (m : QueuedMessage) : Prop :=
  (checkQueued m = .ok () ∧ trim m.id = m.id) ∧ m.id ∈ h.known ∧ rowAt h.doc m.id = none

structure TableInv (w : World) : Prop where
  tidy : Tidy w.host.doc
  savedTidy : Tidy w.host.saved
  known : ∀ id m, rowAt w.host.doc id = some m → id ∈ w.host.known
  savedKnown : ∀ id m, rowAt w.host.saved id = some m → id ∈ w.host.known
  hand : ∀ s ∈ w.holder, ∀ m ∈ s.hand, Restorable w.host m

theorem quiet_apply {h : Host} (ht : Tidy h.doc) {e : Effect} (he : e.Quiet) :
    ∃ events, Applied h (h.apply e) (rowAt h.doc) events ∧ ∀ ev ∈ events, ev = .interrupted := by
  cases e with
  | none | arm | pause =>
    exact ⟨[], applied_same ht rfl (List.append_nil _).symm rfl rfl rfl, List.forall_mem_nil _⟩
  | interrupted => exact ⟨[_], applied_same ht rfl rfl rfl rfl rfl, by simp⟩
  | _ => exact he.elim

section Step

variable {w : World}

/-- A step that leaves the durable document keeps the table, where its rows have known ids and what
is in hand can be put back. -/
theorem tableInv_applied (h : TableInv w) {host : Host} {table : String → Option QueuedMessage}
    {events : List Event} (ha : Applied w.host host table events)
    (hrows : ∀ id m, table id = some m → id ∈ host.known) {holder : Option Section}
    (hhand : ∀ s ∈ holder, ∀ m ∈ s.hand, Restorable host m) {thaws : ℕ} :
    TableInv { host, holder, thaws } where
  tidy := ha.tidy
  savedTidy := ha.saved ▸ h.savedTidy
  known := by
    dsimp only
    rw [ha.rows]
    exact hrows
  savedKnown := by
    dsimp only
    rw [ha.saved]
    exact fun id m hm => ha.mem_known (h.savedKnown id m hm)
  hand := hhand

theorem restorable_applied {h h' : Host} {id : String} {x : Option QueuedMessage}
    {events : List Event} (ha : Applied h h' (Function.update (rowAt h.doc) id x) events)
    {m : QueuedMessage} (hm : Restorable h m) (hx : x = none ∨ m.id ≠ id) : Restorable h' m := by
  refine ⟨hm.1, ha.mem_known hm.2.1, ?_⟩
  rw [ha.rows]
  by_cases hid : m.id = id
  · rw [hid, Function.update_self]
    exact hx.resolve_right fun hne => hne hid
  · rw [Function.update_of_ne hid, hm.2.2]

theorem rows_update {table : String → Option QueuedMessage} {ids : Finset String}
    (h : ∀ id m, table id = some m → id ∈ ids) {id : String} {x : Option QueuedMessage}
    (hx : ∀ m, x = some m → id ∈ ids) :
    ∀ id' m, Function.update table id x id' = some m → id' ∈ ids := by
  intro id' m hm
  by_cases hid : id' = id
  · rw [hid, Function.update_self] at hm
    exact hid ▸ hx m hm
  · rw [Function.update_of_ne hid] at hm
    exact h id' m hm

theorem known_of_map {table : String → Option QueuedMessage} {ids : Finset String}
    (h : ∀ id m, table id = some m → id ∈ ids) {id : String} {g : QueuedMessage → QueuedMessage}
    (m : QueuedMessage) (hm : (table id).map g = some m) : id ∈ ids := by
  obtain ⟨m₀, hm₀, -⟩ := Option.map_eq_some_iff.mp hm
  exact h id m₀ hm₀

theorem tableInv_save (h : TableInv w) (ok : Bool) {holder : Option Section}
    (hhand : ∀ t ∈ holder, t.hand = none) :
    TableInv { w with host := w.host.apply (.save ok), holder } := by
  have hempty : ∀ {host : Host}, ∀ t ∈ holder, ∀ m ∈ t.hand, Restorable host m := by
    intro host t ht m hm
    rw [hhand t ht] at hm
    cases hm
  cases ok with
  | true => exact ⟨h.tidy, h.tidy, h.known, h.known, hempty⟩
  | false => exact ⟨h.tidy, h.savedTidy, h.known, h.savedKnown, hempty⟩

theorem tableInv_section (h : TableInv w) {s : Section} (hs : w.holder = some s) {a : Answer}
    {e : Effect} {next : Option Section} (hstep : SectionStep w.host a s e next) :
    TableInv { w with host := w.host.apply e, holder := next } := by
  have ht := h.tidy
  have hknown : ∀ {h' : Host} {table : String → Option QueuedMessage} {events : List Event},
      Applied w.host h' table events → ∀ id m, rowAt w.host.doc id = some m → id ∈ h'.known :=
    fun ha id m hm => ha.mem_known (h.known id m hm)
  cases hstep with
  | quiet he hhand hready =>
    obtain ⟨events, ha, -⟩ := quiet_apply ht he
    refine tableInv_applied h ha (hknown ha) fun t htn m hm => ?_
    have hm' : m ∈ s.hand := by
      rw [← hhand, show next = some t from htn]
      exact hm
    obtain ⟨hok, hkn, hnone⟩ := h.hand s hs m hm'
    exact ⟨hok, ha.mem_known hkn, by rw [ha.rows, hnone]⟩
  | @remove id =>
    have ha := applied_remove ht id
    exact tableInv_applied h ha (rows_update (hknown ha) fun _ hm => by cases hm)
      fun t htn => by cases htn
  | @grant item lease gate expiresAtMs hsome =>
    have ha := (applied_grant ht lease item.text gate hsome).1
    refine tableInv_applied h ha (rows_update (hknown ha) (known_of_map (hknown ha))) ?_
    exact fun t htn m hm => by cases htn; cases hm
  | keep => exact tableInv_save h a.saved fun t htn => by cases htn; rfl
  | saving => exact tableInv_save h a.saved fun t htn => by cases htn
  | @acquired item lease hash expiresAtMs =>
    have ha : Applied w.host (w.host.apply (.acquire ⟨item.id, lease, expiresAtMs⟩))
        (rowAt w.host.doc) [.acquired item.id lease] := applied_same ht rfl rfl rfl rfl rfl
    exact tableInv_applied h ha (hknown ha) fun t htn => by cases htn
  | @extend id lease gate expiresAtMs =>
    have ha := applied_regate ht id gate
    refine tableInv_applied h ha (rows_update (hknown ha) (known_of_map (hknown ha))) ?_
    exact fun t htn m hm => by cases htn; cases hm
  | @lapse id gate outcome =>
    have ha := applied_regate ht id gate
    refine tableInv_applied h ha (rows_update (hknown ha) (known_of_map (hknown ha))) ?_
    exact fun t htn m hm => by cases htn; cases hm
  | @resolve id lease action replacement attachments hsome =>
    rcases applied_finish ht lease attachments a.nowMs hsome with ⟨-, ha⟩ | ⟨-, changed, ha⟩
    · refine tableInv_applied h ha (rows_update (hknown ha) fun _ hm => by cases hm) ?_
      exact fun t htn m hm => by cases htn; cases hm
    · refine tableInv_applied h ha (rows_update (hknown ha) (known_of_map (hknown ha))) ?_
      exact fun t htn m hm => by cases htn; cases hm
  | @take id road m hrow hgate =>
    have ha := applied_take ht road hrow hgate
    refine tableInv_applied h ha (rows_update (hknown ha) fun _ hm => by cases hm) ?_
    intro t htn m' hm'
    have hm : m = m' := by
      cases htn
      cases road <;> exact Option.some_inj.mp hm'
    subst hm
    have hid := id_of_rowAt hrow
    refine ⟨⟨ht.check hrow, ht.trim_id hrow⟩, hknown ha _ m (hid.symm ▸ hrow), ?_⟩
    rw [ha.rows, hid, Function.update_self]
  | @sent s m road was hs' =>
    have ha : Applied w.host (w.host.apply (.hand m.id road)) (rowAt w.host.doc)
        [.handed m.id road] := applied_same ht rfl rfl rfl rfl rfl
    exact tableInv_applied h ha (hknown ha) fun t htn m hm => by cases htn; cases hm
  | @halfway s m road was error hs' hreply =>
    have ha : Applied w.host (w.host.apply (.hand m.id road)) (rowAt w.host.doc)
        [.handed m.id road] := applied_same ht rfl rfl rfl rfl rfl
    refine tableInv_applied h ha (hknown ha) fun t htn m' hm => ?_
    cases htn
    cases hm
    exact h.hand s hs m hs'
  | @accept m road was s' hs' =>
    have ha : Applied w.host (w.host.apply (.accept m.id road)) (rowAt w.host.doc)
        [.accepted m.id road] := applied_same ht rfl rfl rfl rfl rfl
    refine tableInv_applied h ha (hknown ha) fun t htn m hm => ?_
    rcases hs' with rfl | rfl <;> cases htn
    cases hm
  | @putBack m road error =>
    obtain ⟨⟨hcheck, htrim⟩, hkn, hnone⟩ := h.hand _ hs m rfl
    have ha := applied_putBack ht hcheck htrim hnone
    exact tableInv_applied h ha (rows_update (hknown ha) fun _ _ => ha.known hkn)
      fun t htn => by cases htn

theorem tableInv_edit (h : TableInv w) {host : Host} {id : String} {x : Option QueuedMessage}
    {events : List Event} (ha : Applied w.host host (Function.update (rowAt w.host.doc) id x) events)
    (hx : ∀ m, x = some m → id ∈ host.known)
    (hfree : x = none ∨ ∀ s ∈ w.holder, ∀ m ∈ s.hand, m.id ≠ id) :
    TableInv { w with host } := by
  refine tableInv_applied h ha (rows_update (fun id m hm => ha.mem_known (h.known id m hm)) hx) ?_
  exact fun s hs m hm => restorable_applied ha (h.hand s hs m hm) (hfree.imp_right fun hne =>
    hne s hs m hm)

theorem tableInv_push (h : TableInv w) {m : QueuedMessage} (htrim : trim m.id = m.id)
    (hnew : m.id ∉ w.host.known) : TableInv { w with host := w.host.push m } := by
  have hnone : rowAt w.host.doc m.id = none := by
    by_contra hne
    obtain ⟨m', hm'⟩ := Option.ne_none_iff_exists'.mp hne
    exact hnew (h.known m.id m' hm')
  rcases applied_push h.tidy htrim hnone with hsame | ⟨ha, hkn⟩
  · rw [hsame]
    exact h
  · refine tableInv_edit h ha (fun _ _ => hkn) (.inr fun s hs m' hm' hid => ?_)
    exact hnew (hid ▸ (h.hand s hs m' hm').2.1)

theorem tableInv_retype (h : TableInv w) (id text : String) (nowMs : ℤ) :
    TableInv { w with host := w.host.retype id text nowMs } := by
  rcases applied_retype h.tidy id text nowMs with ⟨-, ha⟩ | ⟨-, hsame, -⟩ | ⟨-, hsome, editedAt, ha⟩
  · exact tableInv_edit h ha (fun _ hm => by cases hm) (.inl rfl)
  · rw [hsame]
    exact h
  · -- a row that is retyped is not the one in hand
    obtain ⟨m, hrow⟩ := Option.isSome_iff_exists.mp hsome
    refine tableInv_edit h ha (fun _ _ => ha.mem_known (h.known id m hrow))
      (.inr fun s hs m' hm' hid => ?_)
    have hnone := (h.hand s hs m' hm').2.2
    rw [hid, hrow] at hnone
    cases hnone

end Step

theorem entry_hand {s : Section} (h : s.entry = true) : s.hand = none := by
  cases s with
  | remove | begin | renew | finish | drain | sendNow | steerNow | cancel => rfl
  | _ => cases h

theorem tableInv_step {w w' : World} {act : Act} (h : TableInv w) (hg : Minted w act)
    (hs : w.step act = some w') : TableInv w' := by
  cases act with
  | queueMessage id text attachments hold nowMs =>
    simp only [World.step, Option.ite_none_right_eq_some, Option.some_inj] at hs
    obtain ⟨⟨htrim, hnew⟩, rfl⟩ := hs
    exact tableInv_push h htrim hnew
  | holdSteer messageId prompt nowMs =>
    obtain rfl := Option.some.inj hs
    exact tableInv_push h hg.1 hg.2
  | updateText id text nowMs =>
    obtain rfl := Option.some.inj hs
    exact tableInv_retype h id text nowMs
  | move id target =>
    obtain rfl := Option.some.inj hs
    obtain ⟨htidy, htable⟩ := tidy_move h.tidy id target
    exact ⟨htidy, h.savedTidy, fun id m hm => h.known id m (htable ▸ hm), h.savedKnown,
      fun s hs m hm => ⟨(h.hand s hs m hm).1, (h.hand s hs m hm).2.1,
        (congrFun htable m.id).trans (h.hand s hs m hm).2.2⟩⟩
  | call s =>
    simp only [World.step, Option.ite_none_right_eq_some, Option.some_inj] at hs
    obtain ⟨⟨-, hentry⟩, rfl⟩ := hs
    refine ⟨h.tidy, h.savedTidy, h.known, h.savedKnown, fun t ht m hm => ?_⟩
    cases ht
    rw [entry_hand hentry] at hm
    cases hm
  | fire t =>
    simp only [World.step, Option.ite_none_right_eq_some, Option.some_inj] at hs
    obtain ⟨-, rfl⟩ := hs
    exact ⟨h.tidy, h.savedTidy, h.known, h.savedKnown, fun t ht m hm => by cases ht; cases hm⟩
  | turn a =>
    simp only [World.step] at hs
    split at hs
    · rename_i s hholder
      split_ifs at hs
      obtain rfl := Option.some.inj hs
      exact tableInv_section h hholder (section_step h.tidy h.known a s)
    · cases hs
  | sent | pauseAll =>
    obtain rfl := Option.some.inj hs
    exact ⟨h.tidy, h.savedTidy, h.known, h.savedKnown, h.hand⟩
  | thaw =>
    simp only [World.step, Option.ite_none_left_eq_some, Option.some_inj] at hs
    obtain ⟨-, rfl⟩ := hs
    exact ⟨h.tidy, h.savedTidy, h.known, h.savedKnown, h.hand⟩
  | save =>
    obtain rfl := Option.some.inj hs
    exact ⟨h.tidy, h.tidy, h.known, h.known, h.hand⟩
  | restart =>
    obtain rfl := Option.some.inj hs
    exact ⟨h.savedTidy, h.savedTidy, h.savedKnown, h.savedKnown, fun t ht => by cases ht⟩

theorem tableInv_boot (deviceId : String) (queueTextHash : String → String) {saved : Queue}
    (ht : Tidy saved) : TableInv (World.boot deviceId queueTextHash saved) := by
  have hknown : ∀ id m, rowAt saved id = some m →
      id ∈ (World.boot deviceId queueTextHash saved).host.known := by
    intro id m hm
    refine List.mem_toFinset.mpr (List.mem_append_left _ ?_)
    exact id_of_rowAt hm ▸ List.mem_map_of_mem (mem_of_rowAt hm)
  exact ⟨ht, ht, hknown, hknown, fun t ht => by cases ht⟩

end Zeron.Delivery
