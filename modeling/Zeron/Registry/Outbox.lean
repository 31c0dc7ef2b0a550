import Zeron.Registry.Net

/-!
# Pending writes

A batch waits in `pending` until an ack names it; one mark per batch keeps the two transports from
pushing it twice at a time.

* `Net.acked`, `acks`: the names that acks retire; **`entries_step`**, `entries_exec`: nothing else
  leaves the queue, nor moves in it;
* `Scheduled`: an unsent batch of an open session has a push or a nudge ahead of it;
* `Net.Wakes`: a step that unmarks or re-seeds under an open session finds one;
* `sent_of_scheduled`: then the batch is sent without another local write;
* `writes_kept`: the queue and the schedule, over runs.
-/

namespace Zeron.Registry

/-! ## The queue -/

/-- The batches that wait for an ack, as they will be pushed. -/
def RegistryDoc.entries (doc : RegistryDoc) : List (String × List RowOp) :=
  doc.pending.map fun b => (b.batch, b.ops)

/-- The names a step's ack retires. -/
def Net.acked (s : Net) (a : Act) : List String :=
  match a, s.link, s.http with
  | .recvFrame, .joined false _ (.ack batch _ :: _), _ => [batch]
  | .httpAck, _, .posted (.ack batch _ _) _ => [batch]
  | _, _, _ => []

def Frame.acks : Frame → List String
  | .ack batch _ => [batch]
  | _ => []

/-- The names that the acks of a run retire. -/
def acks (s : Net) : List Act → List String
  | [] => []
  | a :: as => s.acked a ++ ((s.step a).map fun s' => acks s' as).getD []

/-- The queue less some names. -/
def without (names : List String) (entries : List (String × List RowOp)) :
    List (String × List RowOp) := entries.filter (·.1 ∉ names)

@[simp] theorem without_nil (entries : List (String × List RowOp)) :
    without [] entries = entries := by simp [without]

theorem without_append (names names' : List String) (entries : List (String × List RowOp)) :
    without names' (without names entries) = without (names ++ names') entries := by
  simp only [without, List.filter_filter, List.mem_append, not_or]
  congr 1
  funext e
  rw [Bool.and_comm]
  simp

section Entries

variable (doc : RegistryDoc)

theorem entries_takePushable : doc.takePushable.1.entries = doc.entries := by
  simp [RegistryDoc.entries, RegistryDoc.takePushable, Function.comp_def]

theorem entries_markDisconnected : doc.markDisconnected.entries = doc.entries := by
  simp [RegistryDoc.entries, RegistryDoc.markDisconnected, Function.comp_def]

theorem entries_ackBatch (batch : String) :
    (doc.ackBatch batch).1.entries = without [batch] doc.entries := by
  rw [ackBatch_fst, without, RegistryDoc.entries, RegistryDoc.entries, List.filter_map]
  simp [Function.comp_def]

theorem entries_applyRows (frame : RowsFrame) : (doc.applyRows frame).1.entries = doc.entries := by
  rw [(applyRows_spec doc frame).1]
  rfl

variable {doc} in
theorem Enqueued.entries {doc' : RegistryDoc} {batches : List PendingBatch} {ops : List RowOp}
    (h : Enqueued doc doc' batches ops) : ∃ newer, doc'.entries = doc.entries ++ newer := by
  refine ⟨batches.map fun b => (b.batch, b.ops), ?_⟩
  rw [RegistryDoc.entries, h.pending, List.map_append]
  rfl

theorem entries_enqueueOps (now : ℕ → ℤ) (ops : List RowOp) :
    ∃ newer, (doc.enqueueOps now ops).entries = doc.entries ++ newer := by
  obtain ⟨batches, henq⟩ := enqueueOps_spec doc now ops
  exact henq.entries

theorem entries_applyState (now : ℕ → ℤ) (state : StateReply) :
    ∃ newer, (doc.applyState now state).1.entries = doc.entries ++ newer := by
  obtain ⟨batches, happ⟩ := applyState_spec doc now state
  exact happ.seeds.entries

end Entries

/-- **A step keeps the queue in order, less the names its ack retires, and appends to it.** -/
theorem entries_step {s s' : Net} {a : Act} (hs : s.step a = some s') :
    ∃ newer, s'.doc.entries = without (s.acked a) s.doc.entries ++ newer := by
  have hmore : ∀ {doc' : RegistryDoc}, (∃ newer, doc'.entries = s.doc.entries ++ newer) →
      s.acked a = [] → ∃ newer, doc'.entries = without (s.acked a) s.doc.entries ++ newer := by
    intro doc' he hack
    rwa [hack, without_nil]
  have hsame : ∀ {doc' : RegistryDoc}, doc'.entries = s.doc.entries → s.acked a = [] →
      ∃ newer, doc'.entries = without (s.acked a) s.doc.entries ++ newer := by
    intro doc' he hack
    exact hmore ⟨[], by rw [he, List.append_nil]⟩ hack
  have hframe : ∀ {frame : Frame}, s.acked a = frame.acks →
      ∃ newer, (Net.handleFrame s.doc frame).1.entries =
        without (s.acked a) s.doc.entries ++ newer := by
    intro frame hack
    rcases frame with frame | ⟨batch, seq⟩ | ⟨code, message⟩
    · exact hsame (entries_applyRows s.doc frame) hack
    · refine ⟨[], ?_⟩
      rw [hack, Frame.acks, List.append_nil]
      exact entries_ackBatch s.doc batch
    · exact hsame rfl hack
  cases step_iff.mp hs with
  | enqueue => exact hmore (entries_enqueueOps { s.doc with clock := _ } _ _) rfl
  | recvState => exact hmore (entries_applyState s.doc _ _) rfl
  | httpApply => exact hmore (entries_applyState s.doc _ _) rfl
  | pushPending => exact hsame (entries_takePushable s.doc) rfl
  | httpTake => exact hsame (entries_takePushable s.doc) rfl
  | markDown => exact hsame (entries_markDisconnected s.doc) rfl
  | httpFail => exact hsame (entries_markDisconnected s.doc) rfl
  | recvFrame hl =>
    apply hframe
    unfold Net.acked Frame.acks
    rw [hl]
    split <;> simp_all
  | recvGap hl =>
    apply hframe
    unfold Net.acked Frame.acks
    rw [hl]
    split <;> simp_all
  | httpAck hh =>
    refine ⟨[], ?_⟩
    simp only [Net.acked, hh, List.append_nil]
    exact entries_ackBatch s.doc _
  | _ => exact hsame rfl rfl

/-- **Over a run a batch stays queued, in its place, until an ack names it.** -/
theorem entries_exec {s s' : Net} {as : List Act} (hs : Run.exec Net.step s as = some s') :
    ∃ newer, s'.doc.entries = without (acks s as) s.doc.entries ++ newer := by
  induction as generalizing s with
  | nil =>
    cases hs
    exact ⟨[], by simp [acks]⟩
  | cons a as ih =>
    rw [Run.exec, Option.bind_eq_some_iff] at hs
    obtain ⟨s₁, h₁, hs⟩ := hs
    obtain ⟨newer, he⟩ := entries_step h₁
    obtain ⟨newest, he'⟩ := ih hs
    rw [he', he]
    have hacks : acks s (a :: as) = s.acked a ++ acks s₁ as := by
      rw [acks, h₁]
      rfl
    refine ⟨without (acks s₁ as) newer ++ newest, ?_⟩
    rw [hacks, ← without_append, ← List.append_assoc]
    congr 1
    exact List.filter_append ..

/-! ## The schedule -/

/-- A push is due, or a nudge waits, or a writer is about to nudge. -/
def Net.Due (s : Net) (pushDue : Bool) : Prop := pushDue = true ∨ s.nudge = true ∨ s.owed = true

instance (s : Net) (pushDue : Bool) : Decidable (s.Due pushDue) :=
  inferInstanceAs (Decidable (_ ∨ _ ∨ _))

/-- In an open session, a batch that is not in flight has a push or a nudge ahead of it. -/
def Net.Scheduled (s : Net) : Prop :=
  match s.link with
  | .joined pushDue _ _ => (∃ b ∈ s.doc.pending, b.inFlight = false) → s.Due pushDue
  | _ => True

def Net.scheduled (s : Net) : Bool :=
  match s.link with
  | .joined pushDue _ _ => decide ((∃ b ∈ s.doc.pending, b.inFlight = false) → s.Due pushDue)
  | _ => true

theorem scheduled_eq_true {s : Net} : s.scheduled = true ↔ s.Scheduled := by
  unfold Net.scheduled Net.Scheduled
  split <;> simp

instance (s : Net) : Decidable s.Scheduled := decidable_of_iff _ scheduled_eq_true

/-- The state has every row that the replica holds, or is a delta. -/
def RegistryDoc.Within (doc : RegistryDoc) (state : StateReply) : Prop :=
  state.full = true → ∀ e ∈ doc.authoritative.toList,
    doc.serverSeq ≤ state.seq ∧ ∃ r ∈ state.rows, r.key = e.1

instance (doc : RegistryDoc) (state : StateReply) : Decidable (doc.Within state) :=
  inferInstanceAs (Decidable (_ → ∀ e ∈ doc.authoritative.toList, _ ∧ ∃ r ∈ state.rows, _))

/-- The HTTPS task does not leave an open session with unsent batches and nothing ahead: its push
fails, or its pull makes the replica re-seed, only outside a session or where a push is due. -/
def Net.Wakes (s : Net) (a : Act) : Prop :=
  match a, s.link, s.http with
  | .httpFail, .joined pushDue _ _, _ => s.doc.pending = [] ∨ s.Due pushDue
  | .httpApply _, .joined pushDue _ _, .answered _ state => s.doc.Within state ∨ s.Due pushDue
  | _, _, _ => True

def Net.wakes (s : Net) (a : Act) : Bool :=
  match a, s.link, s.http with
  | .httpFail, .joined pushDue _ _, _ => decide (s.doc.pending = [] ∨ s.Due pushDue)
  | .httpApply _, .joined pushDue _ _, .answered _ state =>
    decide (s.doc.Within state ∨ s.Due pushDue)
  | _, _, _ => true

theorem wakes_eq_true {s : Net} {a : Act} : s.wakes a = true ↔ s.Wakes a := by
  unfold Net.wakes Net.Wakes
  split <;> simp

instance (s : Net) (a : Act) : Decidable (s.Wakes a) := decidable_of_iff _ wakes_eq_true

/-- The replica holds a batch that is not in flight. -/
def RegistryDoc.Unsent (doc : RegistryDoc) : Prop := ∃ b ∈ doc.pending, b.inFlight = false

theorem scheduled_iff {s : Net} : s.Scheduled ↔ ∀ pushDue outbox inbox,
    s.link = .joined pushDue outbox inbox → s.doc.Unsent → s.Due pushDue := by
  unfold Net.Scheduled
  split
  · rename_i pushDue outbox inbox hl
    constructor
    · intro h p o i he
      cases hl.symm.trans he
      exact h
    · intro h
      exact h pushDue outbox inbox hl
  · rename_i hl
    exact iff_of_true trivial fun p o i he => absurd he (hl p o i)

theorem not_unsent_takePushable (doc : RegistryDoc) : ¬ doc.takePushable.1.Unsent := by
  rintro ⟨b, hb, hflight⟩
  obtain ⟨b₀, -, rfl⟩ := List.mem_map.mp hb
  cases hflight

theorem unsent_handleFrame {doc : RegistryDoc} {frame : Frame}
    (h : (Net.handleFrame doc frame).1.Unsent) : doc.Unsent := by
  obtain ⟨b, hb, hflight⟩ := h
  exact ⟨b, mem_pending_handleFrame hb, hflight⟩

theorem pending_applyState {doc : RegistryDoc} {state : StateReply} (h : doc.Within state)
    (now : ℕ → ℤ) : (doc.applyState now state).1.pending = doc.pending := by
  have hseeds : doc.seedRows state = [] := by
    rw [List.eq_nil_iff_forall_not_mem]
    intro r hr
    obtain ⟨hfull, key, hrow, hlack⟩ := mem_seedRows.mp hr
    obtain ⟨hseq, r', hr', hk⟩ :=
      h hfull (key, r) (Std.ExtTreeMap.mem_toList_iff_getElem?_eq_some.mpr hrow)
    exact hlack hseq r' hr' hk
  rw [applyState_eq, hseeds]
  rfl

/-- **Every step that wakes keeps the schedule.** -/
theorem scheduled_step {s s' : Net} {a : Act} (h : s.Scheduled) (hwake : s.Wakes a)
    (hs : s.step a = some s') : s'.Scheduled := by
  rw [scheduled_iff] at h ⊢
  cases step_iff.mp hs with
  | enqueue => exact fun _ _ _ _ _ => Or.inr (Or.inr rfl)
  | hostNudge => exact fun _ _ _ _ _ => Or.inr (Or.inl rfl)
  | recvState =>
    intro p o i he _
    cases he
    exact Or.inl rfl
  | takeNudge =>
    intro p o i he _
    cases he
    exact Or.inl rfl
  | pushPending => exact fun _ _ _ _ hu => absurd hu (not_unsent_takePushable s.doc)
  | httpTake => exact fun _ _ _ _ hu => absurd hu (not_unsent_takePushable s.doc)
  | peerPush =>
    intro p o i he hu
    obtain ⟨i₀, hl⟩ := joined_broadcast he
    exact h p o i₀ hl hu
  | httpServe =>
    intro p o i he hu
    obtain ⟨i₀, hl⟩ := joined_broadcast he
    exact h p o i₀ hl hu
  | servePush hl =>
    intro p o i he hu
    obtain ⟨i₁, he, -⟩ := joined_send he
    obtain ⟨i₀, he⟩ := joined_broadcast he
    cases he
    exact h _ _ _ hl hu
  | recvFrame hl =>
    intro p o i he hu
    cases he
    exact h _ _ _ hl (unsent_handleFrame hu)
  | httpAck =>
    rintro p o i he ⟨b, hb, hflight⟩
    exact h p o i he ⟨b, mem_pending_ackBatch hb, hflight⟩
  | httpFail =>
    rintro p o i he ⟨b, hb, -⟩
    have hl : s.link = .joined p o i := he
    simp only [Net.Wakes, hl] at hwake
    refine hwake.elim (fun hnil => ?_) id
    obtain ⟨b₀, hb₀, -⟩ := mem_pending_markDisconnected hb
    rw [hnil] at hb₀
    cases hb₀
  | httpApply hh =>
    rintro p o i he ⟨b, hb, hflight⟩
    have hl : s.link = .joined p o i := he
    simp only [Net.Wakes, hl, hh] at hwake
    refine hwake.elim (fun hwithin => ?_) id
    rw [pending_applyState hwithin] at hb
    exact h p o i hl ⟨b, hb, hflight⟩
  | alarm => exact h
  | httpPull => exact h
  | httpAnswer => exact h
  | httpPullFail => exact h
  | httpSpawn hl =>
    intro p o i he
    cases hl.symm.trans he
  | _ =>
    intro p o i he
    cases he

/-- The steps that send what is due; none is a local write. -/
def Act.Sends (a : Act) : Prop := a = .hostNudge ∨ a = .takeNudge ∨ a = .pushPending

/-- **What is scheduled is sent** without another local write. -/
theorem sent_of_scheduled {s : Net} (h : s.Scheduled) {pushDue : Bool} {outbox : List PendingBatch}
    {inbox : List Frame} (hl : s.link = .joined pushDue outbox inbox) {b : PendingBatch}
    (hb : b ∈ s.doc.pending) (hflight : b.inFlight = false) :
    ∃ as s', (∀ a ∈ as, a.Sends) ∧ Run.exec Net.step s as = some s' ∧
      ∃ b' ∈ s'.link.outbox, b.Copies b' := by
  have hpush : ∀ s : Net, b ∈ s.doc.pending → s.link = .joined true outbox inbox →
      ∃ s', s.step .pushPending = some s' ∧ ∃ b' ∈ s'.link.outbox, b.Copies b' := by
    intro s hb hl
    refine ⟨_, step_iff.mpr (.pushPending hl), { b with inFlight := true }, ?_, rfl, rfl⟩
    refine List.mem_append_right _ (List.mem_map.mpr ⟨b, List.mem_filter.mpr ⟨hb, ?_⟩, rfl⟩)
    simp [hflight]
  have htake : ∀ s : Net, b ∈ s.doc.pending → s.nudge = true → s.link = .joined false outbox inbox →
      ∃ s', Run.exec Net.step s [.takeNudge, .pushPending] = some s' ∧
        ∃ b' ∈ s'.link.outbox, b.Copies b' := by
    intro s hb hn hl
    obtain ⟨s', hs', hsent⟩ :=
      hpush { s with nudge := false, link := .joined true outbox inbox } hb rfl
    refine ⟨s', ?_, hsent⟩
    rw [Run.exec, step_iff.mpr (.takeNudge hl hn), Option.bind_some, Run.exec, hs', Option.bind_some,
      Run.exec_nil]
  rcases pushDue with _ | _
  · rcases scheduled_iff.mp h false outbox inbox hl ⟨b, hb, hflight⟩ with hd | hn | ho
    · cases hd
    · obtain ⟨s', hs', hsent⟩ := htake s hb hn hl
      exact ⟨_, s', by simp [Act.Sends], hs', hsent⟩
    · obtain ⟨s', hs', hsent⟩ := htake { s with owed := false, nudge := true } hb rfl hl
      refine ⟨.hostNudge :: [.takeNudge, .pushPending], s', by simp [Act.Sends], ?_, hsent⟩
      rw [Run.exec, step_iff.mpr .hostNudge, Option.bind_some, hs']
  · obtain ⟨s', hs', hsent⟩ := hpush s hb hl
    refine ⟨[.pushPending], s', by simp [Act.Sends], ?_, hsent⟩
    rw [Run.exec, hs', Option.bind_some, Run.exec_nil]

/-- **Pending writes are neither lost nor stranded.** In every run whose steps wake, what is queued
at any point is still queued at the end, in order and ahead of the newer batches, less the names
that acks retired since; and in an open session an unsent batch has a push or a nudge ahead, which
sends it. -/
theorem writes_kept (s s' : Net) (as : List Act) (h : s.Scheduled)
    (hwake : Run.Guarded Net.step Net.Wakes s as) (hrun : Run.exec Net.step s as = some s') :
    (∀ pre post s₁, as = pre ++ post → Run.exec Net.step s pre = some s₁ →
      ∃ newer, s'.doc.entries = without (acks s₁ post) s₁.doc.entries ++ newer) ∧
    ∀ pushDue outbox inbox, s'.link = .joined pushDue outbox inbox →
      ∀ b ∈ s'.doc.pending, b.inFlight = false → s'.Due pushDue ∧
        ∃ sends s'', (∀ a ∈ sends, a.Sends) ∧ Run.exec Net.step s' sends = some s'' ∧
          ∃ b' ∈ s''.link.outbox, b.Copies b' := by
  have hend := Run.exec_invariant (fun _ _ _ => scheduled_step) h hwake hrun
  refine ⟨fun pre post s₁ he hpre => ?_, fun pushDue outbox inbox hl b hb hflight => ⟨?_, ?_⟩⟩
  · rw [he, Run.exec_append, hpre, Option.bind_some] at hrun
    exact entries_exec hrun
  · exact scheduled_iff.mp hend pushDue outbox inbox hl ⟨b, hb, hflight⟩
  · exact sent_of_scheduled hend hl hb hflight

/-- A write of a device without a session. -/
def writeOffline : Act :=
  .enqueue ⟨1, 0⟩ (fun _ => 2) [{ kind := "chats", id := "c", op := .upsert
                                  set := some {("title", .str "x")}
                                  hlc := "0000000000001-000000-a", clocks := none }]

/-- The replica writes, then joins. -/
def joins : List Act :=
  [writeOffline, .hostNudge, .dial, .serveHello, .recvState fun _ => 3]

theorem writes_kept_joins : ∃ s b, Run.exec Net.step (.start .empty (.new "a")) joins = some s ∧
    b ∈ s.doc.pending ∧ ∃ sends s', (∀ a ∈ sends, a.Sends) ∧
      Run.exec Net.step s sends = some s' ∧ ∃ b' ∈ s'.link.outbox, b.Copies b' := by
  have hrun : (Run.exec Net.step (.start .empty (.new "a")) joins).any (fun s =>
      s.link = .joined true [] [] && s.doc.pending.any fun b => b.inFlight = false) = true := by
    decide +kernel
  obtain ⟨s, hs, hstate⟩ := (Option.any_eq_true _ _).mp hrun
  rw [Bool.and_eq_true, decide_eq_true_iff, List.any_eq_true] at hstate
  obtain ⟨hl, b, hb, hflight⟩ := hstate
  refine ⟨s, b, hs, hb, ?_⟩
  exact ((writes_kept (.start .empty (.new "a")) s joins trivial
    (Run.guarded_of_checks (by decide +kernel)) hs).2 true [] [] hl b hb (by simpa using hflight)).2

/-- The HTTPS task takes the batch, the session finds nothing to push, the task fails. -/
def failsUnder : List Act :=
  [writeOffline, .hostNudge, .httpSpawn, .httpTake, .dial, .serveHello, .recvState fun _ => 3,
    .pushPending, .takeNudge, .pushPending, .httpFail]

/-- The batch is then unsent in an open session, with nothing ahead of it. -/
theorem unmarked_in_session :
    ¬ ∀ as s, Run.exec Net.step (.start .empty (.new "a")) as = some s → s.Scheduled := by
  intro h
  have hrun : (Run.exec Net.step (.start .empty (.new "a")) failsUnder).any
      (fun s => decide (¬ s.Scheduled)) = true := by decide +kernel
  obtain ⟨s, hs, hnot⟩ := (Option.any_eq_true _ _).mp hrun
  exact of_decide_eq_true hnot (h failsUnder s hs)

end Zeron.Registry
