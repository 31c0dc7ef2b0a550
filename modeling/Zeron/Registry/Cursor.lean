import Zeron.Registry.Net

/-!
# Cursor integrity

The two transports move one cursor. What the cursor has passed is never asked for again, so the
replica must hold it.

* `Synced`: the invariant; it also binds what is on its way to the replica;
* `Net.InTime`: a late broadcast or pull carries no row that the cursor has passed since;
* `synced_push`, `synced_recvState`, `synced_recvFrame`, `synced_httpApply`: the steps that
  matter;
* `cursor_integrity`: in every run of steps in time, the replica has the room's rows up to its
  cursor.
-/

namespace Zeron.Registry

open Cover (Covers)

/-- The queued broadcasts were sent by the room. -/
def Room.Queued (room : Room) (inbox : List Frame) : Prop :=
  ∀ frame, Frame.rows frame ∈ inbox → room.Sent frame

/-- What the session in progress binds: until its state arrives, the rows up to the cursor of its
hello, which moves only if the HTTPS task is done. -/
def LinkSynced (room : Room) (doc : RegistryDoc) (busy : Prop) : Link → Prop
  | .hello cursor => Covers RegistryRow.seq room.row doc.row (cursor.getD 0) ∧
      cursor.getD 0 ≤ room.storage.seq ∧ (busy → doc.serverSeq = cursor.getD 0)
  | .greeted cursor state inbox => Covers RegistryRow.seq room.row doc.row (cursor.getD 0) ∧
      cursor.getD 0 ≤ state.seq ∧ (busy → doc.serverSeq = cursor.getD 0) ∧
      room.Read (cursor.getD 0) state ∧ room.Queued inbox
  | .joined _ _ inbox => room.Queued inbox
  | _ => True

/-- What a pull in progress binds. -/
def HttpSynced (room : Room) (doc : RegistryDoc) : Http → Prop
  | .asked since => since ≤ doc.serverSeq
  | .answered since state => since ≤ doc.serverSeq ∧ since ≤ state.seq ∧ room.Read since state
  | _ => True

/-- The replica has the room's rows up to its cursor, and keeps them whatever is on its way. -/
structure Synced (s : Net) : Prop where
  cursor_le : s.doc.serverSeq ≤ s.room.storage.seq
  covered : Covers RegistryRow.seq s.room.row s.doc.row s.doc.serverSeq
  link : LinkSynced s.room s.doc (s.http ≠ .idle) s.link
  http : HttpSynced s.room s.doc s.http

/-- No row of a late list has changed again at or below `bound`. -/
def Room.Timely (room : Room) (bound n : ℕ) (rows : List RegistryRow) : Prop :=
  ∀ r ∈ rows, ∀ r' ∈ room.row r.key, r'.seq ≤ bound → r'.seq ≤ n

instance (room : Room) (bound n : ℕ) (rows : List RegistryRow) :
    Decidable (room.Timely bound n rows) :=
  inferInstanceAs (Decidable (∀ r ∈ rows, ∀ r' ∈ room.row r.key, _ → _))

/-- The step applies no row that the cursor, or the cursor of the hello on its way, has passed a
later version of. -/
def Net.InTime (s : Net) (a : Act) : Prop :=
  match a, s.link, s.http with
  | .recvFrame, .joined _ _ (.rows frame :: _), _ =>
    s.room.Timely s.doc.serverSeq frame.seq frame.rows
  | .httpApply _, .hello cursor, .answered _ state =>
    s.room.Timely (cursor.getD 0) state.seq state.rows
  | .httpApply _, .greeted cursor _ _, .answered _ state =>
    s.room.Timely (cursor.getD 0) state.seq state.rows
  | _, _, _ => True

instance (s : Net) (a : Act) : Decidable (s.InTime a) := by
  unfold Net.InTime
  split <;> infer_instance

/-! ## The room moves -/

section Advance

variable {room room' : Room} {doc : RegistryDoc} {busy : Prop}

theorem LinkSynced.advance {link : Link} (h : LinkSynced room doc busy link)
    (ha : Cover.Advances RegistryRow.seq room.row room'.row room.storage.seq)
    (hle : room.storage.seq ≤ room'.storage.seq) : LinkSynced room' doc busy link := by
  rcases link with _ | cursor | ⟨cursor, state, inbox⟩ | ⟨pushDue, outbox, inbox⟩ | _
  · trivial
  · exact ⟨h.1.advance ha h.2.1, h.2.1.trans hle, h.2.2⟩
  · obtain ⟨hcov, hseq, hbusy, hread, hqueue⟩ := h
    exact ⟨hcov.advance ha (hseq.trans hread.seq_le), hseq, hbusy, hread.advance ha hle,
      fun frame hf => (hqueue frame hf).advance ha hle⟩
  · exact fun frame hf => (h frame hf).advance ha hle
  · trivial

theorem HttpSynced.advance {http : Http} (h : HttpSynced room doc http)
    (ha : Cover.Advances RegistryRow.seq room.row room'.row room.storage.seq)
    (hle : room.storage.seq ≤ room'.storage.seq) : HttpSynced room' doc http := by
  rcases http with _ | _ | _ | _ | _ | since | ⟨since, state⟩
  case asked => exact h
  case answered => exact ⟨h.1, h.2.1, h.2.2.advance ha hle⟩
  all_goals trivial

theorem Synced.advance {s : Net} (h : Synced s)
    (ha : Cover.Advances RegistryRow.seq s.room.row room'.row s.room.storage.seq)
    (hle : s.room.storage.seq ≤ room'.storage.seq) : Synced { s with room := room' } :=
  ⟨h.cursor_le.trans hle, h.covered.advance ha h.cursor_le, h.link.advance ha hle,
    h.http.advance ha hle⟩

theorem LinkSynced.send {link : Link} {frame : Frame} (h : LinkSynced room doc busy link)
    (hf : ∀ f, frame = .rows f → room.Sent f) : LinkSynced room doc busy (link.send frame) := by
  have hqueue : ∀ inbox, room.Queued inbox → room.Queued (inbox ++ [frame]) := by
    intro inbox hq f hm
    rcases List.mem_append.mp hm with hm | hm
    · exact hq f hm
    · exact hf f (List.mem_singleton.mp hm).symm
  rcases link with _ | cursor | ⟨cursor, state, inbox⟩ | ⟨pushDue, outbox, inbox⟩ | _
  · exact h
  · exact h
  · exact ⟨h.1, h.2.1, h.2.2.1, h.2.2.2.1, hqueue inbox h.2.2.2.2⟩
  · exact hqueue inbox h
  · exact h

end Advance

/-- **A push keeps the replica synced.** -/
theorem synced_push {s : Net} (h : Synced s) (batch : String) (ops : List RowOp) :
    Synced (s.push batch ops) := by
  have hadv := h.advance (s.room.advances_push batch ops) (s.room.seq_le_push batch ops)
  rcases hf : (applyPushBatch s.room.storage batch ops).2.2 with _ | frame
  · have : s.push batch ops = { s with room := s.room.push batch ops } := by
      rw [Net.push, hf]
      rfl
    rwa [this]
  · have : s.push batch ops =
        { s with room := s.room.push batch ops, link := s.link.send (.rows frame) } := by
      rw [Net.push, hf]
      rfl
    rw [this]
    refine ⟨hadv.cursor_le, hadv.covered, hadv.link.send fun f he => ?_, hadv.http⟩
    cases he
    exact (s.room.sent_push hf).1

/-- **A push of the replica's own keeps it synced.** -/
theorem synced_servePush {s : Net} {pushDue : Bool} {b : PendingBatch} {outbox : List PendingBatch}
    {inbox : List Frame} (h : Synced s) (hl : s.link = .joined pushDue (b :: outbox) inbox) :
    Synced { { s with link := .joined pushDue outbox inbox }.push b.batch b.ops with
      link := ({ s with link := .joined pushDue outbox inbox }.push b.batch b.ops).link.send
        (s.answer b).frame } := by
  have hlink := h.link
  rw [hl] at hlink
  have hpop : Synced { s with link := .joined pushDue outbox inbox } :=
    ⟨h.cursor_le, h.covered, hlink, h.http⟩
  have hpush := synced_push hpop b.batch b.ops
  refine ⟨hpush.cursor_le, hpush.covered, hpush.link.send fun f he => ?_, hpush.http⟩
  rcases hr : s.answer b with _ | _ <;> simp [hr, PushReply.frame] at he

/-! ## The replica moves -/

section Doc

variable {room : Room} {doc doc' : RegistryDoc} {busy busy' : Prop}

theorem LinkSynced.withDoc {link : Link} (h : LinkSynced room doc busy link)
    (hrow : doc'.row = doc.row) (hseq : doc'.serverSeq = doc.serverSeq) (hbusy : busy' → busy) :
    LinkSynced room doc' busy' link := by
  rcases link with _ | cursor | ⟨cursor, state, inbox⟩ | ⟨pushDue, outbox, inbox⟩ | _
  · trivial
  · rw [LinkSynced, hrow, hseq]
    exact ⟨h.1, h.2.1, fun hb => h.2.2 (hbusy hb)⟩
  · rw [LinkSynced, hrow, hseq]
    exact ⟨h.1, h.2.1, fun hb => h.2.2.1 (hbusy hb), h.2.2.2⟩
  · exact h
  · trivial

theorem HttpSynced.mono {http : Http} (h : HttpSynced room doc http)
    (hle : doc.serverSeq ≤ doc'.serverSeq) : HttpSynced room doc' http := by
  rcases http with _ | _ | _ | _ | _ | since | ⟨since, state⟩
  case asked => exact h.trans hle
  case answered => exact ⟨h.1.trans hle, h.2⟩
  all_goals trivial

theorem Synced.withDoc {s : Net} (h : Synced s) (hrow : doc'.row = s.doc.row)
    (hseq : doc'.serverSeq = s.doc.serverSeq) : Synced { s with doc := doc' } := by
  refine ⟨?_, ?_, h.link.withDoc hrow hseq id, h.http.mono hseq.ge⟩
  · change doc'.serverSeq ≤ _
    rw [hseq]
    exact h.cursor_le
  · change Covers RegistryRow.seq s.room.row doc'.row doc'.serverSeq
    rw [hrow, hseq]
    exact h.covered

theorem Synced.flags {s : Net} (h : Synced s) (nudge owed : Bool) :
    Synced { s with nudge, owed } := ⟨h.cursor_le, h.covered, h.link, h.http⟩

theorem Synced.task {s : Net} (h : Synced s) (http : Http) (hbusy : s.http = .idle → http = .idle)
    (hhttp : HttpSynced s.room s.doc http) : Synced { s with http } :=
  ⟨h.cursor_le, h.covered, h.link.withDoc rfl rfl fun hb he => hb (hbusy he), hhttp⟩

/-- **A state read for what the replica has moves it to the state's seq.** -/
theorem StateApplied.covers {since : ℕ} {reply : StateReply} {batches : List PendingBatch}
    (h : StateApplied doc doc' reply batches)
    (hcov : Covers RegistryRow.seq room.row doc.row since) (hread : room.Read since reply) :
    Covers RegistryRow.seq room.row doc'.row reply.seq := by
  have hcomplete := hread.complete
  rw [h.row]
  split_ifs at hcomplete with hfull
  · exact Cover.covers_put room.wf.keyed (Cover.covers_zero room.wf.seq_pos _) hread.snapshot
      hcomplete
  · rw [if_neg fun hr => hfull hr.1]
    exact Cover.covers_put room.wf.keyed hcov hread.snapshot hcomplete

/-- **A late state does not harm what a hello on its way counts on**, if it is in time. -/
theorem StateApplied.covers_late {since c : ℕ} {reply : StateReply} {batches : List PendingBatch}
    (h : StateApplied doc doc' reply batches)
    (hcov : Covers RegistryRow.seq room.row doc.row since) (hread : room.Read since reply)
    (hc : Covers RegistryRow.seq room.row doc.row c) (hseq : doc.serverSeq = c)
    (htime : room.Timely c reply.seq reply.rows) : Covers RegistryRow.seq room.row doc'.row c := by
  by_cases hle : c ≤ reply.seq
  · exact (h.covers hcov hread).mono hle
  · rw [h.row, if_neg fun hr => hle (hseq ▸ hr.2)]
    exact Cover.covers_put_stale hc hread.snapshot htime

end Doc

/-- **The state of a hello keeps the replica synced.** -/
theorem synced_recvState {s : Net} {cursor : Option ℕ} {state : StateReply} {inbox : List Frame}
    (h : Synced s) (hl : s.link = .greeted cursor state inbox) (now : ℕ → ℤ) :
    Synced { s with doc := (s.doc.applyState now state).1, link := .joined true [] inbox } := by
  obtain ⟨batches, happ⟩ := applyState_spec s.doc now state
  have hlink := h.link
  rw [hl] at hlink
  obtain ⟨hcov, hle, hbusy, hread, hqueue⟩ := hlink
  refine ⟨?_, ?_, hqueue, ?_⟩
  · change (s.doc.applyState now state).1.serverSeq ≤ _
    rw [happ.serverSeq]
    exact hread.seq_le
  · change Covers RegistryRow.seq s.room.row _ (s.doc.applyState now state).1.serverSeq
    rw [happ.serverSeq]
    exact happ.covers hcov hread
  · -- a pull that is out asked for the hello's own cursor
    have hmove : s.http ≠ .idle → s.doc.serverSeq ≤ (s.doc.applyState now state).1.serverSeq := by
      intro hb
      rw [hbusy hb, happ.serverSeq]
      exact hle
    by_cases hb : s.http = .idle
    · change HttpSynced s.room _ s.http
      rw [hb]
      trivial
    · exact h.http.mono (hmove hb)

/-- **A broadcast in time keeps what the replica has**, and may move its cursor. -/
theorem synced_applyRows {s : Net} {frame : RowsFrame} (h : Synced s) (hsent : s.room.Sent frame)
    (htime : s.room.Timely s.doc.serverSeq frame.seq frame.rows) :
    Synced { s with doc := (s.doc.applyRows frame).1, link := .closing } ∧
      s.doc.serverSeq ≤ (s.doc.applyRows frame).1.serverSeq := by
  obtain ⟨hspec, -⟩ := applyRows_spec s.doc frame
  have hrow : (s.doc.applyRows frame).1.row =
      Cover.put RegistryRow.key s.doc.row frame.rows := by
    rw [hspec]
    exact funext fun key => row_putRows s.doc.authoritative frame.rows key
  have hseq : (s.doc.applyRows frame).1.serverSeq =
      if frame.seq = s.doc.serverSeq + 1 then frame.seq else s.doc.serverSeq := by
    rw [hspec]
  have hle : s.doc.serverSeq ≤ (s.doc.applyRows frame).1.serverSeq := by
    rw [hseq]
    split_ifs <;> omega
  refine ⟨⟨?_, ?_, trivial, h.http.mono hle⟩, hle⟩
  · change (s.doc.applyRows frame).1.serverSeq ≤ _
    rw [hseq]
    split_ifs
    · exact hsent.seq_le
    · exact h.cursor_le
  · change Covers RegistryRow.seq s.room.row (s.doc.applyRows frame).1.row
      (s.doc.applyRows frame).1.serverSeq
    rw [hrow, hseq]
    split_ifs with hnext
    · refine Cover.covers_put s.room.wf.keyed h.covered hsent.snapshot ?_
      have := hsent.complete
      rwa [hnext, Nat.add_sub_cancel, ← hnext] at this
    · exact Cover.covers_put_stale h.covered hsent.snapshot htime

/-- **So does any frame in time.** -/
theorem synced_recvFrame {s : Net} {outbox : List PendingBatch} {frame : Frame}
    {inbox : List Frame} (h : Synced s) (hl : s.link = .joined false outbox (frame :: inbox))
    (htime : s.InTime .recvFrame) :
    Synced { s with doc := (Net.handleFrame s.doc frame).1, link := .joined false outbox inbox } := by
  have hlink := h.link
  rw [hl] at hlink
  have hqueue : s.room.Queued inbox := fun f hf => hlink f (List.mem_cons_of_mem _ hf)
  rcases frame with frame | ⟨batch, seq⟩ | ⟨code, message⟩
  · simp only [Net.InTime, hl] at htime
    obtain ⟨hnext, -⟩ := synced_applyRows h (hlink frame List.mem_cons_self) htime
    exact ⟨hnext.cursor_le, hnext.covered, hqueue, hnext.http⟩
  · have hnext := h.withDoc (row_ackBatch s.doc batch) (serverSeq_ackBatch s.doc batch)
    exact ⟨hnext.cursor_le, hnext.covered, hqueue, hnext.http⟩
  · exact ⟨h.cursor_le, h.covered, hqueue, h.http⟩

/-- **A pull in time keeps the replica synced.** -/
theorem synced_httpApply {s : Net} {since : ℕ} {state : StateReply} (h : Synced s)
    (hh : s.http = .answered since state) {now : ℕ → ℤ} (htime : s.InTime (.httpApply now)) :
    Synced { s with doc := (s.doc.applyState now state).1, http := .idle } := by
  obtain ⟨batches, happ⟩ := applyState_spec s.doc now state
  have hhttp := h.http
  rw [hh] at hhttp
  obtain ⟨hsince, hle, hread⟩ := hhttp
  have hcov := h.covered.mono hsince
  have hlink := h.link
  refine ⟨?_, ?_, ?_, trivial⟩
  · change (s.doc.applyState now state).1.serverSeq ≤ _
    rw [happ.serverSeq]
    exact hread.seq_le
  · change Covers RegistryRow.seq s.room.row _ (s.doc.applyState now state).1.serverSeq
    rw [happ.serverSeq]
    exact happ.covers hcov hread
  · change LinkSynced s.room _ _ s.link
    rcases hl : s.link with _ | cursor | ⟨cursor, reply, inbox⟩ | ⟨pushDue, outbox, inbox⟩ | _
    case hello =>
      rw [hl] at hlink
      simp only [Net.InTime, hl, hh] at htime
      have hseq := hlink.2.2 (by simp [hh])
      exact ⟨happ.covers_late hcov hread hlink.1 hseq htime, hlink.2.1, fun hb => absurd rfl hb⟩
    case greeted =>
      rw [hl] at hlink
      simp only [Net.InTime, hl, hh] at htime
      have hseq := hlink.2.2.1 (by simp [hh])
      exact ⟨happ.covers_late hcov hread hlink.1 hseq htime, hlink.2.1, fun hb => absurd rfl hb,
        hlink.2.2.2⟩
    case joined =>
      rw [hl] at hlink
      exact hlink
    all_goals trivial

/-! ## Runs -/

/-- **Every step in time keeps the replica synced.** -/
theorem synced_step {s s' : Net} {a : Act} (h : Synced s) (htime : s.InTime a)
    (hs : s.step a = some s') : Synced s' := by
  have hlink := h.link
  have hhttp := h.http
  cases step_iff.mp hs with
  | enqueue => exact (h.flags s.nudge true).withDoc (row_enqueueOps _ _ _) (serverSeq_enqueueOps _ _ _)
  | hostNudge => exact h.flags true false
  | peerPush => exact synced_push h _ _
  | alarm =>
    refine h.advance (fun key r hr => Or.inl (s.room.row_alarm _ hr)) ?_
    rw [s.room.seq_alarm]
  | dial =>
    refine ⟨h.cursor_le, h.covered, ?_, h.http⟩
    rw [LinkSynced, helloCursor_getD]
    exact ⟨h.covered, h.cursor_le, fun _ => rfl⟩
  | serveHello hl =>
    rw [hl] at hlink
    exact ⟨h.cursor_le, h.covered, ⟨hlink.1, hlink.2.1, hlink.2.2, s.room.read_stateSince _,
      fun f hf => by cases hf⟩, h.http⟩
  | recvState hl => exact synced_recvState h hl _
  | takeNudge hl =>
    rw [hl] at hlink
    exact ⟨h.cursor_le, h.covered, hlink, h.http⟩
  | pushPending hl =>
    rw [hl] at hlink
    exact ⟨h.cursor_le, h.covered, hlink, h.http⟩
  | servePush hl => exact synced_servePush h hl
  | recvFrame hl hgo => exact synced_recvFrame h hl htime
  | recvGap hl hgap =>
    have hnext := synced_recvFrame h hl htime
    exact ⟨hnext.cursor_le, hnext.covered, trivial, hnext.http⟩
  | drop => exact ⟨h.cursor_le, h.covered, trivial, h.http⟩
  | markDown => exact ⟨h.cursor_le, h.covered, trivial, h.http.mono le_rfl⟩
  | httpSpawn hl hh =>
    refine ⟨h.cursor_le, h.covered, ?_, trivial⟩
    change LinkSynced _ _ _ s.link
    rw [hl]
    trivial
  | httpTake hh => exact (h.withDoc (row_takePushable s.doc) rfl).task (.pushing _) (fun he => by simp [hh] at he) trivial
  | httpServe hh =>
    refine (synced_push h _ _).task (.posted _ _) (fun he => ?_) trivial
    simp [hh] at he
  | httpAck hh =>
    exact (h.withDoc (row_ackBatch _ _) (serverSeq_ackBatch _ _)).task (.pushing _)
      (fun he => by simp [hh] at he) trivial
  | httpFail hh =>
    refine (h.withDoc (row_markDisconnected s.doc) rfl).task .pulling (fun he => ?_) trivial
    rw [show s.http = .idle from he] at hh
    exact hh.elim
  | httpPull hh =>
    refine h.task (.asked _) (fun he => ?_) le_rfl
    rw [he] at hh
    exact hh.elim
  | httpAnswer hh =>
    rw [hh] at hhttp
    refine h.task (.answered _ _) (fun he => by simp [hh] at he)
      ⟨hhttp, ?_, s.room.read_stateSince (some _)⟩
    exact hhttp.trans h.cursor_le
  | httpApply hh => exact synced_httpApply h hh htime
  | httpPullFail hh => exact h.task .idle (fun _ => rfl) trivial

/-- **Cursor integrity.** From a replica that has the room's rows up to its cursor, in every run
whose late lists are in time, the replica has them, as they stand, in every state. -/
theorem cursor_integrity (room : Room) (doc : RegistryDoc) (as : List Act) (s : Net)
    (hcursor : doc.serverSeq ≤ room.storage.seq)
    (hcovered : Covers RegistryRow.seq room.row doc.row doc.serverSeq)
    (htime : Run.Guarded Net.step Net.InTime (.start room doc) as)
    (hrun : Run.exec Net.step (.start room doc) as = some s) :
    ∀ key r, s.room.row key = some r → r.seq ≤ s.doc.serverSeq → s.doc.row key = some r :=
  (Run.exec_invariant (fun _ _ _ => synced_step)
    (show Synced (.start room doc) from ⟨hcursor, hcovered, trivial, trivial⟩) htime hrun).covered

/-- Titles the chat. -/
def titleChat (title : String) (hlc : Hlc) : RowOp :=
  { kind := "chats", id := "c", op := .upsert, set := some {("title", .str title)}, hlc
    clocks := none }

/-- A hello, then a broadcast. -/
def followed : List Act :=
  [.peerPush "b1" [titleChat "one" "0000000000001-000000-b"], .dial, .serveHello,
    .recvState fun _ => 0, .pushPending,
    .peerPush "b2" [titleChat "two" "0000000000002-000000-b"], .recvFrame]

theorem cursor_integrity_followed : ∃ s, Run.exec Net.step (.start .empty (.new "a")) followed = some s ∧
    ∃ r, s.room.row ⟨"chats", "c"⟩ = some r ∧ s.doc.row ⟨"chats", "c"⟩ = some r := by
  have hrun : (Run.exec Net.step (.start .empty (.new "a")) followed).any (fun s =>
      (s.room.row ⟨"chats", "c"⟩).any (·.seq ≤ s.doc.serverSeq)) = true := by decide +kernel
  obtain ⟨s, hs, hrow⟩ := (Option.any_eq_true _ _).mp hrun
  obtain ⟨r, hr, hle⟩ := (Option.any_eq_true _ _).mp hrow
  refine ⟨s, hs, r, hr, ?_⟩
  exact cursor_integrity .empty (.new "a") followed s le_rfl
    (Cover.covers_zero Room.empty.wf.seq_pos _) (Run.guarded_of_checks (by decide +kernel)) hs
    ⟨"chats", "c"⟩ r hr (by simpa using hle)

/-- A pull overtakes two broadcasts: the first arrives late, the second is lost with the socket. -/
def overtaken : List Act :=
  [.peerPush "b1" [titleChat "one" "0000000000001-000000-b"], .httpSpawn, .httpTake, .dial,
    .serveHello, .recvState fun _ => 0, .pushPending, .httpPull,
    .peerPush "b2" [titleChat "two" "0000000000002-000000-b"],
    .peerPush "b3" [titleChat "three" "0000000000003-000000-b"], .httpAnswer, .httpApply fun _ => 0,
    .recvFrame, .drop, .markDown, .dial, .serveHello, .recvState fun _ => 0]

/-- After a reconnect the replica still has the second title, and its cursor is past the third. -/
theorem late_broadcast_sticks : ¬ ∀ as s, Run.exec Net.step (.start .empty (.new "a")) as = some s →
    ∀ key r, s.room.row key = some r → r.seq ≤ s.doc.serverSeq → s.doc.row key = some r := by
  intro h
  have hrun : (Run.exec Net.step (.start .empty (.new "a")) overtaken).any (fun s =>
      (s.room.row ⟨"chats", "c"⟩).any fun r =>
        r.seq ≤ s.doc.serverSeq && s.doc.row ⟨"chats", "c"⟩ ≠ some r) = true := by decide +kernel
  obtain ⟨s, hs, hrow⟩ := (Option.any_eq_true _ _).mp hrun
  obtain ⟨r, hr, hlack⟩ := (Option.any_eq_true _ _).mp hrow
  rw [Bool.and_eq_true, decide_eq_true_iff, decide_eq_true_iff] at hlack
  exact hlack.2 (h overtaken s hs ⟨"chats", "c"⟩ r hr hlack.1)

end Zeron.Registry
