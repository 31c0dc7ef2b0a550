import Zeron.Registry.Backed
import Zeron.Registry.Cursor

/-!
# A wiped room

The operator's wipe empties the room and restarts its seq; the replicas keep cursors of the era
before. A replica whose cursor is ahead of the room's seq is answered with a full state, seeds the
room with its rows, and ends with the room's rows.

* `Era`: runs after the wipe, with what is left of the era before; `Era.Detected`: a cursor of
  that era shows when the room is asked;
* `Chain`: queued broadcasts are consecutive;
* `Tracks`, **`tracks_step`**: the rows and the cursor in the new era;
* `Recovers`, `recovers_step`: these, and what the replica's rows and acks stand for;
* `reset_detected`: in every run whose stale cursors show, stale replicas get full states, and a
  joined replica with nothing queued has exactly the room's rows.
-/

namespace Zeron.Registry

open Cover (Covers)

/-! ## The new era -/

/-- A replica next to a wiped room. -/
structure Era where
  net : Net
  /-- The replica has applied no state of the new era. -/
  stale : Bool
  /-- The pull that is out was asked by a stale replica. -/
  stalePull : Bool

namespace Era

/-- After the wipe, which closes the sockets. -/
def start (doc : RegistryDoc) : Era :=
  { net := .start .empty doc, stale := true, stalePull := false }

def step (e : Era) (a : Act) : Option Era :=
  (e.net.step a).map fun net =>
    { net
      stale := e.stale && (e.net.applied a).isNone
      stalePull := match a with
        | .httpPull => e.stale
        | _ => e.stalePull }

/-- A stale cursor is ahead of the room's seq when the room answers; pulls are applied outside
sessions, and the alarm purges nothing. -/
def Detected (e : Era) (a : Act) : Prop :=
  e.net.Lasting a ∧ match a, e.net.link, e.net.http with
    | .serveHello, .hello (some cursor), _ =>
      e.stale = true → e.net.room.storage.seq < cursor
    | .httpAnswer, _, .asked since => e.stalePull = true → e.net.room.storage.seq < since
    | .httpApply _, link, _ => ¬ link.Open
    | _, _, _ => True

end Era

/-! ## Consecutive broadcasts -/

/-- The queued broadcasts lead from one seq to the next, up to the last. -/
def Chain : ℕ → List Frame → ℕ → Prop
  | n, [], m => n = m
  | n, .rows frame :: inbox, m => frame.seq = n + 1 ∧ Chain (n + 1) inbox m
  | n, _ :: inbox, m => Chain n inbox m

theorem Chain.rows {n m : ℕ} {inbox : List Frame} {frame : RowsFrame} (h : Chain n inbox m)
    (hseq : frame.seq = m + 1) : Chain n (inbox ++ [Frame.rows frame]) (m + 1) := by
  induction inbox generalizing n with
  | nil =>
    cases h
    exact ⟨hseq, rfl⟩
  | cons f inbox ih =>
    rcases f with f | _ | _
    · exact ⟨h.1, ih h.2⟩
    · exact ih h
    · exact ih h

theorem Chain.other {n m : ℕ} {inbox : List Frame} {frame : Frame} (h : Chain n inbox m)
    (hframe : ∀ f, frame ≠ .rows f) : Chain n (inbox ++ [frame]) m := by
  induction inbox generalizing n with
  | nil =>
    cases h
    rcases frame with f | _ | _
    · exact absurd rfl (hframe f)
    · rfl
    · rfl
  | cons f inbox ih =>
    rcases f with f | _ | _
    · exact ⟨h.1, ih h.2⟩
    · exact ih h
    · exact ih h

/-! ## Rows and cursor -/

/-- What the session binds. -/
def TracksLink (room : Room) (doc : RegistryDoc) (stale : Bool) : Link → Prop
  | .hello cursor => stale = false → cursor.getD 0 = doc.serverSeq
  | .greeted cursor state inbox => room.Read (cursor.getD 0) state ∧
      (stale = true → state.full = true) ∧
      (stale = false → cursor.getD 0 = doc.serverSeq ∧ doc.serverSeq ≤ state.seq) ∧
      Chain state.seq inbox room.storage.seq ∧ room.Queued inbox
  | .joined _ _ inbox => stale = false ∧ Chain doc.serverSeq inbox room.storage.seq ∧
      room.Queued inbox
  | _ => True

/-- What the pull binds. -/
def TracksHttp (room : Room) (doc : RegistryDoc) (stale stalePull : Bool) : Http → Prop
  | .asked since => stalePull = false → stale = false ∧ since ≤ doc.serverSeq
  | .answered since state => room.Read since state ∧ (stalePull = true → state.full = true) ∧
      (stalePull = false → stale = false ∧ since ≤ doc.serverSeq)
  | _ => True

/-- A replica that has applied a state of the new era has the room's rows up to its cursor, and
what it will receive leads on to the room's seq. -/
structure Tracks (e : Era) : Prop where
  gcFloor : e.net.room.storage.gcFloor = 0
  cursor_le : e.stale = false → e.net.doc.serverSeq ≤ e.net.room.storage.seq
  covered : e.stale = false →
    Covers RegistryRow.seq e.net.room.row e.net.doc.row e.net.doc.serverSeq
  link : TracksLink e.net.room e.net.doc e.stale e.net.link
  http : TracksHttp e.net.room e.net.doc e.stale e.stalePull e.net.http

section Advance

variable {room room' : Room} {doc doc' : RegistryDoc} {stale stalePull : Bool}

theorem TracksHttp.advance {http : Http} (h : TracksHttp room doc stale stalePull http)
    (ha : Cover.Advances RegistryRow.seq room.row room'.row room.storage.seq)
    (hle : room.storage.seq ≤ room'.storage.seq) : TracksHttp room' doc stale stalePull http := by
  rcases http with _ | _ | _ | _ | _ | since | ⟨since, state⟩
  case asked => exact h
  case answered => exact ⟨h.1.advance ha hle, h.2⟩
  all_goals trivial

theorem TracksHttp.mono {http : Http} (h : TracksHttp room doc stale stalePull http)
    (hle : stale = false → doc.serverSeq ≤ doc'.serverSeq) :
    TracksHttp room doc' stale stalePull http := by
  rcases http with _ | _ | _ | _ | _ | since | ⟨since, state⟩
  case asked => exact fun hp => ⟨(h hp).1, (h hp).2.trans (hle (h hp).1)⟩
  case answered =>
    exact ⟨h.1, h.2.1, fun hp => ⟨(h.2.2 hp).1, (h.2.2 hp).2.trans (hle (h.2.2 hp).1)⟩⟩
  all_goals trivial

theorem TracksHttp.refresh {http : Http} (h : TracksHttp room doc stale stalePull http) :
    TracksHttp room doc false stalePull http := by
  rcases http with _ | _ | _ | _ | _ | since | ⟨since, state⟩
  case asked => exact fun hp => ⟨rfl, (h hp).2⟩
  case answered => exact ⟨h.1, h.2.1, fun hp => ⟨rfl, (h.2.2 hp).2⟩⟩
  all_goals trivial

theorem TracksLink.withDoc {link : Link} (h : TracksLink room doc stale link)
    (hseq : doc'.serverSeq = doc.serverSeq) : TracksLink room doc' stale link := by
  rcases link with _ | _ | _ | _ | _
  case hello => exact fun hf => (h hf).trans hseq.symm
  case greeted => exact ⟨h.1, h.2.1, fun hf => hseq.symm ▸ h.2.2.1 hf, h.2.2.2⟩
  case joined => exact ⟨h.1, hseq.symm ▸ h.2.1, h.2.2⟩
  all_goals trivial

theorem TracksLink.closed {link : Link} (h : ¬ link.Open) : TracksLink room doc stale link := by
  rcases link with _ | _ | _ | _ | _
  case down => trivial
  case closing => trivial
  all_goals exact absurd trivial h

theorem TracksLink.advance {link : Link} (h : TracksLink room doc stale link)
    (ha : Cover.Advances RegistryRow.seq room.row room'.row room.storage.seq)
    (hseq : room'.storage.seq = room.storage.seq) : TracksLink room' doc stale link := by
  rcases link with _ | _ | ⟨cursor, state, inbox⟩ | ⟨pushDue, outbox, inbox⟩ | _
  case greeted =>
    obtain ⟨hread, hfull, hfresh, hchain, hqueue⟩ := h
    exact ⟨hread.advance ha hseq.ge, hfull, hfresh, hseq ▸ hchain,
      fun f hf => (hqueue f hf).advance ha hseq.ge⟩
  case joined =>
    obtain ⟨hfresh, hchain, hqueue⟩ := h
    exact ⟨hfresh, hseq ▸ hchain, fun f hf => (hqueue f hf).advance ha hseq.ge⟩
  all_goals exact h

theorem TracksLink.rows {link : Link} {frame : RowsFrame} (h : TracksLink room doc stale link)
    (ha : Cover.Advances RegistryRow.seq room.row room'.row room.storage.seq)
    (hseq : room'.storage.seq = room.storage.seq + 1) (hsent : room'.Sent frame)
    (hframe : frame.seq = room.storage.seq + 1) :
    TracksLink room' doc stale (link.send (.rows frame)) := by
  have hle : room.storage.seq ≤ room'.storage.seq := by omega
  have hqueued : ∀ {inbox}, room.Queued inbox → room'.Queued (inbox ++ [Frame.rows frame]) := by
    intro inbox hq f hf
    rcases List.mem_append.mp hf with hf | hf
    · exact (hq f hf).advance ha hle
    · cases List.mem_singleton.mp hf
      exact hsent
  rcases link with _ | _ | ⟨cursor, state, inbox⟩ | ⟨pushDue, outbox, inbox⟩ | _
  case greeted =>
    obtain ⟨hread, hfull, hfresh, hchain, hqueue⟩ := h
    exact ⟨hread.advance ha hle, hfull, hfresh, hseq ▸ hchain.rows hframe, hqueued hqueue⟩
  case joined =>
    obtain ⟨hfresh, hchain, hqueue⟩ := h
    exact ⟨hfresh, hseq ▸ hchain.rows hframe, hqueued hqueue⟩
  all_goals exact h

theorem TracksLink.other {link : Link} {frame : Frame} (h : TracksLink room doc stale link)
    (hframe : ∀ f, frame ≠ .rows f) : TracksLink room doc stale (link.send frame) := by
  have hqueued : ∀ {inbox}, room.Queued inbox → room.Queued (inbox ++ [frame]) := by
    intro inbox hq f hf
    rcases List.mem_append.mp hf with hf | hf
    · exact hq f hf
    · exact absurd (List.mem_singleton.mp hf).symm (hframe f)
  rcases link with _ | _ | ⟨cursor, state, inbox⟩ | ⟨pushDue, outbox, inbox⟩ | _
  case greeted =>
    obtain ⟨hread, hfull, hfresh, hchain, hqueue⟩ := h
    exact ⟨hread, hfull, hfresh, hchain.other hframe, hqueued hqueue⟩
  case joined =>
    obtain ⟨hfresh, hchain, hqueue⟩ := h
    exact ⟨hfresh, hchain.other hframe, hqueued hqueue⟩
  all_goals exact h

end Advance

/-- **A push keeps the replica tracking the room.** -/
theorem tracks_push {e : Era} (h : Tracks e) (batch : String) (ops : List RowOp) :
    Tracks { e with net := e.net.push batch ops } := by
  have ha := e.net.room.advances_push batch ops
  have hle := e.net.room.seq_le_push batch ops
  have hfloor : (e.net.room.push batch ops).storage.gcFloor = 0 := by
    rcases hc : checkBatch batch ops with _ | error
    · exact (applyPushBatch_spec e.net.room.wf hc).gcFloor.trans h.gcFloor
    · rw [show (e.net.room.push batch ops).storage = e.net.room.storage from
        congrArg Prod.fst (applyPushBatch_refused hc)]
      exact h.gcFloor
  refine ⟨hfloor, fun hf => (h.cursor_le hf).trans hle,
    fun hf => (h.covered hf).advance ha (h.cursor_le hf), ?_, h.http.advance ha hle⟩
  change TracksLink (e.net.room.push batch ops) e.net.doc e.stale (e.net.link.broadcast _)
  rcases hf : (applyPushBatch e.net.room.storage batch ops).2.2 with _ | frame
  · rw [e.net.room.push_idle hf]
    exact h.link
  · obtain ⟨hsent, hframe, hseq⟩ := e.net.room.sent_push hf
    exact h.link.rows ha hseq hsent hframe

/-- **Frames move the replica on, one seq at a time.** -/
theorem tracks_handleFrame {e : Era} (h : Tracks e) {pushDue : Bool} {outbox : List PendingBatch}
    {frame : Frame} {inbox : List Frame}
    (hl : e.net.link = .joined pushDue outbox (frame :: inbox)) :
    Tracks { e with net := { e.net with
      doc := (Net.handleFrame e.net.doc frame).1, link := .joined pushDue outbox inbox } } := by
  have hlink := h.link
  rw [hl] at hlink
  obtain ⟨hfresh, hchain, hqueue⟩ := hlink
  have hqueue' : e.net.room.Queued inbox := fun f hf => hqueue f (List.mem_cons_of_mem _ hf)
  have hcov := h.covered hfresh
  have hle := h.cursor_le hfresh
  rcases frame with frame | ⟨batch, seq⟩ | ⟨code, message⟩
  · obtain ⟨hnext, hchain⟩ := hchain
    have hsent := hqueue frame List.mem_cons_self
    obtain ⟨hspec, -⟩ := applyRows_spec e.net.doc frame
    rw [if_pos hnext] at hspec
    have hrow : (e.net.doc.applyRows frame).1.row =
        Cover.put RegistryRow.key e.net.doc.row frame.rows := by
      rw [hspec]
      exact funext fun key => row_putRows e.net.doc.authoritative frame.rows key
    have hseq : (e.net.doc.applyRows frame).1.serverSeq = frame.seq := by rw [hspec]
    refine ⟨h.gcFloor, fun _ => ?_, fun _ => ?_, ⟨hfresh, ?_, hqueue'⟩, h.http.mono fun _ => ?_⟩
    · change (e.net.doc.applyRows frame).1.serverSeq ≤ _
      rw [hseq]
      exact hsent.seq_le
    · change Covers RegistryRow.seq e.net.room.row (e.net.doc.applyRows frame).1.row
        (e.net.doc.applyRows frame).1.serverSeq
      rw [hrow, hseq]
      refine Cover.covers_put e.net.room.wf.keyed hcov hsent.snapshot ?_
      have := hsent.complete
      rwa [hnext, Nat.add_sub_cancel, ← hnext] at this
    · change Chain (e.net.doc.applyRows frame).1.serverSeq inbox _
      rwa [hseq, hnext]
    · change _ ≤ (e.net.doc.applyRows frame).1.serverSeq
      rw [hseq]
      omega
  · have hseq := serverSeq_ackBatch e.net.doc batch
    have hrow := row_ackBatch e.net.doc batch
    refine ⟨h.gcFloor, fun _ => ?_, fun _ => ?_, ⟨hfresh, ?_, hqueue'⟩, h.http.mono fun _ => ?_⟩
    · exact hseq.trans_le hle
    · change Covers RegistryRow.seq e.net.room.row (e.net.doc.ackBatch batch).1.row
        (e.net.doc.ackBatch batch).1.serverSeq
      rwa [hrow, hseq]
    · change Chain (e.net.doc.ackBatch batch).1.serverSeq inbox _
      rwa [hseq]
    · exact hseq.ge
  · exact ⟨h.gcFloor, h.cursor_le, h.covered, ⟨hfresh, hchain, hqueue'⟩, h.http⟩

theorem full_of_ahead {room : Room} {cursor : Option ℕ}
    (h : ∀ c, cursor = some c → room.storage.seq < c) :
    (room.storage.stateSince cursor).full = true := by
  rcases cursor with _ | c
  · rfl
  · simp [Storage.stateSince, h c rfl]

theorem Room.Read.full {room : Room} {since : ℕ} {state : StateReply} (h : room.Read since state)
    (hfull : state.full = true) : room.Read 0 state := by
  refine ⟨h.seq_le, h.snapshot, ?_⟩
  have := h.complete
  rwa [if_pos hfull] at this ⊢

/-- **A full state, or one read for what the replica has, brings it to the state's seq.** -/
theorem covers_applied {e : Era} (h : Tracks e) {since : ℕ} {state : StateReply}
    (hread : e.net.room.Read since state) (hor : state.full = true ∨
      (e.stale = false ∧ since ≤ e.net.doc.serverSeq)) (now : ℕ → ℤ) :
    (e.net.doc.applyState now state).1.serverSeq = state.seq ∧
      Covers RegistryRow.seq e.net.room.row (e.net.doc.applyState now state).1.row state.seq := by
  obtain ⟨batches, happ⟩ := applyState_spec e.net.doc now state
  refine ⟨happ.serverSeq, ?_⟩
  rcases hor with hfull | ⟨hfresh, hle⟩
  · exact happ.covers (Cover.covers_zero e.net.room.wf.seq_pos _) (hread.full hfull)
  · exact happ.covers ((h.covered hfresh).mono hle) hread

theorem tracks_recvState {e : Era} (h : Tracks e) {cursor : Option ℕ} {state : StateReply}
    {inbox : List Frame} (hl : e.net.link = .greeted cursor state inbox) (now : ℕ → ℤ) :
    Tracks { e with stale := false, net := { e.net with
      doc := (e.net.doc.applyState now state).1, link := .joined true [] inbox } } := by
  have hlink := h.link
  rw [hl] at hlink
  obtain ⟨hread, hfull, hfresh, hchain, hqueue⟩ := hlink
  have hor : state.full = true ∨ (e.stale = false ∧ cursor.getD 0 ≤ e.net.doc.serverSeq) := by
    rcases hs : e.stale with _ | _
    · exact Or.inr ⟨rfl, (hfresh hs).1.le⟩
    · exact Or.inl (hfull hs)
  obtain ⟨hseq, hcov⟩ := covers_applied h hread hor now
  refine ⟨h.gcFloor, fun _ => hseq.trans_le hread.seq_le, fun _ => ?_, ⟨rfl, ?_, hqueue⟩, ?_⟩
  · change Covers RegistryRow.seq _ _ (e.net.doc.applyState now state).1.serverSeq
    rwa [hseq]
  · change Chain (e.net.doc.applyState now state).1.serverSeq inbox _
    rwa [hseq]
  · refine TracksHttp.refresh (h.http.mono fun hf => ?_)
    rw [hseq]
    exact (hfresh hf).2

theorem tracks_httpApply {e : Era} (h : Tracks e) {since : ℕ} {state : StateReply}
    (hh : e.net.http = .answered since state) (hclosed : ¬ e.net.link.Open) (now : ℕ → ℤ) :
    Tracks { e with stale := false, net := { e.net with
      doc := (e.net.doc.applyState now state).1, http := .idle } } := by
  have hhttp := h.http
  rw [hh] at hhttp
  obtain ⟨hread, hfull, hfresh⟩ := hhttp
  have hor : state.full = true ∨ (e.stale = false ∧ since ≤ e.net.doc.serverSeq) := by
    rcases hp : e.stalePull with _ | _
    · exact Or.inr (hfresh hp)
    · exact Or.inl (hfull hp)
  obtain ⟨hseq, hcov⟩ := covers_applied h hread hor now
  refine ⟨h.gcFloor, fun _ => hseq.trans_le hread.seq_le, fun _ => ?_, ?_, trivial⟩
  · change Covers RegistryRow.seq _ _ (e.net.doc.applyState now state).1.serverSeq
    rwa [hseq]
  · exact TracksLink.closed hclosed

theorem Tracks.withDoc {e : Era} (h : Tracks e) {doc : RegistryDoc}
    (hrow : doc.row = e.net.doc.row) (hseq : doc.serverSeq = e.net.doc.serverSeq) :
    Tracks { e with net := { e.net with doc } } := by
  refine ⟨h.gcFloor, fun hf => hseq.trans_le (h.cursor_le hf), fun hf => ?_, h.link.withDoc hseq,
    h.http.mono fun _ => hseq.ge⟩
  change Covers RegistryRow.seq _ doc.row doc.serverSeq
  rw [hrow, hseq]
  exact h.covered hf

/-- **Every step of a run whose stale cursors show keeps the replica tracking the room.** -/
theorem tracks_step {e e' : Era} {a : Act} (h : Tracks e) (hdet : e.Detected a)
    (hs : e.step a = some e') : Tracks e' := by
  obtain ⟨net, hnet, rfl⟩ := Option.map_eq_some_iff.mp hs
  -- no other step applies a state
  have hsame : ∀ {net stalePull}, Tracks ⟨net, e.stale, stalePull⟩ →
      Tracks ⟨net, e.stale && (none : Option StateReply).isNone, stalePull⟩ := by
    intro net stalePull ht
    simpa using ht
  have hlink := h.link
  have hhttp := h.http
  cases step_iff.mp hnet with
  | recvState hl =>
    simp only [Net.applied, hl, Option.isNone_some, Bool.and_false]
    exact tracks_recvState h hl _
  | httpApply hh =>
    simp only [Net.applied, hh, Option.isNone_some, Bool.and_false]
    exact tracks_httpApply h hh hdet.2 _
  | @enqueue clock now ops _ =>
    have hdoc := h.withDoc (row_enqueueOps { e.net.doc with clock } now ops)
      (serverSeq_enqueueOps { e.net.doc with clock } now ops)
    exact hsame ⟨hdoc.gcFloor, hdoc.cursor_le, hdoc.covered, hdoc.link, hdoc.http⟩
  | hostNudge => exact hsame ⟨h.gcFloor, h.cursor_le, h.covered, h.link, h.http⟩
  | @peerPush batch ops =>
    have hpush := tracks_push h batch ops
    exact hsame ⟨hpush.gcFloor, hpush.cursor_le, hpush.covered, hpush.link, hpush.http⟩
  | @alarm nowMs =>
    have hrow := funext (Room.Unexpired.row hdet.1)
    obtain ⟨-, hseq, hfloor⟩ := Room.Unexpired.alarm hdet.1
    have ha : Cover.Advances RegistryRow.seq e.net.room.row (e.net.room.alarm nowMs).row
        e.net.room.storage.seq := fun key r hr => Or.inl (hrow ▸ hr)
    refine hsame ⟨hfloor.trans h.gcFloor, fun hf => (h.cursor_le hf).trans_eq hseq.symm,
      fun hf => ?_, h.link.advance ha hseq, h.http.advance ha hseq.ge⟩
    change Covers RegistryRow.seq (e.net.room.alarm nowMs).row _ _
    rw [hrow]
    exact h.covered hf
  | dial hl =>
    exact hsame ⟨h.gcFloor, h.cursor_le, h.covered, fun _ => helloCursor_getD _, h.http⟩
  | @serveHello cursor hl =>
    rw [hl] at hlink
    refine hsame ⟨h.gcFloor, h.cursor_le, h.covered, ⟨e.net.room.read_stateSince cursor,
      fun hstale => ?_, fun hf => ⟨hlink hf, h.cursor_le hf⟩, rfl, fun f hf => (by cases hf)⟩, h.http⟩
    refine full_of_ahead fun c hc => ?_
    have hahead := hdet.2
    rw [hl, hc] at hahead
    exact hahead hstale
  | takeNudge hl =>
    rw [hl] at hlink
    exact hsame ⟨h.gcFloor, h.cursor_le, h.covered, hlink, h.http⟩
  | pushPending hl =>
    rw [hl] at hlink
    exact hsame ⟨h.gcFloor, h.cursor_le, h.covered, hlink, h.http⟩
  | @servePush pushDue b outbox inbox hl =>
    rw [hl] at hlink
    have hpop : Tracks { e with net := { e.net with link := .joined pushDue outbox inbox } } :=
      ⟨h.gcFloor, h.cursor_le, h.covered, hlink, h.http⟩
    have hpush := tracks_push hpop b.batch b.ops
    refine hsame ⟨hpush.gcFloor, hpush.cursor_le, hpush.covered, hpush.link.other fun f he => ?_,
      hpush.http⟩
    rcases hans : e.net.answer b with _ | _ <;> simp [hans, PushReply.frame] at he
  | recvFrame hl =>
    have hnext := tracks_handleFrame h hl
    exact hsame ⟨hnext.gcFloor, hnext.cursor_le, hnext.covered, hnext.link, hnext.http⟩
  | recvGap hl =>
    have hnext := tracks_handleFrame h hl
    exact hsame ⟨hnext.gcFloor, hnext.cursor_le, hnext.covered, trivial, hnext.http⟩
  | drop => exact hsame ⟨h.gcFloor, h.cursor_le, h.covered, trivial, h.http⟩
  | markDown => exact hsame ⟨h.gcFloor, h.cursor_le, h.covered, trivial, h.http.mono fun _ => le_rfl⟩
  | httpSpawn => exact hsame ⟨h.gcFloor, h.cursor_le, h.covered, h.link, trivial⟩
  | httpTake =>
    exact hsame ⟨h.gcFloor, h.cursor_le, h.covered, h.link.withDoc rfl, trivial⟩
  | @httpServe b rest _ =>
    have hpush := tracks_push h b.batch b.ops
    exact hsame ⟨hpush.gcFloor, hpush.cursor_le, hpush.covered, hpush.link, trivial⟩
  | @httpAck batch _ _ _ _ =>
    have hdoc := h.withDoc (row_ackBatch e.net.doc batch) (serverSeq_ackBatch e.net.doc batch)
    exact hsame ⟨hdoc.gcFloor, hdoc.cursor_le, hdoc.covered, hdoc.link, trivial⟩
  | httpFail => exact hsame ⟨h.gcFloor, h.cursor_le, h.covered, h.link.withDoc rfl, trivial⟩
  | httpPull =>
    exact hsame ⟨h.gcFloor, h.cursor_le, h.covered, h.link, fun hf => ⟨hf, le_rfl⟩⟩
  | @httpAnswer since hh =>
    rw [hh] at hhttp
    refine hsame ⟨h.gcFloor, h.cursor_le, h.covered, h.link,
      ⟨e.net.room.read_stateSince (some since), fun hp => ?_, hhttp⟩⟩
    refine full_of_ahead fun c hc => ?_
    cases hc
    have hahead := hdet.2
    simp only [hh] at hahead
    exact hahead hp
  | httpPullFail => exact hsame ⟨h.gcFloor, h.cursor_le, h.covered, h.link, trivial⟩

/-! ## Recovery -/

/-- The replica's rows, names and acks stand for rows that the room has or will have. -/
structure Recovers (e : Era) : Prop where
  keyed : e.net.doc.Keyed
  named : Named e.net
  retired : Retired e.net
  known : Known e.net
  tracks : Tracks e
  backed : e.stale = false → Backed e.net

theorem recovers_start {doc : RegistryDoc} (hkeyed : doc.Keyed)
    (hnames : ∀ b ∈ doc.pending, MintedBy doc.deviceId doc.clock b.batch)
    (hdistinct : (doc.pending.map (·.batch)).Nodup) : Recovers (.start doc) := by
  have hqueue : (Era.start doc).net.queue = doc.pending := by
    simp [Era.start, Net.start, Net.queue, Link.outbox, Http.outbox]
  refine ⟨hkeyed, ⟨?_, ?_⟩, ?_, ?_, ⟨rfl, (fun h => by cases h), (fun h => by cases h), trivial,
    trivial⟩, fun h => (by cases h)⟩
  · rw [hqueue]
    exact hnames
  · rw [hqueue]
    intro b hb b' hb' he
    rw [List.inj_on_of_nodup_map hdistinct hb hb' he]
  · rintro name (⟨seq, hm⟩ | ⟨seq, applied, rest, he⟩)
    · cases hm
    · cases he
  · rintro r (⟨frame, hm, -⟩ | ⟨cursor, state, inbox, he, -⟩ | ⟨since, state, he, -⟩)
    · cases hm
    · cases he
    · cases he

theorem full_of_stale {e : Era} (h : Tracks e) (hstale : e.stale = true) {a : Act}
    {state : StateReply} (hstate : e.net.applied a = some state) : state.full = true := by
  have hlink := h.link
  have hhttp := h.http
  unfold Net.applied at hstate
  split at hstate
  · rename_i hl
    cases hstate
    rw [hl] at hlink
    exact hlink.2.1 hstale
  · rename_i hh
    cases hstate
    rw [hh] at hhttp
    rcases hp : e.stalePull with _ | _
    · rw [(hhttp.2.2 hp).1] at hstale
      cases hstale
    · exact hhttp.2.1 hp
  · cases hstate

/-- **Every step of a run whose stale cursors show keeps the replica recovering.** -/
theorem recovers_step {e e' : Era} {a : Act} (h : Recovers e) (hdet : e.Detected a)
    (hs : e.step a = some e') : Recovers e' := by
  have htracks := tracks_step h.tracks hdet hs
  obtain ⟨net, hnet, rfl⟩ := Option.map_eq_some_iff.mp hs
  have hstep := step_iff.mp hnet
  refine ⟨keyed_step hstep h.keyed, named_step h.named hstep,
    retired_step h.named h.retired hdet.1 hstep, known_step h.known hdet.1 hstep, htracks,
    fun hfresh => ?_⟩
  rcases hstale : e.stale with _ | _
  · exact backed_step (h.backed hstale) h.retired h.known hdet.1 hnet
  · -- the replica has just applied its first state
    change (e.stale && (e.net.applied a).isNone) = false at hfresh
    rw [hstale, Bool.true_and, Option.isNone_eq_false_iff, Option.isSome_iff_exists] at hfresh
    obtain ⟨state, hstate⟩ := hfresh
    exact backed_of_full h.keyed h.known hdet.1 hstep hstate (full_of_stale h.tracks hstale hstate)

theorem Recovers.row_eq {e : Era} (h : Recovers e) {pushDue : Bool} {outbox : List PendingBatch}
    (hl : e.net.link = .joined pushDue outbox []) (hpending : e.net.doc.pending = [])
    (key : RowKey) : e.net.doc.row key = e.net.room.row key := by
  have hlink := h.tracks.link
  rw [hl] at hlink
  obtain ⟨hfresh, hseq, -⟩ := hlink
  change e.net.doc.serverSeq = e.net.room.storage.seq at hseq
  rcases hr : e.net.room.row key with _ | r
  · by_contra hne
    obtain ⟨r, hdoc⟩ := Option.ne_none_iff_exists'.mp hne
    rcases h.backed hfresh key r hdoc with ⟨r', hr'⟩ | ⟨entry, he, -⟩
    · rw [hr] at hr'
      cases hr'
    · rw [RegistryDoc.entries, hpending] at he
      cases he
  · exact h.tracks.covered hfresh key r hr (hseq ▸ e.net.room.wf.seq_le key r hr)

/-- **A wipe is detected.** In every run after a wipe whose stale cursors show, every stale replica
is answered with a full state, over the socket and over HTTPS, and a joined replica with nothing
left to receive or to send has exactly the room's rows. -/
theorem reset_detected (doc : RegistryDoc) (as : List Act) (e : Era) (hkeyed : doc.Keyed)
    (hnames : ∀ b ∈ doc.pending, MintedBy doc.deviceId doc.clock b.batch)
    (hdistinct : (doc.pending.map (·.batch)).Nodup)
    (hdet : Run.Guarded Era.step Era.Detected (.start doc) as)
    (hrun : Run.exec Era.step (.start doc) as = some e) :
    (e.stale = true → ∀ cursor state inbox, e.net.link = .greeted cursor state inbox →
      state.full = true) ∧
    (e.stalePull = true → ∀ since state, e.net.http = .answered since state →
      state.full = true) ∧
    ∀ pushDue outbox, e.net.link = .joined pushDue outbox [] → e.net.doc.pending = [] →
      ∀ key, e.net.doc.row key = e.net.room.row key := by
  have h := Run.exec_invariant (fun _ _ _ => recovers_step)
    (recovers_start hkeyed hnames hdistinct) hdet hrun
  have hlink := h.tracks.link
  have hhttp := h.tracks.http
  refine ⟨fun hstale cursor state inbox hl => ?_, fun hstale since state hh => ?_,
    fun pushDue outbox hl hpending => h.row_eq hl hpending⟩
  · rw [hl] at hlink
    exact hlink.2.1 hstale
  · rw [hh] at hhttp
    exact hhttp.2.1 hstale

/-- A space of the era before. -/
def oldSpace : RegistryRow :=
  { kind := "spaces", id := "s", seq := 1, deleted := false, delHlc := none
    fields := {("name", .str "x")}, clocks := {("name", "0000000000001-000000-a")} }

/-- A replica of the era before, at seq 1. -/
def survivor : RegistryDoc :=
  { RegistryDoc.new "a" with
    authoritative := putRows ∅ [oldSpace], serverSeq := 1, generation := 1 }

theorem keyed_survivor : survivor.Keyed :=
  keyed_putRows (fun key r hr => by simp at hr) [oldSpace]

/-- It is first to come back. -/
def reseeds : List Act :=
  [.dial, .serveHello, .recvState fun _ => 5, .pushPending, .servePush, .recvFrame, .recvFrame]

instance (link : Link) : Decidable link.Open := by
  unfold Link.Open
  split <;> infer_instance

def Era.detected (e : Era) (a : Act) : Bool :=
  match a, e.net.link, e.net.http with
  | .serveHello, .hello (some cursor), _ =>
    decide (e.stale = true → e.net.room.storage.seq < cursor)
  | .httpAnswer, _, .asked since => decide (e.stalePull = true → e.net.room.storage.seq < since)
  | .httpApply _, link, _ => decide (¬ link.Open)
  | _, _, _ => true

theorem detected_eq_true {e : Era} {a : Act} :
    e.net.Lasting a ∧ e.detected a = true ↔ e.Detected a := by
  unfold Era.detected Era.Detected
  split <;> simp only [decide_eq_true_eq]

instance (e : Era) (a : Act) : Decidable (e.Detected a) := decidable_of_iff _ detected_eq_true

theorem reset_detected_reseeds : ∃ e, Run.exec Era.step (.start survivor) reseeds = some e ∧
    e.net.doc.row ⟨"spaces", "s"⟩ = e.net.room.row ⟨"spaces", "s"⟩ := by
  have hrun : (Run.exec Era.step (.start survivor) reseeds).any (fun e =>
      e.net.link = .joined false [] [] && e.net.doc.pending = []) = true := by decide +kernel
  obtain ⟨e, he, hboth⟩ := (Option.any_eq_true _ _).mp hrun
  rw [Bool.and_eq_true, decide_eq_true_iff, decide_eq_true_iff] at hboth
  refine ⟨e, he, ?_⟩
  exact (reset_detected survivor reseeds e keyed_survivor (fun b hb => by cases hb) List.nodup_nil
    (Run.guarded_of_checks (by decide +kernel)) he).2.2 false [] hboth.1 hboth.2 ⟨"spaces", "s"⟩

/-- Another device's batch brings the new seq up to the old cursor first. -/
def overtakenReset : List Act :=
  [.peerPush "b1" [titleChat "one" "0000000000001-000000-b"], .dial, .serveHello,
    .recvState fun _ => 5, .pushPending]

/-- The replica is then answered with a delta, and its space is never seeded. -/
theorem reset_undetected : ¬ ∀ (doc : RegistryDoc) (as : List Act) (s : Net), doc.Keyed →
    doc.pending = [] → Run.exec Net.step (.start .empty doc) as = some s →
    ∀ pushDue outbox, s.link = .joined pushDue outbox [] → s.doc.pending = [] →
      ∀ key, s.doc.row key = s.room.row key := by
  intro h
  have hrun : (Run.exec Net.step (.start .empty survivor) overtakenReset).any (fun s =>
      s.link = .joined false [] [] && (s.doc.pending = [] &&
        s.doc.row ⟨"spaces", "s"⟩ ≠ s.room.row ⟨"spaces", "s"⟩)) = true := by decide +kernel
  obtain ⟨s, hs, hall⟩ := (Option.any_eq_true _ _).mp hrun
  simp only [Bool.and_eq_true, decide_eq_true_iff] at hall
  exact hall.2.2 (h survivor overtakenReset s keyed_survivor rfl hs false [] hall.1 hall.2.1 _)

end Zeron.Registry
