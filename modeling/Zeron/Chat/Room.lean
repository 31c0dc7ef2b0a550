import Zeron.Chat.Log
import Zeron.Lib.Json

/-!
# The chat room

What a chat2 room answers (`edge/src/chat-room.ts`), over the log of `Zeron.Chat.Log`: hello,
pushes on both transports, checkpoints. Every caller here is the room's owner.

* `Room`, `handleHello`, `handlePush`, `postRows`, `getRows`, `postCheckpoint`,
  `getCheckpoint`: the source;
* **`log_invariant`**: the log over any run of writes, read whole or in pages.
-/

namespace Zeron.Chat

open Std (ExtTreeMap)

/-! ## Quotas -/

def quotaWindowMs : ℕ := 60000

def quotaMaxPushes : ℕ := 300

def quotaMaxBytes : ℕ := 8 * 1024 * 1024

structure QuotaWindow where
  since : ℕ
  pushes : ℕ
  bytes : ℕ
  deriving DecidableEq

/-- A room: its tables, and the push windows by device, which live in memory. -/
structure Room where
  log : Log
  quotas : ExtTreeMap String QuotaWindow compare
  deriving DecidableEq

def Room.empty : Room := { log := .empty, quotas := ∅ }

/-- `admitQuota`. -/
def Room.admitQuota (room : Room) (now : ℕ) (device : String) (bytes : ℕ) : Room × Bool :=
  let key := if device = "" then "(unknown)" else device
  let window : QuotaWindow := match room.quotas[key]? with
    | none => { since := now, pushes := 0, bytes := 0 }
    | some window =>
      if window.since + quotaWindowMs < now then { since := now, pushes := 0, bytes := 0 }
      else window
  let window := { window with pushes := window.pushes + 1, bytes := window.bytes + bytes }
  ({ room with quotas := room.quotas.insert key window },
    decide (window.pushes ≤ quotaMaxPushes) && decide (window.bytes ≤ quotaMaxBytes))

@[simp] theorem Room.log_admitQuota (room : Room) (now : ℕ) (device : String) (bytes : ℕ) :
    (room.admitQuota now device bytes).1.log = room.log := rfl

/-! ## Frames -/

/-- What the room sends on a socket. -/
inductive Frame where
  | state (stats : LogStats) (frontier : Bytes)
  | row (row : LogRow)
  | rowsDone (headSeq : ℕ)
  | ack (batchId : String) (seq : ℕ) (dup : Bool)
  | error (code message batchId : String)
  deriving DecidableEq

/-- What the room answers over HTTP. -/
inductive PushResponse where
  | ok (batchId : String) (seq : ℕ) (dup : Bool)
  | error (status : ℕ) (error : String)
  deriving DecidableEq

/-- `.length` of a string. -/
def utf16Length (s : String) : ℕ := (s.toList.map Json.utf16).sum

/-- The bytes of a row frame: type, header length, header, payload. -/
def rowFrameBytes (row : LogRow) : ℕ :=
  5 + (Json.obj [("seq", .num row.seq), ("device", .str row.device),
    ("batchId", .str row.batchId)]).textLen Char.utf8Size + row.bytes.length

def AppendError.code : AppendError → String
  | .tooLarge => "too_large"
  | .empty => "empty"

/-! ## The socket -/

/-- `handleHello`: the state frame. -/
def Room.handleHello (room : Room) : Frame :=
  .state room.log.stats (room.log.frontier.getD [])

/-- `handlePush`: the room, the sender's answer and the row relayed to the other sockets. -/
def Room.handlePush (room : Room) (now : ℕ) (ready : Bool) (device batchId : String)
    (payload : Bytes) : Room × Frame × Option LogRow :=
  if !ready ∨ batchId = "" ∨ 128 < utf16Length batchId then
    (room, .error "bad_push" "hello first / malformed push" batchId, none)
  else
    let (room, admitted) := room.admitQuota now device payload.length
    if !admitted then (room, .error "quota" "per-device push quota exceeded" batchId, none)
    else
      match room.log.appendRow device batchId payload with
      | (_, .error e) => (room, .error e.code ("push rejected: " ++ e.code) batchId, none)
      | (log, .ok seq dup) =>
        ({ room with log }, .ack batchId seq dup,
          if dup then none else some { seq, device, batchId, bytes := payload })

/-! ## HTTP -/

/-- `POST /rows`: the room, the answer and the row relayed to every socket. -/
def Room.postRows (room : Room) (now : ℕ) (device batchId : String) (declared : ℕ)
    (payload : Bytes) : Room × PushResponse × Option LogRow :=
  if batchId = "" ∨ 128 < utf16Length batchId then (room, .error 400 "bad_push", none)
  else if maxRowBytes + 4096 < declared then (room, .error 413 "too_large", none)
  else
    let (room, admitted) := room.admitQuota now device payload.length
    if !admitted then (room, .error 429 "quota", none)
    else
      match room.log.appendRow device batchId payload with
      | (_, .error e) => (room, .error (if e = .tooLarge then 413 else 400) e.code, none)
      | (log, .ok seq dup) =>
        ({ room with log }, .ok batchId seq dup,
          if dup then none else some { seq, device, batchId, bytes := payload })

/-- The most bytes of frames in the answer of `GET /rows`. -/
def rowsBodyCap : ℕ := 4 * 1024 * 1024

/-- `GET /rows`: the frames, cut at the cap; the last one is `rowsDone` where they were not. -/
def Room.getRows (room : Room) (after : ℕ) (device : String) (excludeOwn : Bool) : List Frame :=
  let rows := room.log.rowsAfter after (if excludeOwn ∧ device ≠ "" then some device else none)
  let sent := SeqLog.within (4 + rowFrameBytes ·) rowsBodyCap 0 rows
  room.handleHello :: sent.map .row ++
    if sent.length < rows.length then [] else [Frame.rowsDone room.log.headSeq]

def maxCheckpointBytes : ℕ := 32 * 1024 * 1024

/-- `POST /checkpoint`: the room and the status. `seqCovered` and `frontier` are `none` where the
query or the header does not parse. -/
def Room.postCheckpoint (room : Room) (seqCovered : Option ℕ) (frontier : Option Bytes)
    (body : Bytes) : Room × ℕ :=
  match seqCovered, frontier with
  | none, _ | _, none => (room, 400)
  | some seqCovered, some frontier =>
    if frontier.length = 0 ∧ 0 < seqCovered then (room, 400)
    else if maxCheckpointBytes < body.length then (room, 413)
    else
      match room.log.commitCheckpoint seqCovered frontier body with
      | (_, .error _) => (room, 409)
      | (log, .ok _ _) => ({ room with log }, 200)

/-- The answer of `GET /checkpoint`: a status, the checkpoint's seq where it is stamped, a body. -/
structure CheckpointResponse where
  status : ℕ
  seq : Option ℕ
  body : Bytes
  deriving DecidableEq

/-- `GET /checkpoint`, with the start of an open range (`parseRangeStart`). -/
def Room.getCheckpoint (room : Room) (range : Option ℕ) : CheckpointResponse :=
  match room.log.checkpoint with
  | none => { status := 404, seq := none, body := [] }
  | some bytes =>
    match range.filter (0 < ·) with
    | none => { status := 200, seq := some room.log.checkpointSeq, body := bytes }
    | some start =>
      if bytes.length ≤ start then { status := 416, seq := none, body := [] }
      else { status := 206, seq := some room.log.checkpointSeq, body := bytes.drop start }

/-! ## Reading in pages -/

/-- The row a frame carries. -/
def Frame.row? : Frame → Option LogRow
  | .row r => some r
  | _ => none

/-- Whether a frame ends the rows. -/
def Frame.isRowsDone : Frame → Bool
  | .rowsDone _ => true
  | _ => false

/-- `GET /rows` from the seq of the last row read, at most `fuel` times; whether the last answer
was whole. -/
def Room.pullRows (room : Room) : ℕ → ℕ → List LogRow × Bool
  | 0, _ => ([], false)
  | fuel + 1, after =>
    let frames := room.getRows after "" false
    let page := frames.filterMap Frame.row?
    if frames.any Frame.isRowsDone then (page, true)
    else
      let rest := room.pullRows fuel (SeqLog.advance LogRow.seq after page)
      (page ++ rest.1, rest.2)

theorem rowsAfter_none (log : Log) (c : ℕ) :
    log.rowsAfter c none = SeqLog.above LogRow.seq c log.rows := rfl

/-- The rows of a page. -/
abbrev Log.page (log : Log) (c : ℕ) : List LogRow :=
  SeqLog.within (4 + rowFrameBytes ·) rowsBodyCap 0 (SeqLog.above LogRow.seq c log.rows)

theorem getRows_eq (room : Room) (c : ℕ) : room.getRows c "" false =
    room.handleHello :: (room.log.page c).map .row ++
      if (room.log.page c).length < (SeqLog.above LogRow.seq c room.log.rows).length then []
      else [Frame.rowsDone room.log.headSeq] := rfl

theorem filterMap_getRows (room : Room) (c : ℕ) :
    (room.getRows c "" false).filterMap Frame.row? = room.log.page c := by
  have hrows : ∀ l : List LogRow, (l.map Frame.row).filterMap Frame.row? = l := by
    intro l
    rw [List.filterMap_map]
    exact List.filterMap_some
  rw [getRows_eq, List.cons_append, List.filterMap_cons_none rfl, List.filterMap_append, hrows]
  split_ifs
  · exact List.append_nil _
  · exact List.append_nil _

theorem any_getRows (room : Room) (c : ℕ) :
    (room.getRows c "" false).any Frame.isRowsDone = true ↔
      ¬ (room.log.page c).length < (SeqLog.above LogRow.seq c room.log.rows).length := by
  have hrows : ∀ l : List LogRow, (l.map Frame.row).any Frame.isRowsDone = false := by
    intro l
    rw [List.any_map, List.any_eq_false]
    intro row _
    exact Bool.false_ne_true
  rw [getRows_eq, List.cons_append, List.any_cons, List.any_append, hrows]
  split_ifs with hcut
  · simp [Room.handleHello, Frame.isRowsDone, hcut]
  · simp [Frame.isRowsDone, hcut]

theorem pullRows_eq (room : Room) (fuel c : ℕ) : room.pullRows fuel c =
    SeqLog.pull (4 + rowFrameBytes ·) LogRow.seq rowsBodyCap room.log.rows fuel c := by
  induction fuel generalizing c with
  | zero => rfl
  | succ fuel ih =>
    rw [Room.pullRows, SeqLog.pull, filterMap_getRows, ih]
    by_cases hcut : (room.log.page c).length < (SeqLog.above LogRow.seq c room.log.rows).length
    · rw [if_neg ((any_getRows room c).not.mpr (not_not.mpr hcut)), if_pos hcut]
    · rw [if_pos ((any_getRows room c).mpr hcut), if_neg hcut]

/-- **The log of a room, over any run of writes.** One row for each seq above the floor, the last
accepted checkpoint at the floor; floor and head only rise; reading on from any cursor at or above
the floor, in pages of any sizes or by repeated pulls, gives each row above it once and in order. -/
theorem log_invariant (acts : List LogAct) (log : Log) (hlog : log = Log.empty.run acts) :
    log.rows.map (·.seq) = List.range' (log.seqFloor + 1) (log.headSeq - log.seqFloor) ∧
    log.checkpointSeq = log.seqFloor ∧ log.seqFloor ≤ log.headSeq ∧
    log.Holds (lastCommit .empty none acts) ∧
    (∀ more, log.seqFloor ≤ (log.run more).seqFloor ∧ log.headSeq ≤ (log.run more).headSeq) ∧
    ∀ c, log.seqFloor ≤ c →
      (log.rowsAfter c none).map (·.seq) = List.range' (c + 1) (log.headSeq - c) ∧
      (∀ sizes : List ℕ, log.headSeq - c ≤ sizes.sum →
        SeqLog.readPages LogRow.seq log.rows c sizes = log.rowsAfter c none) ∧
      ∀ room : Room, room.log = log → (∀ row ∈ log.rows, 4 + rowFrameBytes row ≤ rowsBodyCap) →
        ∀ fuel, log.headSeq - c < fuel → room.pullRows fuel c = (log.rowsAfter c none, true) := by
  have hw : log.Wf := hlog ▸ wf_run wf_empty acts
  refine ⟨hw.spans, hw.covered, hw.floor_le, hlog ▸ holds_run wf_empty holds_empty acts,
    mono_run hw, fun c hc => ?_⟩
  have habove := SeqLog.spans_above hw.spans hc
  refine ⟨habove, fun sizes hsizes => ?_, ?_⟩
  · rw [SeqLog.readPages_eq hw.spans.pairwise, rowsAfter_none, List.take_of_length_le]
    rwa [habove.length_eq]
  · rintro room rfl hfit fuel hfuel
    rw [pullRows_eq, SeqLog.pull_eq hw.spans.pairwise hfit, rowsAfter_none]
    rwa [habove.length_eq]

/-- Two rows and a checkpoint over the first. -/
theorem log_invariant_two :
    ((Log.empty.run [.append "d" "b1" [1], .append "d" "b2" [2], .commit 1 [7] [9]]).rowsAfter
      1 none).map (·.seq) = [2] ∧
    Room.pullRows ⟨Log.empty.run [.append "d" "b1" [1], .append "d" "b2" [2], .commit 1 [7] [9]], ∅⟩
      2 1 = ([⟨2, "d", "b2", [2]⟩], true) := by
  have h := log_invariant [.append "d" "b1" [1], .append "d" "b2" [2], .commit 1 [7] [9]] _ rfl
  obtain ⟨-, -, -, -, -, h⟩ := h
  obtain ⟨h₁, -, h₂⟩ := h 1 (by decide +kernel)
  exact ⟨h₁, h₂ _ rfl (by decide +kernel) 2 (by decide +kernel)⟩

end Zeron.Chat
