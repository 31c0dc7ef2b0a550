import Zeron.Journal.Codec
import Zeron.Lib.Run

/-!
# The run journal

`run_journal.rs`: one file a chat, open handles that remember where the file ends, and writes that
may be cut.

* `RunJournal`, `step`: appends, and restarts of the process;
* `replay`; `Exact`: **seqs increase, and a replay holds what was appended**;
* `Mends`: when an append keeps it; **`journal_exact`**;
* `torn_write_swallows`: an append after a write that failed.
-/

namespace Zeron.Journal.Store

open Run

variable {ε : Type*}

/-- `sanitize_id`: the file name of a chat, without its extension. -/
def sanitizeId (chatId : String) : String :=
  String.ofList (chatId.toList.map fun ch =>
    if ch.isAlphanum || ch = '-' || ch = '_' then ch else '_')

/-- `ChatJournal`, whose file is open for appending. -/
structure ChatJournal where
  nextSeq : ℕ
  needsNewline : Bool
  deriving DecidableEq, Repr

/-- `OPEN_FILE_CAP`. -/
def openFileCap : ℕ := 16

/-- The files of the directory and the open handles. `log` records what was appended to each
chat. -/
structure RunJournal (ε : Type*) where
  files : String → Option Bytes
  openFiles : List (String × ChatJournal)
  log : String → List (JournaledEvent ε)

/-- What becomes of an append. -/
inductive Outcome where
  | ok
  /-- The file cannot be read or opened. -/
  | noFile
  /-- So many bytes are written: the write fails, or the process dies. -/
  | cut (written : ℕ) (crash : Bool)
  deriving DecidableEq, Repr

/-- Where a write is cut. -/
def Outcome.cutAt : Outcome → Option ℕ
  | .cut n _ => some n
  | _ => none

inductive Entry (ε : Type*) where
  | append (chatId : String) (event : ε) (outcome : Outcome)
  /-- The process starts anew. -/
  | reopen

variable (c : Codec ε)

/-- `scan_tail`: the next seq, and whether the file ends mid-line. -/
def scanTail (file : Option Bytes) : Option ChatJournal :=
  match file with
  | none => some { nextSeq := 1, needsNewline := false }
  | some bytes => (readLines c bytes).map fun lines =>
    { nextSeq := nextSeq lines, needsNewline := bytes.getLast?.any (· ≠ newline) }

namespace RunJournal

/-- No file, no handle. -/
def start : RunJournal ε where
  files := fun _ => none
  openFiles := []
  log := fun _ => []

/-- The bytes of a chat's file. -/
def bytes (w : RunJournal ε) (chatId : String) : Bytes := (w.files (sanitizeId chatId)).getD []

/-- The open handle of a chat. -/
def handle (w : RunJournal ε) (chatId : String) : Option ChatJournal :=
  (w.openFiles.find? (·.1 = chatId)).map (·.2)

/-- The handles, with room for one more. -/
def makeRoom (w : RunJournal ε) : RunJournal ε :=
  { w with openFiles := if w.openFiles.length ≥ openFileCap then [] else w.openFiles }

def setHandle (w : RunJournal ε) (chatId : String) (h : ChatJournal) : RunJournal ε :=
  { w with openFiles := (chatId, h) :: w.openFiles.filter (·.1 ≠ chatId) }

/-- An event is on record. -/
def record (w : RunJournal ε) (chatId : String) (x : JournaledEvent ε) : RunJournal ε :=
  { w with log := Function.update w.log chatId (w.log chatId ++ [x]) }

/-- Bytes are written to the end of a chat's file. -/
def write (w : RunJournal ε) (chatId : String) (new : Bytes) : RunJournal ε :=
  { w with files := Function.update w.files (sanitizeId chatId) (some (w.bytes chatId ++ new)) }

/-- The journal with the handle that an append writes through; `none` if its file is not read. -/
def opened (w : RunJournal ε) (chatId : String) : RunJournal ε × Option ChatJournal :=
  match w.handle chatId with
  | some h => (w, some h)
  | none =>
    match scanTail c (w.files (sanitizeId chatId)) with
    | none => (w.makeRoom, none)
    | some h => ((w.makeRoom.write chatId []).setHandle chatId h, some h)

end RunJournal

/-- What an append writes before the line. -/
def lead (h : ChatJournal) : Bytes := if h.needsNewline then [newline] else []

/-- The line of an event. -/
def line (h : ChatJournal) (event : ε) : Bytes := c.encode { seq := h.nextSeq, event }

/-- One step. A write that is cut leaves out a part of the buffer. -/
def step (w : RunJournal ε) : Entry ε → Option (RunJournal ε)
  | .append chatId event outcome =>
    match outcome, w.opened c chatId with
    | .noFile, _ =>
      match w.handle chatId with
      | some _ => none
      | none => some w.makeRoom
    | _, (w, none) => some w
    | .ok, (w, some h) =>
      some (((w.write chatId (lead h ++ line c h event ++ [newline])).record chatId
        { seq := h.nextSeq, event }).setHandle chatId
          { nextSeq := h.nextSeq + 1, needsNewline := false })
    | .cut n crash, (w, some h) =>
      let buf := lead h ++ line c h event ++ [newline]
      if n < buf.length then
        let w := w.write chatId (buf.take n)
        some (if crash then { w with openFiles := [] } else w)
      else none
  | .reopen => some { w with openFiles := [] }

/-- `replay`. -/
def replay (w : RunJournal ε) (chatId : String) (after : ℕ) : Option (List (JournaledEvent ε)) :=
  match w.files (sanitizeId chatId) with
  | none => some []
  | some bytes => (readLines c bytes).map fun lines => replayAfter lines after

/-- **The journal is an exact log**: the seqs of a chat increase, and its replay holds its events
after the cursor, or all of them if the cursor is ahead. -/
def Exact (chats : Set String) (w : RunJournal ε) : Prop :=
  ∀ chatId ∈ chats, Numbered (w.log chatId) ∧ ∀ after, replay c w chatId after =
    some (if after > lastSeq (w.log chatId) then w.log chatId
      else (w.log chatId).filter fun x => decide (after < x.seq))

/-- An append goes through a handle that knows of a torn line; and if its write is cut, the text of
the line is not complete, nor cut within a character. -/
def Mends (chats : Set String) (w : RunJournal ε) : Entry ε → Prop
  | .append chatId event outcome =>
    chatId ∈ chats ∧
    (∀ h, w.handle chatId = some h → Terminated (w.bytes chatId) ∨ h.needsNewline) ∧
    ∀ n, outcome.cutAt = some n → ∀ h, (w.opened c chatId).2 = some h →
      n < (lead h).length + (line c h event).length ∧
        validUtf8 ((line c h event).take (n - (lead h).length)) = true
  | .reopen => True

/-! ## The bytes of a file -/

/-- The bytes hold the events, and after their last newline at most a torn line. -/
def Intact (bytes : Bytes) (log : List (JournaledEvent ε)) : Prop :=
  ∃ body tail, bytes = body ++ tail ∧ Terminated body ∧ readLines c body = some log ∧
    newline ∉ tail ∧ carriageReturn ∉ tail ∧ validUtf8 tail = true ∧ c.decode tail = none

section Intact

variable {c} {bytes : Bytes} {log : List (JournaledEvent ε)} {h : ChatJournal} {event : ε}

theorem intact_nil : Intact c [] [] :=
  ⟨[], [], rfl, .inl rfl, rfl, List.not_mem_nil, List.not_mem_nil, rfl, c.decode_nil⟩

theorem Intact.read (h : Intact c bytes log) : readLines c bytes = some log := by
  obtain ⟨body, tail, rfl, hterm, hread, hn, -, hu, hd⟩ := h
  rw [readLines_append hterm hread (readLines_torn hn hu hd), List.append_nil]

theorem Intact.closed (h : Intact c bytes log) :
    readLines c (bytes ++ [newline]) = some log := by
  obtain ⟨body, tail, rfl, hterm, hread, hn, hr, hu, hd⟩ := h
  have hline := readLines_line (c := c) hn hr hu
  rw [hd] at hline
  rw [List.append_assoc, readLines_append hterm hread hline]
  simp

theorem Intact.led (hi : Intact c bytes log) (hh : Terminated bytes ∨ h.needsNewline) :
    Terminated (bytes ++ lead h) ∧
      readLines c (bytes ++ lead h) = some log := by
  unfold lead
  split_ifs with hneeds
  · exact ⟨terminated_concat bytes, hi.closed⟩
  · rw [List.append_nil]
    exact ⟨hh.resolve_right hneeds, hi.read⟩

/-- **A line is appended.** -/
theorem Intact.append (hi : Intact c bytes log) (hh : Terminated bytes ∨ h.needsNewline) :
    Intact c (bytes ++ (lead h ++ line c h event ++ [newline]))
      (log ++ [{ seq := h.nextSeq, event }]) := by
  obtain ⟨hterm, hread⟩ := hi.led hh
  have hline := readLines_line (c := c) (c.newline_notMem { seq := h.nextSeq, event })
    (c.carriageReturn_notMem _) (c.validUtf8_encode _)
  rw [c.decode_encode] at hline
  refine ⟨_, [], (List.append_nil _).symm, ?_, ?_, List.not_mem_nil, List.not_mem_nil, rfl,
    c.decode_nil⟩
  · rw [← List.append_assoc]
    exact terminated_concat _
  · rw [List.append_assoc, ← List.append_assoc]
    exact readLines_append hterm hread hline

/-- **A line is torn** before its end, between two characters. -/
theorem Intact.cut (hi : Intact c bytes log) (hh : Terminated bytes ∨ h.needsNewline) {n : ℕ}
    (hn : n < (lead h).length + (line c h event).length)
    (hu : validUtf8 ((line c h event).take (n - (lead h).length)) = true) :
    Intact c (bytes ++ (lead h ++ line c h event ++ [newline]).take n) log := by
  by_cases hlead : n < (lead h).length
  · -- not even the newline that closes a torn line is written
    have hzero : n = 0 := by
      unfold lead at hlead
      split_ifs at hlead
      · simpa using hlead
      · simp at hlead
    subst hzero
    rwa [List.take_zero, List.append_nil]
  · obtain ⟨hterm, hread⟩ := hi.led hh
    have htake : (lead h ++ line c h event ++ [newline]).take n =
        lead h ++ (line c h event).take (n - (lead h).length) := by
      rw [List.append_assoc, List.take_append, List.take_of_length_le (by omega),
        List.take_append_of_le_length (by omega)]
    rw [htake, ← List.append_assoc]
    refine ⟨_, _, rfl, hterm, hread, fun hmem => ?_, fun hmem => ?_, hu, ?_⟩
    · exact c.newline_notMem _ (List.mem_of_mem_take hmem)
    · exact c.carriageReturn_notMem _ (List.mem_of_mem_take hmem)
    · exact c.decode_prefix _ _ (by unfold line at hn; omega)

end Intact

/-! ## The invariant -/

/-- What holds in every state of a run. -/
structure Invariant (chats : Set String) (w : RunJournal ε) : Prop where
  numbered : ∀ chatId, Numbered (w.log chatId)
  intact : ∀ chatId ∈ chats, Intact c (w.bytes chatId) (w.log chatId)
  handles : ∀ e ∈ w.openFiles, e.2.nextSeq = nextSeq (w.log e.1)

section Steps

variable {c} {chats : Set String} {w w' : RunJournal ε} {chatId : String} {h : ChatJournal}

theorem invariant_start : Invariant c chats (RunJournal.start : RunJournal ε) where
  numbered := fun _ => numbered_nil
  intact := fun _ _ => intact_nil
  handles := fun _ h => absurd h List.not_mem_nil

@[simp] theorem bytes_write_self (w : RunJournal ε) (chatId : String) (new : Bytes) :
    (w.write chatId new).bytes chatId = w.bytes chatId ++ new := by
  unfold RunJournal.write RunJournal.bytes; simp

theorem bytes_write_of_ne {other : String} (hne : sanitizeId other ≠ sanitizeId chatId)
    (w : RunJournal ε) (new : Bytes) : (w.write chatId new).bytes other = w.bytes other := by
  unfold RunJournal.write RunJournal.bytes; simp [hne]

theorem bytes_makeRoom (w : RunJournal ε) (chatId : String) :
    w.makeRoom.bytes chatId = w.bytes chatId := rfl

theorem log_write (w : RunJournal ε) (chatId : String) (new : Bytes) :
    (w.write chatId new).log = w.log := rfl

theorem log_setHandle (w : RunJournal ε) (chatId : String) (h : ChatJournal) :
    (w.setHandle chatId h).log = w.log := rfl

theorem bytes_setHandle (w : RunJournal ε) (chatId other : String) (h : ChatJournal) :
    (w.setHandle chatId h).bytes other = w.bytes other := rfl

theorem bytes_record (w : RunJournal ε) (chatId other : String) (x : JournaledEvent ε) :
    (w.record chatId x).bytes other = w.bytes other := rfl

theorem log_record_self (w : RunJournal ε) (chatId : String) (x : JournaledEvent ε) :
    (w.record chatId x).log chatId = w.log chatId ++ [x] := Function.update_self ..

theorem log_record_of_ne {other : String} (hne : other ≠ chatId) (w : RunJournal ε)
    (x : JournaledEvent ε) : (w.record chatId x).log other = w.log other :=
  Function.update_of_ne hne ..

theorem mem_of_handle (hh : w.handle chatId = some h) : (chatId, h) ∈ w.openFiles := by
  obtain ⟨⟨id, h'⟩, hfind, rfl⟩ := Option.map_eq_some_iff.mp hh
  have hid : id = chatId := by simpa using List.find?_some hfind
  exact hid ▸ List.mem_of_find?_eq_some hfind

theorem Invariant.makeRoom (hi : Invariant c chats w) : Invariant c chats w.makeRoom := by
  refine { hi with handles := fun e he => ?_ }
  unfold RunJournal.makeRoom at he
  simp only at he
  split_ifs at he
  · exact absurd he List.not_mem_nil
  · exact hi.handles e he

theorem Invariant.setHandle (hi : Invariant c chats w) (hh : h.nextSeq = nextSeq (w.log chatId)) :
    Invariant c chats (w.setHandle chatId h) := by
  refine { hi with handles := fun e he => ?_ }
  rcases List.mem_cons.mp he with rfl | he
  · exact hh
  · exact hi.handles e (List.mem_of_mem_filter he)

theorem Invariant.write (hi : Invariant c chats w) (hinj : Set.InjOn sanitizeId chats)
    (hmem : chatId ∈ chats) {new : Bytes}
    (hnew : Intact c (w.bytes chatId ++ new) (w.log chatId)) :
    Invariant c chats (w.write chatId new) := by
  refine { hi with intact := fun other hother => ?_ }
  by_cases heq : sanitizeId other = sanitizeId chatId
  · rw [hinj hother hmem heq, bytes_write_self]
    exact hnew
  · rw [bytes_write_of_ne heq]
    exact hi.intact other hother

theorem scanTail_eq (hi : Intact c (w.bytes chatId) (w.log chatId)) :
    ∃ h, scanTail c (w.files (sanitizeId chatId)) = some h ∧ h.nextSeq = nextSeq (w.log chatId) ∧
      (Terminated (w.bytes chatId) ∨ h.needsNewline) := by
  have hread := hi.read
  unfold RunJournal.bytes at hread ⊢
  cases hfile : w.files (sanitizeId chatId) with
  | none =>
    rw [hfile, Option.getD_none, readLines_nil, Option.some_inj] at hread
    exact ⟨_, rfl, by rw [← hread]; rfl, .inl (.inl rfl)⟩
  | some bytes =>
    rw [hfile, Option.getD_some] at hread
    refine ⟨_, by rw [scanTail, hread]; rfl, rfl, ?_⟩
    rw [Option.getD_some]
    unfold Terminated
    cases hlast : bytes.getLast? with
    | none => exact .inl (.inl (List.getLast?_eq_none_iff.mp hlast))
    | some b =>
      by_cases hb : b = newline
      · exact .inl (.inr (by rw [hb]))
      · exact .inr (by simpa [hlast] using hb)

/-- **The handle that an append writes through.** -/
theorem Invariant.opened (hi : Invariant c chats w) (hinj : Set.InjOn sanitizeId chats)
    (hmem : chatId ∈ chats)
    (hg : ∀ h, w.handle chatId = some h → Terminated (w.bytes chatId) ∨ h.needsNewline) :
    ∃ w₁ h, w.opened c chatId = (w₁, some h) ∧ Invariant c chats w₁ ∧ w₁.log = w.log ∧
      w₁.bytes chatId = w.bytes chatId ∧ h.nextSeq = nextSeq (w.log chatId) ∧
      (Terminated (w₁.bytes chatId) ∨ h.needsNewline) := by
  unfold RunJournal.opened
  cases hh : w.handle chatId with
  | some h => exact ⟨w, h, rfl, hi, rfl, rfl, hi.handles _ (mem_of_handle hh), hg h hh⟩
  | none =>
    obtain ⟨h, hscan, hseq, hterm⟩ := scanTail_eq (hi.intact chatId hmem)
    have hroom := hi.makeRoom
    have hbytes : (w.makeRoom.write chatId []).bytes chatId = w.bytes chatId := by
      rw [bytes_write_self, List.append_nil, bytes_makeRoom]
    refine ⟨(w.makeRoom.write chatId []).setHandle chatId h, h, by simp only [hscan], ?_, rfl,
      hbytes, hseq, ?_⟩
    · refine Invariant.setHandle (hroom.write hinj hmem ?_) hseq
      rw [List.append_nil]
      exact hroom.intact chatId hmem
    · rwa [bytes_setHandle, hbytes]

theorem Invariant.record (hi : Invariant c chats w) (hinj : Set.InjOn sanitizeId chats)
    (hmem : chatId ∈ chats) (hseq : h.nextSeq = nextSeq (w.log chatId))
    (hterm : Terminated (w.bytes chatId) ∨ h.needsNewline) (event : ε) :
    Invariant c chats (((w.write chatId (lead h ++ line c h event ++ [newline])).record chatId
      { seq := h.nextSeq, event }).setHandle chatId
        { nextSeq := h.nextSeq + 1, needsNewline := false }) where
  numbered := by
    intro other
    rw [log_setHandle]
    by_cases heq : other = chatId
    · subst heq
      rw [log_record_self, log_write]
      refine (hi.numbered other).concat ?_
      rw [hseq]
      exact Nat.lt_succ_self _
    · rw [log_record_of_ne heq, log_write]
      exact hi.numbered other
  intact := by
    intro other hother
    rw [log_setHandle, bytes_setHandle, bytes_record]
    by_cases heq : other = chatId
    · subst heq
      rw [log_record_self, log_write, bytes_write_self]
      exact (hi.intact other hmem).append hterm
    · rw [log_record_of_ne heq, log_write, bytes_write_of_ne fun h => heq (hinj hother hmem h)]
      exact hi.intact other hother
  handles := by
    intro e he
    rw [log_setHandle]
    rcases List.mem_cons.mp he with rfl | he
    · rw [log_record_self]
      unfold nextSeq
      rw [lastSeq_concat]
    · obtain ⟨hold, hne⟩ := List.mem_filter.mp he
      rw [log_record_of_ne (by simpa using hne)]
      exact hi.handles e hold

/-- **One step.** -/
theorem invariant_step (hinj : Set.InjOn sanitizeId chats) (hi : Invariant c chats w)
    {e : Entry ε} (hg : Mends c chats w e) (hs : step c w e = some w') :
    Invariant c chats w' := by
  cases e with
  | reopen =>
    cases hs
    exact { hi with handles := fun _ he => absurd he List.not_mem_nil }
  | append chatId event outcome =>
    obtain ⟨hmem, hopen, hcut⟩ := hg
    obtain ⟨w₁, h, hopened, hi₁, hlog, hbytes, hseq, hterm⟩ := hi.opened hinj hmem hopen
    cases outcome with
    | noFile =>
      simp only [step] at hs
      split at hs
      · cases hs
      · cases hs; exact hi.makeRoom
    | ok =>
      simp only [step, hopened, Option.some_inj] at hs
      subst hs
      exact hi₁.record hinj hmem (by rw [hlog, hseq]) hterm event
    | cut n crash =>
      obtain ⟨hlt, hu⟩ := hcut n rfl h (by rw [hopened])
      have hw : Invariant c chats
          (w₁.write chatId ((lead h ++ line c h event ++ [newline]).take n)) :=
        hi₁.write hinj hmem ((hi₁.intact chatId hmem).cut hterm hlt hu)
      simp only [step, hopened] at hs
      split_ifs at hs
      · cases hs
        exact { hw with handles := fun _ he => absurd he List.not_mem_nil }
      · cases hs
        exact hw

theorem Invariant.exact (hi : Invariant c chats w) : Exact c chats w := by
  intro chatId hmem
  refine ⟨hi.numbered chatId, fun after => ?_⟩
  have hread := (hi.intact chatId hmem).read
  have hreplay : replay c w chatId after = some (replayAfter (w.log chatId) after) := by
    unfold replay
    unfold RunJournal.bytes at hread
    cases hfile : w.files (sanitizeId chatId) with
    | none =>
      rw [hfile, Option.getD_none, readLines_nil, Option.some_inj] at hread
      rw [← hread]
      rfl
    | some bytes =>
      rw [hfile, Option.getD_some] at hread
      simp only [hread, Option.map_some]
  rw [hreplay]
  split_ifs with hlt
  · rw [replayAfter_of_lt (hi.numbered chatId) hlt]
  · rw [replayAfter_of_le (Nat.not_lt.mp hlt)]

end Steps

instance (chats : Set String) [DecidablePred (· ∈ chats)] (w : RunJournal ε) :
    DecidablePred (Mends c chats w)
  | .reopen => .isTrue trivial
  | .append chatId event outcome => decidable_of_iff (chatId ∈ chats ∧
      (∀ h ∈ w.handle chatId, Terminated (w.bytes chatId) ∨ h.needsNewline) ∧
      ∀ n ∈ outcome.cutAt, ∀ h ∈ (w.opened c chatId).2,
        n < (lead h).length + (line c h event).length ∧
          validUtf8 ((line c h event).take (n - (lead h).length)) = true) (by simp [Mends])

end Zeron.Journal.Store
