import Zeron.Lib.Base64
import Zeron.Lib.Run

/-!
# A terminal and its subscribers

The output of a shell as numbered events, kept in a bounded window and sent to every subscriber
(`engine/src/terminals.rs`).

* `TerminalEvent`, `evict`, `World.emit`, `World.subscribe`: the source;
* `Act`, `step`: the rounds of `pump_output`, and what clients do in between;
* `Inv`, `inv_emit`, `inv_subscribe`;
* **`resumable`**: every subscriber gets consecutive events from where it asks; `future_ignored`.
-/

namespace Zeron.Terminal

open Run

/-- `MAX_REPLAY_BYTES`. -/
def maxReplayBytes : ℕ := 1024 * 1024

inductive TerminalEvent where
  /-- The data is base64. -/
  | data (seq : ℕ) (data : List Char)
  | exit (seq : ℕ) (exitCode : ℤ) (signal : Option String)
  deriving DecidableEq

namespace TerminalEvent

def seq : TerminalEvent → ℕ
  | data seq _ => seq
  | exit seq _ _ => seq

/-- What an event counts in the window. -/
def bytes : TerminalEvent → ℕ
  | data _ text => text.length
  | exit _ _ _ => 16

def isExit : TerminalEvent → Bool
  | data _ _ => false
  | exit _ _ _ => true

end TerminalEvent

/-- The end of a channel, as `subscribe` made it. The last two fields are for the record: the number
of the last event at that time, and how many had left the window. -/
structure Client where
  afterSeq : Option ℕ
  /-- What has been sent into the channel. -/
  sent : List TerminalEvent
  /-- The sender is among the `subscribers`. -/
  subscribed : Bool
  /-- The receiver has not been dropped. -/
  attached : Bool
  latest : ℕ
  evicted : ℕ
  deriving DecidableEq

/-- A `LiveTerminal` with the variables of its `pump_output`, the ends of all channels, and every
event that was emitted. -/
structure World where
  replay : List TerminalEvent
  replayBytes : ℕ
  seq : ℕ
  exited : Bool
  /-- The terminal is among the sessions. -/
  listed : Bool
  buffer : List UInt8
  rawOpen : Bool
  exitCode : Option ℤ
  clients : List Client
  emitted : List TerminalEvent
  deriving DecidableEq

def fresh : World where
  replay := []
  replayBytes := 0
  seq := 0
  exited := false
  listed := true
  buffer := []
  rawOpen := true
  exitCode := none
  clients := []
  emitted := []

/-- The loop in `emit` that bounds the window. -/
def evict : List TerminalEvent → ℕ → List TerminalEvent × ℕ
  | [], bytes => ([], bytes)
  | [event], bytes => ([event], bytes)
  | event :: next :: replay, bytes =>
    if maxReplayBytes < bytes then evict (next :: replay) (bytes - event.bytes)
    else (event :: next :: replay, bytes)

/-- `tx.send`, which fails where the receiver is gone; then `retain` drops the sender. -/
def Client.send (event : TerminalEvent) (c : Client) : Client :=
  if c.subscribed then
    if c.attached then { c with sent := c.sent ++ [event] } else { c with subscribed := false }
  else c

/-- The number of the last event before those that the client is to get. -/
def Client.start (c : Client) : ℕ := max (min (c.afterSeq.getD 0) c.latest) c.evicted

namespace World

variable (w : World)

/-- `next_seq` and `emit`. -/
def emit (event : ℕ → TerminalEvent) : World :=
  let event := event (w.seq + 1)
  let window := evict (w.replay ++ [event]) (w.replayBytes + event.bytes)
  let clients := w.clients.map (Client.send event)
  { w with
    seq := w.seq + 1
    replay := window.1
    replayBytes := window.2
    exited := w.exited || event.isExit
    clients := if event.isExit then clients.map fun c => { c with subscribed := false } else clients
    emitted := w.emitted ++ [event] }

/-- `subscribe`. -/
def subscribe (afterSeq : Option ℕ) : World :=
  { w with
    clients := w.clients ++ [{
      afterSeq
      sent := w.replay.filter fun event => afterSeq.getD 0 < event.seq
      subscribed := !w.exited
      attached := true
      latest := w.seq
      evicted := w.emitted.length - w.replay.length }] }

/-- The receiver of a client is dropped. -/
def detach (i : ℕ) : World :=
  { w with clients := w.clients.modify i fun c => { c with attached := false } }

/-- `close`: the session is removed, and `dispose` clears its subscribers. -/
def close : World :=
  { w with listed := false, clients := w.clients.map fun c => { c with subscribed := false } }

/-- The condition of the loop in `pump_output`. -/
def pumping : Bool := w.rawOpen || w.exitCode.isNone

end World

inductive Act where
  | chunk (bytes : List UInt8)
  /-- The raw channel ends. -/
  | rawEnd
  /-- The shell was waited for; `none` if that failed. -/
  | wait (status : Option ℤ)
  /-- The timer, or the end of the loop with output left. -/
  | flush
  | finish
  | subscribe (afterSeq : Option ℕ)
  | detach (i : ℕ)
  | close
  /-- `reaper_task`. -/
  | reap

/-- A round of the pump, or a client's call. -/
def step (w : World) : Act → Option World
  | .chunk bytes =>
    if w.rawOpen ∧ !w.exited then some { w with buffer := w.buffer ++ bytes } else none
  | .rawEnd => if w.rawOpen ∧ !w.exited then some { w with rawOpen := false } else none
  | .wait status =>
    if w.exitCode = none ∧ !w.exited then some { w with exitCode := some (status.getD (-1)) }
    else none
  | .flush =>
    if w.buffer ≠ [] ∧ !w.exited then
      some (({ w with buffer := [] } : World).emit fun seq => .data seq (Base64.encode w.buffer))
    else none
  | .finish =>
    if !w.pumping ∧ w.buffer = [] ∧ !w.exited then
      some (w.emit fun seq => .exit seq (w.exitCode.getD (-1)) none)
    else none
  | .subscribe afterSeq => if w.listed then some (w.subscribe afterSeq) else none
  | .detach i => some (w.detach i)
  | .close => if w.listed then some w.close else none
  | .reap => if w.exited ∧ w.listed then some { w with listed := false } else none

/-! ## The window -/

/-- What a list of events counts. -/
def size (l : List TerminalEvent) : ℕ := (l.map TerminalEvent.bytes).sum

theorem evict_suffix (replay : List TerminalEvent) (bytes : ℕ) :
    (evict replay bytes).1 <:+ replay := by
  induction replay, bytes using evict.induct with
  | case1 bytes => exact List.suffix_refl _
  | case2 event bytes => exact List.suffix_refl _
  | case3 event next replay bytes h ih =>
    rw [evict, if_pos h]
    exact ih.trans (List.suffix_cons _ _)
  | case4 event next replay bytes h =>
    rw [evict, if_neg h]

theorem evict_bytes (replay : List TerminalEvent) (bytes : ℕ) (h : bytes = size replay) :
    (evict replay bytes).2 = size (evict replay bytes).1 ∧
      (maxReplayBytes < (evict replay bytes).2 → (evict replay bytes).1.length = 1) := by
  induction replay, bytes using evict.induct with
  | case1 bytes =>
    obtain rfl := h
    exact ⟨rfl, by simp [evict, size]⟩
  | case2 event bytes => exact ⟨h, fun _ => rfl⟩
  | case3 event next replay bytes hlt ih =>
    rw [evict, if_pos hlt]
    refine ih ?_
    rw [h, size, List.map_cons, List.sum_cons, Nat.add_sub_cancel_left]
    rfl
  | case4 event next replay bytes hle =>
    rw [evict, if_neg hle]
    exact ⟨h, fun hlt => absurd hlt hle⟩

theorem filter_seq {l : List TerminalEvent} {a : ℕ} (n : ℕ)
    (h : l.map TerminalEvent.seq = List.range' (a + 1) l.length) :
    l.filter (fun event => n < event.seq) = l.drop (n - a) := by
  induction l generalizing a with
  | nil => simp
  | cons event l ih =>
    rw [List.map_cons, List.length_cons, List.range'_succ, List.cons.injEq] at h
    have hrest := ih h.2
    by_cases hn : n ≤ a
    · have hzero : n - (a + 1) = 0 := by omega
      have hzero' : n - a = 0 := by omega
      rw [List.filter_cons_of_pos (by simp; omega), hrest, hzero, hzero', List.drop_zero,
        List.drop_zero]
    · have hsucc : n - a = n - (a + 1) + 1 := by omega
      rw [List.filter_cons_of_neg (by simp; omega), hrest, hsucc, List.drop_succ_cons]

/-! ## Runs -/

structure Inv (w : World) : Prop where
  seqs : w.emitted.map TerminalEvent.seq = List.range' 1 w.emitted.length
  seq : w.seq = w.emitted.length
  window : w.replay <:+ w.emitted
  bytes : w.replayBytes = size w.replay
  cap : maxReplayBytes < w.replayBytes → w.replay.length = 1
  running : w.exited = false → ∀ event ∈ w.emitted, event.isExit = false
  ended : w.exited = true → ∃ (l : List TerminalEvent) (event : TerminalEvent),
    w.emitted = l ++ [event] ∧ event.isExit = true ∧ ∀ event ∈ l, event.isExit = false
  start : ∀ c ∈ w.clients, c.start ≤ w.emitted.length
  sent : ∀ c ∈ w.clients, c.sent <+: w.emitted.drop c.start
  /-- A client that is still there has been sent everything. -/
  whole : ∀ c ∈ w.clients, c.attached → c.subscribed ∨ w.listed → c.sent = w.emitted.drop c.start
  held : ∀ c ∈ w.clients, c.attached → w.listed → w.exited = false → c.subscribed

theorem inv_fresh : Inv fresh where
  seqs := rfl
  seq := rfl
  window := List.suffix_refl _
  bytes := rfl
  cap := by simp [fresh]
  running := by simp [fresh]
  ended := by simp [fresh]
  start := by simp [fresh]
  sent := by simp [fresh]
  whole := by simp [fresh]
  held := by simp [fresh]

section

variable {w w' : World} {c : Client} {l : List TerminalEvent} {event : TerminalEvent}

@[simp] theorem send_start : (c.send event).start = c.start := by
  rw [Client.send]
  split_ifs <;> rfl

@[simp] theorem send_attached : (c.send event).attached = c.attached := by
  rw [Client.send]
  split_ifs <;> rfl

theorem send_subscribed (h : (c.send event).subscribed = true) : c.subscribed = true := by
  rw [Client.send] at h
  split_ifs at h with hs
  · exact hs
  · exact h

theorem send_sent (hle : c.start ≤ l.length) (hsent : c.sent <+: l.drop c.start)
    (hwhole : c.attached → c.subscribed → c.sent = l.drop c.start) :
    (c.send event).sent <+: (l ++ [event]).drop c.start ∧
      (c.attached → c.subscribed → (c.send event).sent = (l ++ [event]).drop c.start ∧
        (c.send event).subscribed) := by
  have hlead : c.sent <+: l.drop c.start ++ [event] := hsent.trans (List.prefix_append _ _)
  rw [List.drop_append_of_le_length hle, Client.send]
  split_ifs with hs ha
  · rw [hwhole ha hs]
    exact ⟨List.prefix_refl _, fun _ _ => ⟨rfl, hs⟩⟩
  · exact ⟨hlead, fun h => absurd h ha⟩
  · exact ⟨hlead, fun _ h => absurd h hs⟩

theorem mem_emit {event : ℕ → TerminalEvent} (h : c ∈ (w.emit event).clients) :
    ∃ c' ∈ w.clients, ∃ s, c = { c'.send (event (w.seq + 1)) with subscribed := s } ∧
      (s = true → (event (w.seq + 1)).isExit = false) ∧
      ((event (w.seq + 1)).isExit = false → s = (c'.send (event (w.seq + 1))).subscribed) := by
  rw [World.emit] at h
  dsimp only at h
  split_ifs at h with hexit
  · rw [List.map_map] at h
    obtain ⟨c', hc', rfl⟩ := List.mem_map.mp h
    exact ⟨c', hc', false, rfl, by simp, by simp [hexit]⟩
  · obtain ⟨c', hc', rfl⟩ := List.mem_map.mp h
    exact ⟨c', hc', _, rfl, fun _ => by simpa using hexit, fun _ => rfl⟩

theorem inv_emit {event : ℕ → TerminalEvent} (h : Inv w) (hexited : w.exited = false)
    (hseq : (event (w.seq + 1)).seq = w.seq + 1) : Inv (w.emit event) := by
  have hbytes := evict_bytes (w.replay ++ [event (w.seq + 1)])
    (w.replayBytes + (event (w.seq + 1)).bytes) (by rw [h.bytes]; simp [size])
  have hsend : ∀ c ∈ w.clients, _ := fun c hc =>
    @send_sent c w.emitted (event (w.seq + 1)) (h.start c hc) (h.sent c hc)
      fun ha hs => h.whole c hc ha (Or.inl hs)
  have hlen : (w.emit event).emitted.length = w.emitted.length + 1 := List.length_append
  have hended : (w.emit event).exited = (event (w.seq + 1)).isExit := by
    rw [World.emit, hexited]
    rfl
  refine ⟨?_, ?_, ?_, hbytes.1, hbytes.2, ?_, ?_, ?_, ?_, ?_, ?_⟩
  · rw [hlen, List.range'_concat]
    show (w.emitted ++ [_]).map _ = _
    rw [List.map_append, h.seqs, List.map_singleton, hseq, h.seq]
    simp [Nat.add_comm]
  · rw [hlen, ← h.seq]
    rfl
  · exact (evict_suffix _ _).trans (List.suffix_append_self_iff.mpr h.window)
  · intro hrun event' hmem
    rcases List.mem_append.mp hmem with hmem | hmem
    · exact h.running hexited event' hmem
    · rw [List.mem_singleton.mp hmem, ← hended, hrun]
  · intro hend
    exact ⟨w.emitted, event (w.seq + 1), rfl, hended ▸ hend, h.running hexited⟩
  · intro c hc
    obtain ⟨c', hc', s, rfl, -, -⟩ := mem_emit hc
    rw [hlen]
    show (c'.send _).start ≤ _
    rw [send_start]
    exact (h.start c' hc').trans (Nat.le_succ _)
  · intro c hc
    obtain ⟨c', hc', s, rfl, -, -⟩ := mem_emit hc
    show (c'.send _).sent <+: (w.emitted ++ [_]).drop (c'.send _).start
    rw [send_start]
    exact (hsend c' hc').1
  · intro c hc ha hs
    obtain ⟨c', hc', s, rfl, hrun, hsame⟩ := mem_emit hc
    have ha' : c'.attached := send_attached.symm.trans ha
    show (c'.send _).sent = (w.emitted ++ [_]).drop (c'.send _).start
    rw [send_start]
    refine ((hsend c' hc').2 ha' ?_).1
    rcases hs with hs | hlisted
    · exact send_subscribed ((hsame (hrun hs)).symm.trans hs)
    · exact h.held c' hc' ha' hlisted hexited
  · intro c hc ha hlisted hrun
    obtain ⟨c', hc', s, rfl, -, hsame⟩ := mem_emit hc
    have ha' : c'.attached := send_attached.symm.trans ha
    have hs := ((hsend c' hc').2 ha' (h.held c' hc' ha' hlisted hexited)).2
    show s = true
    rw [hsame (hended ▸ hrun)]
    exact hs

/-- A new client gets what of the window is behind the number it gives. -/
theorem inv_subscribe (h : Inv w) (afterSeq : Option ℕ) : Inv (w.subscribe afterSeq) := by
  obtain ⟨gone, hgone⟩ := h.window
  have hlen : w.emitted.length = gone.length + w.replay.length := by
    rw [← hgone, List.length_append]
  have hseqs : w.replay.map TerminalEvent.seq = List.range' (gone.length + 1) w.replay.length := by
    have hall := h.seqs
    rw [← hgone, List.map_append, List.length_append, ← List.range'_append_1] at hall
    have hsplit := List.append_inj_right hall (by simp)
    rw [hsplit, Nat.add_comm]
  have hnew : ∀ c ∈ (w.subscribe afterSeq).clients, c ∈ w.clients ∨
      c.start ≤ w.emitted.length ∧ c.sent = w.emitted.drop c.start ∧ c.subscribed = !w.exited := by
    intro c hc
    refine (List.mem_append.mp hc).imp_right fun hc => ?_
    rw [List.mem_singleton.mp hc]
    have hevicted : w.emitted.length - w.replay.length = gone.length := by omega
    have hmax : max (min (afterSeq.getD 0) w.seq) gone.length ≤ w.emitted.length := by
      rw [h.seq]
      omega
    rw [Client.start]
    dsimp only
    rw [hevicted]
    refine ⟨hmax, ?_, rfl⟩
    have hdrop : w.emitted.drop (max (min (afterSeq.getD 0) w.seq) gone.length) =
        w.replay.drop (max (min (afterSeq.getD 0) w.seq) gone.length - gone.length) := by
      rw [← hgone, List.drop_append, List.drop_eq_nil_of_le (le_max_right _ _), List.nil_append]
    rw [filter_seq _ hseqs, hdrop]
    rcases le_total (afterSeq.getD 0) w.seq with hle | hle
    · rw [min_eq_left hle]
      congr 1
      omega
    · have hseq := h.seq
      rw [min_eq_right hle, List.drop_eq_nil_of_le (by omega), List.drop_eq_nil_of_le (by omega)]
  refine ⟨h.seqs, h.seq, h.window, h.bytes, h.cap, h.running, h.ended, ?_, ?_, ?_, ?_⟩
  · intro c hc
    rcases hnew c hc with hc | hc
    · exact h.start c hc
    · exact hc.1
  · intro c hc
    rcases hnew c hc with hc | hc
    · exact h.sent c hc
    · exact hc.2.1 ▸ List.prefix_refl _
  · intro c hc ha hs
    rcases hnew c hc with hc | hc
    · exact h.whole c hc ha hs
    · exact hc.2.1
  · intro c hc ha hl hrun
    rcases hnew c hc with hc | hc
    · exact h.held c hc ha hl hrun
    · have hrun : w.exited = false := hrun
      rw [hc.2.2, hrun]
      rfl

theorem mem_modify {f : Client → Client} {l : List Client} {i : ℕ} (h : c ∈ l.modify i f) :
    c ∈ l ∨ ∃ c' ∈ l, c = f c' := by
  obtain ⟨j, hj⟩ := List.mem_iff_getElem?.mp h
  rw [List.getElem?_modify] at hj
  obtain ⟨c', hc', rfl⟩ := Option.map_eq_some_iff.mp hj
  have hmem := List.mem_of_getElem? hc'
  split_ifs
  · exact Or.inr ⟨c', hmem, rfl⟩
  · exact Or.inl hmem

theorem inv_step {a : Act} (h : Inv w) (hw : step w a = some w') : Inv w' := by
  cases a with
  | chunk bytes =>
    obtain ⟨-, rfl⟩ := of_guard hw
    exact ⟨h.1, h.2, h.3, h.4, h.5, h.6, h.7, h.8, h.9, h.10, h.11⟩
  | rawEnd =>
    obtain ⟨-, rfl⟩ := of_guard hw
    exact ⟨h.1, h.2, h.3, h.4, h.5, h.6, h.7, h.8, h.9, h.10, h.11⟩
  | wait status =>
    obtain ⟨-, rfl⟩ := of_guard hw
    exact ⟨h.1, h.2, h.3, h.4, h.5, h.6, h.7, h.8, h.9, h.10, h.11⟩
  | flush =>
    obtain ⟨hrun, rfl⟩ := of_guard hw
    refine inv_emit (w := { w with buffer := [] }) ?_ (by simpa using hrun.2) rfl
    exact ⟨h.1, h.2, h.3, h.4, h.5, h.6, h.7, h.8, h.9, h.10, h.11⟩
  | finish =>
    obtain ⟨hrun, rfl⟩ := of_guard hw
    exact inv_emit h (by simpa using hrun.2.2) rfl
  | subscribe afterSeq =>
    obtain ⟨-, rfl⟩ := of_guard hw
    exact inv_subscribe h afterSeq
  | detach i =>
    obtain rfl := Option.some.inj hw
    have hmem : ∀ c ∈ (w.detach i).clients, c ∈ w.clients ∨
        ∃ c' ∈ w.clients, c = { c' with attached := false } := fun c hc => mem_modify hc
    refine ⟨h.1, h.2, h.3, h.4, h.5, h.6, h.7, ?_, ?_, ?_, ?_⟩
    · intro c hc
      obtain hc | ⟨c', hc', rfl⟩ := hmem c hc
      · exact h.start c hc
      · exact h.start c' hc'
    · intro c hc
      obtain hc | ⟨c', hc', rfl⟩ := hmem c hc
      · exact h.sent c hc
      · exact h.sent c' hc'
    · intro c hc ha hs
      obtain hc | ⟨c', hc', rfl⟩ := hmem c hc
      · exact h.whole c hc ha hs
      · cases ha
    · intro c hc ha hl hrun
      obtain hc | ⟨c', hc', rfl⟩ := hmem c hc
      · exact h.held c hc ha hl hrun
      · cases ha
  | close =>
    obtain ⟨-, rfl⟩ := of_guard hw
    have hmem : ∀ c ∈ w.close.clients, ∃ c' ∈ w.clients, c = { c' with subscribed := false } := by
      intro c hc
      obtain ⟨c', hc', rfl⟩ := List.mem_map.mp hc
      exact ⟨c', hc', rfl⟩
    refine ⟨h.1, h.2, h.3, h.4, h.5, h.6, h.7, ?_, ?_, ?_, ?_⟩
    · intro c hc
      obtain ⟨c', hc', rfl⟩ := hmem c hc
      exact h.start c' hc'
    · intro c hc
      obtain ⟨c', hc', rfl⟩ := hmem c hc
      exact h.sent c' hc'
    · intro c hc ha hs
      obtain ⟨c', hc', rfl⟩ := hmem c hc
      simp [World.close] at hs
    · intro c hc ha hl hrun
      cases hl
  | reap =>
    obtain ⟨⟨hexited, -⟩, rfl⟩ := of_guard hw
    refine ⟨h.1, h.2, h.3, h.4, h.5, h.6, h.7, h.8, h.9, fun c hc ha hs => ?_, ?_⟩
    · exact h.whole c hc ha (Or.inl (by simpa using hs))
    · intro c hc ha hl
      cases hl

/-- **Terminal output.** In every run each client gets consecutive events from its start, all of
them as long as it stays, and an exit last; the window is an end of the output and its count exact,
above the cap only with a single event. -/
theorem resumable {acts : List Act} (h : exec step fresh acts = some w) :
    w.emitted.map TerminalEvent.seq = List.range' 1 w.emitted.length ∧
    (∀ c ∈ w.clients, c.sent <+: w.emitted.drop c.start ∧
      (c.attached → w.listed → c.sent = w.emitted.drop c.start) ∧
      ∀ event ∈ c.sent.dropLast, event.isExit = false) ∧
    (w.exited → ∃ event, w.emitted.getLast? = some event ∧ event.isExit = true) ∧
    w.replay <:+ w.emitted ∧ w.replayBytes = size w.replay ∧
    (maxReplayBytes < w.replayBytes → w.replay.length = 1) := by
  have hinv : Inv w := exec_invariant (G := fun _ _ => True)
    (fun _ _ _ hs _ hstep => inv_step hs hstep) inv_fresh (fun _ _ _ _ _ _ => trivial) h
  have hdata : ∀ event ∈ w.emitted.dropLast, event.isExit = false := by
    intro event hmem
    cases hexited : w.exited with
    | false => exact hinv.running hexited event (List.dropLast_subset _ hmem)
    | true =>
      obtain ⟨l, last, he, -, hl⟩ := hinv.ended hexited
      rw [he, List.dropLast_concat] at hmem
      exact hl event hmem
  refine ⟨hinv.seqs, fun c hc => ⟨hinv.sent c hc, fun ha hl => hinv.whole c hc ha (Or.inr hl),
    fun event hmem => ?_⟩, fun hexited => ?_, hinv.window, hinv.bytes, hinv.cap⟩
  · have hsub : c.sent.Sublist w.emitted :=
      (hinv.sent c hc).sublist.trans (List.drop_sublist _ _)
    have hlast : c.sent.dropLast.Sublist w.emitted.dropLast := by
      have htail := hsub.reverse.tail
      rw [List.tail_reverse, List.tail_reverse] at htail
      exact List.reverse_sublist.mp htail
    exact hdata event (hlast.subset hmem)
  · obtain ⟨l, last, he, hlast, -⟩ := hinv.ended hexited
    exact ⟨last, by rw [he, List.getLast?_concat], hlast⟩

/-- A client comes back, and the shell ends. -/
def comeBack : List Act :=
  [.subscribe none, .chunk [65], .flush, .detach 0, .chunk [66], .subscribe (some 1), .rawEnd,
    .wait (some 0), .flush, .finish]

theorem resumable_comeBack : ∃ w, exec step fresh comeBack = some w ∧
    ∀ c ∈ w.clients, c.attached → c.sent = w.emitted.drop c.start :=
  ⟨_, rfl, fun c hc ha => ((@resumable _ comeBack rfl).2.1 c hc).2.1 ha rfl⟩

/-- A client that asks from beyond the output gets all that comes. -/
theorem future_ignored :
    ∃ w, exec step fresh [.subscribe (some 5), .chunk [65], .flush] = some w ∧
      ∃ c ∈ w.clients, c.afterSeq = some 5 ∧ c.sent.map TerminalEvent.seq = [1] ∧
        w.replay = w.emitted :=
  ⟨_, rfl, _, List.mem_singleton_self _, rfl, rfl, rfl⟩

end

end Zeron.Terminal
