import Zeron.Seen.Flow

/-!
# Last-seen marks across devices

Any devices with one room between them, each with its socket and its HTTPS task: calls, pushes,
broadcasts, acks and reconnects in any order, under any wall clocks.

* `Fleet`, `Move`, `step`: the system; `written`: the writes of a run, with their stamps;
* **`inv_step`**: `Within` and `Steady` at every device, and what no move lowers;
* **`seen_marks`**: marks whose order is their stamps' never move backwards;
* `marks_fall`: others do, and so does an overlay whose HTTPS ack comes before its pull.
-/

namespace Zeron.Seen

open Registry Lww Sidebar

/-- A device: its replica and its transports. -/
structure Port where
  doc : RegistryDoc
  link : Link
  http : Http
  nudge : Bool
  owed : Bool

def portOf (s : Net) : Port := ⟨s.doc, s.link, s.http, s.nudge, s.owed⟩

/-- A call on a device; a writer nudges after it. -/
def Port.seen (port : Port) (now : ℕ → ℤ) (chatId : String) (seenAt : Millis) : Port :=
  { port with
    doc := (setChatSeen port.doc now chatId seenAt).1
    owed := port.owed || marks port.doc chatId seenAt }

structure Fleet (δ : Type) where
  room : Room
  ports : δ → Port

inductive Move (δ : Type) where
  | seen (d : δ) (now : ℕ → ℤ) (chatId : String) (seenAt : Millis)
  | alarm (nowMs : ℕ)
  /-- A move of the device's socket or HTTPS task. -/
  | transport (d : δ) (a : Act)

/-- Neither a write, nor another device's, nor the room's own. -/
def transports : Act → Bool
  | .enqueue _ _ _ | .peerPush _ _ | .alarm _ => false
  | _ => true

/-- The batch a move brings to the room. -/
def pushed (s : Net) (a : Act) : Option PendingBatch :=
  match a, s.link, s.http with
  | .servePush, .joined _ (b :: _) _, _ => some b
  | .httpServe, _, .pushing (b :: _) => some b
  | _, _, _ => none

/-- A device while the room takes another's batch. -/
def hear (s : Net) : Option PendingBatch → Net
  | none => s
  | some b => s.push b.batch b.ops

namespace Fleet

variable {δ : Type} [DecidableEq δ]

/-- A device and the room. -/
def net (σ : Fleet δ) (d : δ) : Net :=
  { room := σ.room, doc := (σ.ports d).doc, link := (σ.ports d).link, http := (σ.ports d).http
    nudge := (σ.ports d).nudge, owed := (σ.ports d).owed }

/-- One move; `none` where it is not possible. -/
def step (σ : Fleet δ) : Move δ → Option (Fleet δ)
  | .seen d now chatId seenAt =>
    some { σ with ports := Function.update σ.ports d ((σ.ports d).seen now chatId seenAt) }
  | .alarm nowMs => some { σ with room := σ.room.alarm nowMs }
  | .transport d a =>
    if transports a then
      ((σ.net d).step a).map fun s' =>
        { room := s'.room
          ports := fun d' =>
            if d' = d then portOf s' else portOf (hear (σ.net d') (pushed (σ.net d) a)) }
    else none

/-- Devices that have just started, next to a room. -/
def start (room : Room) (ids : δ → String) : Fleet δ :=
  { room, ports := fun d => portOf (.start room (.new (ids d))) }

/-- The mark the server has. -/
def server (σ : Fleet δ) (chatId : String) : WithBot ℤ :=
  (point (σ.room.row ⟨kindChats, chatId⟩)).2

/-- What a move writes to the chat. -/
def stamped (chatId : String) (σ : Fleet δ) : Move δ → List (WithBot Hlc × WithBot ℤ)
  | .seen d now id seenAt =>
    if id = chatId ∧ marks (σ.ports d).doc id seenAt = true then
      [(((σ.ports d).doc.nextHlc (now 0)).2, seenAt.ms)]
    else []
  | _ => []

/-- What a run writes to the chat. -/
def written (chatId : String) (σ : Fleet δ) : List (Move δ) → List (WithBot Hlc × WithBot ℤ)
  | [] => []
  | m :: ms => stamped chatId σ m ++ ((step σ m).map fun σ' => written chatId σ' ms).getD []

/-! ## One move -/

section Step

variable {H : Set (WithBot Hlc × WithBot ℤ)} {chatId : String} {σ σ' : Fleet δ} {m : Move δ}
  {quiet : δ → Prop}

/-- Every device is within the set; the quiet ones, which never spawn an HTTPS task, are steady. -/
structure Inv (H : Set (WithBot Hlc × WithBot ℤ)) (chatId : String) (quiet : δ → Prop)
    (σ : Fleet δ) : Prop where
  room : ∃ r, σ.room.row ⟨kindChats, chatId⟩ = some r ∧ RowIn H r
  within : ∀ d, Within H ⟨kindChats, chatId⟩ (σ.net d)
  steady : ∀ d, quiet d → Steady ⟨kindChats, chatId⟩ (σ.net d)

theorem room_transport {s s' : Net} {a : Act} (ht : transports a = true) (hs : Step s a s') :
    s'.room = (hear s (pushed s a)).room := by
  cases hs with
  | servePush hl => simp only [pushed, hl]; rfl
  | httpServe hh => simp only [pushed, hh]; rfl
  | enqueue => cases ht
  | peerPush => cases ht
  | alarm => cases ht
  | _ => rfl

theorem mem_queue_pushed {s : Net} {a : Act} {b : PendingBatch} (h : pushed s a = some b) :
    b ∈ s.queue := by
  unfold pushed at h
  split at h
  · rename_i hl
    cases h
    exact mem_queue.mpr (Or.inr (Or.inl (by rw [hl]; exact List.mem_cons_self)))
  · rename_i hh
    cases h
    exact mem_queue.mpr (Or.inr (Or.inr (by rw [hh]; exact List.mem_cons_self)))
  · cases h

theorem net_seen (d : δ) (now : ℕ → ℤ) (id : String) (seenAt : Millis)
    (hm : marks (σ.ports d).doc id seenAt = true)
    (hs : step σ (.seen d now id seenAt) = some σ') :
    Step (σ.net d) (.enqueue ((σ.ports d).doc.nextHlc (now 0)).1.clock (later now)
      [seenOp (σ.ports d).doc now id seenAt]) (σ'.net d) := by
  have hticks : (σ.net d).doc.clock.ticks ≤ ((σ.ports d).doc.nextHlc (now 0)).1.clock.ticks :=
    (ticks_lt_next _ _ (σ.ports d).doc.deviceId).le
  have hstep := @Step.enqueue (σ.net d) _ (later now) [seenOp (σ.ports d).doc now id seenAt] hticks
  have he : σ'.net d = { σ.net d with
      doc := { (σ.net d).doc with clock := ((σ.ports d).doc.nextHlc (now 0)).1.clock }.enqueueOps
        (later now) [seenOp (σ.ports d).doc now id seenAt]
      owed := true } := by
    cases hs
    simp only [net, Function.update_self, Port.seen, setChatSeen_fst, hm, if_true, Bool.or_true]
    rfl
  rw [he]
  exact hstep

/-- **Each device takes a step of its own, or hears another's batch, or stands still.** -/
theorem net_step (h : Inv H chatId quiet σ) (hm : ∀ p ∈ stamped chatId σ m, p ∈ H)
    (hs : step σ m = some σ') (d : δ) : σ'.net d = σ.net d ∨ ∃ a, Step (σ.net d) a (σ'.net d) ∧
      ActIn H ⟨kindChats, chatId⟩ a ∧ (quiet d → ActOwn ⟨kindChats, chatId⟩ (σ.net d) a) ∧
      (a = .httpSpawn → m = .transport d .httpSpawn) := by
  cases m with
  | seen d₀ now id seenAt =>
    by_cases hd : d = d₀
    · subst hd
      by_cases hmarks : marks (σ.ports d).doc id seenAt = true
      · refine Or.inr ⟨_, net_seen d now id seenAt hmarks hs, ?_, fun hq => ?_,
          fun he => by cases he⟩
        · intro op hop hk
          rw [List.mem_singleton.mp hop] at hk ⊢
          obtain rfl : id = chatId := congrArg RowKey.id hk
          refine ⟨show OpKind.update ≠ .delete by decide, fun w hw => ?_⟩
          rw [writeAt_seenOp] at hw
          cases hw
          rw [markOf_num]
          exact hm _ (by simp [stamped, hmarks])
        · intro op hop hk hnone
          rw [List.mem_singleton.mp hop] at hk
          obtain rfl : id = chatId := congrArg RowKey.id hk
          obtain ⟨row, hrow, -⟩ := (Option.any_eq_true _ _).mp hmarks
          have hno : ∀ op ∈ (σ.ports d).doc.pending.flatMap (·.ops),
              op.key ≠ ⟨kindChats, id⟩ := by
            intro op hop
            obtain ⟨b, hb, hop⟩ := List.mem_flatMap.mp hop
            exact (h.steady d hq).bare hnone b (mem_queue.mpr (Or.inl hb)) op hop
          have hbare : (σ.ports d).doc.row ⟨kindChats, id⟩ = none := hnone
          rw [RegistryDoc.overlayRow, foldl_other hno, hbare] at hrow
          cases hrow
      · refine Or.inl ?_
        have hfalse := Bool.not_eq_true _ ▸ hmarks
        cases hs
        simp only [net, Function.update_self, Port.seen, setChatSeen_fst, hfalse, Bool.or_false]
        rfl
    · refine Or.inl ?_
      cases hs
      simp only [net, Function.update_of_ne hd]
  | alarm nowMs =>
    refine Or.inr ⟨.alarm nowMs, ?_, trivial, fun _ => trivial, fun he => by cases he⟩
    cases hs
    exact Step.alarm
  | transport d₀ a =>
    simp only [step] at hs
    split_ifs at hs with ht
    obtain ⟨s', hs', rfl⟩ := Option.map_eq_some_iff.mp hs
    have hstep := step_iff.mp hs'
    by_cases hd : d = d₀
    · subst hd
      refine Or.inr ⟨a, ?_, ?_, fun _ => ?_, fun he => by rw [he]⟩
      · have he : Fleet.net { room := s'.room, ports := fun d' =>
            if d' = d then portOf s' else portOf (hear (σ.net d') (pushed (σ.net d) a)) } d =
              s' := by
          simp only [net, if_true, portOf]
        rw [he]
        exact hstep
      · cases a with
        | enqueue => cases ht
        | peerPush => cases ht
        | _ => trivial
      · cases a with
        | enqueue => cases ht
        | _ => trivial
    · have hroom := room_transport ht hstep
      cases hb : pushed (σ.net d₀) a with
      | none =>
        refine Or.inl ?_
        rw [hb] at hroom
        simp only [net, if_neg hd, portOf, hear, hroom]
      | some b =>
        rw [hb] at hroom
        refine Or.inr ⟨.peerPush b.batch b.ops, ?_, fun op hop hk => ?_, fun _ => trivial,
          fun he => by cases he⟩
        · have he : Fleet.net { room := s'.room, ports := fun d' =>
              if d' = d₀ then portOf s' else portOf (hear (σ.net d') (some b)) } d =
                (σ.net d).push b.batch b.ops := by
            simp only [net, if_neg hd, portOf, hear, hroom]
            rfl
          rw [he]
          exact Step.peerPush
        · exact (h.within d₀).ops b (mem_queue_pushed hb) op hop hk

/-- **The server's row gets no older.** -/
theorem room_step_in (h : Inv H chatId quiet σ) (hs : step σ m = some σ') {r : RegistryRow}
    (hrow : σ.room.row ⟨kindChats, chatId⟩ = some r) :
    ∃ r', σ'.room.row ⟨kindChats, chatId⟩ = some r' ∧ RowIn H r' ∧
      (point (some r)).1 ≤ (point (some r')).1 := by
  obtain ⟨r₀, he, hr⟩ := h.room
  obtain rfl : r = r₀ := Option.some.inj (hrow.symm.trans he)
  cases m with
  | seen d now id seenAt =>
    have hroom : σ'.room = σ.room := by
      cases hs
      rfl
    rw [hroom]
    exact ⟨r, hrow, hr, le_rfl⟩
  | alarm nowMs =>
    have hroom : σ'.room = σ.room.alarm nowMs := by
      cases hs
      rfl
    rw [hroom]
    exact ⟨r, row_alarm_live hrow hr.live, hr, le_rfl⟩
  | transport d a =>
    simp only [step] at hs
    split_ifs at hs with ht
    obtain ⟨s', hs', rfl⟩ := Option.map_eq_some_iff.mp hs
    have hin : ActIn H ⟨kindChats, chatId⟩ a := by
      cases a with
      | enqueue => cases ht
      | peerPush => cases ht
      | _ => trivial
    exact row_step (h.within d) hin (step_iff.mp hs') hrow

/-- **One move**: the devices stay within the set and steady, and nothing falls. -/
theorem inv_step (hH : InOrder H) (h : Inv H chatId quiet σ)
    (hm : ∀ p ∈ stamped chatId σ m, p ∈ H) (hquiet : ∀ d, quiet d → m ≠ .transport d .httpSpawn)
    (hs : step σ m = some σ') : Inv H chatId quiet σ' ∧ σ.server chatId ≤ σ'.server chatId ∧
      ∀ d, quiet d → shown (σ.ports d).doc chatId ≤ shown (σ'.ports d).doc chatId := by
  obtain ⟨r, hrow, hr⟩ := h.room
  have hroom := room_step_in h hs hrow
  obtain ⟨r', hrow', hr', hle⟩ := hroom
  have hnet := net_step h hm hs
  refine ⟨⟨⟨r', hrow', hr'⟩, fun d => ?_, fun d hq => ?_⟩, ?_, fun d hq => ?_⟩
  · rcases hnet d with he | ⟨a, hstep, hin, -, -⟩
    · rw [he]
      exact h.within d
    · exact within_step (h.within d) hin hstep
  · rcases hnet d with he | ⟨a, hstep, hin, hown, hspawn⟩
    · rw [he]
      exact h.steady d hq
    · exact steady_step (h.within d) hin (h.steady d hq) (hown hq)
        (fun he => hquiet d hq (hspawn he)) hstep
  · rw [server, server, hrow, hrow']
    exact hH _ hr.mem _ hr'.mem hle
  · rcases hnet d with he | ⟨a, hstep, hin, -, -⟩
    · have hdoc : (σ'.ports d).doc = (σ.ports d).doc := congrArg Net.doc he
      rw [hdoc]
    · have hw' := within_step (h.within d) hin hstep
      have hle := shown_step hH (h.within d) hw' (h.steady d hq) hstep
      exact hle

end Step

/-! ## Runs -/

section Runs

variable {H : Set (WithBot Hlc × WithBot ℤ)} {chatId : String} {σ σ' : Fleet δ}
  {quiet : δ → Prop} {ms : List (Move δ)}

theorem written_append (chatId : String) {σ σ' : Fleet δ} {ms : List (Move δ)}
    (hrun : Run.exec step σ ms = some σ') (ms' : List (Move δ)) :
    written chatId σ (ms ++ ms') = written chatId σ ms ++ written chatId σ' ms' := by
  induction ms generalizing σ with
  | nil =>
    cases hrun
    rfl
  | cons m ms ih =>
    rw [Run.exec, Option.bind_eq_some_iff] at hrun
    obtain ⟨σ₁, h₁, hrun⟩ := hrun
    rw [List.cons_append, written, written, h₁, Option.map_some, Option.map_some, Option.getD_some,
      Option.getD_some, ih hrun, List.append_assoc]

/-- **A run.** -/
theorem inv_exec (hH : InOrder H) (h : Inv H chatId quiet σ)
    (hm : ∀ p ∈ written chatId σ ms, p ∈ H)
    (hquiet : ∀ d, quiet d → ∀ m ∈ ms, m ≠ .transport d .httpSpawn)
    (hrun : Run.exec step σ ms = some σ') : Inv H chatId quiet σ' ∧
      σ.server chatId ≤ σ'.server chatId ∧
      ∀ d, quiet d → shown (σ.ports d).doc chatId ≤ shown (σ'.ports d).doc chatId := by
  induction ms generalizing σ with
  | nil =>
    cases hrun
    exact ⟨h, le_rfl, fun d _ => le_rfl⟩
  | cons m ms ih =>
    rw [Run.exec, Option.bind_eq_some_iff] at hrun
    obtain ⟨σ₁, h₁, hrun⟩ := hrun
    rw [written, h₁, Option.map_some, Option.getD_some] at hm
    obtain ⟨hinv, hserver, hshown⟩ := inv_step hH h
      (fun p hp => hm p (List.mem_append_left _ hp))
      (fun d hq => hquiet d hq m List.mem_cons_self) h₁
    obtain ⟨hinv', hserver', hshown'⟩ := ih hinv (fun p hp => hm p (List.mem_append_right _ hp))
      (fun d hq m hm => hquiet d hq m (List.mem_cons_of_mem _ hm)) hrun
    exact ⟨hinv', hserver.trans hserver', fun d hq => (hshown d hq).trans (hshown' d hq)⟩

omit [DecidableEq δ] in
theorem inv_start {room : Room} {r : RegistryRow} (ids : δ → String)
    (hrow : room.row ⟨kindChats, chatId⟩ = some r) (hlive : r.deleted = false)
    (hpoint : point (some r) ∈ H) (quiet : δ → Prop) :
    Inv H chatId quiet (start room ids) := by
  have hr : RowIn H r := ⟨hlive, (room.wf.stored _ r hrow).wf, hpoint⟩
  have hnone : ∀ (d : δ) key, ((start room ids).net d).doc.row key = none := by
    intro d key
    simp [net, start, portOf, Net.start, RegistryDoc.new]
  have hqueue : ∀ (d : δ) b, b ∉ ((start room ids).net d).queue := by
    intro d b hb
    simp [Net.queue, net, start, portOf, Net.start, RegistryDoc.new, Link.outbox, Http.outbox] at hb
  refine ⟨⟨r, hrow, hr⟩, fun d => ⟨⟨r, hrow, hr⟩, ?_, ?_, ?_, ?_⟩, fun d _ => ?_⟩
  · intro key r' hr'
    rw [hnone] at hr'
    cases hr'
  · intro r' hr'
    rw [hnone] at hr'
    cases hr'
  · rintro r' (⟨frame, hf, -⟩ | ⟨_, _, _, hl, -⟩ | ⟨_, _, hh, -⟩) _
    · cases hf
    · cases hl
    · cases hh
  · intro b hb
    exact absurd hb (hqueue d b)
  · refine ⟨rfl, ⟨Nat.zero_le _, Cover.covers_zero room.wf.seq_pos _, trivial, trivial⟩, ⟨?_, ?_⟩,
      fun _ b hb => absurd hb (hqueue d b), ?_⟩
    · intro b hb
      exact absurd hb (hqueue d b)
    · intro b hb
      exact absurd hb (hqueue d b)
    · show (point (((start room ids).net d).doc.row _)).1 ≤ _
      rw [hnone]
      exact bot_le

end Runs

/-- **Last-seen marks.** No call lowers what its own replica shows. In every run from devices that
have just started, next to a room with the chat: if no write of the chat with a newer stamp has a
lower mark than another, the registered one included, then the server's mark never falls, and
neither does the mark of an overlay that syncs over its socket. -/
theorem seen_marks (room : Room) (ids : δ → String) (chatId : String)
    (hchat : Live (room.row ⟨kindChats, chatId⟩)) (ms ms' : List (Move δ)) (σ σ' : Fleet δ)
    (horder : InOrder {p | p ∈ point (room.row ⟨kindChats, chatId⟩) ::
      written chatId (start room ids) (ms ++ ms')})
    (hrun : Run.exec step (start room ids) ms = some σ) (hrun' : Run.exec step σ ms' = some σ') :
    (∀ doc now id seenAt, shown doc chatId ≤ shown (setChatSeen doc now id seenAt).1 chatId) ∧
      σ.server chatId ≤ σ'.server chatId ∧
      ∀ d, (∀ m ∈ ms ++ ms', m ≠ .transport d .httpSpawn) →
        shown (σ.ports d).doc chatId ≤ shown (σ'.ports d).doc chatId := by
  obtain ⟨r, hrow, hlive⟩ := hchat
  rw [hrow] at horder
  have hsplit := written_append chatId hrun ms'
  have hinv := @inv_start δ
    {p | p ∈ point (some r) :: written chatId (start room ids) (ms ++ ms')} chatId room r ids hrow
    hlive List.mem_cons_self fun d => ∀ m ∈ ms ++ ms', m ≠ .transport d .httpSpawn
  have hfirst : ∀ p ∈ written chatId (start room ids) ms,
      p ∈ point (some r) :: written chatId (start room ids) (ms ++ ms') := by
    intro p hp
    rw [hsplit]
    exact List.mem_cons_of_mem _ (List.mem_append_left _ hp)
  have hlast : ∀ p ∈ written chatId σ ms',
      p ∈ point (some r) :: written chatId (start room ids) (ms ++ ms') := by
    intro p hp
    rw [hsplit]
    exact List.mem_cons_of_mem _ (List.mem_append_right _ hp)
  obtain ⟨hmid, -, -⟩ := inv_exec horder hinv hfirst
    (fun d hq m hm => hq m (List.mem_append_left _ hm)) hrun
  obtain ⟨-, hserver, hshown⟩ := inv_exec horder hmid hlast
    (fun d hq m hm => hq m (List.mem_append_right _ hm)) hrun'
  exact ⟨fun doc now id seenAt => shown_setChatSeen doc now id seenAt chatId, hserver, hshown⟩

/-! ## Two devices -/

/-- A room with the chat `c`. -/
def chats : Room := Room.empty.push "create"
  [{ kind := kindChats, id := "c", op := .upsert, set := some {("title", .str "x")}
     hlc := "0000000000001-000000-z", clocks := none }]

def named (d : Bool) : String := if d then "b" else "a"

def millis (ms : Fin 10000) : Millis := ⟨ms, by omega, by omega⟩

def join (d : Bool) : List (Move Bool) :=
  [Act.dial, .serveHello, .recvState fun _ => 0, .pushPending].map (Move.transport d)

def send (d : Bool) : List (Move Bool) :=
  [Act.hostNudge, .takeNudge, .pushPending, .servePush].map (Move.transport d)

/-- Both devices mark the chat before either hears of the other, `b` by the later clock; `a` is
served first and hears of it. -/
def crossed (marked : Bool → Fin 10000) : List (Move Bool) :=
  [join false, join true, [.seen true (fun _ => 2000) "c" (millis (marked true)),
    .seen false (fun _ => 1000) "c" (millis (marked false))], send false,
    [.transport false .recvFrame, .transport false .recvFrame]].flatten

/-- Then `b` is served, and `a` hears of that. -/
def overtaken : List (Move Bool) := send true ++ [Move.transport false Act.recvFrame]

theorem seen_marks_crossed : ∃ σ σ' : Fleet Bool,
    Run.exec step (start chats named) (crossed fun d => if d then 5000 else 4000) = some σ ∧
    Run.exec step σ overtaken = some σ' ∧ σ.server "c" ≤ σ'.server "c" ∧
    shown (σ.ports false).doc "c" ≤ shown (σ'.ports false).doc "c" := by
  have hlive : (chats.row ⟨kindChats, "c"⟩).any (!·.deleted) = true := by decide +kernel
  obtain ⟨r, hr, hdel⟩ := (Option.any_eq_true _ _).mp hlive
  have hrun : (Run.exec step (start chats named) (crossed fun d => if d then 5000 else 4000)).any
      (fun σ => (Run.exec step σ overtaken).isSome) = true := by decide +kernel
  obtain ⟨σ, hσ, hrest⟩ := (Option.any_eq_true _ _).mp hrun
  obtain ⟨σ', hσ'⟩ := Option.isSome_iff_exists.mp hrest
  have horder : InOrder {p | p ∈ point (chats.row ⟨kindChats, "c"⟩) :: written "c"
      (start chats named) ((crossed fun d => if d then 5000 else 4000) ++ overtaken)} := by
    decide +kernel
  obtain ⟨-, hserver, hshown⟩ := seen_marks chats named "c" ⟨r, hr, by simpa using hdel⟩
    (crossed fun d => if d then 5000 else 4000) overtaken σ σ' horder hσ hσ'
  refine ⟨σ, σ', hσ, hσ', hserver, hshown false ?_⟩
  simp [crossed, overtaken, join, send]

/-- Over HTTPS: `a` fetches the chat, marks it and pushes the mark. -/
def posted : List (Move Bool) :=
  [.transport false .httpSpawn, .transport false .httpTake, .transport false .httpPull,
    .transport false .httpAnswer, .transport false (.httpApply fun _ => 0),
    .seen false (fun _ => 1000) "c" (millis 5000), .transport false .httpSpawn,
    .transport false .httpTake, .transport false .httpServe]

/-- **Marks fall**: at the server and at `a` when `b`'s lower mark has the newer stamp; and, with
the marks in order, at a device whose push is acked over HTTPS before it pulls. -/
theorem marks_fall : (¬ ∀ (room : Room) (ids : Bool → String) (chatId : String),
    Live (room.row ⟨kindChats, chatId⟩) → ∀ (ms ms' : List (Move Bool)) (σ σ' : Fleet Bool),
    Run.exec step (start room ids) ms = some σ → Run.exec step σ ms' = some σ' →
    σ.server chatId ≤ σ'.server chatId ∧
      ∀ d, shown (σ.ports d).doc chatId ≤ shown (σ'.ports d).doc chatId) ∧
    ∃ σ σ' : Fleet Bool, (∀ p ∈ point (chats.row ⟨kindChats, "c"⟩) ::
      written "c" (start chats named) (posted ++ [.transport false .httpAck]),
      ∀ q ∈ point (chats.row ⟨kindChats, "c"⟩) ::
      written "c" (start chats named) (posted ++ [.transport false .httpAck]),
      p.1 ≤ q.1 → p.2 ≤ q.2) ∧ Run.exec step (start chats named) posted = some σ ∧
    Run.exec step σ [.transport false .httpAck] = some σ' ∧
    shown (σ'.ports false).doc "c" < shown (σ.ports false).doc "c" := by
  constructor
  · intro h
    have hlive : (chats.row ⟨kindChats, "c"⟩).any (!·.deleted) = true := by decide +kernel
    obtain ⟨r, hr, hdel⟩ := (Option.any_eq_true _ _).mp hlive
    have hrun : (Run.exec step (start chats named)
        (crossed fun d => if d then 4000 else 5000)).any (fun σ =>
          (Run.exec step σ overtaken).any fun σ' => σ'.server "c" < σ.server "c" &&
            shown (σ'.ports false).doc "c" < shown (σ.ports false).doc "c") = true := by
      decide +kernel
    obtain ⟨σ, hσ, hrest⟩ := (Option.any_eq_true _ _).mp hrun
    obtain ⟨σ', hσ', hfall⟩ := (Option.any_eq_true _ _).mp hrest
    rw [Bool.and_eq_true, decide_eq_true_iff, decide_eq_true_iff] at hfall
    have hle := h chats named "c" ⟨r, hr, by simpa using hdel⟩
      (crossed fun d => if d then 4000 else 5000) overtaken σ σ' hσ hσ'
    exact absurd hle.1 (not_le.mpr hfall.1)
  · have hrun : (Run.exec step (start chats named) posted).any (fun σ =>
        (Run.exec step σ [.transport false .httpAck]).any fun σ' =>
          shown (σ'.ports false).doc "c" < shown (σ.ports false).doc "c") = true := by
      decide +kernel
    obtain ⟨σ, hσ, hrest⟩ := (Option.any_eq_true _ _).mp hrun
    obtain ⟨σ', hσ', hfall⟩ := (Option.any_eq_true _ _).mp hrest
    exact ⟨σ, σ', by decide +kernel, hσ, hσ', of_decide_eq_true hfall⟩

end Fleet

end Zeron.Seen
