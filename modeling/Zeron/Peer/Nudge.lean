import Zeron.Lib.Run

/-!
# Durable nudges

`device-room.ts`: the host sockets of a device's room, and the nudges that wait for one.

* `pickLiveHost`, `Room.liveHost`: the socket that a nudge goes to;
* `step`: nudges, host joins, and what happens to the sockets;
* `NeverStranded`: **a nudge reaches a host or waits for the next one**;
* `Heard`: when a step keeps it; **`nudges_never_stranded`**;
* `nudge_into_a_corpse`: a host that died within the liveness window.
-/

namespace Zeron.Peer.Nudge

open Run

/-- `HOST_LIVENESS_MS`. -/
def hostLivenessMs : ℕ := 75000

/-- `NUDGE_MAX_PENDING`. -/
def nudgeMaxPending : ℕ := 256

/-- `CHAT_ID_RE`. -/
def chatIdValid (chatId : String) : Bool :=
  let l := chatId.toList
  0 < l.length && l.length ≤ 64 && l.all fun c => c.isAlphanum || c = '_' || c = '-'

/-- A host socket that the runtime lists. A socket that is not `reachable` accepts sends that reach
nobody; one that the room has closed throws them. -/
structure HostSocket where
  id : ℕ
  autoPong : ℕ
  joinedAt : ℕ
  reachable : Bool
  closing : Bool
  deriving DecidableEq, Repr

def HostSocket.lastSeenAt (host : HostSocket) : ℕ := max host.autoPong host.joinedAt

/-- What is sent to the socket now reaches the host. -/
def HostSocket.Hears (host : HostSocket) : Prop := host.reachable ∧ ¬host.closing

instance (host : HostSocket) : Decidable host.Hears := inferInstanceAs (Decidable (_ ∧ _))

/-- `pickLiveHost`. -/
def pickLiveHost (hosts : List HostSocket) (now : ℕ) (exclude : Option ℕ) : Option HostSocket :=
  let best := hosts.foldl (fun best host =>
    if exclude = some host.id then best
    else
      match best with
      | none => some host
      | some b => if host.lastSeenAt > b.lastSeenAt then some host else some b) none
  best.filter fun host => now ≤ host.lastSeenAt + hostLivenessMs

/-- A row of `pending_nudges`. -/
structure PendingNudge where
  chatId : String
  queuedAt : ℕ
  deriving DecidableEq, Repr

/-- What happens to the nudges. -/
inductive Event where
  /-- The room accepts a nudge. -/
  | nudged (chatId : String)
  /-- A nudge is sent, and reaches the host or not. -/
  | sent (chatId : String) (reached : Bool)
  /-- A nudge is dropped beyond the cap. -/
  | evicted (chatId : String)
  deriving DecidableEq, Repr

/-- A room; `log` records what happened to its nudges. -/
structure Room where
  hosts : List HostSocket
  pending : List PendingNudge
  now : ℕ
  nextId : ℕ
  log : List Event
  deriving DecidableEq, Repr

def Room.start : Room := { hosts := [], pending := [], now := 0, nextId := 0, log := [] }

/-- `liveHost()`. -/
def Room.liveHost (room : Room) : Option HostSocket := pickLiveHost room.hosts room.now none

inductive Action where
  | clock (now : ℕ)
  /-- A host pings, and the runtime stamps the answer. -/
  | pong (id : ℕ)
  /-- A host is gone, and its socket stays listed. -/
  | die (id : ℕ)
  /-- The close of a socket has been handled. -/
  | gone (id : ℕ)
  /-- A host joins; it reads the rows in this order, and dies after so many if at all. -/
  | join (order : List PendingNudge) (dies : Option ℕ)
  /-- `POST /nudge`; `kept` are the rows that stay below the cap. -/
  | nudge (chatId : String) (kept : List PendingNudge)
  deriving DecidableEq, Repr

/-- `INSERT ... ON CONFLICT(chat_id) DO UPDATE`. -/
def upsert (chatId : String) (queuedAt : ℕ) (rows : List PendingNudge) : List PendingNudge :=
  if chatId ∈ rows.map (·.chatId) then
    rows.map fun r => if r.chatId = chatId then { r with queuedAt } else r
  else rows ++ [{ chatId := chatId, queuedAt := queuedAt }]

/-- `kept` are the newest rows up to the cap; between rows of one time the database chooses. -/
def IsNewest (rows kept : List PendingNudge) : Prop :=
  kept.Sublist rows ∧ kept.length = min nudgeMaxPending rows.length ∧
    ∀ r ∈ rows, r ∉ kept → ∀ r' ∈ kept, r.queuedAt ≤ r'.queuedAt

instance (rows kept : List PendingNudge) : Decidable (IsNewest rows kept) :=
  inferInstanceAs (Decidable (_ ∧ _ ∧ _))

/-- `replayNudges`: the sends, to a host that dies after so many if at all. -/
def replayed (order : List PendingNudge) (dies : Option ℕ) : List Event :=
  order.mapIdx fun i r => .sent r.chatId (dies.all (i < ·))

/-- One step. -/
def step (room : Room) : Action → Option Room
  | .clock now => some { room with now }
  | .pong id => some { room with
      hosts := room.hosts.map fun h =>
        if h.id = id ∧ h.reachable then { h with autoPong := room.now } else h }
  | .die id => some { room with
      hosts := room.hosts.map fun h => if h.id = id then { h with reachable := false } else h }
  | .gone id => some { room with hosts := room.hosts.filter (·.id ≠ id) }
  | .join order dies =>
    if order.Perm room.pending ∧ order.Pairwise (·.queuedAt ≤ ·.queuedAt) then
      let host : HostSocket :=
        { id := room.nextId, autoPong := 0, joinedAt := room.now, reachable := dies.isNone,
          closing := false }
      some { room with
        hosts := room.hosts.map (fun h => { h with closing := true }) ++ [host]
        pending := []
        nextId := room.nextId + 1
        log := room.log ++ replayed order dies }
    else none
  | .nudge chatId kept =>
    if chatIdValid chatId then
      match room.liveHost with
      | some host => some { room with
          log := room.log ++ [Event.nudged chatId, .sent chatId (decide host.Hears)] }
      | none =>
        let rows := upsert chatId room.now room.pending
        if IsNewest rows kept then
          some { room with
            pending := kept
            log := room.log ++
              .nudged chatId :: (rows.filter (· ∉ kept)).map fun r => .evicted r.chatId }
        else none
    else some room

/-- Every nudge of the log has since reached a host, or was dropped beyond the cap, or waits. -/
def Kept (log : List Event) (pending : List PendingNudge) : Prop :=
  ∀ (pre : List Event) (chatId : String) (post : List Event),
    log = pre ++ Event.nudged chatId :: post → .sent chatId true ∈ post ∨ .evicted chatId ∈ post ∨ chatId ∈ pending.map (·.chatId)

/-- **Every nudge that was accepted has reached a host or waits for the next one.** -/
def NeverStranded (room : Room) : Prop := Kept room.log room.pending

/-- A nudge that goes to a socket reaches the host, unless one of the chat waits already; and a host
that joins hears the whole replay. -/
def Heard (room : Room) : Action → Prop
  | .join _ dies => ∀ n, dies = some n → room.pending.length ≤ n
  | .nudge chatId _ => chatIdValid chatId → ∀ host, room.liveHost = some host →
      host.Hears ∨ chatId ∈ room.pending.map (·.chatId)
  | _ => True

instance (room : Room) : DecidablePred (Heard room)
  | .clock _ | .pong _ | .die _ | .gone _ => inferInstanceAs (Decidable True)
  | .join _ none => .isTrue fun _ h => nomatch h
  | .join _ (some n) => decidable_of_iff (room.pending.length ≤ n) (by simp [Heard])
  | .nudge chatId _ => decidable_of_iff (chatIdValid chatId → ∀ host ∈ room.liveHost,
      host.Hears ∨ chatId ∈ room.pending.map (·.chatId)) (by simp [Heard])

/-! ## The invariant -/

section Stranded

variable {log new : List Event} {pending pending' : List PendingNudge} {room room' : Room}

theorem Kept.append (h : Kept log pending)
    (hrows : ∀ chatId ∈ pending.map (·.chatId), .sent chatId true ∈ new ∨
      .evicted chatId ∈ new ∨ chatId ∈ pending'.map (·.chatId))
    (hnew : Kept new pending') : Kept (log ++ new) pending' := by
  intro pre chatId post heq
  rcases List.append_eq_append_iff.mp heq with ⟨mid, rfl, hmid⟩ | ⟨mid, rfl, hmid⟩
  · exact hnew mid chatId post hmid
  · cases mid with
    | nil => exact hnew [] chatId post (by simpa using hmid.symm)
    | cons e mid =>
      rw [List.cons_append, List.cons.injEq] at hmid
      obtain ⟨rfl, rfl⟩ := hmid
      rcases h pre chatId mid rfl with hsent | hevicted | hwaits
      · exact .inl (List.mem_append_left _ hsent)
      · exact .inr (.inl (List.mem_append_left _ hevicted))
      · exact (hrows chatId hwaits).imp (List.mem_append_right _)
          (Or.imp_left (List.mem_append_right _))

theorem kept_of_none (h : ∀ chatId, .nudged chatId ∉ new) : Kept new pending := by
  intro pre chatId post heq
  exact absurd (heq ▸ List.mem_append_right _ List.mem_cons_self) (h chatId)

theorem kept_nil : Kept [] pending := kept_of_none fun _ => List.not_mem_nil

theorem kept_cons {chatId : String} {rest : List Event} (hrest : ∀ c, .nudged c ∉ rest)
    (h : .sent chatId true ∈ rest ∨ .evicted chatId ∈ rest ∨ chatId ∈ pending.map (·.chatId)) :
    Kept (.nudged chatId :: rest) pending := by
  intro pre c post heq
  cases pre with
  | nil =>
    rw [List.nil_append, List.cons.injEq, Event.nudged.injEq] at heq
    obtain ⟨rfl, rfl⟩ := heq
    exact h
  | cons e pre =>
    rw [List.cons_append, List.cons.injEq] at heq
    exact absurd (heq.2 ▸ List.mem_append_right _ List.mem_cons_self) (hrest c)

theorem mem_upsert (chatId : String) (queuedAt : ℕ) (rows : List PendingNudge) :
    chatId ∈ (upsert chatId queuedAt rows).map (·.chatId) := by
  unfold upsert
  split_ifs with h
  · obtain ⟨r, hr, hid⟩ := List.mem_map.mp h
    refine List.mem_map.mpr ⟨_, List.mem_map_of_mem hr, ?_⟩
    simp [hid]
  · simp

theorem mem_upsert_of_mem {c : String} (chatId : String) (queuedAt : ℕ)
    {rows : List PendingNudge} (h : c ∈ rows.map (·.chatId)) :
    c ∈ (upsert chatId queuedAt rows).map (·.chatId) := by
  obtain ⟨r, hr, rfl⟩ := List.mem_map.mp h
  unfold upsert
  split_ifs
  · refine List.mem_map.mpr ⟨_, List.mem_map_of_mem hr, ?_⟩
    split_ifs <;> rfl
  · rw [List.map_append]
    exact List.mem_append_left _ (List.mem_map_of_mem hr)

theorem kept_or_evicted {c : String} {rows kept : List PendingNudge}
    (h : c ∈ rows.map (·.chatId)) :
    Event.evicted c ∈ (rows.filter (· ∉ kept)).map (fun r => .evicted r.chatId) ∨
      c ∈ kept.map (·.chatId) := by
  obtain ⟨r, hr, rfl⟩ := List.mem_map.mp h
  by_cases hk : r ∈ kept
  · exact .inr (List.mem_map_of_mem hk)
  · exact .inl (List.mem_map_of_mem (f := fun r : PendingNudge => Event.evicted r.chatId)
      (List.mem_filter.mpr ⟨hr, by simpa using hk⟩))

theorem sent_replayed {order : List PendingNudge} {dies : Option ℕ}
    (h : ∀ n, dies = some n → order.length ≤ n) {c : String} (hc : c ∈ order.map (·.chatId)) :
    .sent c true ∈ replayed order dies := by
  obtain ⟨r, hr, rfl⟩ := List.mem_map.mp hc
  obtain ⟨i, hi, rfl⟩ := List.getElem_of_mem hr
  refine List.mem_mapIdx.mpr ⟨i, hi, ?_⟩
  cases dies with
  | none => rfl
  | some n =>
    have := h n rfl
    simp
    omega

/-- **One step.** -/
theorem neverStranded_step {a : Action} (h : NeverStranded room) (hg : Heard room a)
    (hs : step room a = some room') : NeverStranded room' := by
  cases a with
  | clock now => cases hs; exact h
  | pong id => cases hs; exact h
  | die id => cases hs; exact h
  | gone id => cases hs; exact h
  | join order dies =>
    simp only [step] at hs
    split_ifs at hs with horder
    cases hs
    refine h.append (fun c hc => .inl ?_) (kept_of_none fun c hc => ?_)
    · refine sent_replayed (fun n hn => ?_) ((horder.1.map _).mem_iff.mpr hc)
      rw [horder.1.length_eq]
      exact hg n hn
    · obtain ⟨i, hi, heq⟩ := List.mem_mapIdx.mp hc
      cases heq
  | nudge chatId kept =>
    simp only [step] at hs
    by_cases hvalid : chatIdValid chatId
    · rw [if_pos hvalid] at hs
      split at hs
      · rename_i host hhost
        cases hs
        refine h.append (fun c hc => .inr (.inr hc)) (kept_cons (by simp) ?_)
        rcases hg hvalid host hhost with hhears | hwaits
        · exact .inl (by simp [hhears])
        · exact .inr (.inr hwaits)
      · split_ifs at hs
        cases hs
        refine h.append (fun c hc => .inr ?_) (kept_cons (by simp) (.inr ?_))
        · exact (kept_or_evicted (mem_upsert_of_mem chatId room.now hc)).imp_left
            (List.mem_cons_of_mem _)
        · exact kept_or_evicted (mem_upsert chatId room.now room.pending)
    · rw [if_neg hvalid] at hs
      cases hs; exact h

theorem neverStranded_start : NeverStranded Room.start := kept_nil

/-- **Durable nudges are never stranded**, in every run whose sends are heard. -/
theorem nudges_never_stranded {as : List Action} (hg : Guarded step Heard Room.start as)
    (he : exec step Room.start as = some room) : NeverStranded room :=
  exec_invariant (fun _ _ _ h hg hs => neverStranded_step h hg hs) neverStranded_start
    hg he

end Stranded

/-- A nudge waits for the host, which joins, hears it, and hears the next one. -/
theorem nudges_never_stranded_join :
    let as : List Action := [.nudge "a" [{ chatId := "a", queuedAt := 0 }], .clock 5,
      .join [{ chatId := "a", queuedAt := 0 }] none, .nudge "b" []]
    ∃ room, exec step Room.start as = some room ∧
      room.log = [.nudged "a", .sent "a" true, .nudged "b", .sent "b" true] ∧
      NeverStranded room := by
  have hg : Guarded step Heard Room.start [.nudge "a" [{ chatId := "a", queuedAt := 0 }], .clock 5,
      .join [{ chatId := "a", queuedAt := 0 }] none, .nudge "b" []] :=
    guarded_of_checks (by decide)
  exact ⟨_, rfl, rfl, nudges_never_stranded hg rfl⟩

/-! ## A host that died within the window -/

/-- **The nudge is gone**: it goes to a socket whose host has died, and is not queued. -/
theorem nudge_into_a_corpse : ∃ room,
    exec step Room.start [.join [] none, .die 0, .clock 10, .nudge "a" []] = some room ∧
      ¬NeverStranded room ∧ room.pending = [] ∧ room.log = [.nudged "a", .sent "a" false] := by
  refine ⟨_, rfl, fun h => ?_, rfl, rfl⟩
  have hlost := h [] "a" [.sent "a" false] rfl
  revert hlost
  decide

end Zeron.Peer.Nudge
