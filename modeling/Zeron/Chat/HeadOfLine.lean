import Zeron.Chat.Outbox
import Zeron.Lib.Line

/-!
# A refused batch and the ones behind it

The socket retires a batch the room will never take; the HTTPS loop ends at it, in every cycle. The
socket's quota drain goes on only where an answer re-arms the clock, which a retired batch's does
not.

* `Refused`, `answer_cases`, `handlePush_cases`: what the room never takes, on either transport;
* `httpPush_round`: an HTTPS cycle is a round of the queue;
* `drain_stuck`, `drainRound_round`: the drain, with and without a refused batch ahead;
* **`turn_iff`**: when a pending batch gets its turn on each transport.
-/

namespace Zeron.Chat

/-! ## What the room never takes -/

/-- The room takes it never: its id is malformed, it is empty or over the row cap. -/
def Refused (batch : String × Bytes) : Prop :=
  batch.1 = "" ∨ 128 < utf16Length batch.1 ∨ batch.2.length = 0 ∨ maxRowBytes < batch.2.length

instance (batch : String × Bytes) : Decidable (Refused batch) :=
  inferInstanceAs (Decidable (_ ∨ _ ∨ _ ∨ _))

/-- The quota has room for the batch. -/
def Admits (room : Room) (now : ℕ) (device : String) (batch : String × Bytes) : Prop :=
  (room.admitQuota now device batch.2.length).2 = true

theorem appendRow_ok (log : Log) (device : String) {batch : String × Bytes}
    (h : ¬ Refused batch) :
    ∃ log' seq dup, log.appendRow device batch.1 batch.2 = (log', .ok seq dup) := by
  have hpos : ¬ batch.2.length = 0 := fun h0 => h (.inr (.inr (.inl h0)))
  have hle : ¬ maxRowBytes < batch.2.length := fun hlt => h (.inr (.inr (.inr hlt)))
  rw [Log.appendRow, if_neg hpos, if_neg hle]
  cases log.rows.find? (·.batchId = batch.1) with
  | none => exact ⟨_, _, _, rfl⟩
  | some row => exact ⟨_, _, _, rfl⟩

theorem appendRow_error (log : Log) (device : String) {batch : String × Bytes}
    (h : batch.2.length = 0 ∨ maxRowBytes < batch.2.length) :
    ∃ e, log.appendRow device batch.1 batch.2 = (log, .error e) := by
  by_cases h0 : batch.2.length = 0
  · exact ⟨.empty, by rw [Log.appendRow, if_pos h0]⟩
  · exact ⟨.tooLarge, by rw [Log.appendRow, if_neg h0, if_pos (h.resolve_left h0)]⟩

/-- **What a `POST /rows` is answered with.** -/
theorem answer_cases (d : Client.Delivery) (device : String) (batch : String × Bytes) :
    (¬ Refused batch ∧ Admits d.room d.now device batch ∧
        ∃ seq dup, d.answer device batch.1 batch.2 = .ok batch.1 seq dup) ∨
      ((Refused batch ∨ ¬ Admits d.room d.now device batch) ∧
        ∃ status error, d.answer device batch.1 batch.2 = .error status error) := by
  rw [Client.Delivery.answer, Room.postRows]
  by_cases hid : batch.1 = "" ∨ 128 < utf16Length batch.1
  · rw [if_pos hid]
    exact .inr ⟨.inl (hid.imp_right .inl), _, _, rfl⟩
  · rw [if_neg hid]
    by_cases hdeclared : maxRowBytes + 4096 < batch.2.length
    · rw [if_pos hdeclared]
      have hlarge : maxRowBytes < batch.2.length := (Nat.le_add_right _ _).trans_lt hdeclared
      exact .inr ⟨.inl (.inr (.inr (.inr hlarge))), _, _, rfl⟩
    · rw [if_neg hdeclared]
      by_cases hgrant : (d.room.admitQuota d.now device batch.2.length).2 = true
      · by_cases hsize : batch.2.length = 0 ∨ maxRowBytes < batch.2.length
        · obtain ⟨e, he⟩ := appendRow_error
            d.room.log device hsize
          exact .inr ⟨.inl (.inr (.inr hsize)), _, _, by simp [hgrant, he]; exact ⟨rfl, rfl⟩⟩
        · have hok : ¬ Refused batch := by
            rw [Refused, ← or_assoc, not_or]
            exact ⟨hid, hsize⟩
          obtain ⟨log', seq, dup, hlog⟩ := appendRow_ok
            d.room.log device hok
          exact .inl ⟨hok, hgrant, seq, dup, by simp [hgrant, hlog]⟩
      · exact .inr ⟨.inr hgrant, 429, "quota", by simp [hgrant]⟩

/-- **What a push on a socket is answered with.** -/
theorem handlePush_cases (room : Room) (now : ℕ) (device : String) (batch : String × Bytes) :
    (¬ Refused batch ∧ Admits room now device batch ∧
        ∃ seq dup, (room.handlePush now true device batch.1 batch.2).2.1 = .ack batch.1 seq dup) ∨
      (¬ Admits room now device batch ∧ ∃ message,
        (room.handlePush now true device batch.1 batch.2).2.1 =
          .error "quota" message batch.1) ∨
      (Refused batch ∧ ∃ code message, Client.permanent code = true ∧
        (room.handlePush now true device batch.1 batch.2).2.1 = .error code message batch.1) := by
  rw [Room.handlePush]
  by_cases hid : batch.1 = "" ∨ 128 < utf16Length batch.1
  · rw [if_pos (.inr hid)]
    exact .inr (.inr ⟨hid.imp_right .inl, "bad_push", _, by decide, rfl⟩)
  · rw [if_neg (by simpa using hid)]
    by_cases hgrant : (room.admitQuota now device batch.2.length).2 = true
    · by_cases hsize : batch.2.length = 0 ∨ maxRowBytes < batch.2.length
      · obtain ⟨e, he⟩ := appendRow_error
          room.log device hsize
        refine .inr (.inr ⟨.inr (.inr hsize), e.code, "push rejected: " ++ e.code, ?_, ?_⟩)
        · cases e <;> decide
        · simp [hgrant, he]
      · have hok : ¬ Refused batch := by
          rw [Refused, ← or_assoc, not_or]
          exact ⟨hid, hsize⟩
        obtain ⟨log', seq, dup, hlog⟩ := appendRow_ok
          room.log device hok
        exact .inl ⟨hok, hgrant, seq, dup, by simp [hgrant, hlog]⟩
    · exact .inr (.inl ⟨hgrant, _, by simp [hgrant]; rfl⟩)

/-! ## The HTTPS loop -/

namespace Client

open Line (Verdict)

/-- The ids of a queue differ. -/
def DistinctIds (client : Client) : Prop := (client.shared.pending.map (·.batchId)).Nodup

/-- The queue, as batches. -/
def batches (client : Client) : List (String × Bytes) := client.shared.pending.map (·.batch)

/-- What a batch meets in a cycle. -/
def Delivery.verdict (d : Delivery) (device : String) (push : PendingPush) : Verdict :=
  if push.durable || d.stored then
    match d.read device push.batchId push.bytes with
    | some (.ok _ _ _) => if d.acked then .leaves else .stays
    | _ => .stops
  else .waits

section Split

variable {client : Client} {kept rest : List PendingPush} {push : PendingPush}

theorem ids_ne (hids : client.DistinctIds) (hp : client.shared.pending = kept ++ push :: rest) :
    (∀ x ∈ kept, x.batchId ≠ push.batchId) ∧ ∀ x ∈ rest, x.batchId ≠ push.batchId := by
  rw [DistinctIds, hp, List.map_append, List.map_cons, List.nodup_append'] at hids
  obtain ⟨-, hrest, hdisj⟩ := hids
  exact ⟨fun x hx h => hdisj (List.mem_map_of_mem hx) (h ▸ List.mem_cons_self),
    fun x hx h => (List.nodup_cons.mp hrest).1 (h ▸ List.mem_map_of_mem hx)⟩

theorem find_split (hids : client.DistinctIds)
    (hp : client.shared.pending = kept ++ push :: rest) :
    client.shared.pending.find? (·.batchId = push.batchId) = some push := by
  rw [hp, List.find?_append, List.find?_eq_none.mpr (by simpa using (ids_ne hids hp).1)]
  simp

theorem markDurable_split (hids : client.DistinctIds)
    (hp : client.shared.pending = kept ++ push :: rest) :
    (client.markDurable push.batchId).shared.pending =
      kept ++ { push with durable := true } :: rest := by
  have hmark : ∀ l : List PendingPush, (∀ x ∈ l, x.batchId ≠ push.batchId) →
      l.map (fun x => if x.batchId = push.batchId then { x with durable := true } else x) = l :=
    fun l hl => (List.map_congr_left fun x hx => if_neg (hl x hx)).trans l.map_id
  obtain ⟨hkept, hrest⟩ := ids_ne hids hp
  change client.shared.pending.map _ = _
  rw [hp, List.map_append, List.map_cons, hmark kept hkept, hmark rest hrest, if_pos rfl]

theorem retain_split (hids : client.DistinctIds)
    (hp : client.shared.pending = kept ++ push :: rest) :
    client.shared.pending.filter (·.batchId ≠ push.batchId) = kept ++ rest := by
  obtain ⟨hkept, hrest⟩ := ids_ne hids hp
  rw [hp, List.filter_append, List.filter_cons_of_neg (by simp),
    List.filter_eq_self.mpr (by simpa using hkept), List.filter_eq_self.mpr (by simpa using hrest)]

theorem ensureDurable_split (hids : client.DistinctIds)
    (hp : client.shared.pending = kept ++ push :: rest) (stored : Bool) :
    ((push.durable || stored) = true ∧ (client.ensureDurable stored push).2 = true ∧
        (client.ensureDurable stored push).1.shared.pending =
          kept ++ { push with durable := true } :: rest) ∨
      ((push.durable || stored) = false ∧ client.ensureDurable stored push = (client, false)) := by
  cases hd : push.durable with
  | true =>
    refine .inl ⟨rfl, by simp [ensureDurable, hd], ?_⟩
    rw [ensureDurable, if_pos hd, hp, ← hd]
  | false =>
    have hfind := find_split hids hp
    cases stored with
    | false => exact .inr ⟨rfl, by simp [ensureDurable, hd, hfind]⟩
    | true =>
      refine .inl ⟨rfl, by simp [ensureDurable, hd, hfind], ?_⟩
      have hmark := @markDurable_split (client.persistUpdate true push.batchId push.bytes) _ _ _
        hids hp
      simpa [ensureDurable, hd, hfind] using hmark

end Split

theorem Delivery.read_ok {d : Delivery} {device batchId id : String} {bytes : Bytes} {seq : ℕ}
    {dup : Bool} (h : d.read device batchId bytes = some (.ok id seq dup)) : id = batchId := by
  rw [read] at h
  split_ifs at h
  rcases answer_cases d device (batchId, bytes) with ⟨-, -, seq', dup', hok⟩ | ⟨-, status, e, herr⟩
  · rw [hok] at h
    injection h with h
    injection h with h
    exact h.symm
  · rw [herr] at h
    cases h

attribute [local simp] batches in
/-- **An HTTPS cycle is a round of the queue.** -/
theorem httpPush_round {device : String} {deliver : String → Delivery}
    {v : String × Bytes → Verdict} {pushes : List PendingPush}
    (hv : ∀ push ∈ pushes, v push.batch = (deliver push.batchId).verdict device push)
    {client : Client} (hids : client.DistinctIds) {kept : List PendingPush}
    (hp : client.shared.pending = kept ++ pushes) :
    (client.httpPush device deliver pushes).2.map (·.batch) =
        (Line.round v pushes.length (pushes.map (·.batch))).1 ∧
      (client.httpPush device deliver pushes).1.batches =
        kept.map (·.batch) ++ (Line.round v pushes.length (pushes.map (·.batch))).2 := by
  induction pushes generalizing client kept with
  | nil => exact ⟨rfl, by simp [httpPush, batches, hp, Line.round]⟩
  | cons push pushes ih =>
    have hpush := hv push List.mem_cons_self
    rw [httpPush, List.length_cons, List.map_cons, Line.round]
    rcases ensureDurable_split hids hp (deliver push.batchId).stored with
      ⟨hdurable, halive, hp'⟩ | ⟨hdurable, hwait⟩
    · generalize client.ensureDurable (deliver push.batchId).stored push = out at halive hp'
      obtain ⟨next, alive⟩ := out
      obtain rfl : alive = true := halive
      change next.shared.pending = _ at hp'
      have hids' : next.DistinctIds := by
        rw [DistinctIds, hp] at hids
        rw [DistinctIds, hp']
        simpa using hids
      rw [Delivery.verdict, if_pos hdurable] at hpush
      dsimp only
      cases hread : (deliver push.batchId).read device push.batchId push.bytes with
      | none =>
        rw [hread] at hpush
        rw [hpush]
        exact ⟨rfl, by simp [batches, hp', PendingPush.batch]⟩
      | some answer =>
        cases answer with
        | error status error =>
          rw [hread] at hpush
          rw [hpush]
          exact ⟨rfl, by simp [batches, hp', PendingPush.batch]⟩
        | ok id seq dup =>
          obtain rfl : id = push.batchId := Delivery.read_ok hread
          rw [hread] at hpush
          dsimp only at hpush ⊢
          have hrest : ∀ p ∈ pushes,
              v p.batch = (deliver p.batchId).verdict device p := fun p hp =>
            hv p (List.mem_cons_of_mem _ hp)
          have hpending := pending_httpAck next (deliver push.batchId).acked push.batchId seq
          cases hacked : (deliver push.batchId).acked with
          | true =>
            rw [hacked] at hpush hpending
            rw [if_pos rfl, @retain_split _ _ _ { push with durable := true } hids' hp'] at hpending
            have hnext : (next.httpAck true push.batchId seq).DistinctIds := by
              rw [DistinctIds, hpending]
              exact hids'.sublist (hp' ▸ ((List.sublist_cons_self _ _).append_left kept).map _)
            obtain ⟨hsent, hleft⟩ := ih hrest hnext hpending
            rw [hpush, if_pos rfl]
            exact ⟨congrArg (push.batch :: ·) hsent, hleft⟩
          | false =>
            rw [hacked] at hpush hpending
            rw [if_neg Bool.false_ne_true, hp'] at hpending
            have hnext : (next.httpAck false push.batchId seq).DistinctIds := by
              rw [DistinctIds, hpending, ← hp']
              exact hids'
            have hsplit : (next.httpAck false push.batchId seq).shared.pending =
                (kept ++ [{ push with durable := true }]) ++ pushes := by
              rw [hpending]
              simp
            obtain ⟨hsent, hleft⟩ := ih hrest hnext hsplit
            rw [hpush, if_neg Bool.false_ne_true]
            refine ⟨congrArg (push.batch :: ·) hsent, hleft.trans ?_⟩
            rw [List.map_append, List.map_singleton, List.append_assoc, List.singleton_append]
            rfl
    · have hwaits : v push.batch = .waits := by
        rw [hpush, Delivery.verdict, hdurable]
        rfl
      rw [hwait, hwaits]
      exact ⟨rfl, by simp [batches, hp]⟩

/-! ### Runs of cycles -/

/-- What the app hands a client, and whether the store takes the update and its rejection. -/
structure Update where
  batchId : String
  bytes : Bytes
  stored : Bool
  rejected : Bool
  deriving DecidableEq

def enqueueAll (client : Client) (updates : List Update) : Client :=
  updates.foldl (fun client u => client.enqueueBatch u.stored u.rejected u.batchId u.bytes) client

theorem enqueueAll_shared {client : Client} (hids : client.DistinctIds) (updates : List Update) :
    (client.enqueueAll updates).DistinctIds ∧
      (∃ fresh, (client.enqueueAll updates).batches = client.batches ++ fresh) ∧
      (client.enqueueAll updates).shared =
        { client.shared with pending := (client.enqueueAll updates).shared.pending } := by
  induction updates generalizing client with
  | nil => exact ⟨hids, ⟨[], (List.append_nil _).symm⟩, rfl⟩
  | cons u updates ih =>
    rcases enqueueBatch_shared client u.stored u.rejected u.batchId u.bytes with h | ⟨hnew, h⟩
    · obtain ⟨hdistinct, ⟨fresh, hfresh⟩, hrest⟩ := ih (show DistinctIds _ by rwa [DistinctIds, h])
      refine ⟨hdistinct, ⟨fresh, hfresh.trans (by rw [batches, h, batches])⟩, hrest.trans ?_⟩
      rw [h]
      rfl
    · have hids' : (client.enqueueBatch u.stored u.rejected u.batchId u.bytes).DistinctIds := by
        rw [DistinctIds, h]
        simpa [List.nodup_append', DistinctIds] using ⟨hids, hnew⟩
      obtain ⟨hdistinct, ⟨fresh, hfresh⟩, hrest⟩ := ih hids'
      refine ⟨hdistinct, ⟨(u.batchId, u.bytes) :: fresh, hfresh.trans ?_⟩, hrest.trans ?_⟩
      · rw [batches, h, batches]
        simp [PendingPush.batch]
      · rw [h]
        rfl

/-- The client before each HTTPS cycle. -/
def httpRun (client : Client) (device : String) (deliver : ℕ → String → Delivery)
    (updates : ℕ → List Update) : ℕ → Client
  | 0 => client
  | k + 1 =>
    ((client.httpRun device deliver updates k).httpCycle device (deliver k)).1.enqueueAll
      (updates k)

/-- The batches each cycle sends. -/
def httpSent (client : Client) (device : String) (deliver : ℕ → String → Delivery)
    (updates : ℕ → List Update) (k : ℕ) : List (String × Bytes) :=
  ((client.httpRun device deliver updates k).httpCycle device (deliver k)).2.map (·.batch)

/-- The room takes the batch, and the client learns it and notes it. -/
structure Delivery.Good (d : Delivery) (device : String) (batch : String × Bytes) : Prop where
  arrives : d.arrives = true
  returns : d.returns = true
  stored : d.stored = true
  acked : d.acked = true
  admits : Admits d.room d.now device batch

theorem Delivery.verdict_refused (d : Delivery) (device : String) {push : PendingPush}
    (h : Refused push.batch) : d.verdict device push = .stops ∨ d.verdict device push = .waits := by
  by_cases hd : (push.durable || d.stored) = true
  · left
    rw [verdict, if_pos hd, read]
    rcases answer_cases d device push.batch with ⟨hok, -⟩ | ⟨-, status, error, herror⟩
    · exact absurd h hok
    · change d.answer device push.batchId push.bytes = _ at herror
      rw [herror]
      split_ifs <;> rfl
  · exact .inr (if_neg hd)

theorem Delivery.verdict_ne_waits {d : Delivery} (h : d.stored = true) (device : String)
    (push : PendingPush) : d.verdict device push ≠ .waits := by
  rw [verdict, h, Bool.or_true, if_pos rfl]
  split
  · split_ifs <;> decide
  · decide

theorem Delivery.verdict_good {d : Delivery} {device : String} {push : PendingPush}
    (hgood : d.Good device push.batch) (h : ¬ Refused push.batch) :
    d.verdict device push = .leaves := by
  rw [verdict, hgood.stored, Bool.or_true, if_pos rfl, read, hgood.arrives, hgood.returns]
  rcases answer_cases d device push.batch with ⟨-, -, seq, dup, hok⟩ | ⟨hnot, -⟩
  · change d.answer device push.batchId push.bytes = _ at hok
    rw [hok, hgood.acked]
    rfl
  · exact absurd hnot (by simp [h, hgood.admits])

/-- What a batch of the queue meets in a cycle. -/
def verdict (client : Client) (device : String) (deliver : String → Delivery)
    (batch : String × Bytes) : Verdict :=
  ((client.shared.pending.find? (·.batch = batch)).map fun push =>
    (deliver push.batchId).verdict device push).getD .waits

attribute [local simp] verdict in
theorem verdict_of_mem {client : Client} (hids : client.DistinctIds) (device : String)
    (deliver : String → Delivery) {push : PendingPush} (hp : push ∈ client.shared.pending) :
    client.verdict device deliver push.batch = (deliver push.batchId).verdict device push := by
  rw [verdict]
  cases hfind : client.shared.pending.find? (·.batch = push.batch) with
  | none => simpa using List.find?_eq_none.mp hfind push hp
  | some found =>
    have hbatch : found.batch = push.batch := by simpa using List.find?_some hfind
    have hsame : found = push := List.inj_on_of_nodup_map hids (List.mem_of_find?_eq_some hfind) hp
      (congrArg Prod.fst hbatch)
    rw [hsame]
    rfl

section HttpRun

variable {client : Client} {device : String} {deliver : ℕ → String → Delivery}
  {updates : ℕ → List Update}

theorem httpCycle_round {client : Client} (hids : client.DistinctIds)
    (deliver : String → Delivery) :
    (client.httpCycle device deliver).2.map (·.batch) =
        (Line.round (client.verdict device deliver) client.batches.length client.batches).1 ∧
      (client.httpCycle device deliver).1.batches =
        (Line.round (client.verdict device deliver) client.batches.length client.batches).2 := by
  have hsplit : client.shared.pending = [] ++ client.shared.pending := rfl
  have h := httpPush_round (fun push hp => verdict_of_mem hids device deliver hp) hids hsplit
  rw [batches, List.length_map]
  exact h

theorem distinctIds_iff (client : Client) :
    client.DistinctIds ↔ (client.batches.map Prod.fst).Nodup := by
  rw [DistinctIds, batches, List.map_map]
  exact Iff.rfl

theorem distinctIds_httpRun (hids : client.DistinctIds) (k : ℕ) :
    (client.httpRun device deliver updates k).DistinctIds := by
  induction k with
  | zero => exact hids
  | succ k ih =>
    refine (enqueueAll_shared ?_ _).1
    rw [distinctIds_iff, (httpCycle_round ih (deliver k)).2]
    rw [distinctIds_iff] at ih
    exact ih.sublist ((Line.round_sublist _ _ _).map _)

theorem httpRun_steps (hids : client.DistinctIds) :
    Line.Steps (fun k => (client.httpRun device deliver updates k).verdict device (deliver k))
      (fun k => (client.httpRun device deliver updates k).batches.length)
      (fun k => (client.httpRun device deliver updates k).batches) := by
  intro k
  have hdistinct : (client.httpRun device deliver updates k).DistinctIds :=
    distinctIds_httpRun hids k
  have hround := @httpCycle_round device _ hdistinct (deliver k)
  have hids' : ((client.httpRun device deliver updates k).httpCycle device
      (deliver k)).1.DistinctIds := by
    rw [distinctIds_iff, hround.2]
    exact ((distinctIds_iff _).mp (distinctIds_httpRun hids k)).sublist
      ((Line.round_sublist _ _ _).map _)
  obtain ⟨-, ⟨fresh, hfresh⟩, -⟩ := enqueueAll_shared hids' (updates k)
  exact ⟨fresh, by rw [← hround.2]; exact hfresh⟩

/-- **A batch gets its turn over HTTPS exactly when none before it is refused.** -/
theorem httpSent_iff (hids : client.DistinctIds) {pre post : List (String × Bytes)}
    {b : String × Bytes} (hq : client.batches = pre ++ b :: post)
    (hgood : ∀ batch j, ∃ i ≥ j,
      (client.httpRun device deliver updates i).batches.head? = some batch →
        (deliver i batch.1).Good device batch) :
    (∃ k, b ∈ client.httpSent device deliver updates k) ↔ ∀ r ∈ pre, ¬ Refused r := by
  have hids' : ∀ k, (client.httpRun device deliver updates k).DistinctIds :=
    distinctIds_httpRun hids
  have hhead : ∀ {i : ℕ} {a : String × Bytes},
      (client.httpRun device deliver updates i).batches.head? = some a →
      ∃ push, push.batch = a ∧
        (client.httpRun device deliver updates i).verdict device (deliver i) a =
          (deliver i push.batchId).verdict device push := by
    intro i a ha
    obtain ⟨push, hpush, hbatch⟩ := List.mem_map.mp (List.mem_of_mem_head? ha)
    exact ⟨push, hbatch, hbatch ▸ verdict_of_mem (hids' i) device (deliver i) hpush⟩
  have hsent : ∀ k, client.httpSent device deliver updates k =
      Line.offered (fun k => (client.httpRun device deliver updates k).verdict device (deliver k))
        (fun k => (client.httpRun device deliver updates k).batches.length)
        (fun k => (client.httpRun device deliver updates k).batches) k := fun k =>
    (httpCycle_round (hids' k) (deliver k)).1
  simp only [hsent]
  refine Line.offered_iff (httpRun_steps hids) (fun k hne => List.length_pos_iff.mpr hne) hq ?_
    (fun a ha k => ?_) (fun a _ ha j => ?_) (fun j => ?_)
  · have hnodup := (distinctIds_iff client).mp hids
    rw [hq, List.map_append, List.map_cons, List.nodup_append'] at hnodup
    exact fun hb => hnodup.2.2 (List.mem_map_of_mem hb) List.mem_cons_self
  · dsimp only [verdict]
    cases hfind : (client.httpRun device deliver updates k).shared.pending.find? (·.batch = a) with
    | none => exact .inr rfl
    | some push =>
      have hbatch : push.batch = a := by simpa using List.find?_some hfind
      exact (deliver k push.batchId).verdict_refused device (hbatch ▸ ha)
  · obtain ⟨i, hji, hi⟩ := hgood a j
    refine ⟨i, hji, fun h => ?_⟩
    obtain ⟨push, rfl, hv⟩ := hhead h
    exact hv.trans (Delivery.verdict_good (hi h) ha)
  · obtain ⟨i, hji, hi⟩ := hgood b j
    refine ⟨i, hji, fun h => ?_⟩
    obtain ⟨push, rfl, hv⟩ := hhead h
    rw [hv]
    exact Delivery.verdict_ne_waits (hi h).stored device push

end HttpRun

/-! ## The socket -/

theorem ensureDurable_true (client : Client) (push : PendingPush) :
    (client.ensureDurable true push).2 = true := by
  rw [ensureDurable]
  by_cases hd : push.durable = true
  · rw [if_pos hd]
  · rw [if_neg hd]
    cases client.shared.pending.find? (·.batchId = push.batchId) with
    | none => rfl
    | some found => cases h : found.durable <;> simp [h]

theorem pushEach_batches (client : Client) (inFlight : List String) (pushes : List PendingPush) :
    (client.pushEach (fun _ => true) (fun _ => true) inFlight pushes).batches = pushes := by
  induction pushes generalizing client inFlight with
  | nil => rfl
  | cons push pushes ih =>
    have h := ensureDurable_true client push
    rw [pushEach]
    generalize client.ensureDurable true push = out at h
    obtain ⟨next, alive⟩ := out
    obtain rfl : alive = true := h
    exact congrArg (push :: ·) (ih next (push.batchId :: inFlight))

/-- **Without a quota the socket sends every batch at once.** -/
theorem pushPending_sends {client : Client} (h : client.shared.quotaBlocked = false)
    (inFlight : List String) {push : PendingPush} (hp : push ∈ client.shared.pending) :
    push ∈ (client.pushPending (fun _ => true) (fun _ => true) inFlight).batches ∨
      push.batchId ∈ inFlight := by
  by_cases hin : push.batchId ∈ inFlight
  · exact .inr hin
  · left
    rw [pushPending, if_neg (by simp [h]), pushEach_batches, List.mem_filter]
    exact ⟨hp, by simp [hin]⟩

/-- How a tick of the retry clock and the answer to it go: whether the store and the socket take
the push, the room as it finds it and its clock, and whether the store takes the answer. -/
structure Exchange where
  room : Room
  now : ℕ
  stored : Bool
  sends : Bool
  acked : Bool
  deriving DecidableEq

/-- One tick, if the clock is armed, and the answer to its push. Under a quota no push goes out but
by a tick, and the clock is cleared before the push: no tick comes before the answer. -/
def drainRound (client : Client) (device : String) (x : Exchange) : Client × List PendingPush :=
  if client.shared.retryAt then
    match client.pushHead (fun _ => x.stored) (fun _ => x.sends) with
    | (client, some push, _) =>
      ((client.handleAnswer x.acked
        (x.room.handlePush x.now true device push.batchId push.bytes).2.1).1, [push])
    | (client, none, _) => (client, [])
  else (client, [])

/-- What a tick over a queue does. -/
inductive Drained (client : Client) (device : String) (x : Exchange) (push : PendingPush)
    (rest : List PendingPush) : Client × List PendingPush → Prop where
  /-- The session ends, and the clock is left cleared. -/
  | ended (out : Client) (hwrite : ¬ (x.stored = true ∧ x.sends = true))
      (hclock : out.shared.retryAt = false) : Drained client device x push rest (out, [])
  /-- The room refuses the batch for good, and the clock is left cleared. -/
  | refused (out : Client) (hrefused : Refused push.batch)
      (hclock : out.shared.retryAt = false) : Drained client device x push rest (out, [push])
  /-- The batch stays, and the clock is armed. -/
  | kept (out : Client) (hnot : ¬ (Admits x.room x.now device push.batch ∧ x.acked = true))
      (hq : out.batches = client.batches) (hclock : out.shared.retryAt = true)
      (hblocked : out.shared.quotaBlocked = true) :
      Drained client device x push rest (out, [push])
  /-- The batch is taken, and the clock is armed for the next. -/
  | taken (out : Client) (hok : ¬ Refused push.batch)
      (hgrant : Admits x.room x.now device push.batch) (hacked : x.acked = true)
      (hq : out.batches = rest.map (·.batch))
      (hclock : rest ≠ [] → out.shared.retryAt = true ∧ out.shared.quotaBlocked = true) :
      Drained client device x push rest (out, [push])

theorem handleAck_true {client : Client} (hblocked : client.shared.quotaBlocked = true)
    (batchId : String) (seq : ℕ) :
    (client.handleAck true batchId seq).shared.pending =
        client.shared.pending.filter (·.batchId ≠ batchId) ∧
      ((client.handleAck true batchId seq).shared.pending ≠ [] →
        (client.handleAck true batchId seq).shared.retryAt = true ∧
        (client.handleAck true batchId seq).shared.quotaBlocked = true) := by
  rw [handleAck, if_pos rfl]
  dsimp only
  split_ifs with hgap h1 h2 h1 h2
  · exact ⟨rfl, fun hne => absurd (List.isEmpty_iff.mp h2) hne⟩
  · exact ⟨rfl, fun _ => ⟨rfl, hblocked⟩⟩
  · exact absurd hblocked h1
  · exact ⟨rfl, fun hne => absurd (List.isEmpty_iff.mp h2) hne⟩
  · exact ⟨rfl, fun _ => ⟨rfl, hblocked⟩⟩
  · exact absurd hblocked h1

theorem handleAck_false {client : Client} (hblocked : client.shared.quotaBlocked = true)
    (hpending : client.shared.pending ≠ []) (batchId : String) (seq : ℕ) :
    (client.handleAck false batchId seq).shared.pending = client.shared.pending ∧
      (client.handleAck false batchId seq).shared.retryAt = true ∧
      (client.handleAck false batchId seq).shared.quotaBlocked = true := by
  have hne : client.shared.pending.isEmpty = false := by simpa using hpending
  by_cases hgap : client.shared.cursor + 1 < seq
  · simp [handleAck, hgap, hblocked, hne]
  · simp [handleAck, hgap, hblocked, hne]

/-- **Every outcome of a tick.** -/
theorem drainRound_cases {client : Client} (hids : client.DistinctIds)
    (hblocked : client.shared.quotaBlocked = true) (harmed : client.shared.retryAt = true)
    {push : PendingPush} {rest : List PendingPush} (hp : client.shared.pending = push :: rest)
    (device : String) (x : Exchange) :
    Drained client device x push rest (client.drainRound device x) := by
  have hhead : client.clearRetry.shared.pending.head? = some push := by
    rw [clearRetry, hp, List.head?_cons]
  rw [drainRound, if_pos harmed, pushHead, hhead]
  dsimp only
  have hshared := ensureDurable_shared client.clearRetry x.stored push
  have hcids : client.clearRetry.DistinctIds := hids
  have hcp : client.clearRetry.shared.pending = [] ++ push :: rest := hp
  have hclock : (client.clearRetry.ensureDurable x.stored push).1.shared.retryAt = false := by
    rw [hshared]
    rfl
  have hquota : (client.clearRetry.ensureDurable x.stored push).1.shared.quotaBlocked = true := by
    rw [hshared]
    exact hblocked
  rcases ensureDurable_split hcids hcp x.stored with ⟨-, halive, hpending⟩ | ⟨hdurable, hended⟩
  · generalize client.clearRetry.ensureDurable x.stored push = out at halive hpending hclock hquota
    obtain ⟨next, alive⟩ := out
    obtain rfl : alive = true := halive
    dsimp only at hpending hclock hquota ⊢
    rw [List.nil_append] at hpending
    have hnids : next.DistinctIds := by
      rw [DistinctIds, hcp] at hcids
      rw [DistinctIds, hpending]
      exact hcids
    have hbatches : next.batches = client.batches := by
      rw [batches, hpending, batches, hp]
      rfl
    cases hsends : x.sends with
    | false => exact .ended next (fun h => Bool.false_ne_true (hsends.symm.trans h.2)) hclock
    | true =>
      rw [if_pos rfl]
      dsimp only
      rcases handlePush_cases x.room x.now device push.batch with
        ⟨hok, hgrant, seq, dup, hanswer⟩ | ⟨hnot, message, hanswer⟩ |
          ⟨hrefused, code, message, hcode, hanswer⟩
      · change (x.room.handlePush x.now true device push.batchId push.bytes).2.1 = _ at hanswer
        rw [hanswer, handleAnswer]
        cases hacked : x.acked with
        | true =>
          obtain ⟨hleft, hclock'⟩ := handleAck_true hquota push.batchId seq
          have hrest := @retain_split _ [] _ { push with durable := true } hnids hpending
          have hrest' : (next.handleAck true push.batchId seq).shared.pending = rest :=
            hleft.trans hrest
          refine .taken _ hok hgrant hacked (congrArg (List.map _) hrest') fun hne => hclock' ?_
          rwa [hrest']
        | false =>
          obtain ⟨hsame, hclock', hblocked'⟩ := handleAck_false hquota
            (by rw [hpending]; exact List.cons_ne_nil _ _) push.batchId seq
          refine .kept _ (by simp [hacked]) ?_ hclock' hblocked'
          rw [← hbatches]
          exact congrArg (List.map _) hsame
      · change (x.room.handlePush x.now true device push.batchId push.bytes).2.1 = _ at hanswer
        rw [hanswer, handleAnswer, handleError, if_neg (by simp [permanent]), if_pos rfl]
        exact .kept _ (fun h => hnot h.1) hbatches rfl rfl
      · change (x.room.handlePush x.now true device push.batchId push.bytes).2.1 = _ at hanswer
        rw [hanswer, handleAnswer, handleError]
        refine .refused _ hrefused ?_
        split_ifs with hid hstored hquotaCode
        · exact hclock
        · exact hclock
        · rw [hquotaCode] at hcode
          exact absurd hcode (by decide)
        · exact hclock
  · rw [hended] at hclock ⊢
    refine .ended _ (fun h => ?_) hclock
    rw [h.1, Bool.or_true] at hdurable
    exact absurd hdurable (by decide)

/-! ### Runs of ticks -/

/-- The client before each tick. -/
def drainRun (client : Client) (device : String) (x : ℕ → Exchange)
    (updates : ℕ → List Update) : ℕ → Client
  | 0 => client
  | k + 1 =>
    ((client.drainRun device x updates k).drainRound device (x k)).1.enqueueAll (updates k)

/-- What each tick sends. -/
def drainSent (client : Client) (device : String) (x : ℕ → Exchange)
    (updates : ℕ → List Update) (k : ℕ) : List (String × Bytes) :=
  ((client.drainRun device x updates k).drainRound device (x k)).2.map (·.batch)

/-- The clock is cleared, and nothing will arm it. -/
def Stuck (client : Client) : Prop := client.shared.retryAt = false

/-- The drain goes on: the queue is blocked, the clock armed. -/
structure Draining (client : Client) : Prop where
  ids : client.DistinctIds
  blocked : client.shared.quotaBlocked = true
  armed : client.shared.retryAt = true

theorem stuck_enqueueAll {client : Client} (h : client.Stuck) (updates : List Update) :
    (client.enqueueAll updates).Stuck := by
  have henqueue : ∀ (client : Client) (u : Update), client.Stuck →
      (client.enqueueBatch u.stored u.rejected u.batchId u.bytes).Stuck := by
    intro client u h
    rcases enqueueBatch_shared client u.stored u.rejected u.batchId u.bytes with hs | ⟨-, hs⟩
    · rwa [Stuck, hs]
    · rw [Stuck, hs]
      exact h
  induction updates generalizing client with
  | nil => exact h
  | cons u updates ih => exact ih (henqueue client u h)

theorem draining_enqueueAll {client : Client} (h : client.Draining) (updates : List Update) :
    (client.enqueueAll updates).Draining ∧
      ∃ fresh, (client.enqueueAll updates).batches = client.batches ++ fresh := by
  obtain ⟨hids, hfresh, hshared⟩ := enqueueAll_shared h.ids updates
  refine ⟨⟨hids, ?_, ?_⟩, hfresh⟩
  · rw [hshared]
    exact h.blocked
  · rw [hshared]
    exact h.armed

/-- A tick over a queue that is being drained. -/
theorem drainRound_step {client : Client} (h : client.Draining) {a : String × Bytes}
    {rest : List (String × Bytes)} (hq : client.batches = a :: rest)
    (hrest : rest ≠ [] ∨ Refused a) (device : String) (x : Exchange) :
    (∀ c ∈ (client.drainRound device x).2, c.batch = a) ∧
      ((client.drainRound device x).1.Stuck ∧
          (¬ (x.stored = true ∧ x.sends = true) ∨ Refused a) ∨
        (client.drainRound device x).1.Draining ∧
          (((client.drainRound device x).1.batches = a :: rest ∧
              ¬ (Admits x.room x.now device a ∧ x.acked = true)) ∨
            ((client.drainRound device x).1.batches = rest ∧ ¬ Refused a ∧
              Admits x.room x.now device a ∧ x.acked = true))) := by
  rw [batches] at hq
  obtain ⟨push, pushes, hp, hbatch, hpushes⟩ := List.map_eq_cons_iff.mp hq
  subst hbatch hpushes
  have hcases := drainRound_cases h.ids h.blocked h.armed hp device x
  have hids := (distinctIds_iff client).mp h.ids
  rw [batches, hq] at hids
  generalize client.drainRound device x = out at hcases
  cases hcases with
  | ended out hwrite hclock => exact ⟨by simp, .inl ⟨hclock, .inl hwrite⟩⟩
  | refused out hrefused hclock => exact ⟨by simp, .inl ⟨hclock, .inr hrefused⟩⟩
  | kept out hnot hsame hclock hblocked =>
    have hbatches : out.batches = push.batch :: pushes.map (·.batch) := hsame.trans hq
    refine ⟨by simp, .inr ⟨⟨?_, hblocked, hclock⟩, .inl ⟨hbatches, hnot⟩⟩⟩
    rw [distinctIds_iff, hbatches]
    exact hids
  | taken out hok hgrant hacked hleft hclock =>
    obtain ⟨hclock', hblocked⟩ := hclock fun h0 =>
      hrest.elim (fun hne => hne (by rw [h0, List.map_nil])) hok
    refine ⟨by simp, .inr ⟨⟨?_, hblocked, hclock'⟩, .inr ⟨hleft, hok, hgrant, hacked⟩⟩⟩
    rw [distinctIds_iff, hleft]
    exact (List.nodup_cons.mp hids).2

section DrainRun

variable {client : Client} {device : String} {x : ℕ → Exchange} {updates : ℕ → List Update}
  {pre post : List (String × Bytes)} {b : String × Bytes}

/-- Behind a refused batch nothing is ever sent. -/
theorem drain_stuck (h : client.Draining) {r : String × Bytes} (hr : Refused r)
    (hq : client.batches = pre ++ r :: post) (k : ℕ) :
    (client.drainRun device x updates k).Stuck ∨
      (client.drainRun device x updates k).Draining ∧
        ∃ pre' post', (client.drainRun device x updates k).batches = pre' ++ r :: post' ∧
          ∀ a ∈ pre', a ∈ pre := by
  induction k with
  | zero => exact .inr ⟨h, pre, post, hq, fun a ha => ha⟩
  | succ k ih =>
    rw [drainRun]
    generalize client.drainRun device x updates k = c at ih
    rcases ih with hstuck | ⟨hdrain, pre', post', hbatches, hsub⟩
    · refine .inl (stuck_enqueueAll ?_ _)
      rw [drainRound, if_neg (by rw [hstuck]; exact Bool.false_ne_true)]
      exact hstuck
    · have hne : ∀ a tail, pre' ++ r :: post' = a :: tail → tail ≠ [] ∨ Refused a := by
        intro a tail h
        cases pre' with
        | nil => exact .inr ((List.cons.inj h).1 ▸ hr)
        | cons a' pre' => exact .inl fun h0 => by simp [h0] at h
      obtain ⟨a, tail, hsplit⟩ := List.exists_cons_of_ne_nil
        (show pre' ++ r :: post' ≠ [] by simp)
      obtain ⟨-, hstep⟩ := drainRound_step hdrain (hbatches.trans hsplit) (hne a tail hsplit)
        device (x k)
      rcases hstep with ⟨hstuck, -⟩ | ⟨hdrain', ⟨hsame, -⟩ | ⟨htaken, hok, -⟩⟩
      · exact .inl (stuck_enqueueAll hstuck _)
      · obtain ⟨hnext, fresh, hfresh⟩ := draining_enqueueAll hdrain' (updates k)
        refine .inr ⟨hnext, pre', post' ++ fresh, ?_, hsub⟩
        rw [hfresh, hsame, ← hsplit, List.append_assoc, List.cons_append]
      · cases pre' with
        | nil => exact absurd ((List.cons.inj hsplit).1 ▸ hr) hok
        | cons a' pre' =>
          have htail : pre' ++ r :: post' = tail := (List.cons.inj hsplit).2
          obtain ⟨hnext, fresh, hfresh⟩ := draining_enqueueAll hdrain' (updates k)
          refine .inr ⟨hnext, pre', post' ++ fresh, ?_,
            fun y hy => hsub y (List.mem_cons_of_mem _ hy)⟩
          rw [hfresh, htaken, ← htail, List.append_assoc, List.cons_append]

theorem drainSent_of_refused (h : client.Draining) {r : String × Bytes} (hr : Refused r)
    (hq : client.batches = pre ++ r :: post) {k : ℕ}
    (hb : b ∈ client.drainSent device x updates k) : b ∈ pre ∨ b = r := by
  rw [drainSent] at hb
  have hinv := @drain_stuck _ device x updates _ _ h _ hr hq k
  generalize client.drainRun device x updates k = c at hb hinv
  rcases hinv with hstuck | ⟨hdrain, pre', post', hbatches, hsub⟩
  · rw [drainRound, if_neg (by rw [hstuck]; exact Bool.false_ne_true)] at hb
    cases hb
  · obtain ⟨c', hc', rfl⟩ := List.mem_map.mp hb
    cases pre' with
    | nil =>
      exact .inr ((drainRound_step hdrain hbatches (.inr hr) device (x k)).1 c' hc')
    | cons a pre' =>
      have hhead := (drainRound_step hdrain hbatches (.inl (by simp)) device (x k)).1 c' hc'
      exact .inl (hhead ▸ hsub a List.mem_cons_self)

/-- What a batch at the head of the drain meets. -/
def Exchange.verdict (x : Exchange) (device : String) (a : String × Bytes) : Verdict :=
  if (x.room.admitQuota x.now device a.2.length).2 && x.acked then .leaves else .stops

theorem drainRound_sends {client : Client} (h : client.Draining) {a : String × Bytes}
    {rest : List (String × Bytes)} (hq : client.batches = a :: rest) {x : Exchange}
    (hwrites : x.stored = true ∧ x.sends = true) :
    a ∈ (client.drainRound device x).2.map (·.batch) := by
  rw [batches] at hq
  obtain ⟨push, pushes, hp, rfl, -⟩ := List.map_eq_cons_iff.mp hq
  have hcases := drainRound_cases h.ids h.blocked h.armed hp device x
  generalize client.drainRound device x = out at hcases
  cases hcases with
  | ended out hwrite hclock => exact absurd hwrites hwrite
  | refused out hrefused hclock => exact List.mem_singleton_self _
  | kept out hnot hsame hclock hblocked => exact List.mem_singleton_self _
  | taken out hok hgrant hacked hleft hclock => exact List.mem_singleton_self _

/-- **A tick over a head that is not refused is a round of the queue, of one batch.** -/
theorem drainRound_round {client : Client} (h : client.Draining) {a : String × Bytes}
    {rest : List (String × Bytes)} (hq : client.batches = a :: rest) (hrest : rest ≠ [])
    (hok : ¬ Refused a) {x : Exchange} (hwrites : x.stored = true ∧ x.sends = true) :
    (client.drainRound device x).1.Draining ∧
      (client.drainRound device x).1.batches =
        (Line.round (x.verdict device) 1 client.batches).2 := by
  obtain ⟨-, hstep⟩ := drainRound_step h hq (.inl hrest) device x
  rw [hq]
  rcases hstep with ⟨-, hended | hrefused⟩ | ⟨hdrain, ⟨hsame, hnot⟩ | ⟨htaken, -, hgrant, hacked⟩⟩
  · exact absurd hwrites hended
  · exact absurd hrefused hok
  · refine ⟨hdrain, hsame.trans ?_⟩
    have hv : x.verdict device a = .stops := if_neg (by simpa [Admits] using hnot)
    simp [Line.round, hv]
  · refine ⟨hdrain, htaken.trans ?_⟩
    have hv : x.verdict device a = .leaves := if_pos (by simpa [Admits] using ⟨hgrant, hacked⟩)
    simp [Line.round, hv]

theorem drainRun_succ {k : ℕ} (h : (client.drainRun device x updates k).Draining)
    {a : String × Bytes} {rest : List (String × Bytes)}
    (hq : (client.drainRun device x updates k).batches = a :: rest) (hrest : rest ≠ [])
    (hok : ¬ Refused a) (hwrites : (x k).stored = true ∧ (x k).sends = true) :
    (client.drainRun device x updates (k + 1)).Draining ∧
      ∃ fresh, (client.drainRun device x updates (k + 1)).batches =
        (Line.round ((x k).verdict device) 1 (client.drainRun device x updates k).batches).2 ++
          fresh := by
  obtain ⟨hdrain, hround⟩ := @drainRound_round device _ h _ _ hq hrest hok _ hwrites
  rw [← hround]
  exact draining_enqueueAll hdrain (updates k)

section Waits

variable (h : client.Draining) (hok : ∀ r ∈ pre, ¬ Refused r)
  (hq : client.batches = pre ++ b :: post)
  (hwrites : ∀ k, (x k).stored = true ∧ (x k).sends = true)
  (hnever : ∀ k, b ∉ client.drainSent device x updates k)

include h hok hq hwrites hnever

/-- As long as none before it is refused, a batch that is not sent waits its turn. -/
theorem drain_waits (k : ℕ) :
    (client.drainRun device x updates k).Draining ∧
      ∃ a pre' post', (client.drainRun device x updates k).batches = a :: pre' ++ b :: post' ∧
        (a :: pre').Sublist pre := by
  have hhead : ∀ k pre' post', (client.drainRun device x updates k).Draining →
      (client.drainRun device x updates k).batches = pre' ++ b :: post' → pre' ≠ [] := by
    rintro k _ post' hdrain hbatches rfl
    exact hnever k (drainRound_sends hdrain hbatches (hwrites k))
  induction k with
  | zero =>
    obtain ⟨a, pre', rfl⟩ := List.exists_cons_of_ne_nil (hhead 0 pre post h hq)
    exact ⟨h, a, pre', post, hq, List.Sublist.refl _⟩
  | succ k ih =>
    obtain ⟨hdrain, a, pre', post', hbatches, hsub⟩ := ih
    have ha : ¬ Refused a := hok a (hsub.subset List.mem_cons_self)
    obtain ⟨hdrain', fresh, hfresh⟩ :=
      drainRun_succ hdrain hbatches (by simp) ha (hwrites k)
    have hne : b ≠ a := by
      rintro rfl
      exact hnever k (drainRound_sends hdrain hbatches (hwrites k))
    have hnot : b ∉ (Line.round ((x k).verdict device) 1 (a :: pre' ++ b :: post')).1 := by
      rw [List.cons_append, Line.round]
      cases (x k).verdict device a <;> simp [Line.round, hne]
    obtain ⟨pre'', hround, hsub'⟩ := Line.round_keeps hnot
    have hbatches' : (client.drainRun device x updates (k + 1)).batches =
        pre'' ++ b :: (post' ++ fresh) := by
      rw [hfresh, hbatches, hround, List.append_assoc, List.cons_append]
    obtain ⟨a', pre₁, rfl⟩ := List.exists_cons_of_ne_nil (hhead _ _ _ hdrain' hbatches')
    exact ⟨hdrain', a', pre₁, post' ++ fresh, hbatches', hsub'.trans hsub⟩

end Waits

/-- **A batch gets its turn in the drain exactly when none before it is refused.** -/
theorem drainSent_iff (h : client.Draining) (hq : client.batches = pre ++ b :: post)
    (hwrites : ∀ k, (x k).stored = true ∧ (x k).sends = true)
    (hgood : ∀ batch j, ∃ i ≥ j,
      (client.drainRun device x updates i).batches.head? = some batch →
        Admits (x i).room (x i).now device batch ∧ (x i).acked = true) :
    (∃ k, b ∈ client.drainSent device x updates k) ↔ ∀ r ∈ pre, ¬ Refused r := by
  constructor
  · rintro ⟨k, hk⟩ r hr hrefused
    have hids := (distinctIds_iff client).mp h.ids
    rw [hq, List.map_append, List.map_cons, List.nodup_append'] at hids
    have hb : b ∉ pre := fun hb => hids.2.2 (List.mem_map_of_mem hb) List.mem_cons_self
    obtain ⟨before, after, rfl⟩ := List.append_of_mem hr
    rcases drainSent_of_refused h hrefused (by rw [hq, List.append_assoc, List.cons_append]) hk
      with hmem | rfl
    · exact hb (List.mem_append_left _ hmem)
    · exact hb hr
  · intro hok
    by_contra hnever
    rw [not_exists] at hnever
    have hwaits := drain_waits h hok hq hwrites hnever
    have hsteps : Line.Steps (fun k => (x k).verdict device) (fun _ => 1)
        (fun k => (client.drainRun device x updates k).batches) := by
      intro k
      obtain ⟨hdrain, a, pre', post', hbatches, hsub⟩ := hwaits k
      exact (drainRun_succ hdrain hbatches (by simp) (hok a (hsub.subset List.mem_cons_self))
        (hwrites k)).2
    have hleaves : ∀ a ∈ pre, ∀ j, ∃ i ≥ j,
        (client.drainRun device x updates i).batches.head? = some a →
          (x i).verdict device a = .leaves := by
      intro a _ j
      obtain ⟨i, hji, hi⟩ := hgood a j
      exact ⟨i, hji, fun hhead => if_pos (by simpa [Admits] using hi hhead)⟩
    have hready : ∀ i, (x i).verdict device b ≠ .waits := by
      intro i
      rw [Exchange.verdict]
      split_ifs
      · decide
      · decide
    obtain ⟨k, hk⟩ := Line.exists_offered hsteps (fun _ _ => Nat.one_pos) (k := 0) hq hleaves
      fun j => ⟨j, le_rfl, fun _ => hready j⟩
    obtain ⟨hdrain, a, pre', post', hbatches, -⟩ := hwaits k
    have hab : b = a := by
      rw [Line.offered, hbatches, List.cons_append, Line.round] at hk
      cases hv : (x k).verdict device a with
      | waits => simp [hv] at hk
      | leaves | stays | stops => simpa [hv, Line.round] using hk
    exact hnever k (hab ▸ drainRound_sends hdrain hbatches (hwrites k))

end DrainRun

theorem drainSent_of_stuck {client : Client} (h : client.Stuck) (device : String)
    (x : ℕ → Exchange) (updates : ℕ → List Update) (k : ℕ) :
    client.drainSent device x updates k = [] := by
  have hround : ∀ (c : Client) (y : Exchange), c.Stuck → c.drainRound device y = (c, []) :=
    fun c y hc => if_neg (by rw [hc]; exact Bool.false_ne_true)
  have hstuck : (client.drainRun device x updates k).Stuck := by
    induction k with
    | zero => exact h
    | succ k ih =>
      rw [drainRun, hround _ _ ih]
      exact stuck_enqueueAll ih _
  rw [drainSent, hround _ _ hstuck, List.map_nil]

/-- The socket comes to the batch: at once, or under a quota by a tick. -/
def SocketTurn (client : Client) (device : String) (x : ℕ → Exchange)
    (updates : ℕ → List Update) (inFlight : List String) (b : String × Bytes) : Prop :=
  if client.shared.quotaBlocked then ∃ k, b ∈ client.drainSent device x updates k
  else
    b ∈ (client.pushPending (fun _ => true) (fun _ => true) inFlight).batches.map (·.batch) ∨
      b.1 ∈ inFlight

/-- **When a pending batch gets its turn.** Over HTTPS it does exactly when no batch before it is
refused. On the socket it does without a quota, whatever is before it; while a quota is drained,
exactly when the clock is armed and no batch before it is refused. -/
theorem turn_iff {client : Client} (hids : client.DistinctIds)
    {pre post : List (String × Bytes)} {b : String × Bytes}
    (hq : client.batches = pre ++ b :: post) (device : String) (updates : ℕ → List Update)
    (deliver : ℕ → String → Delivery)
    (hgood : ∀ batch j, ∃ i ≥ j,
      (client.httpRun device deliver updates i).batches.head? = some batch →
        (deliver i batch.1).Good device batch)
    (x : ℕ → Exchange) (hwrites : ∀ k, (x k).stored = true ∧ (x k).sends = true)
    (hgrants : ∀ batch j, ∃ i ≥ j,
      (client.drainRun device x updates i).batches.head? = some batch →
        Admits (x i).room (x i).now device batch ∧ (x i).acked = true)
    (inFlight : List String) :
    ((∃ k, b ∈ client.httpSent device deliver updates k) ↔ ∀ r ∈ pre, ¬ Refused r) ∧
      (client.SocketTurn device x updates inFlight b ↔
        (client.shared.quotaBlocked = true →
          client.shared.retryAt = true ∧ ∀ r ∈ pre, ¬ Refused r)) := by
  refine ⟨httpSent_iff hids hq hgood, ?_⟩
  rw [SocketTurn]
  cases hblocked : client.shared.quotaBlocked with
  | false =>
    have hb : b ∈ client.batches := hq ▸ List.mem_append_right _ List.mem_cons_self
    obtain ⟨push, hp, rfl⟩ := List.mem_map.mp hb
    refine iff_of_true ?_ fun h => absurd h Bool.false_ne_true
    rw [if_neg Bool.false_ne_true]
    exact (pushPending_sends hblocked inFlight hp).imp_left List.mem_map_of_mem
  | true =>
    rw [if_pos rfl]
    cases harmed : client.shared.retryAt with
    | false =>
      refine iff_of_false ?_ fun h => Bool.false_ne_true (h rfl).1
      rintro ⟨k, hk⟩
      rw [drainSent_of_stuck harmed] at hk
      cases hk
    | true =>
      rw [drainSent_iff ⟨hids, hblocked, harmed⟩ hq hwrites hgrants]
      exact ⟨fun h _ => ⟨rfl, h⟩, fun h => (h rfl).2⟩

/-- A queue of one batch, in a quota drain. -/
def oneBlocked : Client :=
  { (connect [⟨"b", [1], false⟩] 0) with
    shared := { (connect [⟨"b", [1], false⟩] 0).shared with retryAt := true, quotaBlocked := true } }

/-- A request that arrives at an empty room and is answered. -/
def goodDelivery : Delivery :=
  { room := .empty, now := 0, arrives := true, returns := true, stored := true, acked := true }

def goodExchange : Exchange :=
  { room := .empty, now := 0, stored := true, sends := true, acked := true }

theorem httpRun_fixed {client c : Client} {device : String} {deliver : String → Delivery} {i : ℕ}
    (hi : client.httpRun device (fun _ => deliver) (fun _ => []) i = c)
    (hfix : (c.httpCycle device deliver).1 = c) (k : ℕ) :
    client.httpRun device (fun _ => deliver) (fun _ => []) (i + k) = c := by
  induction k with
  | zero => exact hi
  | succ k ih =>
    rw [← Nat.add_assoc, httpRun, ih, hfix]
    rfl

theorem drainRun_fixed {client c : Client} {device : String} {x : Exchange} {i : ℕ}
    (hi : client.drainRun device (fun _ => x) (fun _ => []) i = c)
    (hfix : (c.drainRound device x).1 = c) (k : ℕ) :
    client.drainRun device (fun _ => x) (fun _ => []) (i + k) = c := by
  induction k with
  | zero => exact hi
  | succ k ih =>
    rw [← Nat.add_assoc, drainRun, ih, hfix]
    rfl

theorem turn_iff_one :
    (∃ k, ("b", [1]) ∈ oneBlocked.httpSent "d" (fun _ _ => goodDelivery) (fun _ => []) k) ∧
      oneBlocked.SocketTurn "d" (fun _ => goodExchange) (fun _ => []) [] ("b", [1]) := by
  have hhttp : ∀ k, (oneBlocked.httpRun "d" (fun _ _ => goodDelivery) (fun _ => [])
      (1 + k)).batches = [] := by
    intro k
    rw [httpRun_fixed rfl (by decide +kernel)]
    decide +kernel
  have hws : ∀ k, (oneBlocked.drainRun "d" (fun _ => goodExchange) (fun _ => [])
      (1 + k)).batches = [] := by
    intro k
    rw [drainRun_fixed rfl (by decide +kernel)]
    decide +kernel
  have h := @turn_iff oneBlocked (by rw [distinctIds_iff]; decide +kernel) [] [] ("b", [1])
    (by decide +kernel) "d" (fun _ => [])
    (fun _ _ => goodDelivery) (fun batch j => ⟨1 + j, Nat.le_add_left j 1, by simp [hhttp]⟩)
    (fun _ => goodExchange) (fun _ => ⟨rfl, rfl⟩)
    (fun batch j => ⟨1 + j, Nat.le_add_left j 1, by simp [hws]⟩) []
  exact ⟨h.1.mpr (by simp), h.2.mpr fun _ => ⟨by decide +kernel, by simp⟩⟩

/-- An update of no bytes is queued before another: no HTTPS cycle ever comes to the other. -/
theorem empty_batch_blocks :
    let client := ((connect [] 0).enqueueBatch true true "a" []).enqueueBatch true true "b" [1]
    client.batches = [("a", []), ("b", [1])] ∧
      (∀ i batch, (client.httpRun "d" (fun _ _ => goodDelivery) (fun _ => []) i).batches.head? =
        some batch → goodDelivery.Good "d" batch) ∧
      ∀ k, ("b", [1]) ∉ client.httpSent "d" (fun _ _ => goodDelivery) (fun _ => []) k := by
  intro client
  have hfix : ∀ i, client.httpRun "d" (fun _ _ => goodDelivery) (fun _ => []) i = client := by
    intro i
    have h := @httpRun_fixed client _ _ _ 0 rfl
      (show (client.httpCycle "d" fun _ => goodDelivery).1 = client by decide +kernel) i
    rwa [Nat.zero_add] at h
  refine ⟨by decide +kernel, fun i batch hhead => ?_, fun k => ?_⟩
  · have hbatch : batch = ("a", []) := by
      rw [hfix, show client.batches = [("a", []), ("b", [1])] by decide +kernel] at hhead
      exact (Option.some.inj hhead).symm
    rw [hbatch]
    exact ⟨rfl, rfl, rfl, rfl, show (Room.admitQuota .empty 0 "d" 0).2 = true by decide +kernel⟩
  · rw [httpSent, hfix]
    decide +kernel

end Client

end Zeron.Chat
