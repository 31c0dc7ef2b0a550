import Zeron.Chat.Change

/-!
# The outbox keeps what it was given

* `Inv`: what holds in every state of a run; `inv_step`, `inv_run`;
* **`outbox_keeps`**: a batch that was written is in the store until the room took it or a
  checkpoint covers it, one that was not is in memory; what is sent was written; the queue is sent
  in its order.
-/

namespace Zeron.Chat

/-! ## The invariant -/

namespace System

/-- The room took the batch, or a posted checkpoint covers it. -/
def Settled (s : System) (id : String) : Prop := id ∈ s.accepted ∨ id ∈ s.checkpointed

/-- The ids of what is in memory. -/
def memoryIds (s : System) : List String :=
  s.pending.map (·.batchId) ++ s.buffer.map Prod.fst ++ (s.handing.map Prod.fst).toList

/-- The batch is over the cap of a push. -/
def Large (s : System) (id : String) : Prop :=
  ∃ b ∈ s.enqueued, b.1 = id ∧ maxPushBytes < b.2.length

/-- What is sent is sent in the order of the queue: the part of the queue that this socket has come
to stands before the rest of it. -/
structure Ordered (s : System) : Prop where
  https : (s.httpsSent ++ s.https.map (·.batchId)).Sublist s.arrivals
  socket : ∃ done ahead sent waiting, s.arrivals = done ++ ahead ∧
    s.pending.map (·.batchId) = sent ++ waiting ∧
    (s.socketSent ++ s.socket.map (·.batchId)).Sublist done ∧ sent.Sublist done ∧
    waiting.Sublist ahead ∧
    ∀ id ∈ sent, id ∈ s.inFlight ∨ id ∈ s.socket.map (·.batchId)

/-- What holds in every state. -/
structure Inv (s : System) : Prop where
  names : (s.enqueued.map Prod.fst).Nodup
  rows_known : ∀ row ∈ s.outbox, (row.batchId, row.bytes) ∈ s.enqueued
  pending_known : ∀ p ∈ s.pending, p.batch ∈ s.enqueued
  buffer_known : ∀ b ∈ s.buffer, b ∈ s.enqueued
  handing_known : ∀ b, s.handing = some b → b ∈ s.enqueued
  /-- The store is in the order of the writes. -/
  rows_ordered : (s.outbox.map (·.batchId)).Sublist s.persisted
  held : ∀ id ∈ s.persisted, s.Settled id ∨ id ∈ s.outbox.map (·.batchId)
  durable : ∀ p ∈ s.pending, p.durable = true → p.batchId ∈ s.persisted
  /-- What a loop took from the queue is durable, or still in the queue. -/
  clones : ∀ p ∈ s.socket ++ s.https,
    p.batchId ∈ s.persisted ∨ (p.durable = false ∧ p.batchId ∈ s.pending.map (·.batchId))
  sent_persisted : ∀ id ∈ s.sent, id ∈ s.persisted
  accepted_sent : ∀ id ∈ s.accepted, id ∈ s.sent
  checkpoint_persisted : ∀ ids, s.checkpoint = some ids → ∀ id ∈ ids, id ∈ s.persisted
  checkpointed_persisted : ∀ id ∈ s.checkpointed, id ∈ s.persisted
  memory : ∀ id ∈ s.kept, s.Settled id ∨ Flagged s.outbox id ∨ id ∈ s.memoryIds ∨ s.Large id
  memory_kept : ∀ id ∈ s.memoryIds, id ∈ s.kept
  rows_kept : s.client ≠ none → ∀ row ∈ s.outbox, row.batchId ∈ s.kept
  /-- Without a client there are no loops. -/
  idle : s.client = none →
    s.socket = [] ∧ s.https = [] ∧ s.socketSent = [] ∧ s.httpsSent = []
  ordered : s.Ordered

theorem inv_init : init.Inv where
  names := List.nodup_nil
  rows_known := by simp [init]
  pending_known := by simp [init, pending]
  buffer_known := by simp [init]
  handing_known := by simp [init]
  rows_ordered := by simp [init]
  held := by simp [init]
  durable := by simp [init, pending]
  clones := by simp [init]
  sent_persisted := by simp [init]
  accepted_sent := by simp [init]
  checkpoint_persisted := by simp [init]
  checkpointed_persisted := by simp [init]
  memory := by simp [init]
  memory_kept := by simp [init, memoryIds, pending]
  rows_kept := by simp [init]
  idle _ := ⟨rfl, rfl, rfl, rfl⟩
  ordered := ⟨List.Sublist.refl _, [], [], [], [], by simp [init, pending]⟩

theorem row_persisted {s : System} (h : s.Inv) {row : OutboxRow} (hrow : row ∈ s.outbox) :
    row.batchId ∈ s.persisted :=
  h.rows_ordered.subset (List.mem_map_of_mem hrow)

theorem settled_persisted {s : System} (h : s.Inv) {id : String} (hid : s.Settled id) :
    id ∈ s.persisted :=
  hid.elim (fun hid => h.sent_persisted id (h.accepted_sent id hid))
    (h.checkpointed_persisted id)

theorem flagged_persisted {s : System} (h : s.Inv) {id : String} (hid : Flagged s.outbox id) :
    id ∈ s.persisted := by
  obtain ⟨row, hrow, rfl, -⟩ := hid
  exact row_persisted h hrow

theorem row_or_settled {s : System} (h : s.Inv) {id : String} (hid : id ∈ s.sent) :
    s.Settled id ∨ id ∈ s.outbox.map (·.batchId) :=
  h.held id (h.sent_persisted id hid)

theorem mem_persisted_put {s : System} (h : s.Inv) (c : Client) {id : String} :
    id ∈ (s.put c).persisted ↔ id ∈ s.persisted ∨ id ∈ c.outbox.map (·.batchId) := by
  change id ∈ s.persisted ++ added _ _ ↔ _
  rw [added, List.mem_append, List.mem_filter]
  constructor
  · exact Or.imp_right And.left
  · rintro (hid | hid)
    · exact .inl hid
    · by_cases hold : id ∈ s.outbox.map (·.batchId)
      · obtain ⟨row, hrow, rfl⟩ := List.mem_map.mp hold
        exact .inl (row_persisted h hrow)
      · exact .inr ⟨hid, by simpa using hold⟩

theorem added_append {old l fresh : List String} (hl : l.Sublist old) (hfresh : ∀ id ∈ fresh, id ∉ old) :
    added old (l ++ fresh) = fresh := by
  rw [added, List.filter_append, List.filter_eq_nil_iff.mpr, List.filter_eq_self.mpr,
    List.nil_append]
  · simpa using hfresh
  · exact fun id hid => by simpa using hl.subset hid

theorem ordered_put {s : System} (h : s.Ordered) {c : Client}
    (horder : Grows (s.pending.map (·.batchId)) (c.shared.pending.map (·.batchId))) :
    (s.put c).Ordered := by
  obtain ⟨l, fresh, hpending, hl, hfresh⟩ := horder
  obtain ⟨hhttps, done, ahead, sent, waiting, harrivals, hsplit, hsocket, hsent, hwaiting, hflight⟩ := h
  have harrivals' : (s.put c).arrivals = s.arrivals ++ fresh := by
    change s.arrivals ++ added _ _ = _
    rw [hpending, added_append hl hfresh]
  obtain ⟨l₁, l₂, rfl, hl₁, hl₂⟩ := List.sublist_append_iff.mp (hsplit ▸ hl)
  refine ⟨harrivals' ▸ hhttps.trans (List.sublist_append_left _ _), done, ahead ++ fresh, l₁,
    l₂ ++ fresh, ?_, ?_, hsocket, hl₁.trans hsent, (hl₂.trans hwaiting).append_right fresh,
    fun id hid => hflight id (hl₁.subset hid)⟩
  · rw [harrivals', harrivals, List.append_assoc]
  · change c.shared.pending.map (·.batchId) = _
    rw [hpending, List.append_assoc]

/-- **The client's work keeps the invariant.** -/
theorem inv_put {s : System} (h : s.Inv) {shared : Shared} (hclient : s.client = some shared)
    {new : List (String × Bytes)} {c : Client}
    (hchange : Change s.Settled new s.outbox c.outbox s.pending c.shared.pending)
    (hnew : ∀ b ∈ new, b ∈ s.enqueued ∧ b.1 ∈ s.kept) : (s.put c).Inv := by
  have hknown : ∀ b ∈ s.pending.map (·.batch) ++ new, b ∈ s.enqueued ∧ b.1 ∈ s.kept := by
    intro b hb
    rcases List.mem_append.mp hb with hb | hb
    · obtain ⟨p, hp, rfl⟩ := List.mem_map.mp hb
      refine ⟨h.pending_known p hp, h.memory_kept _ ?_⟩
      exact List.mem_append_left _ (List.mem_append_left _ (List.mem_map_of_mem hp))
    · exact hnew b hb
  have hflagged : ∀ {id}, Flagged c.outbox id → id ∈ c.outbox.map (·.batchId) := by
    rintro _ ⟨row, hrow, rfl, -⟩
    exact List.mem_map_of_mem hrow
  refine
    { names := h.names
      rows_known := fun row' hrow' => ?_
      pending_known := fun q' hq' => (hknown _ (hchange.pending_of q' hq')).1
      buffer_known := h.buffer_known
      handing_known := h.handing_known
      rows_ordered := ?_
      held := fun id hid => ?_
      durable := fun q' hq' hd => ?_
      clones := fun p hp => ?_
      sent_persisted := fun id hid => (mem_persisted_put h c).mpr (.inl (h.sent_persisted id hid))
      accepted_sent := h.accepted_sent
      checkpoint_persisted := fun ids hids id hid =>
        (mem_persisted_put h c).mpr (.inl (h.checkpoint_persisted ids hids id hid))
      checkpointed_persisted := fun id hid =>
        (mem_persisted_put h c).mpr (.inl (h.checkpointed_persisted id hid))
      memory := fun id hid => ?_
      memory_kept := fun id hid => ?_
      rows_kept := fun _ row' hrow' => ?_
      idle := fun hnone => absurd hnone (Option.some_ne_none _)
      ordered := ordered_put h.ordered hchange.order }
  · rcases hchange.row_of row' hrow' with ⟨row, hrow, hid, hbytes⟩ | hmem
    · rw [← hid, ← hbytes]
      exact h.rows_known row hrow
    · exact (hknown _ hmem).1
  · obtain ⟨l, fresh, hrows, hl, hfresh⟩ := hchange.rows_order
    change (c.outbox.map (·.batchId)).Sublist (s.persisted ++ added _ _)
    rw [hrows, added_append hl hfresh]
    exact (hl.trans h.rows_ordered).append_right fresh
  · rcases (mem_persisted_put h c).mp hid with hid | hid
    · refine (h.held id hid).elim .inl fun hmem => ?_
      obtain ⟨row, hrow, rfl⟩ := List.mem_map.mp hmem
      refine (hchange.keeps row hrow).imp_right ?_
      rintro ⟨row', hrow', hid', -⟩
      exact List.mem_map.mpr ⟨row', hrow', hid'⟩
    · exact .inr hid
  · rw [mem_persisted_put h c]
    refine (hchange.durable_of q' hq' hd).imp_left ?_
    rintro ⟨q, hq, hid, hd'⟩
    rw [← hid]
    exact h.durable q hq hd'
  · rcases h.clones p hp with hid | ⟨hd, hid⟩
    · exact .inl ((mem_persisted_put h c).mpr (.inl hid))
    · obtain ⟨q, hq, hid⟩ := List.mem_map.mp hid
      have hwait := hchange.waits q hq
      rw [hid] at hwait
      rcases hwait with hwait | hwait | hwait
      · exact .inl ((mem_persisted_put h c).mpr (.inl (settled_persisted h hwait)))
      · exact .inl ((mem_persisted_put h c).mpr (.inr (hflagged hwait)))
      · exact .inr ⟨hd, hwait⟩
  · rcases h.memory id hid with hmem | ⟨row, hrow, rfl, hflag⟩ | hmem | hmem
    · exact .inl hmem
    · rcases hchange.keeps row hrow with hsettled | ⟨row', hrow', hid', hflag'⟩
      · exact .inl hsettled
      · exact .inr (.inl ⟨row', hrow', hid', hflag' hflag⟩)
    · rw [memoryIds, List.append_assoc] at hmem
      rcases List.mem_append.mp hmem with hmem | hmem
      · obtain ⟨q, hq, rfl⟩ := List.mem_map.mp hmem
        rcases hchange.waits q hq with hwait | hwait | hwait
        · exact .inl hwait
        · exact .inr (.inl hwait)
        · refine .inr (.inr (.inl ?_))
          rw [memoryIds, List.append_assoc]
          exact List.mem_append_left _ hwait
      · refine .inr (.inr (.inl ?_))
        rw [memoryIds, List.append_assoc]
        exact List.mem_append_right _ hmem
    · exact .inr (.inr (.inr hmem))
  · rw [memoryIds, List.append_assoc] at hid
    rcases List.mem_append.mp hid with hid | hid
    · obtain ⟨q', hq', rfl⟩ := List.mem_map.mp hid
      exact (hknown _ (hchange.pending_of q' hq')).2
    · refine h.memory_kept id ?_
      rw [memoryIds, List.append_assoc]
      exact List.mem_append_right _ hid
  · rcases hchange.row_of row' hrow' with ⟨row, hrow, hid, -⟩ | hmem
    · rw [← hid]
      exact h.rows_kept (by rw [hclient]; exact Option.some_ne_none _) row hrow
    · exact (hknown _ hmem).2

/-! ### One lemma for each kind of step -/

theorem inv_withClient {s : System} (h : s.Inv) {new : List (String × Bytes)}
    (hnew : ∀ b ∈ new, b ∈ s.enqueued ∧ b.1 ∈ s.kept) {f : Client → Client}
    (hf : ∀ c : Client, c.outbox = s.outbox → c.shared.pending = s.pending →
      Change s.Settled new c.outbox (f c).outbox c.shared.pending (f c).shared.pending) :
    (s.withClient f).Inv := by
  rw [withClient]
  cases hclient : s.client with
  | none => exact h
  | some shared =>
    have hp : s.pending = shared.pending := by rw [pending, hclient]; rfl
    have hchange := hf { shared, outbox := s.outbox } rfl hp.symm
    rw [← hp] at hchange
    exact inv_put h hclient hchange hnew

theorem ordered_hangUp {s : System} (h : s.Ordered) : s.hangUp.Ordered := by
  obtain ⟨hhttps, done, ahead, sent, waiting, harrivals, hsplit, -, hsent, hwaiting, -⟩ := h
  refine ⟨hhttps, [], s.arrivals, [], s.pending.map (·.batchId), rfl, rfl, List.Sublist.refl _,
    List.Sublist.refl _, ?_, by simp⟩
  rw [hsplit, harrivals]
  exact hsent.append hwaiting

theorem inv_hangUp {s : System} (h : s.Inv) : s.hangUp.Inv :=
  { h with
    clones := fun p hp => h.clones p (List.mem_append_right _ hp)
    idle := fun hnone => ⟨rfl, (h.idle hnone).2.1, rfl, (h.idle hnone).2.2.2⟩
    ordered := ordered_hangUp h.ordered }

theorem inv_pushed {s : System} (h : s.Inv) {push : PendingPush} {rest : List PendingPush}
    (hsocket : s.socket = push :: rest) (hpersisted : push.batchId ∈ s.persisted) :
    Inv { s with
      socket := rest
      inFlight := push.batchId :: s.inFlight
      sent := s.sent ++ [push.batchId]
      socketSent := s.socketSent ++ [push.batchId] } := by
  refine
    { h with
      clones := fun p hp => h.clones p ?_
      sent_persisted := fun id hid => ?_
      accepted_sent := fun id hid => List.mem_append_left _ (h.accepted_sent id hid)
      idle := fun hnone => absurd ((h.idle hnone).1.symm.trans hsocket) (List.cons_ne_nil _ _).symm
      ordered := ?_ }
  · rw [hsocket]
    exact List.mem_cons_of_mem _ hp
  · rcases List.mem_append.mp hid with hid | hid
    · exact h.sent_persisted id hid
    · rw [List.mem_singleton.mp hid]
      exact hpersisted
  · obtain ⟨hhttps, done, ahead, sent, waiting, harrivals, hsplit, hdone, hsent, hwaiting,
      hflight⟩ := h.ordered
    refine ⟨hhttps, done, ahead, sent, waiting, harrivals, hsplit, ?_, hsent, hwaiting,
      fun id hid => ?_⟩
    · rw [hsocket] at hdone
      simpa using hdone
    · rcases hflight id hid with hid | hid
      · exact .inl (List.mem_cons_of_mem _ hid)
      · rw [hsocket, List.map_cons] at hid
        rcases List.mem_cons.mp hid with rfl | hid
        · exact .inl List.mem_cons_self
        · exact .inr hid

theorem inv_posted {s : System} (h : s.Inv) {push : PendingPush} {rest : List PendingPush}
    (hhttps : s.https = push :: rest) (hpersisted : push.batchId ∈ s.persisted)
    (posted : Option String) :
    Inv { s with
      https := rest
      posted := posted
      sent := s.sent ++ [push.batchId]
      httpsSent := s.httpsSent ++ [push.batchId] } := by
  refine
    { h with
      clones := fun p hp => h.clones p ?_
      sent_persisted := fun id hid => ?_
      accepted_sent := fun id hid => List.mem_append_left _ (h.accepted_sent id hid)
      idle := fun hnone => absurd ((h.idle hnone).2.1.symm.trans hhttps) (List.cons_ne_nil _ _).symm
      ordered := ?_ }
  · rw [hhttps]
    exact (List.mem_append.mp hp).elim (List.mem_append_left _)
      fun hp => List.mem_append_right _ (List.mem_cons_of_mem _ hp)
  · rcases List.mem_append.mp hid with hid | hid
    · exact h.sent_persisted id hid
    · rw [List.mem_singleton.mp hid]
      exact hpersisted
  · have hsub := h.ordered.https
    rw [hhttps] at hsub
    exact ⟨by simpa using hsub, h.ordered.socket⟩

theorem inv_sent {s : System} (h : s.Inv) {id : String} (hpersisted : id ∈ s.persisted) :
    Inv { s with sent := s.sent ++ [id] } :=
  { h with
    sent_persisted := fun id' hid => by
      rcases List.mem_append.mp hid with hid | hid
      · exact h.sent_persisted id' hid
      · rw [List.mem_singleton.mp hid]
        exact hpersisted
    accepted_sent := fun id' hid => List.mem_append_left _ (h.accepted_sent id' hid)
    ordered := ⟨h.ordered.https, h.ordered.socket⟩ }

theorem inv_stop {s : System} (h : s.Inv) (posted : Option String) :
    Inv { s with https := [], posted := posted } :=
  { h with
    clones := fun p hp => h.clones p (List.mem_append_left _ (by simpa using hp))
    idle := fun hnone => ⟨(h.idle hnone).1, rfl, (h.idle hnone).2.2⟩
    ordered := ⟨List.Sublist.trans (by simp) h.ordered.https, h.ordered.socket⟩ }

section Client

variable {s : System} {shared : Shared}

theorem pending_of_client (hclient : s.client = some shared) : s.pending = shared.pending := by
  rw [pending, hclient]
  rfl

theorem persisted_of_ensureDurable (h : s.Inv) {stored : Bool} {c : Client}
    (hcp : c.shared.pending = s.pending) {push : PendingPush}
    (hclone : push.batchId ∈ s.persisted ∨
      (push.durable = false ∧ push.batchId ∈ s.pending.map (·.batchId)))
    (halive : (c.ensureDurable stored push).2 = true) :
    push.batchId ∈ (s.put (c.ensureDurable stored push).1).persisted := by
  rw [mem_persisted_put h]
  rcases hclone with hpersisted | ⟨hd, hpending⟩
  · exact .inl hpersisted
  · rcases durable_of_ensureDurable halive with hdurable | hgone | ⟨q, hq, hid, hdurable⟩ | hrow
    · exact absurd hdurable (by rw [hd]; exact Bool.false_ne_true)
    · exact absurd (hcp ▸ hpending) hgone
    · rw [← hid]
      exact .inl (h.durable q (hcp ▸ hq) hdurable)
    · exact .inr hrow

theorem inv_ensureDurable (h : s.Inv) (hclient : s.client = some shared) (stored : Bool)
    {c : Client} (hc : c.outbox = s.outbox) (hcp : c.shared.pending = s.pending)
    (push : PendingPush) : (s.put (c.ensureDurable stored push).1).Inv := by
  have hchange := @change_ensureDurable s.Settled c stored push
  rw [hc, hcp] at hchange
  exact inv_put h hclient hchange (by simp)

theorem inv_pushTurn (h : s.Inv) (hclient : s.client = some shared) (stored sends : Bool)
    {push : PendingPush} {rest : List PendingPush} (hsocket : s.socket = push :: rest) :
    (s.pushTurn stored sends { shared, outbox := s.outbox } push rest).Inv := by
  have hp := pending_of_client hclient
  have hclone := h.clones push
    (List.mem_append_left _ (by rw [hsocket]; exact List.mem_cons_self))
  have hput := inv_ensureDurable h hclient stored (c := { shared, outbox := s.outbox }) rfl hp.symm
    push
  have hpersisted := @persisted_of_ensureDurable _ h stored { shared, outbox := s.outbox } hp.symm _ hclone
  rw [pushTurn]
  generalize Client.ensureDurable { shared, outbox := s.outbox } stored push = out at hput hpersisted
  obtain ⟨c, alive⟩ := out
  cases alive with
  | false => exact inv_hangUp hput
  | true =>
    dsimp only
    split_ifs
    · exact inv_pushed hput hsocket (hpersisted rfl)
    · exact inv_hangUp hput

theorem inv_postTurn (h : s.Inv) (hclient : s.client = some shared) (stored : Bool)
    {push : PendingPush} {rest : List PendingPush} (hhttps : s.https = push :: rest) :
    (s.postTurn stored { shared, outbox := s.outbox } push rest).Inv := by
  have hp := pending_of_client hclient
  have hclone := h.clones push
    (List.mem_append_right _ (by rw [hhttps]; exact List.mem_cons_self))
  have hput := inv_ensureDurable h hclient stored (c := { shared, outbox := s.outbox }) rfl hp.symm
    push
  have hpersisted := @persisted_of_ensureDurable _ h stored { shared, outbox := s.outbox } hp.symm _ hclone
  rw [postTurn]
  generalize Client.ensureDurable { shared, outbox := s.outbox } stored push = out at hput hpersisted
  obtain ⟨c, alive⟩ := out
  cases alive with
  | false => exact inv_stop hput _
  | true => exact inv_posted hput hhttps (hpersisted rfl) _

theorem inv_headTurn (h : s.Inv) (hclient : s.client = some shared) (stored sends : Bool) :
    (s.headTurn stored sends { shared, outbox := s.outbox }).Inv := by
  have hp := pending_of_client hclient
  rw [headTurn, Client.pushHead]
  generalize hcleared : Client.clearRetry { shared, outbox := s.outbox } = cleared
  have hco : cleared.outbox = s.outbox := by rw [← hcleared]; rfl
  have hcp : cleared.shared.pending = s.pending := by rw [← hcleared, hp]; rfl
  cases hhead : cleared.shared.pending.head? with
  | none =>
    refine @inv_put s h shared hclient [] cleared ?_ (by simp)
    rw [hco, hcp]
    exact .refl
  | some push =>
    have hmem : push ∈ s.pending := hcp ▸ List.mem_of_mem_head? hhead
    have hput := inv_ensureDurable h hclient stored hco hcp push
    have hclone : push.batchId ∈ s.persisted ∨
        (push.durable = false ∧ push.batchId ∈ s.pending.map (·.batchId)) := by
      cases hd : push.durable with
      | true => exact .inl (h.durable push hmem hd)
      | false => exact .inr ⟨rfl, List.mem_map_of_mem hmem⟩
    have hpersisted := @persisted_of_ensureDurable _ h stored _ hcp _ hclone
    dsimp only
    generalize cleared.ensureDurable stored push = out at hput hpersisted
    obtain ⟨c, alive⟩ := out
    cases alive with
    | false => exact inv_hangUp hput
    | true =>
      cases sends with
      | true => exact inv_sent hput (hpersisted rfl)
      | false => exact inv_hangUp hput

end Client

/-! ### The callback and the join -/

theorem mem_memoryIds {s : System} {id : String} :
    id ∈ s.memoryIds ↔ id ∈ s.pending.map (·.batchId) ∨ id ∈ s.buffer.map Prod.fst ∨
      ∃ b, s.handing = some b ∧ b.1 = id := by
  rw [memoryIds, List.mem_append, List.mem_append, or_assoc, Option.mem_toList,
    Option.map_eq_some_iff]

theorem flagged_mono {o o' : Outbox} (h : ∀ row ∈ o, row ∈ o') {id : String}
    (hid : Flagged o id) : Flagged o' id := by
  obtain ⟨row, hrow, hflag⟩ := hid
  exact ⟨row, h row hrow, hflag⟩

/-- A new batch, in the store or not. -/
theorem inv_new {s : System} (h : s.Inv) {batchId : String} (bytes : Bytes)
    (hidle : s.handing = none) (hfresh : s.Fresh batchId) {o : Outbox} {persisted : List String}
    (hrows : ∀ row ∈ o, row ∈ s.outbox ∨ row = { batchId, bytes, needsCheckpoint := false })
    (hordered : (o.map (·.batchId)).Sublist persisted) (hmono : ∀ row ∈ s.outbox, row ∈ o)
    (hpersisted : ∀ id, id ∈ persisted → id ∈ s.persisted ∨ id ∈ o.map (·.batchId))
    (hpersisted' : ∀ id ∈ s.persisted, id ∈ persisted) :
    Inv { s with
      outbox := o
      persisted := persisted
      handing := some (batchId, bytes)
      enqueued := s.enqueued ++ [(batchId, bytes)]
      kept := s.kept ++ [batchId] } := by
  have hlarge : ∀ {id}, s.Large id → ∃ b ∈ s.enqueued ++ [(batchId, bytes)], b.1 = id ∧
      maxPushBytes < b.2.length := fun ⟨b, hb, hid⟩ => ⟨b, List.mem_append_left _ hb, hid⟩
  refine
    { names := ?_
      rows_known := fun row hrow => ?_
      pending_known := fun p hp => List.mem_append_left _ (h.pending_known p hp)
      buffer_known := fun b hb => List.mem_append_left _ (h.buffer_known b hb)
      handing_known := fun b hb => ?_
      rows_ordered := hordered
      held := fun id hid => ?_
      durable := fun p hp hd => hpersisted' _ (h.durable p hp hd)
      clones := fun p hp => (h.clones p hp).imp_left (hpersisted' _)
      sent_persisted := fun id hid => hpersisted' id (h.sent_persisted id hid)
      accepted_sent := h.accepted_sent
      checkpoint_persisted := fun ids hids id hid =>
        hpersisted' id (h.checkpoint_persisted ids hids id hid)
      checkpointed_persisted := fun id hid => hpersisted' id (h.checkpointed_persisted id hid)
      memory := fun id hid => ?_
      memory_kept := fun id hid => ?_
      rows_kept := fun hclient row hrow => ?_
      idle := h.idle
      ordered := ⟨h.ordered.https, h.ordered.socket⟩ }
  · change ((s.enqueued ++ [(batchId, bytes)]).map Prod.fst).Nodup
    rw [List.map_append, List.map_singleton, List.nodup_append']
    exact ⟨h.names, List.nodup_singleton _, by simpa [Fresh] using hfresh⟩
  · rcases hrows row hrow with hrow | rfl
    · exact List.mem_append_left _ (h.rows_known row hrow)
    · exact List.mem_append_right _ (List.mem_singleton_self _)
  · rw [← Option.some.inj hb]
    exact List.mem_append_right _ (List.mem_singleton_self _)
  · rcases hpersisted id hid with hid | hid
    · refine (h.held id hid).imp_right fun hmem => ?_
      obtain ⟨row, hrow, rfl⟩ := List.mem_map.mp hmem
      exact List.mem_map_of_mem (hmono row hrow)
    · exact .inr hid
  · rcases List.mem_append.mp hid with hid | hid
    · rcases h.memory id hid with hmem | hmem | hmem | hmem
      · exact .inl hmem
      · exact .inr (.inl (flagged_mono hmono hmem))
      · refine .inr (.inr (.inl (mem_memoryIds.mpr ((mem_memoryIds.mp hmem).imp_right ?_))))
        exact Or.imp_right fun ⟨b, hb, _⟩ => absurd (hidle.symm.trans hb) (Option.some_ne_none _).symm
      · exact .inr (.inr (.inr (hlarge hmem)))
    · rw [List.mem_singleton.mp hid]
      exact .inr (.inr (.inl (mem_memoryIds.mpr (.inr (.inr ⟨_, rfl, rfl⟩)))))
  · rcases mem_memoryIds.mp hid with hp | hbuf | ⟨b, hb, rfl⟩
    · exact List.mem_append_left _ (h.memory_kept id (mem_memoryIds.mpr (.inl hp)))
    · exact List.mem_append_left _ (h.memory_kept id (mem_memoryIds.mpr (.inr (.inl hbuf))))
    · rw [← Option.some.inj hb]
      exact List.mem_append_right _ (List.mem_singleton_self _)
  · rcases hrows row hrow with hrow | rfl
    · exact List.mem_append_left _ (h.rows_kept hclient row hrow)
    · exact List.mem_append_right _ (List.mem_singleton_self _)

theorem inv_commit {s : System} (h : s.Inv) {batchId : String} (bytes : Bytes) (stored : Bool)
    (hidle : s.handing = none) (hfresh : s.Fresh batchId) :
    Inv { s.write stored batchId bytes with
      handing := some (batchId, bytes)
      enqueued := s.enqueued ++ [(batchId, bytes)]
      kept := s.kept ++ [batchId] } := by
  cases stored with
  | false =>
    exact inv_new h bytes hidle hfresh (fun row hrow => .inl hrow) h.rows_ordered
      (fun row hrow => hrow) (fun id hid => .inl hid) fun id hid => hid
  | true =>
    refine inv_new h bytes hidle hfresh (fun row hrow => mem_enqueueChatUpdate hrow) ?_
      (fun row hrow => mem_enqueueChatUpdate_of_mem hrow) (fun id hid => ?_)
      fun id hid => List.mem_append_left _ hid
    · change ((s.outbox.enqueueChatUpdate batchId bytes).map (·.batchId)).Sublist _
      rw [Outbox.enqueueChatUpdate]
      split_ifs
      · exact h.rows_ordered.trans (List.sublist_append_left _ _)
      · rw [List.map_append]
        exact h.rows_ordered.append (List.Sublist.refl _)
    · refine (List.mem_append.mp hid).imp_right fun hid => ?_
      rw [List.mem_singleton.mp hid]
      exact id_mem_enqueueChatUpdate _ _ _

theorem inv_handed {s : System} (h : s.Inv) {b : String × Bytes} (hb : s.handing = some b)
    (hfits : b.2.length ≤ maxPushBytes → b.1 ∈ s.pending.map (·.batchId)) :
    Inv { s with handing := none } := by
  refine
    { h with
      handing_known := fun b' hb' => absurd hb' (Option.some_ne_none _).symm
      memory := fun id hid => ?_
      memory_kept := fun id hid => h.memory_kept id ?_
      ordered := ⟨h.ordered.https, h.ordered.socket⟩ }
  · refine (h.memory id hid).imp_right (Or.imp_right fun hmem => ?_)
    rcases hmem with hmem | hlarge
    · rcases mem_memoryIds.mp hmem with hp | hbuf | ⟨b', hb', rfl⟩
      · exact .inl (mem_memoryIds.mpr (.inl hp))
      · exact .inl (mem_memoryIds.mpr (.inr (.inl hbuf)))
      · obtain rfl : b = b' := Option.some.inj (hb.symm.trans hb')
        by_cases hlen : b.2.length ≤ maxPushBytes
        · exact .inl (mem_memoryIds.mpr (.inl (hfits hlen)))
        · exact .inr ⟨b, h.handing_known b hb, rfl, not_le.mp hlen⟩
    · exact .inr hlarge
  · exact mem_memoryIds.mpr ((mem_memoryIds.mp hid).imp_right (Or.imp_right
      fun ⟨b', hb', _⟩ => absurd hb' (Option.some_ne_none _).symm))

theorem inv_buffered {s : System} (h : s.Inv) {b : String × Bytes} (hb : s.handing = some b) :
    Inv { s with handing := none, buffer := s.buffer ++ [b] } := by
  have hsame : ∀ {id : String}, id ∈ s.memoryIds ↔
      id ∈ ({ s with handing := none, buffer := s.buffer ++ [b] } : System).memoryIds := by
    intro id
    rw [mem_memoryIds, mem_memoryIds, hb, List.map_append, List.mem_append]
    simp [pending, eq_comm]
  exact
    { h with
      buffer_known := fun b' hb' => (List.mem_append.mp hb').elim (h.buffer_known b')
        fun hb' => List.mem_singleton.mp hb' ▸ h.handing_known b hb
      handing_known := fun b' hb' => absurd hb' (Option.some_ne_none _).symm
      memory := fun id hid => (h.memory id hid).imp_right (Or.imp_right (Or.imp_left hsame.mp))
      memory_kept := fun id hid => h.memory_kept id (hsame.mpr hid)
      ordered := ⟨h.ordered.https, h.ordered.socket⟩ }

theorem inv_drained {s : System} (h : s.Inv) {b : String × Bytes} {buffer : List (String × Bytes)}
    (hb : s.buffer = b :: buffer)
    (hfits : b.2.length ≤ maxPushBytes → b.1 ∈ s.pending.map (·.batchId)) :
    Inv { s with buffer := buffer } := by
  have hbuffer : ∀ b' ∈ buffer, b' ∈ s.buffer := fun b' hb' => hb ▸ List.mem_cons_of_mem _ hb'
  refine
    { h with
      buffer_known := fun b' hb' => h.buffer_known b' (hbuffer b' hb')
      memory := fun id hid => ?_
      memory_kept := fun id hid => h.memory_kept id ?_
      ordered := ⟨h.ordered.https, h.ordered.socket⟩ }
  · refine (h.memory id hid).imp_right (Or.imp_right fun hmem => ?_)
    rcases hmem with hmem | hlarge
    · rcases mem_memoryIds.mp hmem with hp | hbuf | hhanding
      · exact .inl (mem_memoryIds.mpr (.inl hp))
      · rw [hb, List.map_cons] at hbuf
        rcases List.mem_cons.mp hbuf with rfl | hbuf
        · by_cases hlen : b.2.length ≤ maxPushBytes
          · exact .inl (mem_memoryIds.mpr (.inl (hfits hlen)))
          · exact .inr ⟨b, h.buffer_known b (hb ▸ List.mem_cons_self), rfl, not_le.mp hlen⟩
        · exact .inl (mem_memoryIds.mpr (.inr (.inl hbuf)))
      · exact .inl (mem_memoryIds.mpr (.inr (.inr hhanding)))
    · exact .inr hlarge
  · refine mem_memoryIds.mpr ((mem_memoryIds.mp hid).imp_right (Or.imp_left fun hbuf => ?_))
    rw [hb, List.map_cons]
    exact List.mem_cons_of_mem _ hbuf

theorem pending_of_none {s : System} (hnone : s.client = none) : s.pending = [] := by
  rw [pending, hnone]
  rfl

theorem inv_initOutbox {s : System} (h : s.Inv) {batchId : String} (bytes : Bytes)
    (hnone : s.client = none) (hfresh : s.Fresh batchId) :
    Inv { s with
      outbox := s.outbox ++ [{ batchId, bytes, needsCheckpoint := false }]
      enqueued := s.enqueued ++ [(batchId, bytes)]
      persisted := s.persisted ++ [batchId] } := by
  have hmono : ∀ {id}, id ∈ s.persisted → id ∈ s.persisted ++ [batchId] := fun hid =>
    List.mem_append_left _ hid
  refine
    { h with
      names := ?_
      rows_known := fun row hrow => ?_
      pending_known := fun p hp => List.mem_append_left _ (h.pending_known p hp)
      buffer_known := fun b hb => List.mem_append_left _ (h.buffer_known b hb)
      handing_known := fun b hb => List.mem_append_left _ (h.handing_known b hb)
      rows_ordered := ?_
      held := fun id hid => ?_
      durable := fun p hp hd => hmono (h.durable p hp hd)
      clones := fun p hp => (h.clones p hp).imp_left hmono
      sent_persisted := fun id hid => hmono (h.sent_persisted id hid)
      checkpoint_persisted := fun ids hids id hid => hmono (h.checkpoint_persisted ids hids id hid)
      checkpointed_persisted := fun id hid => hmono (h.checkpointed_persisted id hid)
      memory := fun id hid => ?_
      rows_kept := fun hclient => absurd hnone hclient
      ordered := ⟨h.ordered.https, h.ordered.socket⟩ }
  · change ((s.enqueued ++ [(batchId, bytes)]).map Prod.fst).Nodup
    rw [List.map_append, List.map_singleton, List.nodup_append']
    exact ⟨h.names, List.nodup_singleton _, by simpa [Fresh] using hfresh⟩
  · rcases List.mem_append.mp hrow with hrow | hrow
    · exact List.mem_append_left _ (h.rows_known row hrow)
    · rw [List.mem_singleton.mp hrow]
      exact List.mem_append_right _ (List.mem_singleton_self _)
  · change ((s.outbox ++ [_]).map OutboxRow.batchId).Sublist _
    rw [List.map_append]
    exact h.rows_ordered.append (List.Sublist.refl _)
  · change s.Settled id ∨ id ∈ (s.outbox ++ [_]).map OutboxRow.batchId
    rw [List.map_append, List.mem_append]
    rcases List.mem_append.mp hid with hid | hid
    · exact (h.held id hid).imp_right .inl
    · exact .inr (.inr hid)
  · rcases h.memory id hid with hmem | hmem | hmem | ⟨b, hb, hlarge⟩
    · exact .inl hmem
    · exact .inr (.inl (flagged_mono (fun row hrow => List.mem_append_left _ hrow) hmem))
    · exact .inr (.inr (.inl hmem))
    · exact .inr (.inr (.inr ⟨b, List.mem_append_left _ hb, hlarge⟩))

/-- What the loop of `pending_updates` makes of the store, and what it finds in it. -/
structure Loaded (rejected l : List (String × Bytes)) (o o' : Outbox)
    (u u' : List (String × Bytes)) : Prop where
  row_of : ∀ row' ∈ o', ∃ row ∈ o, row.batchId = row'.batchId ∧ row.bytes = row'.bytes
  keeps : ∀ row ∈ o, ∃ row' ∈ o', row'.batchId = row.batchId ∧
    (row.needsCheckpoint = true → row'.needsCheckpoint = true)
  ids : o'.map (·.batchId) = o.map (·.batchId)
  updates : ∃ v, u' = u ++ v ∧ v.Sublist l
  found : ∀ b ∈ l, b.2.length ≤ maxPushBytes → b ∈ u' ∨ b.1 ∈ rejected.map Prod.fst

theorem loaded_foldl (rejected l : List (String × Bytes)) (acc : Outbox × List (String × Bytes)) :
    Loaded rejected l acc.1 (l.foldl (Outbox.pendingUpdate rejected) acc).1 acc.2
      (l.foldl (Outbox.pendingUpdate rejected) acc).2 := by
  induction l generalizing acc with
  | nil =>
    exact ⟨fun row h => ⟨row, h, rfl, rfl⟩, fun row h => ⟨row, h, rfl, fun h => h⟩, rfl,
      ⟨[], (List.append_nil _).symm, List.Sublist.refl _⟩, by simp⟩
  | cons b l ih =>
    have hrest := ih (Outbox.pendingUpdate rejected acc b)
    rw [List.foldl_cons]
    generalize l.foldl (Outbox.pendingUpdate rejected)
      (Outbox.pendingUpdate rejected acc b) = out at hrest
    obtain ⟨hrow, hkeeps, hids, ⟨v, hv, hsub⟩, hfound⟩ := hrest
    rw [Outbox.pendingUpdate] at hrow hkeeps hids hv
    split_ifs at hrow hkeeps hids hv with hlarge hany
    · refine ⟨fun row' h => ?_, fun row h => ?_, hids.trans (ids_rejectChatUpdate _ _),
        ⟨v, hv, hsub.cons b⟩, fun b' h hfits => ?_⟩
      · obtain ⟨row, hr, hid, hbytes⟩ := hrow row' h
        obtain ⟨row₀, hr₀, hid₀, hbytes₀⟩ := mem_rejectChatUpdate hr
        exact ⟨row₀, hr₀, hid₀.trans hid, hbytes₀.trans hbytes⟩
      · obtain ⟨row₀, hr₀, hid₀, hflag₀, -⟩ := mem_rejectChatUpdate_of_mem b.1 h
        obtain ⟨row', hr', hid', hflag'⟩ := hkeeps row₀ hr₀
        exact ⟨row', hr', hid'.trans hid₀, fun hflag => hflag' (hflag₀ hflag)⟩
      · rcases List.mem_cons.mp h with rfl | h
        · exact absurd hfits (not_le.mpr hlarge)
        · exact hfound b' h hfits
    · refine ⟨hrow, hkeeps, hids, ⟨v, hv, hsub.cons b⟩, fun b' h hfits => ?_⟩
      rcases List.mem_cons.mp h with rfl | h
      · obtain ⟨r, hr, hid⟩ := List.any_eq_true.mp hany
        exact .inr (List.mem_map.mpr ⟨r, hr, by simpa using hid⟩)
      · exact hfound b' h hfits
    · refine ⟨hrow, hkeeps, hids, ⟨b :: v, by rw [hv]; simp, hsub.cons_cons b⟩, fun b' h hfits => ?_⟩
      rcases List.mem_cons.mp h with rfl | h
      · exact .inl (by rw [hv]; simp)
      · exact hfound b' h hfits

theorem flagged_of_rejected {o : Outbox} {id : String}
    (h : id ∈ o.rejectedChatUpdates.map Prod.fst) : Flagged o id := by
  rw [Outbox.rejectedChatUpdates, List.map_map] at h
  obtain ⟨row, hrow, rfl⟩ := List.mem_map.mp h
  exact ⟨row, (List.mem_filter.mp hrow).1, rfl, by simpa using (List.mem_filter.mp hrow).2⟩

theorem inv_connect {s : System} (h : s.Inv) (cursor : ℕ) (hnone : s.client = none) :
    (s.step (.connect cursor)).Inv := by
  have hloaded := loaded_foldl s.outbox.rejectedChatUpdates s.outbox.pendingChatUpdates
    (s.outbox, [])
  obtain ⟨hsocket, hhttps, hsocketSent, hhttpsSent⟩ := h.idle hnone
  have hpending := pending_of_none hnone
  rw [step, if_pos hnone]
  dsimp only
  generalize hc : Client.connect s.outbox cursor = c
  have ho : c.outbox = s.outbox.pendingUpdates.1 := by rw [← hc]; rfl
  have hp : c.shared.pending = s.outbox.pendingUpdates.2.map fun p =>
      { batchId := p.1, bytes := p.2, durable := true } := by rw [← hc]; rfl
  rw [← Outbox.pendingUpdates, ← ho] at hloaded
  have hloadedRow : ∀ q ∈ c.shared.pending, q.durable = true ∧
      ∃ row ∈ s.outbox, (row.batchId, row.bytes) = q.batch := by
    intro q hq
    rw [hp] at hq
    obtain ⟨b, hb, rfl⟩ := List.mem_map.mp hq
    obtain ⟨v, hv, hsub⟩ := hloaded.updates
    rw [hv, List.nil_append] at hb
    obtain ⟨row, hrow, rfl⟩ := List.mem_map.mp (hsub.subset hb)
    exact ⟨rfl, row, hrow, rfl⟩
  have hrowId : ∀ {id}, id ∈ s.outbox.map (·.batchId) → id ∈ c.outbox.map (·.batchId) :=
    fun hid => hloaded.ids ▸ hid
  have hflagged : ∀ {id}, Flagged s.outbox id → Flagged c.outbox id := by
    rintro _ ⟨row, hrow, rfl, hflag⟩
    obtain ⟨row', hrow', hid', hflag'⟩ := hloaded.keeps row hrow
    exact ⟨row', hrow', hid', hflag' hflag⟩
  refine
    { names := h.names
      rows_known := fun row' hrow' => ?_
      pending_known := fun q hq => ?_
      buffer_known := h.buffer_known
      handing_known := h.handing_known
      rows_ordered := hloaded.ids ▸ h.rows_ordered
      held := fun id hid => (h.held id hid).imp_right hrowId
      durable := fun q hq _ => ?_
      clones := fun p hp => ?_
      sent_persisted := h.sent_persisted
      accepted_sent := h.accepted_sent
      checkpoint_persisted := h.checkpoint_persisted
      checkpointed_persisted := h.checkpointed_persisted
      memory := fun id hid => ?_
      memory_kept := fun id hid => ?_
      rows_kept := fun _ row' hrow' => List.mem_append_right _ (List.mem_map_of_mem hrow')
      idle := fun hnone => absurd hnone (Option.some_ne_none _)
      ordered := ?_ }
  · obtain ⟨row, hrow, hid, hbytes⟩ := hloaded.row_of row' hrow'
    rw [← hid, ← hbytes]
    exact h.rows_known row hrow
  · obtain ⟨-, row, hrow, hbatch⟩ := hloadedRow q hq
    rw [← hbatch]
    exact h.rows_known row hrow
  · obtain ⟨-, row, hrow, hbatch⟩ := hloadedRow q hq
    rw [show q.batchId = row.batchId from congrArg Prod.fst hbatch.symm]
    exact row_persisted h hrow
  · rw [hsocket, hhttps] at hp
    cases hp
  · rcases List.mem_append.mp hid with hid | hid
    · rcases h.memory id hid with hmem | hmem | hmem | hmem
      · exact .inl hmem
      · exact .inr (.inl (hflagged hmem))
      · refine .inr (.inr (.inl (mem_memoryIds.mpr (.inr ?_))))
        rcases mem_memoryIds.mp hmem with hmem | hmem
        · rw [hpending] at hmem
          cases hmem
        · exact hmem
      · exact .inr (.inr (.inr hmem))
    · obtain ⟨row', hrow', rfl⟩ := List.mem_map.mp hid
      obtain ⟨row, hrow, hid, hbytes⟩ := hloaded.row_of row' hrow'
      rw [← hid]
      by_cases hfits : row.bytes.length ≤ maxPushBytes
      · rcases hloaded.found (row.batchId, row.bytes) (List.mem_map_of_mem hrow) hfits with hu | hr
        · refine .inr (.inr (.inl (mem_memoryIds.mpr (.inl ?_))))
          change row.batchId ∈ c.shared.pending.map (·.batchId)
          rw [hp, List.map_map]
          exact List.mem_map.mpr ⟨(row.batchId, row.bytes), hu, rfl⟩
        · exact .inr (.inl (hflagged (flagged_of_rejected hr)))
      · exact .inr (.inr (.inr ⟨_, h.rows_known row hrow, rfl, not_le.mp hfits⟩))
  · rcases mem_memoryIds.mp hid with hmem | hmem
    · obtain ⟨q, hq, rfl⟩ := List.mem_map.mp hmem
      obtain ⟨-, row, hrow, hbatch⟩ := hloadedRow q hq
      rw [show q.batchId = row.batchId from congrArg Prod.fst hbatch.symm]
      exact List.mem_append_right _ (hrowId (List.mem_map_of_mem hrow))
    · exact List.mem_append_left _ (h.memory_kept id (mem_memoryIds.mpr (.inr hmem)))
  · refine ⟨?_, [], _, [], _, rfl, rfl, ?_, List.Sublist.refl _, List.Sublist.refl _, by simp⟩
    · change (s.httpsSent ++ s.https.map (·.batchId)).Sublist _
      rw [hhttpsSent, hhttps]
      exact List.nil_sublist _
    · change (s.socketSent ++ s.socket.map (·.batchId)).Sublist _
      rw [hsocketSent, hsocket]
      exact List.Sublist.refl _

theorem inv_dropClient {s : System} (h : s.Inv) : s.dropClient.Inv := by
  refine
    { h with
      pending_known := fun p hp => absurd hp (List.not_mem_nil)
      durable := fun p hp => absurd hp (List.not_mem_nil)
      clones := fun p hp => absurd hp (List.not_mem_nil)
      memory := fun id hid => .inr (.inr (.inl (mem_memoryIds.mpr (.inr ?_))))
      memory_kept := fun id hid => ?_
      rows_kept := fun hclient => absurd rfl hclient
      idle := fun _ => ⟨rfl, rfl, rfl, rfl⟩
      ordered := ⟨List.Sublist.refl _, [], [], [], [], rfl, rfl, List.Sublist.refl _,
        List.Sublist.refl _, List.Sublist.refl _, by simp⟩ }
  · refine (List.mem_append.mp hid).imp_right fun hid => ?_
    rwa [Option.mem_toList, Option.map_eq_some_iff] at hid
  · rcases mem_memoryIds.mp hid with hid | hid | ⟨b, hb, rfl⟩
    · exact absurd hid (List.not_mem_nil)
    · exact List.mem_append_left _ hid
    · refine List.mem_append_right _ ?_
      rw [Option.mem_toList, Option.map_eq_some_iff]
      exact ⟨b, hb, rfl⟩

theorem inv_restart {s : System} (h : s.Inv) : (s.step .restart).Inv :=
  { inv_dropClient h with
    buffer_known := fun _ hb => absurd hb List.not_mem_nil
    handing_known := fun _ hb => absurd hb (Option.some_ne_none _).symm
    checkpoint_persisted := fun _ hids => absurd hids (Option.some_ne_none _).symm
    memory := fun _ hid => absurd hid List.not_mem_nil
    memory_kept := fun _ hid => absurd hid List.not_mem_nil
    rows_kept := fun hclient => absurd rfl hclient
    ordered := ⟨(inv_dropClient h).ordered.https, (inv_dropClient h).ordered.socket⟩ }

/-- What a pass of `push_pending` takes has not been on this socket: all of it came later than what
has. -/
theorem ordered_pass {s : System} (h : s.Ordered) (hsocket : s.socket = []) {inFlight : List String}
    (hflight : ∀ id ∈ s.inFlight, id ∈ s.pending.map (·.batchId) → id ∈ inFlight) :
    Ordered { s with
      inFlight := inFlight
      socket := s.pending.filter fun push => !inFlight.contains push.batchId } := by
  obtain ⟨hhttps, done, ahead, sent, waiting, harrivals, hsplit, hdone, hsent, hwaiting, hsentBy⟩ := h
  have hsent' : ∀ id ∈ sent, id ∈ inFlight := by
    intro id hid
    refine (hsentBy id hid).elim (fun h => hflight id h ?_) fun h => ?_
    · rw [hsplit]
      exact List.mem_append_left _ hid
    · rw [hsocket] at h
      cases h
  have hids : (s.pending.filter fun push => !inFlight.contains push.batchId).map (·.batchId) =
      waiting.filter fun id => !inFlight.contains id := by
    have hmap := List.filter_map (p := fun id => !inFlight.contains id) (f := PendingPush.batchId)
      (l := s.pending)
    rw [hsplit, List.filter_append, List.filter_eq_nil_iff.mpr
      (fun id hid => by simpa using hsent' id hid), List.nil_append] at hmap
    exact hmap.symm
  refine ⟨hhttps, s.arrivals, [], s.pending.map (·.batchId), [], (List.append_nil _).symm,
    (List.append_nil _).symm, ?_, ?_, List.Sublist.refl _, fun id hid => ?_⟩
  · change (s.socketSent ++ (s.pending.filter _).map (·.batchId)).Sublist s.arrivals
    rw [hids, harrivals]
    rw [hsocket, List.map_nil, List.append_nil] at hdone
    exact hdone.append (List.filter_sublist.trans hwaiting)
  · rw [hsplit, harrivals]
    exact hsent.append hwaiting
  · by_cases hin : id ∈ inFlight
    · exact .inl hin
    · obtain ⟨q, hq, rfl⟩ := List.mem_map.mp hid
      exact .inr (List.mem_map_of_mem (List.mem_filter.mpr ⟨hq, by simpa using hin⟩))

theorem clones_of_pending {s : System} (h : s.Inv) {p : PendingPush} (hp : p ∈ s.pending) :
    p.batchId ∈ s.persisted ∨
      (p.durable = false ∧ p.batchId ∈ s.pending.map (·.batchId)) := by
  cases hd : p.durable with
  | true => exact .inl (h.durable p hp hd)
  | false => exact .inr ⟨rfl, List.mem_map_of_mem hp⟩

theorem inv_pushPending {s : System} (h : s.Inv) : (s.step .pushPending).Inv := by
  rw [step]
  split_ifs with hsocket
  · split
    · exact h
    · rename_i shared hclient
      have hp := pending_of_client hclient
      have hflight : ∀ id ∈ s.inFlight, id ∈ s.pending.map (·.batchId) →
          id ∈ s.inFlight.filter fun id => shared.pending.any (·.batchId = id) := by
        intro id hid hmem
        obtain ⟨q, hq, hqid⟩ := List.mem_map.mp hmem
        exact List.mem_filter.mpr ⟨hid, List.any_eq_true.mpr ⟨q, hp ▸ hq, by simpa using hqid⟩⟩
      have hpass := ordered_pass h.ordered hsocket hflight
      split_ifs
      · obtain ⟨hhttps, done, ahead, sent, waiting, harrivals, hsplit, hdone, hsent, hwaiting,
          hsentBy⟩ := h.ordered
        refine { h with
          ordered := ⟨hhttps, done, ahead, sent, waiting, harrivals, hsplit, hdone, hsent,
            hwaiting, fun id hid => (hsentBy id hid).imp_left fun h => hflight id h ?_⟩ }
        rw [hsplit]
        exact List.mem_append_left _ hid
      · rw [← hp]
        exact { h with
          clones := fun p hp' => (List.mem_append.mp hp').elim
            (fun hp' => clones_of_pending h (List.mem_filter.mp hp').1)
            fun hp' => h.clones p (List.mem_append_right _ hp')
          idle := fun hnone => absurd (hnone.symm.trans hclient) (Option.some_ne_none _).symm
          ordered := by rw [← hp] at hpass; exact hpass }
  · exact h

theorem inv_cycle {s : System} (h : s.Inv) : (s.step .cycle).Inv := by
  rw [step]
  split_ifs with hdue
  · obtain ⟨-, done, ahead, sent, waiting, harrivals, hsplit, hdone, hsent, hwaiting, hsentBy⟩ :=
      h.ordered
    refine { h with
      clones := fun p hp => (List.mem_append.mp hp).elim
        (fun hp => h.clones p (List.mem_append_left _ hp)) fun hp => clones_of_pending h hp
      idle := fun hnone => ⟨(h.idle hnone).1, pending_of_none hnone, (h.idle hnone).2.2.1, rfl⟩
      ordered := ⟨?_, done, ahead, sent, waiting, harrivals, hsplit, hdone, hsent, hwaiting,
        hsentBy⟩ }
    change ([] ++ s.pending.map PendingPush.batchId).Sublist s.arrivals
    rw [List.nil_append, hsplit, harrivals]
    exact hsent.append hwaiting
  · exact h

theorem mem_foldl_acknowledge {o : Outbox} {ids : List String} {row : OutboxRow} :
    row ∈ ids.foldl Outbox.acknowledgeChatUpdate o ↔ row ∈ o ∧ row.batchId ∉ ids := by
  induction ids generalizing o with
  | nil => simp
  | cons id ids ih =>
    rw [List.foldl_cons, ih, Outbox.acknowledgeChatUpdate, List.mem_filter]
    simp [and_assoc]

theorem sublist_foldl_acknowledge {o : Outbox} {ids : List String} :
    (ids.foldl Outbox.acknowledgeChatUpdate o).Sublist o := by
  induction ids generalizing o with
  | nil => exact List.Sublist.refl _
  | cons id ids ih => exact ih.trans List.filter_sublist

/-- A posted checkpoint settles what it covers; the store may forget it. -/
theorem inv_covered {s : System} (h : s.Inv) (stored : String → Bool) :
    (s.step (.covered stored)).Inv := by
  rw [step]
  split
  · exact h
  · rename_i ids hids
    have hrows : ∀ {row}, row ∈ (ids.filter stored).foldl Outbox.acknowledgeChatUpdate s.outbox →
        row ∈ s.outbox := fun hrow => (mem_foldl_acknowledge.mp hrow).1
    have hsettled : ∀ {id}, s.Settled id → id ∈ s.accepted ∨ id ∈ s.checkpointed ++ ids :=
      fun hid => hid.imp_right (List.mem_append_left _)
    have hstay : ∀ row ∈ s.outbox, (row.batchId ∈ s.accepted ∨ row.batchId ∈ s.checkpointed ++ ids) ∨
        row ∈ (ids.filter stored).foldl Outbox.acknowledgeChatUpdate s.outbox := by
      intro row hrow
      by_cases hid : row.batchId ∈ ids
      · exact .inl (.inr (List.mem_append_right _ hid))
      · exact .inr (mem_foldl_acknowledge.mpr ⟨hrow, fun h => hid (List.mem_filter.mp h).1⟩)
    refine { h with
      rows_known := fun row hrow => h.rows_known row (hrows hrow)
      rows_ordered := (sublist_foldl_acknowledge.map _).trans h.rows_ordered
      held := fun id hid => ?_
      checkpoint_persisted := fun ids hids => absurd hids (Option.some_ne_none _).symm
      checkpointed_persisted := fun id hid => ?_
      memory := fun id hid => ?_
      rows_kept := fun hclient row hrow => h.rows_kept hclient row (hrows hrow)
      ordered := ⟨h.ordered.https, h.ordered.socket⟩ }
    · rcases h.held id hid with hid | hmem
      · exact .inl (hsettled hid)
      · obtain ⟨row, hrow, rfl⟩ := List.mem_map.mp hmem
        exact (hstay row hrow).imp_right List.mem_map_of_mem
    · exact (List.mem_append.mp hid).elim (h.checkpointed_persisted id)
        (h.checkpoint_persisted ids hids id)
    · rcases h.memory id hid with hmem | ⟨row, hrow, rfl, hflag⟩ | hmem
      · exact .inl (hsettled hmem)
      · exact (hstay row hrow).imp_right fun hrow' => .inl ⟨row, hrow', rfl, hflag⟩
      · exact .inr (.inr hmem)

/-! ### Runs -/

theorem takes_withClient {s : System} {shared : Shared} (hclient : s.client = some shared)
    (stored rejected : Bool) (b : String × Bytes) (hfits : b.2.length ≤ maxPushBytes) :
    b.1 ∈ (s.withClient (·.enqueueBatch stored rejected b.1 b.2)).pending.map (·.batchId) := by
  have h := (@change_enqueueBatch s.Settled { shared, outbox := s.outbox } stored
    rejected b).takes b (List.mem_singleton_self _) hfits
  rw [withClient, hclient]
  exact h

theorem withClient_frame (s : System) (f : Client → Client) :
    (s.withClient f).handing = s.handing ∧ (s.withClient f).buffer = s.buffer := by
  rw [withClient]
  cases s.client with
  | none => exact ⟨rfl, rfl⟩
  | some shared => exact ⟨rfl, rfl⟩

theorem inv_enqueue {s : System} (h : s.Inv) {b : String × Bytes} (hb : b ∈ s.enqueued)
    (hkept : b.1 ∈ s.kept) (stored rejected : Bool) :
    (s.withClient (·.enqueueBatch stored rejected b.1 b.2)).Inv :=
  @inv_withClient s h [b]
    (fun _ hb' => by rw [List.mem_singleton.mp hb']; exact ⟨hb, hkept⟩)
    _ fun c _ _ => change_enqueueBatch c stored rejected b

/-- **Every step keeps the invariant.** -/
theorem inv_step {s : System} (h : s.Inv) (a : Act) : (s.step a).Inv := by
  cases a with
  | commit batchId bytes stored =>
    rw [step]
    split_ifs with hdue
    · exact inv_commit h bytes stored hdue.1 hdue.2
    · exact h
  | handOver stored rejected =>
    rw [step]
    split
    · exact h
    · rename_i batchId bytes hhanding
      split_ifs with hinstalling hjoined
      · exact h
      · obtain ⟨shared, hclient⟩ := Option.isSome_iff_exists.mp hjoined.1
        have hmem : batchId ∈ s.memoryIds := mem_memoryIds.mpr (.inr (.inr ⟨_, hhanding, rfl⟩))
        have hput := inv_enqueue h (h.handing_known _ hhanding) (h.memory_kept _ hmem) stored
          rejected
        exact inv_handed hput ((withClient_frame _ _).1.trans hhanding)
          (takes_withClient hclient stored rejected (batchId, bytes))
      · exact inv_buffered h hhanding
  | initOutbox batchId bytes =>
    rw [step]
    split_ifs with hdue
    · exact inv_initOutbox h bytes hdue.1 hdue.2
    · exact h
  | connect cursor =>
    by_cases hnone : s.client = none
    · exact inv_connect h cursor hnone
    · rw [step, if_neg hnone]
      exact h
  | install =>
    rw [step]
    split_ifs
    · exact { h with ordered := ⟨h.ordered.https, h.ordered.socket⟩ }
    · exact h
  | drain stored rejected =>
    rw [step]
    split_ifs with hinstalling
    · split
      · exact { h with ordered := ⟨h.ordered.https, h.ordered.socket⟩ }
      · rename_i batchId bytes buffer hbuffer
        obtain ⟨shared, hclient⟩ := Option.isSome_iff_exists.mp hinstalling.1
        have hb : (batchId, bytes) ∈ s.buffer := hbuffer ▸ List.mem_cons_self
        have hmem : batchId ∈ s.memoryIds := mem_memoryIds.mpr (.inr (.inl (List.mem_map_of_mem hb)))
        have hput := inv_enqueue h (h.buffer_known _ hb) (h.memory_kept _ hmem) stored rejected
        exact inv_drained hput ((withClient_frame _ _).2.trans hbuffer)
          (takes_withClient hclient stored rejected (batchId, bytes))
    · exact h
  | leave => exact inv_dropClient h
  | restart => exact inv_restart h
  | dial => exact inv_hangUp h
  | pushPending => exact inv_pushPending h
  | pushNext stored sends =>
    rw [step]
    split
    · rename_i shared push rest hclient hsocket
      exact inv_pushTurn h hclient stored sends hsocket
    · exact h
  | pushHead stored sends =>
    rw [step]
    split
    · exact h
    · rename_i shared hclient
      split_ifs
      · exact inv_headTurn h hclient stored sends
      · exact h
  | ack stored batchId seq =>
    rw [step]
    split_ifs with haccepted
    · refine @inv_withClient s h [] (by simp) _ fun c _ _ => ?_
      exact change_handleAck c (Or.inl haccepted) stored seq
    · exact h
  | error stored code batchId =>
    rw [step]
    split
    · exact h
    · rename_i shared hclient
      split_ifs with hunsent
      · exact h
      · have hp := pending_of_client hclient
        have hsent : Client.permanent code = true →
            s.Settled batchId ∨ batchId ∈ s.outbox.map (·.batchId) := fun hcode =>
          row_or_settled h (by_contra fun hnot => hunsent ⟨hcode, hnot⟩)
        have hchange := change_handleError { shared, outbox := s.outbox } stored hsent
        generalize Client.handleError { shared, outbox := s.outbox } stored code batchId = out
          at hchange
        obtain ⟨c, alive⟩ := out
        rw [← hp] at hchange
        have hput := inv_put h hclient hchange (by simp)
        cases alive with
        | true => exact hput
        | false => exact inv_hangUp hput
  | cycle => exact inv_cycle h
  | post stored =>
    rw [step]
    split
    · rename_i shared push rest hclient hposted hhttps
      exact inv_postTurn h hclient stored hhttps
    · exact h
  | postOk stored seq =>
    rw [step]
    split
    · exact h
    · rename_i batchId hposted
      split_ifs with haccepted
      · have hput : (s.withClient (·.httpAck stored batchId seq)).Inv :=
          @inv_withClient s h [] (by simp) _ fun c _ _ =>
            change_httpAck c (Or.inl haccepted) stored seq
        exact { hput with ordered := ⟨hput.ordered.https, hput.ordered.socket⟩ }
      · exact h
  | postFailed => exact inv_stop h none
  | take batchId =>
    rw [step]
    split_ifs with hsent
    · have hsettled : ∀ {id}, s.Settled id → id ∈ s.accepted ++ [batchId] ∨ id ∈ s.checkpointed :=
        fun hid => hid.imp_left (List.mem_append_left _)
      refine { h with
        held := fun id hid => (h.held id hid).imp_left hsettled
        accepted_sent := fun id hid => ?_
        memory := fun id hid => (h.memory id hid).imp_left hsettled
        ordered := ⟨h.ordered.https, h.ordered.socket⟩ }
      rcases List.mem_append.mp hid with hid | hid
      · exact h.accepted_sent id hid
      · rw [List.mem_singleton.mp hid]
        exact hsent
    · exact h
  | capture covers =>
    rw [step]
    split_ifs with hdue
    · refine { h with
        checkpoint_persisted := fun ids hids id hid => ?_
        ordered := ⟨h.ordered.https, h.ordered.socket⟩ }
      rw [← Option.some.inj hids] at hid
      exact flagged_persisted h (flagged_of_rejected (List.mem_filter.mp hid).1)
    · exact h
  | covered stored => exact inv_covered h stored
  | uncovered =>
    exact { h with
      checkpoint_persisted := fun _ hids => absurd hids (Option.some_ne_none _).symm
      ordered := ⟨h.ordered.https, h.ordered.socket⟩ }

theorem inv_run (acts : List Act) : (run acts).Inv := by
  rw [run]
  generalize hs : init = s
  have h : s.Inv := hs ▸ inv_init
  clear hs
  induction acts generalizing s with
  | nil => exact h
  | cons a acts ih => exact ih _ (inv_step h a)

/-- The batch is in the store. -/
def InStore (s : System) (b : String × Bytes) : Prop :=
  ∃ row ∈ s.outbox, (row.batchId, row.bytes) = b

/-- The batch is in the store, owed to a checkpoint. -/
def Owed (s : System) (b : String × Bytes) : Prop :=
  ∃ row ∈ s.outbox, (row.batchId, row.bytes) = b ∧ row.needsCheckpoint = true

/-- The batch is in memory: in the client's queue, in the buffer or with the callback. -/
def InMemory (s : System) (b : String × Bytes) : Prop :=
  b ∈ s.pending.map (·.batch) ∨ b ∈ s.buffer ∨ s.handing = some b

/-- What an acknowledgement of a batch leaves. -/
def Acked (s s' : System) (stored : Bool) (id : String) : Prop :=
  s'.outbox = (if stored then s.outbox.filter (·.batchId ≠ id) else s.outbox) ∧
    s'.pending = if stored then s.pending.filter (·.batchId ≠ id) else s.pending

theorem eq_of_id {s : System} (h : s.Inv) {b b' : String × Bytes} (hb : b ∈ s.enqueued)
    (hb' : b' ∈ s.enqueued) (hid : b'.1 = b.1) : b' = b :=
  List.inj_on_of_nodup_map h.names hb' hb hid

theorem inStore_of_row {s : System} (h : s.Inv) {b : String × Bytes} (hb : b ∈ s.enqueued)
    (hrow : b.1 ∈ s.outbox.map (·.batchId)) : s.InStore b := by
  obtain ⟨row, hrow, hid⟩ := List.mem_map.mp hrow
  exact ⟨row, hrow, eq_of_id h hb (h.rows_known row hrow) hid⟩

theorem owed_of_flagged {s : System} (h : s.Inv) {b : String × Bytes} (hb : b ∈ s.enqueued)
    (hflag : Flagged s.outbox b.1) : s.Owed b := by
  obtain ⟨row, hrow, hid, hflag⟩ := hflag
  exact ⟨row, hrow, eq_of_id h hb (h.rows_known row hrow) hid, hflag⟩

theorem inMemory_of_id {s : System} (h : s.Inv) {b : String × Bytes} (hb : b ∈ s.enqueued)
    (hmem : b.1 ∈ s.memoryIds) : s.InMemory b := by
  rcases mem_memoryIds.mp hmem with hmem | hmem | ⟨b', hb', hid⟩
  · obtain ⟨q, hq, hid⟩ := List.mem_map.mp hmem
    exact .inl (List.mem_map.mpr ⟨q, hq, eq_of_id h hb (h.pending_known q hq) hid⟩)
  · obtain ⟨b', hb', hid⟩ := List.mem_map.mp hmem
    exact .inr (.inl (eq_of_id h hb (h.buffer_known b' hb') hid ▸ hb'))
  · exact .inr (.inr (hb'.trans (congrArg some (eq_of_id h hb (h.handing_known b' hb') hid))))

theorem acked_withClient {s : System} (hclient : s.client ≠ none) {f : Client → Client}
    {stored : Bool} {id : String}
    (ho : ∀ c : Client, (f c).outbox =
      if stored then c.outbox.acknowledgeChatUpdate id else c.outbox)
    (hp : ∀ c : Client, (f c).shared.pending =
      if stored then c.shared.pending.filter (·.batchId ≠ id) else c.shared.pending) :
    Acked s (s.withClient f) stored id := by
  obtain ⟨shared, hshared⟩ := Option.ne_none_iff_exists'.mp hclient
  rw [withClient, hshared, Acked, pending_of_client hshared]
  exact ⟨ho _, hp _⟩

/-- A write fails, and the process ends. -/
def lostRun : List Act := [.commit "a" [1] false, .handOver true true, .restart]

/-- A write fails, the next succeeds, the first is made up for, and the process ends before it is
sent. -/
def reorderedRun : List Act :=
  [.connect 0, .install, .drain true true, .commit "a" [1] false, .handOver false true,
    .commit "b" [2] true, .handOver true true, .dial, .pushPending, .pushNext true false,
    .restart, .connect 0, .dial, .pushPending, .pushNext true true, .pushNext true true]

end System

end Zeron.Chat
