import Zeron.Rpc.Pumps

/-!
# A local connection keeps moving

* `Clear`: no step closes one of the two cycles;
* `clear_step`: without it neither cycle comes about;
* `moves_of_clear`: apart from the cycles some step is enabled; `Traced`: a call is on its way;
* **`link_moves`**; `pumps_cross`: two bursts, and both pumps write.
-/

namespace Zeron.Rpc.Link

open Run

variable {k : Socket} {s s' : Link}

/-! ## The cycles -/

/-- A reader that finds its stream's receiver gone, a frame that takes the last place of the outbound
queue, and a pump that starts to await the inbound queue do not close the first cycle; a pump that
starts to write does not close the second. -/
def Clear (k : Socket) (s : Link) : Act → Prop
  | .push => s.reader.dead s.queues = true → s.clientPump.delivers = true →
      queueCap ≤ s.inbound.length → s.out.length < queueCap
  | .enter => s.reader.cancels = true → s.clientPump.delivers = true →
      queueCap ≤ s.inbound.length → s.out.length + 1 < queueCap
  | .takeIn => s.reader.cancels = true → queueCap ≤ s.inbound.length → s.out.length < queueCap
  | .takeOut => s.serverPump.writes = true → k.down ≤ s.down.length → s.up.length < k.up
  | .serverTakeOut => s.clientPump.writes = true → k.up ≤ s.up.length → s.down.length < k.down
  | _ => True

instance (k : Socket) (s : Link) (a : Act) : Decidable (s.Clear k a) :=
  match a with
  | .push => inferInstanceAs (Decidable (s.reader.dead s.queues = true →
      s.clientPump.delivers = true → queueCap ≤ s.inbound.length → s.out.length < queueCap))
  | .enter => inferInstanceAs (Decidable (s.reader.cancels = true →
      s.clientPump.delivers = true → queueCap ≤ s.inbound.length → s.out.length + 1 < queueCap))
  | .takeIn => inferInstanceAs (Decidable (s.reader.cancels = true →
      queueCap ≤ s.inbound.length → s.out.length < queueCap))
  | .takeOut => inferInstanceAs (Decidable (s.serverPump.writes = true →
      k.down ≤ s.down.length → s.up.length < k.up))
  | .serverTakeOut => inferInstanceAs (Decidable (s.clientPump.writes = true →
      k.up ≤ s.up.length → s.down.length < k.down))
  | .call | .subscribe | .dropReceiver _ | .unsubscribe _ | .write | .deliver | .route
  | .sendCancel | .consume _ | .serverWrite | .serverTakeIn | .serverDeliver | .serve | .work _ _
  | .sendTask _ => isTrue trivial

theorem not_jammed (hj : ¬ s.Jammed) (hreader : s'.reader = s.reader)
    (hpump : s'.clientPump = s.clientPump) (hin : s'.inbound.length ≤ s.inbound.length)
    (hout : s'.out.length ≤ s.out.length) : ¬ s'.Jammed := by
  intro h
  refine hj ⟨?_, ?_, h.inbound.trans hin, h.out.trans hout⟩
  · rw [← hreader]
    exact h.reader
  · rw [← hpump]
    exact h.pump

theorem not_crossed (hc : ¬ s.Crossed k) (hclient : s'.clientPump = s.clientPump)
    (hserver : s'.serverPump = s.serverPump) (hup : s'.up.length ≤ s.up.length)
    (hdown : s'.down.length ≤ s.down.length) : ¬ s'.Crossed k := by
  intro h
  refine hc ⟨?_, ?_, h.up.trans hup, h.down.trans hdown⟩
  · rw [← hclient]
    exact h.client
  · rw [← hserver]
    exact h.server

theorem routeFrame_same (s : Link) (f : ServerFrame) :
    ∃ reader table, s.routeFrame f = { s with reader, table } ∧
      ∀ id, reader = .cancelling id → s.reader = .cancelling id := by
  cases f with
  | ready id =>
    simp only [routeFrame]
    split_ifs
    · exact ⟨s.reader, _, rfl, fun _ h => h⟩
    · exact ⟨s.reader, s.table, rfl, fun _ h => h⟩
  | item id =>
    simp only [routeFrame]
    split_ifs
    · exact ⟨.pushing id, s.table, rfl, by simp⟩
    · exact ⟨s.reader, s.table, rfl, fun _ h => h⟩
  | last id => exact ⟨s.reader, _, rfl, fun _ h => h⟩

theorem serveFrame_same (s : Link) (f : ClientFrame) :
    ∃ tasks, s.serveFrame f = { s with tasks } := by
  cases f <;> exact ⟨_, rfl⟩

/-- **A step that is clear closes no cycle.** -/
theorem clear_step {a : Act} (hj : ¬ s.Jammed) (hc : ¬ s.Crossed k) (hg : s.Clear k a)
    (hs : s.step k a = some s') : ¬ s'.Jammed ∧ ¬ s'.Crossed k := by
  cases a with
  | call | subscribe | dropReceiver =>
    obtain rfl := Option.some_inj.mp hs
    exact ⟨not_jammed hj rfl rfl le_rfl le_rfl, not_crossed hc rfl rfl le_rfl le_rfl⟩
  | unsubscribe id =>
    obtain rfl := Option.some_inj.mp hs
    simp only [unsubscribe]
    split_ifs <;> exact ⟨not_jammed hj rfl rfl le_rfl le_rfl, not_crossed hc rfl rfl le_rfl le_rfl⟩
  | enter =>
    simp only [step] at hs
    split at hs
    · split_ifs at hs
      obtain rfl := Option.some_inj.mp hs
      refine ⟨fun h => ?_, not_crossed hc rfl rfl le_rfl le_rfl⟩
      obtain ⟨id, hid⟩ := h.reader
      obtain ⟨g, hpump⟩ := h.pump
      dsimp only at hid hpump
      have hroom := hg (by simp [hid, Reader.cancels]) (by simp [hpump, Pump.delivers]) h.inbound
      have hfull := h.out
      simp only [List.length_append, List.length_singleton] at hfull
      omega
    · simp at hs
  | takeOut =>
    simp only [step] at hs
    split at hs
    · obtain rfl := Option.some_inj.mp hs
      refine ⟨fun h => ?_, fun h => ?_⟩
      · obtain ⟨f, hf⟩ := h.pump
        simp at hf
      · obtain ⟨g, hserver⟩ := h.server
        dsimp only at hserver
        have hroom := hg (by simp [hserver, Pump.writes]) h.down
        have hfull := h.up
        dsimp only at hfull
        omega
    · simp at hs
  | write =>
    simp only [step] at hs
    split at hs
    · split_ifs at hs
      obtain rfl := Option.some_inj.mp hs
      refine ⟨fun h => ?_, fun h => ?_⟩
      · obtain ⟨f, hf⟩ := h.pump
        simp at hf
      · obtain ⟨f, hf⟩ := h.client
        simp at hf
    · simp at hs
  | takeIn =>
    simp only [step] at hs
    split at hs
    · obtain rfl := Option.some_inj.mp hs
      refine ⟨fun h => ?_, fun h => ?_⟩
      · obtain ⟨id, hid⟩ := h.reader
        dsimp only at hid
        have hroom := hg (by simp [hid, Reader.cancels]) h.inbound
        have hfull := h.out
        dsimp only at hfull
        omega
      · obtain ⟨f, hf⟩ := h.client
        simp at hf
    · simp at hs
  | deliver =>
    simp only [step] at hs
    split at hs
    · split_ifs at hs
      obtain rfl := Option.some_inj.mp hs
      refine ⟨fun h => ?_, fun h => ?_⟩
      · obtain ⟨f, hf⟩ := h.pump
        simp at hf
      · obtain ⟨f, hf⟩ := h.client
        simp at hf
    · simp at hs
  | route =>
    simp only [step] at hs
    split at hs
    · rename_i f rest hreader hin
      obtain rfl := Option.some_inj.mp hs
      obtain ⟨reader, table, he, hkeep⟩ := routeFrame_same { s with inbound := rest } f
      rw [he]
      refine ⟨fun h => ?_, not_crossed hc rfl rfl le_rfl le_rfl⟩
      obtain ⟨id, hid⟩ := h.reader
      simp [hreader] at hkeep
      exact hkeep id hid
    · simp at hs
  | push =>
    simp only [step] at hs
    split at hs
    · rename_i id hreader
      split at hs
      · rename_i hgone
        obtain rfl := Option.some_inj.mp hs
        refine ⟨fun h => ?_, not_crossed hc rfl rfl le_rfl le_rfl⟩
        obtain ⟨f, hpump⟩ := h.pump
        dsimp only at hpump
        have hroom := hg (by simp [hreader, Reader.dead, hgone]) (by simp [hpump, Pump.delivers])
          h.inbound
        have hfull := h.out
        dsimp only at hfull
        omega
      · split_ifs at hs
        obtain rfl := Option.some_inj.mp hs
        refine ⟨fun h => ?_, not_crossed hc rfl rfl le_rfl le_rfl⟩
        obtain ⟨id, hid⟩ := h.reader
        simp at hid
    · simp at hs
  | sendCancel =>
    simp only [step] at hs
    split at hs
    · split_ifs at hs
      obtain rfl := Option.some_inj.mp hs
      refine ⟨fun h => ?_, not_crossed hc rfl rfl le_rfl le_rfl⟩
      obtain ⟨id, hid⟩ := h.reader
      simp at hid
    · simp at hs
  | consume id =>
    simp only [step] at hs
    split at hs
    · obtain rfl := Option.some_inj.mp hs
      exact ⟨not_jammed hj rfl rfl le_rfl le_rfl, not_crossed hc rfl rfl le_rfl le_rfl⟩
    · simp at hs
  | serverTakeOut =>
    simp only [step] at hs
    split at hs
    · obtain rfl := Option.some_inj.mp hs
      refine ⟨not_jammed hj rfl rfl le_rfl le_rfl, fun h => ?_⟩
      obtain ⟨g, hclient⟩ := h.client
      dsimp only at hclient
      have hroom := hg (by simp [hclient, Pump.writes]) h.up
      have hfull := h.down
      dsimp only at hfull
      omega
    · simp at hs
  | serverWrite =>
    simp only [step] at hs
    split at hs
    · split_ifs at hs
      obtain rfl := Option.some_inj.mp hs
      refine ⟨not_jammed hj rfl rfl le_rfl le_rfl, fun h => ?_⟩
      obtain ⟨f, hf⟩ := h.server
      simp at hf
    · simp at hs
  | serverTakeIn =>
    simp only [step] at hs
    split at hs
    · obtain rfl := Option.some_inj.mp hs
      refine ⟨not_jammed hj rfl rfl le_rfl le_rfl, fun h => ?_⟩
      obtain ⟨f, hf⟩ := h.server
      simp at hf
    · simp at hs
  | serverDeliver =>
    simp only [step] at hs
    split at hs
    · split_ifs at hs
      obtain rfl := Option.some_inj.mp hs
      refine ⟨not_jammed hj rfl rfl le_rfl le_rfl, fun h => ?_⟩
      obtain ⟨f, hf⟩ := h.server
      simp at hf
    · simp at hs
  | serve =>
    simp only [step] at hs
    split at hs
    · rename_i f rest hin
      obtain rfl := Option.some_inj.mp hs
      obtain ⟨tasks, he⟩ := serveFrame_same { s with serverInbound := rest } f
      rw [he]
      exact ⟨not_jammed hj rfl rfl le_rfl le_rfl, not_crossed hc rfl rfl le_rfl le_rfl⟩
    · simp at hs
  | work i f =>
    simp only [step] at hs
    split at hs
    · split_ifs at hs
      obtain rfl := Option.some_inj.mp hs
      exact ⟨not_jammed hj rfl rfl le_rfl le_rfl, not_crossed hc rfl rfl le_rfl le_rfl⟩
    · simp at hs
  | sendTask i =>
    simp only [step] at hs
    split at hs
    · split_ifs at hs <;> obtain rfl := Option.some_inj.mp hs <;>
        exact ⟨not_jammed hj rfl rfl le_rfl le_rfl, not_crossed hc rfl rfl le_rfl le_rfl⟩
    · simp at hs

/-! ## Some step is enabled -/

/-- **Where no two parts wait for one another, one of them can move.** -/
theorem moves_of_clear (hj : ¬ s.Jammed) (hc : ¬ s.Crossed k) (hbusy : ¬ s.Quiet) : s.Moves k := by
  by_contra hstuck
  have hno : ∀ a : Act, a.internal = true → s.step k a = none := by
    intro a ha
    by_contra hne
    exact hstuck ⟨a, ha, Option.isSome_iff_ne_none.mpr hne⟩
  have hserverInbound : s.serverInbound = [] := by
    cases hin : s.serverInbound with
    | nil => rfl
    | cons f rest => simpa [step, hin] using hno .serve rfl
  have hserver : s.serverPump = .idle ∧ s.serverOut = [] ∧ s.up = [] ∨
      (∃ f, s.serverPump = .writing f) ∧ k.down ≤ s.down.length := by
    cases hpump : s.serverPump with
    | idle =>
      left
      refine ⟨rfl, ?_, ?_⟩
      · cases hout : s.serverOut with
        | nil => rfl
        | cons f rest => simpa [step, hpump, hout] using hno .serverTakeOut rfl
      · cases hup : s.up with
        | nil => rfl
        | cons f rest => simpa [step, hpump, hup] using hno .serverTakeIn rfl
    | writing f =>
      right
      refine ⟨⟨f, rfl⟩, ?_⟩
      have := hno .serverWrite rfl
      simp only [step, hpump] at this
      split_ifs at this with hlt
      omega
    | delivering f =>
      have := hno .serverDeliver rfl
      simp [step, hpump, hserverInbound, queueCap] at this
  have hreader : s.reader = .idle ∧ s.inbound = [] ∨
      (∃ id, s.reader = .cancelling id) ∧ queueCap ≤ s.out.length := by
    cases hr : s.reader with
    | idle =>
      left
      refine ⟨rfl, ?_⟩
      cases hin : s.inbound with
      | nil => rfl
      | cons f rest => simpa [step, hr, hin] using hno .route rfl
    | pushing id =>
      have hpush := hno .push rfl
      have hconsume := hno (.consume id) rfl
      simp only [step, hr] at hpush
      cases hq : s.queues id with
      | none => simp [hq] at hpush
      | some level =>
        simp only [hq] at hpush
        split_ifs at hpush with hlt
        cases level with
        | zero => simp [streamQueueCap] at hlt
        | succ level => simp [step, hq] at hconsume
    | cancelling id =>
      right
      refine ⟨⟨id, rfl⟩, ?_⟩
      have := hno .sendCancel rfl
      simp only [step, hr] at this
      split_ifs at this with hlt
      omega
  cases hpump : s.clientPump with
  | writing f =>
    have hup : k.up ≤ s.up.length := by
      have := hno .write rfl
      simp only [step, hpump] at this
      split_ifs at this with hlt
      omega
    rcases hserver with ⟨-, -, hempty⟩ | ⟨hwriting, hdown⟩
    · have := k.up_pos
      rw [hempty, List.length_nil] at hup
      omega
    · exact hc ⟨⟨f, hpump⟩, hwriting, hup, hdown⟩
  | delivering f =>
    have hin : queueCap ≤ s.inbound.length := by
      have := hno .deliver rfl
      simp only [step, hpump] at this
      split_ifs at this with hlt
      omega
    rcases hreader with ⟨-, hempty⟩ | ⟨hcancel, hout⟩
    · simp [hempty, queueCap] at hin
    · exact hj ⟨hcancel, ⟨f, hpump⟩, hin, hout⟩
  | idle =>
    have hout : s.out = [] := by
      cases hout : s.out with
      | nil => rfl
      | cons f rest => simpa [step, hpump, hout] using hno .takeOut rfl
    have hdown : s.down = [] := by
      cases hdown : s.down with
      | nil => rfl
      | cons f rest => simpa [step, hpump, hdown] using hno .takeIn rfl
    have hwaiting : s.waiting = [] := by
      cases hw : s.waiting with
      | nil => rfl
      | cons f rest => simpa [step, hw, hout, queueCap] using hno .enter rfl
    obtain ⟨hr, hin⟩ : s.reader = .idle ∧ s.inbound = [] := by
      rcases hreader with h | ⟨-, h⟩
      · exact h
      · simp [hout, queueCap] at h
    obtain ⟨hsp, hso, hup⟩ : s.serverPump = .idle ∧ s.serverOut = [] ∧ s.up = [] := by
      rcases hserver with h | ⟨-, h⟩
      · exact h
      · have := k.down_pos
        simp only [hdown, List.length_nil] at h
        omega
    have htasks : s.tasks = [] := by
      cases ht : s.tasks with
      | nil => rfl
      | cons task rest =>
        cases hsend : task.sending with
        | none => simpa [step, ht, hsend, ServerFrame.id] using hno (.work 0 (.last task.id)) rfl
        | some f =>
          have := hno (.sendTask 0) rfl
          obtain ⟨id, sending⟩ := task
          simp only at hsend
          simp [step, ht, hsend, hso, queueCap] at this
    exact hbusy ⟨hwaiting, hout, hpump, hin, hr, hup, hdown, hsp, hserverInbound, hso, htasks⟩

/-! ## A pending call is on its way -/

def held {α β : Type} : Pump α β → List α
  | .writing f => [f]
  | _ => []

def taken {α β : Type} : Pump α β → List β
  | .delivering f => [f]
  | _ => []

/-- What the client has sent and the server has not read. -/
def upstream (s : Link) : List ClientFrame :=
  s.waiting ++ s.out ++ held s.clientPump ++ s.up ++ taken s.serverPump ++ s.serverInbound

def downstream (s : Link) : List ServerFrame :=
  s.serverOut ++ held s.serverPump ++ s.down ++ taken s.clientPump ++ s.inbound

/-- A cancellation under way, or one that the reader may be about to send. -/
def Cancelled (s : Link) (id : ℕ) : Prop :=
  .cancel id ∈ s.upstream ∨ s.reader = .pushing id ∨ s.reader = .cancelling id

/-- Its request, its task or its answer is somewhere. -/
def Served (s : Link) (id : ℕ) : Prop :=
  .request id ∈ s.upstream ∨ (∃ task ∈ s.tasks, task.id = id) ∨ .last id ∈ s.downstream

/-- Only streams are cancelled, and a call that is pending is served. -/
structure Traced (s : Link) : Prop where
  fresh : ∀ id, s.nextId ≤ id → s.table id = none
  spared : ∀ id, s.Cancelled id → id < s.nextId ∧ s.table id ≠ some .call
  trail : ∀ id, s.table id = some .call → s.Served id

theorem traced_start : start.Traced := by
  refine ⟨fun _ _ => rfl, fun id h => ?_, fun id h => ?_⟩
  · simp [Cancelled, start, upstream, held, taken] at h
  · simp [start] at h

theorem Traced.keep (h : s.Traced) (hnext : s'.nextId = s.nextId)
    (htable : ∀ id, s'.table id = s.table id ∨ s'.table id = none)
    (hcancel : ∀ id, s'.Cancelled id → s.Cancelled id ∨ s.table id = some .stream)
    (hserved : ∀ id, s'.table id = some .call → s.Served id → s'.Served id) : s'.Traced := by
  have hcall : ∀ id, s'.table id = some .call → s.table id = some .call := by
    intro id hid
    rcases htable id with he | he
    · rwa [he] at hid
    · simp [he] at hid
  refine ⟨fun id hid => ?_, fun id hid => ?_, fun id hid => hserved id hid (h.trail id (hcall id hid))⟩
  · rcases htable id with he | he
    · rw [he]
      exact h.fresh id (hnext ▸ hid)
    · exact he
  · rw [hnext]
    rcases hcancel id hid with hold | hstream
    · exact ⟨(h.spared id hold).1, fun hc => (h.spared id hold).2 (hcall id hc)⟩
    · refine ⟨?_, fun hc => ?_⟩
      · by_contra hge
        simp [h.fresh id (by omega)] at hstream
      · have := hcall id hc
        simp [hstream] at this

theorem Traced.move (h : s.Traced) (hnext : s'.nextId = s.nextId) (htable : s'.table = s.table)
    (hreader : s'.reader = s.reader) (htasks : s'.tasks = s.tasks)
    (hup : ∀ f, f ∈ s'.upstream ↔ f ∈ s.upstream)
    (hdown : ∀ f, f ∈ s'.downstream ↔ f ∈ s.downstream) : s'.Traced := by
  refine h.keep hnext (fun id => Or.inl (by rw [htable])) (fun id hid => Or.inl ?_)
    fun id _ hid => ?_
  · rwa [Cancelled, hup, hreader] at hid
  · rwa [Served, hup, hdown, htasks]

theorem Traced.quiet (h : s.Traced) (hq : s.Quiet) (id : ℕ) : s.table id ≠ some .call := by
  intro hid
  obtain ⟨hwaiting, hout, hclient, hin, -, hup, hdown, hserver, hserverIn, hserverOut, htasks⟩ := hq
  have htrail := h.trail id hid
  simp [Served, upstream, downstream, hwaiting, hout, hclient, hin, hup, hdown, hserver, hserverIn,
    hserverOut, htasks, held, taken] at htrail

theorem Traced.request (h : s.Traced) (kind : Pending) : (s.request kind).Traced := by
  have hup : ∀ f, f ∈ (s.request kind).upstream ↔ f = .request s.nextId ∨ f ∈ s.upstream := by
    intro f
    simp only [upstream, Link.request, List.mem_append, List.mem_singleton]
    tauto
  refine ⟨fun id hid => ?_, fun id hid => ?_, fun id hid => ?_⟩
  · change s.nextId + 1 ≤ id at hid
    have hne : id ≠ s.nextId := by omega
    simpa [Link.request, Function.update_of_ne hne] using h.fresh id (by omega)
  · have hold : s.Cancelled id := by
      rw [Cancelled, hup] at hid
      simpa [Cancelled, Link.request] using hid
    have hlt := (h.spared id hold).1
    have hne : id ≠ s.nextId := by omega
    refine ⟨hlt.trans (Nat.lt_succ_self _), ?_⟩
    simpa [Link.request, Function.update_of_ne hne] using (h.spared id hold).2
  · by_cases hne : id = s.nextId
    · exact Or.inl ((hup _).mpr (Or.inl (by rw [hne])))
    · have hold : s.table id = some .call := by
        simpa [Link.request, Function.update_of_ne hne] using hid
      rcases h.trail id hold with hreq | htask | hlast
      · exact Or.inl ((hup _).mpr (Or.inr hreq))
      · exact Or.inr (Or.inl htask)
      · exact Or.inr (Or.inr hlast)

theorem traced_unsubscribe (h : s.Traced) (id : ℕ) : (s.unsubscribe id).Traced := by
  simp only [unsubscribe]
  split_ifs with hstream
  · refine h.keep rfl (fun id' => ?_) (fun id' hid => ?_) fun id' _ hid => ?_
    · by_cases hne : id' = id
      · exact Or.inr (by simp [hne])
      · exact Or.inl (Function.update_of_ne hne _ _)
    · by_cases hne : id' = id
      · exact Or.inr (hne ▸ hstream)
      · left
        simpa [Cancelled, upstream, hne] using hid
    · rcases hid with hreq | hrest
      · left
        simp only [upstream, List.mem_append] at hreq ⊢
        tauto
      · exact Or.inr hrest
  · exact h.move rfl rfl rfl rfl (fun _ => Iff.rfl) fun _ => Iff.rfl

theorem traced_route {f : ServerFrame} {rest : List ServerFrame} (h : s.Traced)
    (hin : s.inbound = f :: rest) : ({ s with inbound := rest }.routeFrame f).Traced := by
  have hdown : ∀ id, f ≠ .last id → s.Served id → { s with inbound := rest }.Served id := by
    intro id hne hid
    rcases hid with hreq | htask | hlast
    · exact Or.inl hreq
    · exact Or.inr (Or.inl htask)
    · right; right
      simp only [downstream, hin, List.mem_append, List.mem_cons, Ne.symm hne, false_or] at hlast ⊢
      exact hlast
  cases f with
  | ready id =>
    simp only [routeFrame]
    split_ifs
    · refine h.keep rfl (fun id' => ?_) (fun id' hid => Or.inl hid) fun id' _ hid => ?_
      · by_cases hne : id' = id
        · exact Or.inr (by simp [hne])
        · exact Or.inl (Function.update_of_ne hne _ _)
      · exact hdown id' (by simp) hid
    · exact h.keep rfl (fun _ => Or.inl rfl) (fun _ => Or.inl) fun id' _ => hdown id' (by simp)
  | item id =>
    simp only [routeFrame]
    split_ifs with hstream
    · refine h.keep rfl (fun _ => Or.inl rfl) (fun id' hid => ?_) fun id' _ => hdown id' (by simp)
      rcases hid with hup | hpush | hcancel
      · exact Or.inl (Or.inl hup)
      · simp only [Reader.pushing.injEq] at hpush
        exact Or.inr (hpush ▸ hstream)
      · simp at hcancel
    · exact h.keep rfl (fun _ => Or.inl rfl) (fun _ => Or.inl) fun id' _ => hdown id' (by simp)
  | last id =>
    refine h.keep rfl (fun id' => ?_) (fun id' hid => Or.inl hid) fun id' hcall hid => ?_
    · by_cases hne : id' = id
      · exact Or.inr (by simp [routeFrame, hne])
      · exact Or.inl (Function.update_of_ne hne _ _)
    · refine hdown id' (fun he => ?_) hid
      simp only [ServerFrame.last.injEq] at he
      simp [routeFrame, he] at hcall

theorem traced_serve {f : ClientFrame} {rest : List ClientFrame} (h : s.Traced)
    (hin : s.serverInbound = f :: rest) : ({ s with serverInbound := rest }.serveFrame f).Traced := by
  have hcancel : ∀ id, ({ s with serverInbound := rest }.serveFrame f).Cancelled id →
      s.Cancelled id := by
    rintro id (hup | hreader)
    · left
      cases f <;> simp [serveFrame, upstream, hin] at hup ⊢ <;> tauto
    · right
      cases f <;> exact hreader
  cases f with
  | request id =>
    refine h.keep rfl (fun _ => Or.inl rfl) (fun id' hid => Or.inl (hcancel id' hid))
      fun id' _ hid => ?_
    rcases hid with hreq | ⟨task, htask, he⟩ | hlast
    · by_cases hne : id' = id
      · exact Or.inr (Or.inl ⟨⟨id, none⟩, by simp [serveFrame], hne.symm⟩)
      · left
        simpa [serveFrame, upstream, hin, hne] using hreq
    · exact Or.inr (Or.inl ⟨task, by simp [serveFrame, htask], he⟩)
    · exact Or.inr (Or.inr hlast)
  | cancel id =>
    refine h.keep rfl (fun _ => Or.inl rfl) (fun id' hid => Or.inl (hcancel id' hid))
      fun id' hcall hid => ?_
    rcases hid with hreq | ⟨task, htask, he⟩ | hlast
    · left
      simpa [serveFrame, upstream, hin] using hreq
    · have hne : task.id ≠ id := by
        rintro rfl
        refine (h.spared task.id (Or.inl ?_)).2 (he ▸ hcall)
        simp [upstream, hin]
      exact Or.inr (Or.inl ⟨task, by simp [serveFrame, htask, hne], he⟩)
    · exact Or.inr (Or.inr hlast)

theorem tasks_set {tasks : List Task} {i : ℕ} {old : Task} (new : Task) (h : tasks[i]? = some old)
    (he : new.id = old.id) : (tasks.set i new).map Task.id = tasks.map Task.id := by
  obtain ⟨hi, rfl⟩ := List.getElem?_eq_some_iff.mp h
  ext j : 1
  by_cases hj : i = j
  · subst hj
    simp [he, hi]
  · simp [hj]

/-- Frames go on, the reader settles an entry, the server starts or aborts a task. -/
theorem traced_step {a : Act} (h : s.Traced) (hs : s.step k a = some s') : s'.Traced := by
  cases a with
  | call =>
    obtain rfl := Option.some_inj.mp hs
    exact h.request .call
  | subscribe =>
    obtain rfl := Option.some_inj.mp hs
    exact (h.request .stream).move rfl rfl rfl rfl (fun _ => Iff.rfl) fun _ => Iff.rfl
  | dropReceiver id =>
    obtain rfl := Option.some_inj.mp hs
    exact h.move rfl rfl rfl rfl (fun _ => Iff.rfl) fun _ => Iff.rfl
  | unsubscribe id =>
    obtain rfl := Option.some_inj.mp hs
    exact traced_unsubscribe h id
  | route =>
    simp only [step] at hs
    split at hs
    · rename_i f rest _ hin
      obtain rfl := Option.some_inj.mp hs
      exact traced_route h hin
    · simp at hs
  | push =>
    simp only [step] at hs
    split at hs
    · rename_i id hreader
      split at hs
      · obtain rfl := Option.some_inj.mp hs
        refine h.keep rfl (fun id' => ?_) (fun id' hid => Or.inl ?_) fun _ _ hid => hid
        · by_cases hne : id' = id
          · exact Or.inr (by simp [hne])
          · exact Or.inl (Function.update_of_ne hne _ _)
        · rcases hid with hup | hpush | hcancel
          · exact Or.inl hup
          · simp at hpush
          · simp only [Reader.cancelling.injEq] at hcancel
            exact Or.inr (Or.inl (hcancel ▸ hreader))
      · obtain ⟨-, rfl⟩ := of_guard hs
        refine h.keep rfl (fun _ => Or.inl rfl) (fun id' hid => Or.inl ?_) fun _ _ hid => hid
        rcases hid with hup | hpush | hcancel
        · exact Or.inl hup
        · simp at hpush
        · simp at hcancel
    · simp at hs
  | sendCancel =>
    simp only [step] at hs
    split at hs
    · rename_i id hreader
      obtain ⟨-, rfl⟩ := of_guard hs
      refine h.keep rfl (fun _ => Or.inl rfl) (fun id' hid => Or.inl ?_) fun id' _ hid => ?_
      · rcases hid with hup | hpush | hcancel
        · by_cases hne : id' = id
          · exact Or.inr (Or.inr (hne ▸ hreader))
          · left
            simpa [upstream, hne] using hup
        · simp at hpush
        · simp at hcancel
      · rcases hid with hreq | hrest
        · left
          simpa [upstream] using hreq
        · exact Or.inr hrest
    · simp at hs
  | consume id =>
    simp only [step] at hs
    split at hs
    · obtain rfl := Option.some_inj.mp hs
      exact h.move rfl rfl rfl rfl (fun _ => Iff.rfl) fun _ => Iff.rfl
    · simp at hs
  | serve =>
    simp only [step] at hs
    split at hs
    · rename_i f rest hin
      obtain rfl := Option.some_inj.mp hs
      exact traced_serve h hin
    · simp at hs
  | work i f =>
    simp only [step] at hs
    split at hs
    · rename_i task hi
      obtain ⟨-, rfl⟩ := of_guard hs
      refine h.keep rfl (fun _ => Or.inl rfl) (fun _ => Or.inl) fun id _ hid => ?_
      rcases hid with hreq | ⟨t, ht, he⟩ | hlast
      · exact Or.inl hreq
      · right; left
        have hmem : id ∈ s.tasks.map Task.id := List.mem_map.mpr ⟨t, ht, he⟩
        rw [← tasks_set { task with sending := some f } hi rfl] at hmem
        exact List.mem_map.mp hmem
      · exact Or.inr (Or.inr hlast)
    · simp at hs
  | sendTask i =>
    simp only [step] at hs
    split at hs
    · rename_i id f hi
      obtain ⟨-, rfl⟩ := of_guard hs
      refine h.keep rfl (fun _ => Or.inl rfl) (fun _ => Or.inl) fun id' _ hid => ?_
      rcases hid with hreq | ⟨t, ht, he⟩ | hlast
      · exact Or.inl hreq
      · by_cases hlast : f = .last id
        · obtain ⟨j, hj⟩ := List.mem_iff_getElem?.mp ht
          by_cases hij : j = i
          · rw [hij, hi, Option.some_inj] at hj
            right; right
            simp [downstream, hlast, ← he, ← hj]
          · right; left
            refine ⟨t, ?_, he⟩
            simp only [hlast, if_true]
            exact List.mem_eraseIdx_iff_getElem?.mpr ⟨j, hij, hj⟩
        · right; left
          have hmem : id' ∈ s.tasks.map Task.id := List.mem_map.mpr ⟨t, ht, he⟩
          rw [← tasks_set { id, sending := none } hi rfl] at hmem
          simp only [hlast, if_false]
          exact List.mem_map.mp hmem
      · right; right
        simp only [downstream, List.mem_append] at hlast ⊢
        tauto
    · simp at hs
  | enter | takeOut | write | takeIn | deliver | serverTakeOut | serverWrite | serverTakeIn
  | serverDeliver =>
    simp only [step] at hs
    split at hs
    · first
        | obtain ⟨-, rfl⟩ := of_guard hs
        | obtain rfl := Option.some_inj.mp hs
      refine h.move rfl rfl rfl rfl (fun g => ?_) fun g => ?_ <;>
        (simp [upstream, downstream, held, taken, *]; try grind)
    · simp at hs

/-! ## Runs -/

/-- **While a frame or a call is outstanding, some part of the connection can move.** -/
theorem link_moves {acts : List Act} (hg : Guarded (step k) (Clear k) start acts)
    (he : exec (step k) start acts = some s) (ho : s.Outstanding) : s.Moves k := by
  have hinv : s.Traced ∧ ¬ s.Jammed ∧ ¬ s.Crossed k := by
    refine exec_invariant (I := fun s => s.Traced ∧ ¬ s.Jammed ∧ ¬ s.Crossed k)
      (fun _ _ _ h hg hs => by exact ⟨traced_step h.1 hs, clear_step h.2.1 h.2.2 hg hs⟩) ?_ hg he
    refine ⟨traced_start, fun h => ?_, fun h => ?_⟩
    · simpa [start, queueCap] using h.inbound
    · obtain ⟨f, hf⟩ := h.client
      simp [start] at hf
  refine moves_of_clear hinv.2.1 hinv.2.2 fun hq => ?_
  rcases ho with hbusy | ⟨id, hid⟩
  · exact hbusy hq
  · exact hinv.1.quiet hq id hid

/-- A socket whose buffers take one frame. -/
def narrow : Socket := ⟨1, 1, Nat.one_pos, Nat.one_pos⟩

/-- A stream whose receiver is dropped at its first item, beside a call. -/
def cancelled : List Act :=
  [.subscribe, .enter, .takeOut, .write, .serverTakeIn, .serverDeliver, .serve,
    .work 0 (.item 1), .sendTask 0, .serverTakeOut, .serverWrite, .dropReceiver 1, .takeIn,
    .deliver, .route, .call, .push, .sendCancel, .takeOut, .write]

theorem link_moves_cancelled : ∃ s, exec (step narrow) start cancelled = some s ∧
    s.table 2 = some .call ∧ s.up = [.cancel 1] ∧ s.Moves narrow := by
  have hrun : (exec (step narrow) start cancelled).map (fun s => (s.table 2, s.up)) =
      some (some .call, [.cancel 1]) := by rfl
  obtain ⟨s, he, hs⟩ := Option.map_eq_some_iff.mp hrun
  simp only [Prod.mk.injEq] at hs
  exact ⟨s, he, hs.1, hs.2,
    link_moves (guarded_of_checks (by decide +kernel)) he (Or.inr ⟨2, hs.1⟩)⟩

/-- The way of a request from the client's queue into the hands of its task. -/
def sent : List Act := [.call, .enter, .takeOut, .write, .serverTakeIn, .serverDeliver, .serve]

def answered : List Act := [.work 0 (.last 1), .sendTask 0, .serverTakeOut, .serverWrite]

/-- Two answers and two more requests. -/
def bursts : List Act :=
  sent ++ answered ++ sent ++ [Act.work 0 (.last 2), .sendTask 0, .serverTakeOut, .call, .enter,
    .takeOut, .write, .call, .enter, .takeOut]

/-- Both pumps write, and neither reads. -/
def blocked : Link :=
  { start with
    nextId := 5
    table := ((((start.request .call).request .call).request .call).request .call).table
    clientPump := .writing (.request 4)
    up := [.request 3]
    serverPump := .writing (.last 2)
    down := [.last 1] }

/-- **Two bursts stop the connection for good.** -/
theorem pumps_cross : ¬ ∀ (k : Socket) (acts : List Act) (s : Link),
    exec (step k) start acts = some s → s.Outstanding → s.Moves k := by
  intro hall
  have hout : blocked.Outstanding := Or.inr ⟨4, rfl⟩
  obtain ⟨a, hint, hsome⟩ := hall narrow bursts blocked rfl hout
  cases a <;> simp [step, blocked, start, narrow, Act.internal] at hint hsome

end Zeron.Rpc.Link
