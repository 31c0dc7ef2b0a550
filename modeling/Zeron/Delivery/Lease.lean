import Zeron.Delivery.Freeze
import Zeron.Delivery.Table

/-!
# Edit leases

A row that a client edits is gated by the lease of the edit, until it is finished or replaced.

* `Live`: the leases a client was told of and that nothing ended, by the log; `leases` computes them;
* `basis`: the texts a lease was granted over;
* `Sound`: the steps that break a lease, as a condition on each step;
* `LeaseInv`: a live lease is the gate of its row, and no call has the row in hand;
  `leaseInv_step`: sound steps keep it.
-/

namespace Zeron.Delivery

open Session History

/-- The lease that gates a row. -/
def leaseOf (m : QueuedMessage) : Option String := m.deliveryGate.map (·.lease)

/-- The event ends a lease of the row. -/
def Event.ends (id lease : String) : Event → Bool
  | .granted id' _ _ | .removed id' => id' = id
  | .ended id' lease' => id' = id ∧ lease' = lease
  | _ => false

/-- A lease that was there at the start, or that a client was told of, and that nothing ended. -/
def Live (saved : Queue) (log : List Event) (id lease : String) : Prop :=
  ((rowAt saved id).bind leaseOf = some lease ∧ ∀ e ∈ log, e.ends id lease = false) ∨
    ∃ pre post : List Event, log = pre ++ Event.acquired id lease :: post ∧ ∀ e ∈ post, e.ends id lease = false

/-- The lease of each row, after an event. -/
def Event.leaseAfter (table : String → Option String) : Event → String → Option String
  | .granted id _ _ | .removed id => Function.update table id none
  | .acquired id lease => Function.update table id (some lease)
  | .ended id lease => if table id = some lease then Function.update table id none else table
  | _ => table

/-- The live lease of each row. -/
def leases (saved : Queue) (log : List Event) : String → Option String :=
  log.foldl Event.leaseAfter fun id => (rowAt saved id).bind leaseOf

/-- The row an event delivers. -/
def Event.delivers : Event → Option String
  | .taken id _ | .handed id _ => some id
  | _ => none

/-- The text a grant of the lease is over. -/
def Event.grantOver (id lease : String) : Event → Option String
  | .granted id' lease' text => if id' = id ∧ lease' = lease then some text else none
  | _ => none

/-- The texts a lease was granted over. -/
def basis (log : List Event) (id lease : String) : List String :=
  log.filterMap (Event.grantOver id lease)

/-- The row and the lease that a call is about to commit. -/
def Section.committing : Section → Option (String × String)
  | .resolve id lease .commit _ _ => some (id, lease)
  | _ => none

/-- A text is not edited between the check of a commit and its write; two texts of a row do not hash
alike; a restart finds the gate of a live lease as it was; and the prompt of a held steer has an id of
its own. -/
def Sound (saved : Queue) (w : World) : Act → Prop
  | .updateText id text _ => ∀ s ∈ w.holder, s.committing.map Prod.fst = some id →
      isBlank text = false → ∀ m ∈ rowAt w.host.doc id, m.text = text
  | .turn _ => ∀ s ∈ w.holder, ∀ c ∈ s.committing, ∀ text ∈ basis w.host.log c.1 c.2,
      ∀ m ∈ rowAt w.host.doc c.1,
        w.host.queueTextHash m.text = w.host.queueTextHash text → m.text = text
  | .restart => ∀ id ∈ w.host.known, (leases saved w.host.log id).isSome = true →
      ∀ m ∈ rowAt w.host.saved id,
        (rowAt w.host.doc id).map (·.deliveryGate) = some m.deliveryGate
  | .holdSteer messageId _ _ => trim messageId = messageId ∧ messageId ∉ w.host.known
  | _ => True

instance (saved : Queue) (w : World) : (act : Act) → Decidable (Sound saved w act)
  | .updateText _ _ _ => inferInstanceAs (Decidable (∀ s ∈ w.holder, _ → _ → ∀ m ∈ _, _))
  | .turn _ => inferInstanceAs (Decidable (∀ s ∈ w.holder, ∀ c ∈ s.committing,
      ∀ text ∈ basis w.host.log c.1 c.2, ∀ m ∈ rowAt w.host.doc c.1, _ → _))
  | .restart => inferInstanceAs (Decidable (∀ id ∈ w.host.known, _ → ∀ m ∈ _, _))
  | .holdSteer _ _ _ => inferInstanceAs (Decidable (_ ∧ _))
  | .queueMessage _ _ _ _ _ | .move _ _ | .call _ | .fire _ | .sent | .thaw | .pauseAll | .save =>
    .isTrue trivial

theorem minted_of_sound {saved : Queue} {w : World} {act : Act} (h : Sound saved w act) :
    Minted w act := by
  cases act with
  | holdSteer => exact h
  | _ => trivial

/-! ## Live leases -/

section Log

variable {saved : Queue} {log : List Event} {id lease : String}

@[simp] theorem leases_concat (e : Event) :
    leases saved (log ++ [e]) = e.leaseAfter (leases saved log) := by
  rw [leases, List.foldl_append]
  rfl

theorem live_concat (e : Event) : Live saved (log ++ [e]) id lease ↔
    (Live saved log id lease ∧ e.ends id lease = false) ∨ e = .acquired id lease := by
  constructor
  · rintro (⟨hsaved, hall⟩ | ⟨pre, post, hsplit, hpost⟩)
    · have hall' := List.forall_mem_append.mp hall
      exact .inl ⟨.inl ⟨hsaved, hall'.1⟩, hall'.2 e (List.mem_singleton_self e)⟩
    · rcases List.eq_nil_or_concat post with rfl | ⟨init, x, rfl⟩
      · exact .inr (List.append_singleton_inj.mp hsplit).2
      · rw [List.concat_eq_append, ← List.cons_append, ← List.append_assoc] at hsplit
        obtain ⟨rfl, rfl⟩ := List.append_singleton_inj.mp hsplit
        rw [List.concat_eq_append] at hpost
        have hpost' := List.forall_mem_append.mp hpost
        exact .inl ⟨.inr ⟨pre, init, rfl, hpost'.1⟩, hpost'.2 e (List.mem_singleton_self e)⟩
  · rintro (⟨⟨hsaved, hall⟩ | ⟨pre, post, rfl, hpost⟩, hends⟩ | rfl)
    · exact .inl ⟨hsaved, List.forall_mem_append.mpr ⟨hall, List.forall_mem_singleton.mpr hends⟩⟩
    · exact .inr ⟨pre, post ++ [e], by simp,
        List.forall_mem_append.mpr ⟨hpost, List.forall_mem_singleton.mpr hends⟩⟩
    · exact .inr ⟨log, [], rfl, List.forall_mem_nil _⟩

theorem leaseAfter_some (table : String → Option String) (e : Event)
    (hfree : ∀ lease', e = .acquired id lease' → table id = none) :
    e.leaseAfter table id = some lease ↔
      (table id = some lease ∧ e.ends id lease = false) ∨ e = .acquired id lease := by
  cases e with
  | granted id' lease' text | removed id' =>
    by_cases hid : id = id'
    · subst hid
      simp [Event.leaseAfter, Event.ends]
    · simp [Event.leaseAfter, Event.ends, Function.update_of_ne hid, Ne.symm hid]
  | acquired id' lease' =>
    by_cases hid : id = id'
    · subst hid
      simp [Event.leaseAfter, Event.ends, hfree lease' rfl]
    · simp [Event.leaseAfter, Event.ends, Function.update_of_ne hid, Ne.symm hid]
  | ended id' lease' =>
    by_cases hid : id = id'
    · subst hid
      by_cases htable : table id = some lease'
      · simp [Event.leaseAfter, Event.ends, htable]
      · by_cases hlease : lease' = lease
        · subst hlease
          simp [Event.leaseAfter, Event.ends, htable]
        · simp [Event.leaseAfter, Event.ends, htable, hlease]
    · by_cases htable : table id' = some lease'
      · simp [Event.leaseAfter, Event.ends, htable, Function.update_of_ne hid, Ne.symm hid]
      · simp [Event.leaseAfter, Event.ends, htable, Ne.symm hid]
  | _ => simp [Event.leaseAfter, Event.ends]

/-- What an event finds: a leased row is not delivered, and is not leased once more. -/
def Permitted (saved : Queue) (pre : List Event) (e : Event) : Prop :=
  (∀ id, e.delivers = some id → leases saved pre id = none) ∧
    ∀ id lease, e = .acquired id lease → leases saved pre id = none

/-- **At most one lease of a row is live**, where each is told of when none is. -/
theorem live_iff (h : Each (Permitted saved) log) :
    Live saved log id lease ↔ leases saved log id = some lease := by
  induction log using List.reverseRecOn with
  | nil => simp [Live, leases]
  | append_singleton log e ih =>
    obtain ⟨hlog, he⟩ := each_concat.mp h
    rw [live_concat, leases_concat, leaseAfter_some _ e (he.2 id), ih hlog]

/-- Neither a delivery nor a lease that is told of. -/
def Event.mild : Event → Bool
  | .taken _ _ | .handed _ _ | .acquired _ _ => false
  | _ => true

theorem mild_event (saved : Queue) (log : List Event) {e : Event} (h : e.mild = true) :
    (∀ id lease, e ≠ .acquired id lease) ∧ Permitted saved log e := by
  cases e with
  | taken | handed | acquired => cases h
  | _ => exact ⟨(fun _ _ h => by cases h), (fun _ h => by cases h), fun _ _ h => (by cases h)⟩

theorem kept_mild (events : List Event) (h : ∀ e ∈ events, e.mild = true)
    (hkept : Each (Permitted saved) log) : Each (Permitted saved) (log ++ events) ∧
      ∀ id lease, leases saved (log ++ events) id = some lease →
        leases saved log id = some lease := by
  induction events using List.reverseRecOn with
  | nil =>
    rw [List.append_nil]
    exact ⟨hkept, fun _ _ h => h⟩
  | append_singleton events e ih =>
    obtain ⟨hevents, he⟩ := List.forall_mem_append.mp h
    obtain ⟨hne, hperm⟩ := mild_event saved (log ++ events)
      (he e (List.mem_singleton_self e))
    obtain ⟨hkept', hsome⟩ := ih hevents
    rw [← List.append_assoc]
    refine ⟨each_concat.mpr ⟨hkept', hperm⟩, fun id lease hl => hsome id lease ?_⟩
    rw [leases_concat, leaseAfter_some _ e fun lease' h => absurd h (hne id lease')] at hl
    exact (hl.resolve_right (hne id lease)).1

end Log

/-! ## The invariant -/

/-- The row and the lease whose gate is written, and whose client has not been told. -/
def Section.telling : Section → Option (String × String)
  | .keep item lease _ _ | .acquired item lease _ _ => some (item.id, lease)
  | _ => none

/-- No live lease stands against a call. -/
structure Clear (h : Host) (table : String → Option String) (s : Section) : Prop where
  hand : ∀ m ∈ s.hand, table m.id = none
  telling : ∀ c ∈ s.telling, table c.1 = none ∧ c.1 ∈ h.known ∧
    ∀ m, rowAt h.doc c.1 = some m → leaseOf m = some c.2

structure LeaseInv (saved : Queue) (w : World) : Prop where
  table : TableInv w
  live : ∀ id lease, leases saved w.host.log id = some lease → id ∈ w.host.known ∧
    ∀ m, rowAt w.host.doc id = some m → leaseOf m = some lease
  holder : ∀ s ∈ w.holder, s.Ready w.host ∧ Clear w.host (leases saved w.host.log) s
  kept : Each (Permitted saved) w.host.log

/-- The known rows that are there were there under the same gates, and the one that is about to be
committed under the same text. -/
structure Keeps (committing : Option String) (h h' : Host) : Prop where
  rows : ∀ id ∈ h.known, ∀ m', rowAt h'.doc id = some m' → ∃ m, rowAt h.doc id = some m ∧
    m'.deliveryGate = m.deliveryGate ∧ (committing = some id → m'.text = m.text)
  hash : h'.queueTextHash = h.queueTextHash
  known : h.known ⊆ h'.known

section Keep

variable {committing : Option String} {h h' : Host} {id lease : String}

theorem gated_keeps (hk : Keeps committing h h') {hash : String} (hid : id ∈ h.known)
    (hg : Gated h.doc id lease hash) : Gated h'.doc id lease hash := by
  intro m' hm'
  obtain ⟨m, hm, hgate, -⟩ := hk.rows id hid m' hm'
  rw [hgate]
  exact hg m hm

theorem expired_keeps (hk : Keeps committing h h') {nowMs : ℤ} (hid : id ∈ h.known)
    (he : Expired h.doc id nowMs) : Expired h'.doc id nowMs := by
  intro m' hm'
  obtain ⟨m, hm, hgate, -⟩ := hk.rows id hid m' hm'
  rw [hgate]
  exact he m hm

theorem lease_keeps (hk : Keeps committing h h') (hid : id ∈ h.known)
    (hl : ∀ m, rowAt h.doc id = some m → leaseOf m = some lease) :
    ∀ m, rowAt h'.doc id = some m → leaseOf m = some lease := by
  intro m' hm'
  obtain ⟨m, hm, hgate, -⟩ := hk.rows id hid m' hm'
  rw [leaseOf, hgate]
  exact hl m hm

theorem ready_keeps {s : Section} (hk : Keeps (s.committing.map Prod.fst) h h') (hr : s.Ready h) :
    s.Ready h' := by
  cases s with
  | grant item lease gate expiresAtMs =>
    obtain ⟨hid, owner, inst, nowMs, exp, hgate, hexpired⟩ := hr
    exact ⟨hk.known hid, owner, inst, nowMs, exp, by rw [hk.hash, hgate],
      expired_keeps hk hid hexpired⟩
  | extend id lease gate expiresAtMs =>
    obtain ⟨hid, owner, inst, acq, exp, hash, hgate, hgated⟩ := hr
    exact ⟨hk.known hid, owner, inst, acq, exp, hash, hgate, gated_keeps hk hid hgated⟩
  | lapse id gate outcome =>
    obtain ⟨hid, lease, owner, since, hash, hgate, hgated, hexpired⟩ := hr
    exact ⟨hk.known hid, lease, owner, since, hash, hgate, gated_keeps hk hid hgated,
      expired_keeps hk hid hexpired⟩
  | resolve id lease action replacement attachments =>
    obtain ⟨hid, hash, hgated, htext⟩ := hr
    refine ⟨hk.known hid, hash, gated_keeps hk hid hgated, ?_⟩
    rintro rfl m' hm'
    obtain ⟨m, hm, -, hsame⟩ := hk.rows id hid m' hm'
    rw [hk.hash, hsame rfl]
    exact htext rfl m hm
  | _ => trivial

theorem clear_keeps (hk : Keeps committing h h') {table table' : String → Option String}
    (htable : ∀ id lease, table' id = some lease → table id = some lease) {s : Section}
    (hc : Clear h table s) : Clear h' table' s := by
  have hnone : ∀ id, table id = none → table' id = none := by
    intro id hn
    refine Option.eq_none_iff_forall_ne_some.mpr fun lease hl => ?_
    cases hn.symm.trans (htable id lease hl)
  refine ⟨fun m hm => hnone m.id (hc.hand m hm), fun c hmem => ?_⟩
  obtain ⟨hfree, hid, hrows⟩ := hc.telling c hmem
  exact ⟨hnone c.1 hfree, hk.known hid, lease_keeps hk hid hrows⟩

theorem keeps_same (committing : Option String) (hrows : rowAt h'.doc = rowAt h.doc) (hhash : h'.queueTextHash = h.queueTextHash)
    (hknown : h.known ⊆ h'.known) : Keeps committing h h' :=
  ⟨fun id _ m' hm' => ⟨m', by rw [← hrows, hm'], rfl, fun _ => rfl⟩, hhash, hknown⟩

theorem keeps_update (committing : Option String) {x : Option QueuedMessage} {events : List Event}
    (ha : Applied h h' (Function.update (rowAt h.doc) id x) events)
    (hx : ∀ m', x = some m' → id ∉ h.known ∨ ∃ m, rowAt h.doc id = some m ∧
      m'.deliveryGate = m.deliveryGate ∧ (committing = some id → m'.text = m.text)) :
    Keeps committing h h' := by
  refine ⟨fun id' hid' m' hm' => ?_, ha.hash, ha.known⟩
  rw [ha.rows] at hm'
  by_cases heq : id' = id
  · subst heq
    rw [Function.update_self] at hm'
    exact (hx m' hm').resolve_left fun hnew => hnew hid'
  · rw [Function.update_of_ne heq] at hm'
    exact ⟨m', hm', rfl, fun _ => rfl⟩

end Keep

section Call

variable {saved : Queue} {w : World}

theorem leaseInv_keeps (h : LeaseInv saved w) {host : Host} {holder : Option Section}
    {thaws : ℕ} (ht : TableInv ⟨host, holder, thaws⟩)
    {committing : Option String} (hk : Keeps committing w.host host) {events : List Event}
    (hlog : host.log = w.host.log ++ events) (hevents : ∀ e ∈ events, e.mild = true)
    (hholder : (∀ id lease, leases saved host.log id = some lease →
        leases saved w.host.log id = some lease) →
      ∀ s ∈ holder, s.Ready host ∧ Clear host (leases saved host.log) s) :
    LeaseInv saved ⟨host, holder, thaws⟩ := by
  obtain ⟨hkept, hleases⟩ := kept_mild _ hevents h.kept
  rw [← hlog] at hkept hleases
  refine ⟨ht, fun id lease hl => ?_, hholder hleases, hkept⟩
  obtain ⟨hid, hrows⟩ := h.live id lease (hleases id lease hl)
  exact ⟨hk.known hid, lease_keeps hk hid hrows⟩

theorem leaseInv_edit (h : LeaseInv saved w) {host : Host} {thaws : ℕ}
    (ht : TableInv { host, holder := w.holder, thaws }) {events : List Event}
    (hlog : host.log = w.host.log ++ events) (hevents : ∀ e ∈ events, e.mild = true)
    (hk : Keeps ((w.holder.bind Section.committing).map Prod.fst) w.host host) :
    LeaseInv saved { host, holder := w.holder, thaws } := by
  refine leaseInv_keeps h ht hk hlog hevents fun hleases s hs => ?_
  obtain ⟨hready, hclear⟩ := h.holder s hs
  rw [show w.holder = some s from hs] at hk
  exact ⟨ready_keeps hk hready, clear_keeps hk hleases hclear⟩

theorem lease_of_gated {D : Queue} {id lease hash : String} (h : Gated D id lease hash)
    {m : QueuedMessage} (hm : rowAt D id = some m) : leaseOf m = some lease := by
  obtain ⟨gate, hgate, hlease, -⟩ := h m hm
  rw [leaseOf, hgate, Option.map_some, hlease]

theorem clear_done {h : Host} {table : String → Option String} {next : Option Section}
    (hnext : ∀ t ∈ next, t.hand = none ∧ t.telling = none) : ∀ t ∈ next, Clear h table t := by
  intro t ht
  obtain ⟨hhand, htell⟩ := hnext t ht
  exact ⟨fun m hm => absurd hm (by rw [hhand]; simp), fun c hc => absurd hc (by rw [htell]; simp)⟩

theorem live_update (h : LeaseInv saved w) {host : Host} {id : String} {x : Option QueuedMessage}
    (hrows : rowAt host.doc = Function.update (rowAt w.host.doc) id x)
    (hleases : ∀ id' lease, leases saved host.log id' = some lease →
      leases saved w.host.log id' = some lease)
    (hknown : w.host.known ⊆ host.known)
    (hx : ∀ lease, leases saved host.log id = some lease →
      ∀ m, x = some m → leaseOf m = some lease) (id' lease : String)
    (hl : leases saved host.log id' = some lease) :
    id' ∈ host.known ∧ ∀ m, rowAt host.doc id' = some m → leaseOf m = some lease := by
  obtain ⟨hid, hold⟩ := h.live id' lease (hleases id' lease hl)
  refine ⟨hknown hid, fun m hm => ?_⟩
  rw [hrows] at hm
  by_cases heq : id' = id
  · subst heq
    rw [Function.update_self] at hm
    exact hx lease hl m hm
  · rw [Function.update_of_ne heq] at hm
    exact hold m hm

theorem leaseInv_regate (h : LeaseInv saved w) {id lease hash : String} {gate : QueueDeliveryGate}
    (hlease : gate.lease = lease) (hgated : Gated w.host.doc id lease hash) {t : Section}
    (ht : TableInv { w with host := w.host.apply (.regate id gate), holder := some t })
    (hready : t.Ready (w.host.apply (.regate id gate))) (hnext : t.hand = none ∧ t.telling = none) :
    LeaseInv saved { w with host := w.host.apply (.regate id gate), holder := some t } := by
  have ha := applied_regate h.table.tidy id gate
  have hlog : (w.host.apply (.regate id gate)).log = w.host.log := rfl
  refine ⟨ht, fun id' lease' hl => ?_, fun t' ht' => ?_, h.kept⟩
  · refine live_update h ha.rows (fun _ _ hl => hl) ha.known (fun lease' hl m hm => ?_) id' lease' hl
    obtain ⟨m₀, hm₀, rfl⟩ := Option.map_eq_some_iff.mp hm
    have hold := (h.live id lease' hl).2 m₀ hm₀
    rw [lease_of_gated hgated hm₀] at hold
    rw [← hold, leaseOf, Option.map_some, hlease]
  · refine ⟨?_, clear_done (fun t ht => ?_) t' ht'⟩
    · cases ht'
      exact hready
    · cases ht
      exact hnext

theorem leaseInv_hand (h : LeaseInv saved w) {id : String} {road : Road} {next : Option Section}
    (ht : TableInv { w with host := w.host.apply (.hand id road), holder := next })
    (hfree : leases saved w.host.log id = none)
    (hnext : ∀ t ∈ next, t.Ready w.host ∧ Clear w.host (leases saved w.host.log) t) :
    LeaseInv saved { w with host := w.host.apply (.hand id road), holder := next } := by
  have hlog : (w.host.apply (.hand id road)).log = w.host.log ++ [Event.handed id road] := rfl
  have hleases : leases saved (w.host.apply (.hand id road)).log = leases saved w.host.log := by
    rw [hlog, leases_concat]
    rfl
  have hk : Keeps none w.host (w.host.apply (.hand id road)) :=
    keeps_same _ rfl rfl (Finset.Subset.refl _)
  refine ⟨ht, fun id' lease hl => ?_, fun t htn => ?_, ?_⟩
  · rw [hleases] at hl
    exact h.live id' lease hl
  · obtain ⟨hready, hclear⟩ := hnext t htn
    exact ⟨ready_keeps (keeps_same _ rfl rfl (Finset.Subset.refl _)) hready,
      clear_keeps hk (fun _ _ hl => by rwa [hleases] at hl) hclear⟩
  · rw [hlog]
    refine each_concat.mpr ⟨h.kept, fun id' hd => ?_, fun _ _ heq => (by cases heq)⟩
    cases hd
    exact hfree

theorem leaseInv_ended (h : LeaseInv saved w) {host : Host} {holder : Option Section}
    {thaws : ℕ} (ht : TableInv ⟨host, holder, thaws⟩) {id lease : String}
    {x : Option QueuedMessage} {e : Event}
    (ha : Applied w.host host (Function.update (rowAt w.host.doc) id x) [.ended id lease, e])
    (hmild : e.mild = true) (hended : leases saved (w.host.log ++ [Event.ended id lease]) id = none)
    (hnext : ∀ t ∈ holder, t.Ready host ∧ t.hand = none ∧ t.telling = none) :
    LeaseInv saved ⟨host, holder, thaws⟩ := by
  obtain ⟨hkept, hleases⟩ := kept_mild [.ended id lease, e]
    (List.forall_mem_cons.mpr ⟨rfl, List.forall_mem_singleton.mpr hmild⟩) h.kept
  obtain ⟨hkept₁, -⟩ := kept_mild [.ended id lease]
    (List.forall_mem_singleton.mpr rfl) h.kept
  have hnone : leases saved host.log id = none := by
    refine Option.eq_none_iff_forall_ne_some.mpr fun lease' hl => ?_
    rw [ha.log, List.append_cons] at hl
    have hold := (kept_mild [e] (List.forall_mem_singleton.mpr hmild) hkept₁).2 id lease' hl
    cases hended.symm.trans hold
  rw [← ha.log] at hkept hleases
  refine ⟨ht, live_update h ha.rows hleases ha.known fun lease' hl => ?_, fun t htn => ?_, hkept⟩
  · cases hnone.symm.trans hl
  · exact ⟨(hnext t htn).1, clear_done (fun t htn => (hnext t htn).2) t htn⟩

theorem leaseInv_section (h : LeaseInv saved w) {s : Section} (hs : w.holder = some s) {a : Answer}
    {e : Effect} {next : Option Section} (hstep : SectionStep w.host a s e next) :
    LeaseInv saved { w with host := w.host.apply e, holder := next } := by
  have ht := h.table.tidy
  have htable := tableInv_section h.table hs hstep
  obtain ⟨hready, hclear⟩ := h.holder s hs
  cases hstep with
  | quiet he hhand hgoes =>
    obtain ⟨events, ha, hevents⟩ := quiet_apply ht he
    refine leaseInv_keeps h htable (keeps_same none ha.rows ha.hash ha.known) ha.log
      (fun e hmem => by rw [hevents e hmem]; rfl) fun hleases t htn => ?_
    obtain ⟨hgoes, hleasing⟩ := hgoes t htn
    rw [show next = some t from htn, Option.bind_some] at hhand
    have hquiet : Clear w.host (leases saved w.host.log) t := by
      refine ⟨by rw [hhand]; exact hclear.hand, fun c hc => ?_⟩
      cases t with
      | keep | acquired => cases hleasing
      | _ => cases hc
    exact ⟨ready_keeps (keeps_same _ ha.rows ha.hash ha.known) hgoes,
      clear_keeps (keeps_same none ha.rows ha.hash ha.known) hleases hquiet⟩
  | @remove id =>
    have ha := applied_remove ht id
    refine leaseInv_keeps h htable
      (keeps_update none ha fun _ hm => by cases hm) ha.log (fun e hmem => ?_)
      fun _ t htn => by cases htn
    split at hmem
    · rw [List.mem_singleton.mp hmem]
      rfl
    · cases hmem
  | @grant item lease gate expiresAtMs hsome =>
    obtain ⟨hid, owner, inst, nowMs, exp, rfl, -⟩ := hready
    have ha := (applied_grant ht lease item.text
      (.editing lease owner inst nowMs exp (w.host.queueTextHash item.text)) hsome).1
    obtain ⟨hkept, hleases⟩ := kept_mild [.granted item.id lease item.text]
      (List.forall_mem_singleton.mpr rfl) h.kept
    have hfree : leases saved (w.host.log ++ [Event.granted item.id lease item.text]) item.id = none := by
      rw [leases_concat, Event.leaseAfter, Function.update_self]
    rw [← ha.log] at hkept hleases hfree
    refine ⟨htable, live_update h ha.rows hleases ha.known fun lease' hl => ?_, fun t htn => ?_,
      hkept⟩
    · cases hfree.symm.trans hl
    · cases htn
      refine ⟨trivial, fun m hm => (by cases hm), fun c hc => ?_⟩
      cases hc
      refine ⟨hfree, ha.mem_known hid, fun m hm => ?_⟩
      rw [ha.rows, Function.update_self] at hm
      obtain ⟨m₀, -, rfl⟩ := Option.map_eq_some_iff.mp hm
      rfl
  | keep =>
    cases hok : a.saved <;> rw [hok] at htable
    all_goals
      refine leaseInv_keeps h htable (keeps_same none rfl rfl (Finset.Subset.refl _))
        (List.append_nil _).symm (List.forall_mem_nil _) fun _ t htn => ?_
      cases htn
      exact ⟨trivial, hclear.hand, hclear.telling⟩
  | saving =>
    cases hok : a.saved <;> rw [hok] at htable
    all_goals
      exact leaseInv_keeps h htable (keeps_same none rfl rfl (Finset.Subset.refl _))
        (List.append_nil _).symm (List.forall_mem_nil _) fun _ t htn => by cases htn
  | @acquired item lease hash expiresAtMs =>
    obtain ⟨hfree, hid, hrows⟩ := hclear.telling (item.id, lease) rfl
    have hlog : (w.host.apply (.acquire ⟨item.id, lease, expiresAtMs⟩)).log =
        w.host.log ++ [Event.acquired item.id lease] := rfl
    refine ⟨htable, fun id' lease' hl => ?_, (fun t htn => by cases htn), ?_⟩
    · rw [hlog, leases_concat, Event.leaseAfter] at hl
      by_cases heq : id' = item.id
      · subst heq
        rw [Function.update_self] at hl
        cases hl
        exact ⟨hid, hrows⟩
      · rw [Function.update_of_ne heq] at hl
        exact h.live id' lease' hl
    · rw [hlog]
      refine each_concat.mpr ⟨h.kept, (fun _ hd => by cases hd), fun id' lease' heq => ?_⟩
      cases heq
      exact hfree
  | @extend id lease gate expiresAtMs =>
    obtain ⟨-, owner, inst, acq, exp, hash, rfl, hgated⟩ := hready
    exact leaseInv_regate h rfl hgated htable trivial ⟨rfl, rfl⟩
  | @lapse id gate outcome =>
    obtain ⟨-, lease, owner, since, hash, rfl, hgated, -⟩ := hready
    exact leaseInv_regate h rfl hgated htable trivial ⟨rfl, rfl⟩
  | @resolve id lease action replacement attachments hsome =>
    obtain ⟨-, hash, hgated, -⟩ := hready
    have hended : leases saved (w.host.log ++ [Event.ended id lease]) id = none := by
      obtain ⟨m, hrow⟩ := Option.isSome_iff_exists.mp hsome
      rw [leases_concat, Event.leaseAfter]
      split
      · rw [Function.update_self]
      · -- another lease would be the gate of the row
        rename_i hother
        refine Option.eq_none_iff_forall_ne_some.mpr fun lease' hl => hother ?_
        rw [hl, ← (h.live id lease' hl).2 m hrow, lease_of_gated hgated hrow]
    rcases applied_finish ht lease attachments a.nowMs hsome with ⟨-, ha⟩ | ⟨-, changed, ha⟩
    all_goals
      refine leaseInv_ended h htable ha rfl hended fun t htn => ?_
      cases htn
      exact ⟨trivial, rfl, rfl⟩
  | @take id road m hrow hgate =>
    have ha := applied_take ht road hrow hgate
    have hid := id_of_rowAt hrow
    have hfree : leases saved w.host.log id = none := by
      refine Option.eq_none_iff_forall_ne_some.mpr fun lease hl => ?_
      have hgated := (h.live id lease hl).2 m hrow
      rw [leaseOf, hgate] at hgated
      cases hgated
    have hleases : leases saved (w.host.apply (.take id road)).log = leases saved w.host.log := by
      rw [ha.log, leases_concat]
      rfl
    refine ⟨htable, live_update h ha.rows (fun _ _ hl => by rwa [hleases] at hl) ha.known
      (fun _ _ _ hm => by cases hm), fun t htn => ?_, ?_⟩
    · cases htn
      have hhand : ∀ m' ∈ (Section.dispatch m road).hand, m' = m := by
        cases road <;> exact fun m' hm' => (Option.some_inj.mp hm').symm
      refine ⟨by cases road <;> trivial, fun m' hm' => ?_, fun c hc => ?_⟩
      · rw [hleases, hhand m' hm', hid]
        exact hfree
      · cases road <;> cases hc
    · rw [ha.log]
      refine each_concat.mpr ⟨h.kept, fun id' hd => ?_, fun _ _ heq => (by cases heq)⟩
      cases hd
      exact hfree
  | @sent s m road was hs' =>
    exact leaseInv_hand h htable (hclear.hand m hs') fun t htn => by
      cases htn
      exact ⟨trivial, (fun m hm => by cases hm), fun c hc => (by cases hc)⟩
  | @halfway s m road was error hs' hreply =>
    exact leaseInv_hand h htable (hclear.hand m hs') fun t htn => by
      cases htn
      exact ⟨trivial, (fun m' hm' => hclear.hand m' (hs'.trans hm')), fun c hc => (by cases hc)⟩
  | @accept m road was s' hs' =>
    refine leaseInv_keeps h htable (keeps_same none rfl rfl (Finset.Subset.refl _))
      (show _ = _ ++ [Event.accepted m.id road] from rfl) (List.forall_mem_singleton.mpr rfl) fun _ t htn => ?_
    rcases hs' with rfl | rfl <;> cases htn
    exact ⟨trivial, (fun m hm => by cases hm), fun c hc => (by cases hc)⟩
  | @putBack m road error =>
    obtain ⟨⟨hcheck, htrim⟩, hkn, hnone⟩ := h.table.hand _ hs m rfl
    have ha := applied_putBack ht hcheck htrim hnone
    have hlog : (w.host.apply (.putBack m)).log = w.host.log := by rw [ha.log, List.append_nil]
    refine ⟨htable, live_update h ha.rows (fun _ _ hl => by rwa [hlog] at hl) ha.known
      (fun lease hl => ?_), (fun t htn => by cases htn), hlog.symm ▸ h.kept⟩
    rw [hlog, hclear.hand m rfl] at hl
    cases hl

theorem leaseInv_push (h : LeaseInv saved w) {m : QueuedMessage} (htrim : trim m.id = m.id)
    (hnew : m.id ∉ w.host.known) : LeaseInv saved { w with host := w.host.push m } := by
  have htable := tableInv_push h.table htrim hnew
  have hnone : rowAt w.host.doc m.id = none :=
    Option.eq_none_iff_forall_ne_some.mpr fun m' hm' => hnew (h.table.known m.id m' hm')
  rcases applied_push h.table.tidy htrim hnone with hsame | ⟨ha, -⟩
  · rw [hsame]
    exact h
  · exact leaseInv_edit h htable ha.log (List.forall_mem_singleton.mpr rfl)
      (keeps_update _ ha fun _ _ => .inl hnew)

theorem leaseInv_retype (h : LeaseInv saved w) {id text : String} {nowMs : ℤ}
    (hg : Sound saved w (.updateText id text nowMs)) :
    LeaseInv saved { w with host := w.host.retype id text nowMs } := by
  have htable := tableInv_retype h.table id text nowMs
  rcases applied_retype h.table.tidy id text nowMs with
    ⟨-, ha⟩ | ⟨-, hsame, -⟩ | ⟨htext, -, editedAt, ha⟩
  · refine leaseInv_edit h htable ha.log (fun e he => ?_) (keeps_update _ ha fun _ hm => by cases hm)
    split at he
    · rw [List.mem_singleton.mp he]
      rfl
    · cases he
  · rw [hsame]
    exact h
  · refine leaseInv_edit h htable ha.log (List.forall_mem_singleton.mpr rfl)
      (keeps_update _ ha fun m' hm' => .inr ?_)
    obtain ⟨m, hm, rfl⟩ := Option.map_eq_some_iff.mp hm'
    refine ⟨m, hm, rfl, fun hcommit => ?_⟩
    obtain ⟨c, hc, hid⟩ := Option.map_eq_some_iff.mp hcommit
    obtain ⟨s, hs, hc⟩ := Option.bind_eq_some_iff.mp hc
    exact (hg s hs (by rw [hc, ← hid]; rfl) htext m hm).symm

theorem leaseInv_call (h : LeaseInv saved w) {s : Section} {timers : List Timer}
    (ht : TableInv { w with host.timers := timers, holder := some s })
    (hs : s.Ready w.host ∧ s.hand = none ∧ s.telling = none) :
    LeaseInv saved { w with host.timers := timers, holder := some s } := by
  refine leaseInv_keeps h ht (keeps_same none rfl rfl (Finset.Subset.refl _))
    (List.append_nil _).symm (List.forall_mem_nil _) fun _ t htn => ?_
  refine ⟨?_, clear_done (fun t ht => ?_) t htn⟩
  · cases htn
    exact ready_keeps (keeps_same _ rfl rfl (Finset.Subset.refl _)) hs.1
  · cases ht
    exact hs.2

end Call

theorem entry_free {s : Section} (h : s.entry = true) (host : Host) :
    s.Ready host ∧ s.hand = none ∧ s.telling = none := by
  cases s with
  | remove | begin | renew | finish | drain | sendNow | steerNow | cancel => exact ⟨trivial, rfl, rfl⟩
  | _ => cases h

theorem leaseInv_step {saved : Queue} {w w' : World} {act : Act} (h : LeaseInv saved w)
    (hg : Sound saved w act) (hs : w.step act = some w') : LeaseInv saved w' := by
  have htable := tableInv_step h.table (minted_of_sound hg) hs
  cases act with
  | queueMessage id text attachments hold nowMs =>
    simp only [World.step, Option.ite_none_right_eq_some, Option.some_inj] at hs
    obtain ⟨⟨htrim, hnew⟩, rfl⟩ := hs
    exact leaseInv_push h htrim hnew
  | holdSteer messageId prompt nowMs =>
    obtain rfl := Option.some.inj hs
    exact leaseInv_push h hg.1 hg.2
  | updateText id text nowMs =>
    obtain rfl := Option.some.inj hs
    exact leaseInv_retype h hg
  | move id target =>
    obtain rfl := Option.some.inj hs
    exact leaseInv_edit h htable (List.append_nil _).symm (List.forall_mem_nil _)
      (keeps_same _ (tidy_move h.table.tidy id target).2 rfl (Finset.Subset.refl _))
  | call s =>
    simp only [World.step, Option.ite_none_right_eq_some, Option.some_inj] at hs
    obtain ⟨⟨-, hentry⟩, rfl⟩ := hs
    exact leaseInv_call h htable (entry_free hentry _)
  | fire t =>
    simp only [World.step, Option.ite_none_right_eq_some, Option.some_inj] at hs
    obtain ⟨-, rfl⟩ := hs
    exact leaseInv_call h htable ⟨trivial, rfl, rfl⟩
  | turn a =>
    simp only [World.step] at hs
    split at hs
    · rename_i s hholder
      split_ifs at hs
      obtain rfl := Option.some.inj hs
      exact leaseInv_section h hholder (section_step h.table.tidy h.table.known a s)
    · cases hs
  | sent =>
    obtain rfl := Option.some.inj hs
    exact leaseInv_edit h htable (show _ = _ ++ [Event.sent] from rfl) (List.forall_mem_singleton.mpr rfl)
      (keeps_same _ rfl rfl (Finset.Subset.refl _))
  | thaw =>
    simp only [World.step, Option.ite_none_left_eq_some, Option.some_inj] at hs
    obtain ⟨-, rfl⟩ := hs
    exact leaseInv_edit h htable (List.append_nil _).symm (List.forall_mem_nil _)
      (keeps_same _ rfl rfl (Finset.Subset.refl _))
  | pauseAll | save =>
    obtain rfl := Option.some.inj hs
    exact leaseInv_edit h htable (List.append_nil _).symm (List.forall_mem_nil _)
      (keeps_same _ rfl rfl (Finset.Subset.refl _))
  | restart =>
    obtain rfl := Option.some.inj hs
    refine ⟨htable, fun id lease hl => ?_, (fun t ht => by cases ht),
      each_concat.mpr ⟨h.kept, (fun _ hd => by cases hd), fun _ _ heq => (by cases heq)⟩⟩
    -- the durable row has the gate that the row has
    have hold : leases saved w.host.log id = some lease := by
      simpa [Host.reopen, Event.leaseAfter] using hl
    obtain ⟨hid, hrows⟩ := h.live id lease hold
    refine ⟨hid, fun m hm => ?_⟩
    obtain ⟨m₀, hm₀, hgate⟩ := Option.map_eq_some_iff.mp
      (hg id hid (by rw [hold]; rfl) m hm)
    rw [leaseOf, ← hgate]
    exact hrows m₀ hm₀

theorem leaseInv_boot (deviceId : String) (queueTextHash : String → String) {saved : Queue}
    (ht : Tidy saved) : LeaseInv saved (.boot deviceId queueTextHash saved) := by
  have htable := tableInv_boot deviceId queueTextHash ht
  refine ⟨htable, fun id lease hl => ?_, (fun t ht => by cases ht),
    each_concat.mpr ⟨each_nil _, (fun _ hd => by cases hd), fun _ _ heq => (by cases heq)⟩⟩
  obtain ⟨m, hm, hlease⟩ := Option.bind_eq_some_iff.mp hl
  refine ⟨htable.known id m hm, fun m' hm' => ?_⟩
  obtain rfl := Option.some_inj.mp (hm.symm.trans hm')
  exact hlease

end Zeron.Delivery
