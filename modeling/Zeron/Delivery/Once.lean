import Zeron.Delivery.Freeze
import Zeron.Delivery.Table

/-!
# Queued messages are delivered once and do not vanish

A row leaves the document before its dispatch, and is put back where that fails.

* `waiting`: what the user has queued and neither removed nor seen handed to the agent, by the log;
* `World.row`: a row of the queue, or the one that the call under the lock has in hand;
* `Faithful`: the steps that lose or double a row, as a condition on each step;
* **`queued_once`**: in a run of other steps what waits is what the queue and the hand hold, and a row
  is handed to the agent once at most;
* `crash_after_delivery`: a restart from a snapshot older than the take.
-/

namespace Zeron.Delivery

open Session

/-- What the user typed and attached. -/
structure Content where
  text : String
  attachments : List String
  deriving DecidableEq, Repr

/-- The user's part of a row. -/
def content (m : QueuedMessage) : Content := ⟨m.text, m.attachments⟩

/-- The book of what waits, after an event. -/
def Event.book (waits : String → Option Content) : Event → String → Option Content
  | .queued id text attachments => Function.update waits id (some ⟨text, attachments⟩)
  | .retyped id text => Function.update waits id ((waits id).map fun c => { c with text })
  | .resolved id text attachments => Function.update waits id
      ((waits id).map fun c => ⟨text.getD c.text, attachments.getD c.attachments⟩)
  | .removed id | .handed id _ => Function.update waits id none
  | _ => waits

/-- What waits after a history that began with the rows of `saved`. -/
def waiting (saved : Queue) (log : List Event) : String → Option Content :=
  log.foldl Event.book fun id => (rowAt saved id).map content

/-- The row an event hands to the agent. -/
def Event.hands : Event → Option String
  | .handed id _ => some id
  | _ => none

/-- How often a row was handed to the agent. -/
def handings (log : List Event) (id : String) : ℕ := (log.filterMap Event.hands).count id

/-- A row of the queue, or the one in hand. -/
def World.row (w : World) (id : String) : Option QueuedMessage :=
  ((w.holder.bind Section.hand).filter (·.id = id)).or (rowAt w.host.doc id)

/-! ## The condition -/

def Reply.isHalfway : Reply → Bool
  | .halfway _ => true
  | _ => false

/-- A dispatch that fails has not handed the row on; a restart finds the rows that are in the queue
and in hand, as the user left them; and the prompt of a held steer has an id of its own. -/
def Faithful (w : World) : Act → Prop
  | .turn a => ∀ s ∈ w.holder, s.hand.isSome = true → a.reply.isHalfway = false
  | .restart => ∀ id ∈ w.host.known,
      (rowAt w.host.saved id).map content = (w.row id).map content
  | .holdSteer messageId _ _ => trim messageId = messageId ∧ messageId ∉ w.host.known
  | _ => True

instance (w : World) : (act : Act) → Decidable (Faithful w act)
  | .turn _ => inferInstanceAs (Decidable (∀ s ∈ w.holder, _ → _))
  | .restart => inferInstanceAs (Decidable (∀ id ∈ w.host.known, _ = _))
  | .holdSteer _ _ _ => inferInstanceAs (Decidable (_ ∧ _))
  | .queueMessage _ _ _ _ _ | .updateText _ _ _ | .move _ _ | .call _ | .fire _ | .sent | .thaw
  | .pauseAll | .save => .isTrue trivial

theorem minted_of_faithful {w : World} {act : Act} (h : Faithful w act) : Minted w act := by
  cases act with
  | holdSteer => exact h
  | _ => trivial

/-! ## The invariant -/

structure OnceInv (saved : Queue) (w : World) : Prop where
  table : TableInv w
  waits : waiting saved w.host.log = fun id => (w.row id).map content
  once : ∀ id, handings w.host.log id ≤ 1
  gone : ∀ id, handings w.host.log id ≠ 0 → id ∈ w.host.known ∧ w.row id = none

/-- A step that books what it does to the rows, hands on a row that is there, and brings back none
that was known. -/
theorem onceInv_booked {saved : Queue} {w : World} (h : OnceInv saved w) {host : Host}
    {holder : Option Section} {thaws : ℕ} (ht : TableInv ⟨host, holder, thaws⟩)
    {events : List Event} (hlog : host.log = w.host.log ++ events)
    (hrow : (fun id => (World.row ⟨host, holder, thaws⟩ id).map content) =
      events.foldl Event.book fun id => (w.row id).map content)
    (hknown : w.host.known ⊆ host.known)
    (hhands : ∀ id, handings events id = 0 ∨
      (handings events id = 1 ∧ id ∈ w.host.known ∧ w.row id ≠ none ∧ World.row ⟨host, holder, thaws⟩ id = none))
    (hgone : ∀ id ∈ w.host.known, w.row id = none → World.row ⟨host, holder, thaws⟩ id = none) :
    OnceInv saved ⟨host, holder, thaws⟩ := by
  have hcount : ∀ id, handings host.log id = handings w.host.log id + handings events id := by
    intro id
    rw [hlog, handings, List.filterMap_append, List.count_append]
    rfl
  constructor
  case table => exact ht
  case waits =>
    rw [hlog, waiting, List.foldl_append, ← waiting, h.waits]
    exact hrow.symm
  case once =>
    intro id
    rw [hcount]
    rcases hhands id with hzero | ⟨hone, -, hthere, -⟩
    · have := h.once id
      omega
    · have hnever : handings w.host.log id = 0 := by
        by_contra hne
        exact hthere (h.gone id hne).2
      omega
  case gone =>
    intro id hne
    rw [hcount] at hne
    rcases hhands id with hzero | ⟨-, hkn, -, hnone⟩
    · obtain ⟨hkn, hnone⟩ := h.gone id (by omega)
      exact ⟨hknown hkn, hgone id hkn hnone⟩
    · exact ⟨hknown hkn, hnone⟩

/-- An event that neither books nor hands on. -/
def Event.silent : Event → Bool
  | .queued _ _ _ | .retyped _ _ | .resolved _ _ _ | .removed _ | .handed _ _ => false
  | _ => true

theorem silent_events {events : List Event} (h : ∀ ev ∈ events, ev.silent = true) :
    (∀ waits, events.foldl Event.book waits = waits) ∧ ∀ id, handings events id = 0 := by
  induction events with
  | nil => exact ⟨fun _ => rfl, fun _ => rfl⟩
  | cons ev events ih =>
    obtain ⟨hev, hrest⟩ := List.forall_mem_cons.mp h
    obtain ⟨hbook, hhands⟩ := ih hrest
    have hsilent : (∀ waits, ev.book waits = waits) ∧ ev.hands = none := by
      cases ev with
      | queued | retyped | resolved | removed | handed => cases hev
      | _ => exact ⟨fun _ => rfl, rfl⟩
    refine ⟨fun waits => ?_, fun id => ?_⟩
    · rw [List.foldl_cons, hsilent.1, hbook]
    · rw [handings, List.filterMap_cons_none hsilent.2]
      exact hhands id

theorem onceInv_silent {saved : Queue} {w : World} (h : OnceInv saved w) {host : Host}
    {holder : Option Section} {thaws : ℕ} (ht : TableInv ⟨host, holder, thaws⟩)
    {events : List Event} (hlog : host.log = w.host.log ++ events)
    (hsilent : ∀ ev ∈ events, ev.silent = true)
    (hrow : ∀ id, (World.row ⟨host, holder, thaws⟩ id).map content = (w.row id).map content)
    (hknown : w.host.known ⊆ host.known) :
    OnceInv saved ⟨host, holder, thaws⟩ := by
  obtain ⟨hbook, hhands⟩ := silent_events hsilent
  refine onceInv_booked h ht hlog ?_ hknown (fun id => .inl (hhands id)) fun id _ hnone => ?_
  · rw [hbook]
    exact funext hrow
  · have hsame := hrow id
    rw [hnone] at hsame
    simpa using hsame

section Row

variable {w : World} {id : String}

theorem row_free (h : w.holder.bind Section.hand = none) : w.row id = rowAt w.host.doc id := by
  rw [World.row, h]
  rfl

theorem row_hand {m : QueuedMessage} (h : w.holder.bind Section.hand = some m) :
    w.row id = if m.id = id then some m else rowAt w.host.doc id := by
  rw [World.row, h]
  by_cases hid : m.id = id
  · simp [Option.filter, hid]
  · simp [Option.filter, hid]

end Row

theorem onceInv_event {saved : Queue} {w : World} (h : OnceInv saved w) {host : Host}
    {holder : Option Section} {thaws : ℕ} (ht : TableInv ⟨host, holder, thaws⟩)
    (pre : List Event) (ev : Event) (hlog : host.log = w.host.log ++ (pre ++ [ev]))
    (hpre : ∀ e ∈ pre, e.silent = true)
    (hrow : (fun id => (World.row ⟨host, holder, thaws⟩ id).map content) = ev.book fun id => (w.row id).map content)
    (hknown : w.host.known ⊆ host.known)
    (hhands : ∀ id, ev.hands = some id →
      id ∈ w.host.known ∧ w.row id ≠ none ∧ World.row ⟨host, holder, thaws⟩ id = none)
    (hgone : ∀ id ∈ w.host.known, w.row id = none → World.row ⟨host, holder, thaws⟩ id = none) :
    OnceInv saved ⟨host, holder, thaws⟩ := by
  obtain ⟨hbook, hzero⟩ := silent_events hpre
  refine onceInv_booked h ht hlog ?_ hknown (fun id => ?_) hgone
  · rw [List.foldl_append, hbook]
    exact hrow
  · rw [handings, List.filterMap_append, List.count_append]
    have hpre0 : (pre.filterMap Event.hands).count id = 0 := hzero id
    cases hev : ev.hands with
    | none => exact .inl (by simp [hpre0, hev])
    | some id' =>
      by_cases hid : id' = id
      · subst hid
        exact .inr ⟨by simp [hpre0, hev], hhands id' hev⟩
      · exact .inl (by simp [hpre0, hev, hid])

section Step

variable {saved : Queue} {w : World}

theorem map_update {α β : Type*} (T : String → Option α) (g : α → β) (id : String) (x : Option α) :
    (fun id' => (Function.update T id x id').map g) =
      Function.update (fun id' => (T id').map g) id (x.map g) := by
  ext1 id'
  by_cases hid : id' = id
  · rw [hid, Function.update_self, Function.update_self]
  · rw [Function.update_of_ne hid, Function.update_of_ne hid]

theorem absent_update {T : String → Option QueuedMessage} {id : String}
    {g : QueuedMessage → QueuedMessage} {id' : String} (h : T id' = none) :
    Function.update T id none id' = none ∧ Function.update T id ((T id).map g) id' = none := by
  by_cases hid : id' = id
  · subst hid
    simp [h]
  · simp [Function.update_of_ne hid, h]

theorem onceInv_regate (h : OnceInv saved w) {host : Host} {holder : Option Section} {thaws : ℕ}
    (ht : TableInv { host, holder, thaws }) (hfree : w.holder.bind Section.hand = none)
    (hnext : holder.bind Section.hand = none) {id : String} {gate : QueueDeliveryGate}
    {events : List Event} (ha : Applied w.host host (Function.update (rowAt w.host.doc) id
      ((rowAt w.host.doc id).map fun m => { m with deliveryGate := some gate })) events)
    (hsilent : ∀ ev ∈ events, ev.silent = true) : OnceInv saved { host, holder, thaws } := by
  refine onceInv_silent h ht ha.log hsilent (fun id' => ?_) ha.known
  rw [row_free hfree, row_free hnext, ha.rows]
  by_cases hid : id' = id
  · subst hid
    rw [Function.update_self, Option.map_map]
    rfl
  · rw [Function.update_of_ne hid]

theorem onceInv_removed (h : OnceInv saved w) {host : Host} {holder : Option Section} {thaws : ℕ}
    (ht : TableInv { host, holder, thaws }) {id : String}
    (hrow : ∀ id', World.row { host, holder, thaws } id' = Function.update w.row id none id')
    (pre : List Event) (hpre : ∀ e ∈ pre, e.silent = true)
    (hlog : host.log = w.host.log ++ (pre ++ [Event.removed id])) (hknown : w.host.known ⊆ host.known) :
    OnceInv saved { host, holder, thaws } := by
  refine onceInv_event h ht pre (.removed id) hlog hpre ?_ hknown (fun _ hev => by cases hev) fun id' _ hnone => ?_
  · rw [show (World.row { host, holder, thaws }) = Function.update w.row id none from funext hrow,
      map_update]
    rfl
  · rw [hrow]
    by_cases hid : id' = id
    · rw [hid, Function.update_self]
    · rw [Function.update_of_ne hid, hnone]

theorem onceInv_section (h : OnceInv saved w) {s : Section} (hs : w.holder = some s) {a : Answer}
    (hg : Faithful w (.turn a)) {e : Effect} {next : Option Section}
    (hstep : SectionStep w.host a s e next) :
    OnceInv saved { w with host := w.host.apply e, holder := next } := by
  have ht := h.table.tidy
  have htable := tableInv_section h.table hs hstep
  have hhand : w.holder.bind Section.hand = s.hand := by rw [hs]; rfl
  cases hstep with
  | quiet he hnext hready =>
    obtain ⟨events, ha, hevents⟩ := quiet_apply ht he
    refine onceInv_silent h htable ha.log (fun ev hev => by rw [hevents ev hev]; rfl)
      (fun id => ?_) ha.known
    rw [World.row, World.row, ha.rows, hnext, hhand]
  | @remove id =>
    have ha := applied_remove ht id
    have hrow : ∀ id', World.row { w with host := w.host.apply (.remove id), holder := none } id' =
        Function.update w.row id none id' := by
      intro id'
      rw [row_free rfl, ha.rows, show w.row = rowAt w.host.doc from funext fun _ => row_free hhand]
    cases hsome : (rowAt w.host.doc id).isSome with
    | true =>
      rw [hsome] at ha
      exact onceInv_removed h htable hrow [] (List.forall_mem_nil _) ha.log ha.known
    | false =>
      rw [hsome] at ha
      refine onceInv_silent h htable ha.log (List.forall_mem_nil _) (fun id' => ?_) ha.known
      have hnone : rowAt w.host.doc id = none := by simpa using hsome
      rw [row_free rfl, ha.rows, update_absent hnone, row_free hhand]
  | @grant item lease gate expiresAtMs hsome =>
    exact onceInv_regate h htable hhand rfl (applied_grant ht lease item.text gate hsome).1 (by simp [Event.silent])
  | keep | saving =>
    cases hok : a.saved <;> rw [hok] at htable <;>
      exact onceInv_silent h htable (List.append_nil _).symm (List.forall_mem_nil _)
        (fun id => by rw [row_free rfl, row_free hhand]; rfl) (Finset.Subset.refl _)
  | @acquired item lease hash expiresAtMs =>
    have hlog : (w.host.apply (.acquire ⟨item.id, lease, expiresAtMs⟩)).log =
        w.host.log ++ [Event.acquired item.id lease] := rfl
    exact onceInv_silent h htable hlog (by simp [Event.silent])
      (fun id => by rw [row_free rfl, row_free hhand]; rfl) (Finset.Subset.refl _)
  | @extend id lease gate expiresAtMs =>
    exact onceInv_regate h htable hhand rfl (applied_regate ht id gate) (List.forall_mem_nil _)
  | @lapse id gate outcome =>
    exact onceInv_regate h htable hhand rfl (applied_regate ht id gate) (List.forall_mem_nil _)
  | @resolve id lease action replacement attachments hsome =>
    have hrow₀ : w.row = rowAt w.host.doc := funext fun _ => row_free hhand
    rcases applied_finish ht lease attachments a.nowMs hsome with ⟨-, ha⟩ | ⟨-, changed, ha⟩
    · refine onceInv_removed h htable (fun id' => ?_) [.ended id lease] (by simp [Event.silent])
        ha.log ha.known
      rw [row_free rfl, ha.rows, hrow₀]
    · have hrow : ∀ id', World.row { w with
          host := w.host.apply (.finish id lease replacement attachments a.nowMs)
          holder := some (.saving (.finished action)) } id' = Function.update (rowAt w.host.doc) id
            ((rowAt w.host.doc id).map fun m =>
              m.finished changed replacement attachments a.nowMs) id' := by
        intro id'
        rw [row_free rfl, ha.rows]
      refine onceInv_event h htable [.ended id lease] (.resolved id replacement attachments) ha.log
        (by simp [Event.silent]) ?_ ha.known (fun _ hev => by cases hev) fun id' _ hnone => ?_
      · rw [hrow₀]
        simp only [hrow]
        rw [map_update, Event.book, Option.map_map, Option.map_map]
        rfl
      · rw [hrow₀] at hnone
        rw [hrow]
        exact (absent_update hnone).2
  | @take id road m hrow hgate =>
    have ha := applied_take ht road hrow hgate
    have hid := id_of_rowAt hrow
    have hhand' : (some (Section.dispatch m road)).bind Section.hand = some m := by
      cases road <;> rfl
    refine onceInv_silent h htable ha.log (by simp [Event.silent]) (fun id' => ?_) ha.known
    rw [row_hand hhand', row_free hhand, ha.rows]
    by_cases hid' : id' = id
    · rw [if_pos (hid.trans hid'.symm), hid', hrow]
    · rw [if_neg fun heq => hid' (heq.symm.trans hid), Function.update_of_ne hid']
  | @sent s m road was hs' =>
    have hhand' : w.holder.bind Section.hand = some m := hhand.trans hs'
    obtain ⟨-, hkn, hnone⟩ := h.table.hand s hs m hs'
    have hrow : ∀ id', World.row { w with
        host := w.host.apply (.hand m.id road), holder := some (.sent m road was) } id' =
          Function.update w.row m.id none id' := by
      intro id'
      rw [row_free rfl]
      by_cases hid : id' = m.id
      · rw [hid, Function.update_self]
        exact hnone
      · rw [Function.update_of_ne hid, row_hand hhand', if_neg (Ne.symm hid)]
        rfl
    refine onceInv_event h htable [] (.handed m.id road) rfl (List.forall_mem_nil _) ?_
      (Finset.Subset.refl _) (fun id' hev => ?_) fun id' _ habsent => ?_
    · simp only [hrow]
      rw [map_update]
      rfl
    · obtain rfl : m.id = id' := Option.some_inj.mp hev
      refine ⟨hkn, ?_, by rw [hrow, Function.update_self]⟩
      rw [row_hand hhand', if_pos rfl]
      exact Option.some_ne_none m
    · rw [hrow]
      by_cases hid : id' = m.id
      · rw [hid, Function.update_self]
      · rw [Function.update_of_ne hid, habsent]
  | @halfway s m road was error hs' hreply =>
    have hno := hg s hs (by rw [hs']; rfl)
    rw [hreply] at hno
    cases hno
  | @accept m road was _ hs' =>
    have hlog : (w.host.apply (.accept m.id road)).log =
        w.host.log ++ [Event.accepted m.id road] := rfl
    refine onceInv_silent h htable hlog (by simp [Event.silent]) (fun id => ?_)
      (Finset.Subset.refl _)
    have hfree : next.bind Section.hand = none := by rcases hs' with rfl | rfl <;> rfl
    rw [row_free hfree, row_free hhand]
    rfl
  | @putBack m road error =>
    obtain ⟨⟨hcheck, htrim⟩, hkn, hnone⟩ := h.table.hand _ hs m rfl
    have ha := applied_putBack ht hcheck htrim hnone
    refine onceInv_silent h htable ha.log (List.forall_mem_nil _) (fun id => ?_) ha.known
    rw [row_free rfl, ha.rows, row_hand hhand]
    by_cases hid : id = m.id
    · rw [hid, Function.update_self, if_pos rfl]
    · rw [Function.update_of_ne hid, if_neg (Ne.symm hid)]

theorem onceInv_push (h : OnceInv saved w) {m : QueuedMessage} (htrim : trim m.id = m.id)
    (hnew : m.id ∉ w.host.known) : OnceInv saved { w with host := w.host.push m } := by
  have htable := tableInv_push h.table htrim hnew
  have hnone : rowAt w.host.doc m.id = none := by
    by_contra hne
    obtain ⟨m', hm'⟩ := Option.ne_none_iff_exists'.mp hne
    exact hnew (h.table.known m.id m' hm')
  rcases applied_push h.table.tidy htrim hnone with hsame | ⟨ha, -⟩
  · rw [hsame]
    exact h
  have hrow : ∀ id, World.row { w with host := w.host.push m } id =
      Function.update w.row m.id (some m) id := by
    intro id
    rw [World.row, ha.rows]
    by_cases hid : id = m.id
    · have hfree : (w.holder.bind Section.hand).filter (·.id = id) = none := by
        rw [Option.filter_eq_none_iff]
        intro m' hm' heq
        obtain ⟨s, hs, hm'⟩ := Option.mem_bind_iff.mp hm'
        have hkn := (h.table.hand s hs m' hm').2.1
        rw [show m'.id = m.id by rw [← hid]; simpa using heq] at hkn
        exact hnew hkn
      rw [hfree, hid, Function.update_self, Function.update_self]
      rfl
    · rw [Function.update_of_ne hid, Function.update_of_ne hid, World.row]
  refine onceInv_event h htable [] (.queued m.id m.text m.attachments) ha.log
    (List.forall_mem_nil _) ?_ ha.known (fun _ hev => by cases hev) fun id hkn habsent => ?_
  · simp only [hrow]
    rw [map_update]
    rfl
  · rw [hrow, Function.update_of_ne (by rintro rfl; exact hnew hkn), habsent]

theorem row_written (h : TableInv w) {host : Host} {id : String} {x : Option QueuedMessage}
    {events : List Event}
    (ha : Applied w.host host (Function.update (rowAt w.host.doc) id x) events)
    (hsome : (rowAt w.host.doc id).isSome = true) (id' : String) :
    World.row { w with host } id' = Function.update w.row id x id' ∧
      w.row id = rowAt w.host.doc id := by
  have hfree : (w.holder.bind Section.hand).filter (·.id = id) = none := by
    rw [Option.filter_eq_none_iff]
    intro m hm heq
    obtain ⟨s, hs, hm⟩ := Option.mem_bind_iff.mp hm
    have hnone := (h.hand s hs m hm).2.2
    rw [show m.id = id by simpa using heq] at hnone
    rw [hnone] at hsome
    cases hsome
  refine ⟨?_, by rw [World.row, hfree]; rfl⟩
  rw [World.row, ha.rows]
  by_cases hid : id' = id
  · rw [hid, hfree, Function.update_self, Function.update_self]
    rfl
  · rw [Function.update_of_ne hid, Function.update_of_ne hid, World.row]

theorem onceInv_retype (h : OnceInv saved w) (id text : String) (nowMs : ℤ) :
    OnceInv saved { w with host := w.host.retype id text nowMs } := by
  have htable := tableInv_retype h.table id text nowMs
  rcases applied_retype h.table.tidy id text nowMs with
    ⟨-, ha⟩ | ⟨-, hsame, -⟩ | ⟨-, hsome, editedAt, ha⟩
  · cases hsome : (rowAt w.host.doc id).isSome with
    | true =>
      rw [hsome] at ha
      exact onceInv_removed h htable (fun id' => (row_written h.table ha hsome id').1) []
        (List.forall_mem_nil _) ha.log ha.known
    | false =>
      rw [hsome] at ha
      have hnone : rowAt w.host.doc id = none := by simpa using hsome
      rw [update_absent hnone] at ha
      refine onceInv_silent h htable ha.log (List.forall_mem_nil _) (fun id' => ?_) ha.known
      rw [World.row, World.row, ha.rows]
  · rw [hsame]
    exact h
  · have hrow := fun id' => (row_written h.table ha hsome id').1
    have hold := (row_written h.table ha hsome id).2
    refine onceInv_event h htable [] (.retyped id text) ha.log (List.forall_mem_nil _) ?_ ha.known
      (fun _ hev => by cases hev) fun id' _ habsent => ?_
    · simp only [hrow]
      rw [map_update, Event.book, hold, Option.map_map, Option.map_map]
      rfl
    · rw [hrow, ← hold]
      exact (absent_update habsent).2

theorem onceInv_called (h : OnceInv saved w) {s : Section} {timers : List Timer}
    (ht : TableInv { w with host.timers := timers, holder := some s }) (hfree : w.holder = none)
    (hhand : s.hand = none) :
    OnceInv saved { w with host.timers := timers, holder := some s } := by
  refine onceInv_silent h ht (List.append_nil _).symm (List.forall_mem_nil _) (fun id => ?_)
    (Finset.Subset.refl _)
  have hnext : (some s).bind Section.hand = none := hhand
  rw [row_free hnext, row_free (w := w) (by rw [hfree]; rfl)]

theorem row_unknown (h : TableInv w) {id : String} (hnew : id ∉ w.host.known) :
    w.row id = none := by
  have hdoc : rowAt w.host.doc id = none :=
    Option.eq_none_iff_forall_ne_some.mpr fun m hm => hnew (h.known id m hm)
  rw [World.row, hdoc, Option.or_none, Option.filter_eq_none_iff]
  intro m hm heq
  obtain ⟨s, hs, hm⟩ := Option.mem_bind_iff.mp hm
  have hkn := (h.hand s hs m hm).2.1
  rw [show m.id = id by simpa using heq] at hkn
  exact hnew hkn

end Step

theorem onceInv_step {saved : Queue} {w w' : World} {act : Act} (h : OnceInv saved w)
    (hg : Faithful w act) (hs : w.step act = some w') : OnceInv saved w' := by
  have htable := tableInv_step h.table (minted_of_faithful hg) hs
  cases act with
  | queueMessage id text attachments hold nowMs =>
    simp only [World.step, Option.ite_none_right_eq_some, Option.some_inj] at hs
    obtain ⟨⟨htrim, hnew⟩, rfl⟩ := hs
    exact onceInv_push h htrim hnew
  | holdSteer messageId prompt nowMs =>
    obtain rfl := Option.some.inj hs
    exact onceInv_push h hg.1 hg.2
  | updateText id text nowMs =>
    obtain rfl := Option.some.inj hs
    exact onceInv_retype h id text nowMs
  | move id target =>
    obtain rfl := Option.some.inj hs
    refine onceInv_silent h htable (List.append_nil _).symm (List.forall_mem_nil _) (fun id' => ?_)
      (Finset.Subset.refl _)
    rw [World.row, World.row, (tidy_move h.table.tidy id target).2]
  | call s =>
    simp only [World.step, Option.ite_none_right_eq_some, Option.some_inj] at hs
    obtain ⟨⟨hfree, hentry⟩, rfl⟩ := hs
    exact onceInv_called h htable hfree (entry_hand hentry)
  | fire t =>
    simp only [World.step, Option.ite_none_right_eq_some, Option.some_inj] at hs
    obtain ⟨⟨hfree, -⟩, rfl⟩ := hs
    exact onceInv_called h htable hfree rfl
  | turn a =>
    simp only [World.step] at hs
    split at hs
    · rename_i s hholder
      split_ifs at hs
      obtain rfl := Option.some.inj hs
      exact onceInv_section h hholder hg (section_step h.table.tidy h.table.known a s)
    · cases hs
  | sent =>
    obtain rfl := Option.some.inj hs
    exact onceInv_silent h htable (show _ = _ ++ [Event.sent] from rfl) (List.forall_mem_singleton.mpr rfl)
      (fun _ => rfl) (Finset.Subset.refl _)
  | thaw =>
    simp only [World.step, Option.ite_none_left_eq_some, Option.some_inj] at hs
    obtain ⟨-, rfl⟩ := hs
    exact onceInv_silent h htable (List.append_nil _).symm (List.forall_mem_nil _) (fun _ => rfl)
      (Finset.Subset.refl _)
  | pauseAll | save =>
    obtain rfl := Option.some.inj hs
    exact onceInv_silent h htable (List.append_nil _).symm (List.forall_mem_nil _) (fun _ => rfl)
      (Finset.Subset.refl _)
  | restart =>
    obtain rfl := Option.some.inj hs
    refine onceInv_silent h htable (show _ = _ ++ [Event.opened _] from rfl) (List.forall_mem_singleton.mpr rfl)
      (fun id => ?_) (Finset.Subset.refl _)
    by_cases hkn : id ∈ w.host.known
    · exact hg id hkn
    · -- an id that no row ever had
      have hsaved : rowAt w.host.saved id = none :=
        Option.eq_none_iff_forall_ne_some.mpr fun m hm => hkn (h.table.savedKnown id m hm)
      rw [row_unknown h.table hkn]
      exact congrArg (Option.map content) hsaved

theorem onceInv_boot (deviceId : String) (queueTextHash : String → String) {saved : Queue}
    (ht : Tidy saved) : OnceInv saved (.boot deviceId queueTextHash saved) where
  table := tableInv_boot deviceId queueTextHash ht
  waits := rfl
  once _ := Nat.zero_le 1
  gone _ hne := absurd rfl hne

/-- **A queued row is delivered once and does not vanish.** In every run of faithful steps over a
durable queue, a row is handed to the agent once at most, and what waits by the log is what is in the
queue and in hand: in the queue alone, where no call has a row in hand. -/
theorem queued_once (deviceId : String) (queueTextHash : String → String) (saved : Queue)
    (ht : Tidy saved) (acts : List Act)
    (hg : Run.Guarded World.step Faithful (.boot deviceId queueTextHash saved) acts)
    (w : World) (hw : Run.exec World.step (.boot deviceId queueTextHash saved) acts = some w) :
    (∀ id, handings w.host.log id ≤ 1) ∧
      (∀ id, waiting saved w.host.log id = (w.row id).map content) ∧
      (w.holder.bind Section.hand = none →
        ∀ id, waiting saved w.host.log id = (rowAt w.host.doc id).map content) := by
  have h : OnceInv saved w := Run.exec_invariant (fun _ _ _ => onceInv_step)
    (onceInv_boot deviceId queueTextHash ht) hg hw
  refine ⟨h.once, congrFun h.waits, fun hfree id => ?_⟩
  rw [h.waits, ← row_free hfree]

theorem tidy_drafted : Tidy [drafted] := by
  refine ⟨fun e he => ?_, by decide +kernel⟩
  rw [List.mem_singleton.mp he]
  exact ⟨draft, row_drafted, addressed_drafted.stored⟩

/-- The durable row is sent now, and its dispatch fails; it is retyped and sent once more. -/
theorem queued_once_resent :
    let acts := calls (.sendNow "q1") (List.replicate 4 .idle ++
        [{ Answer.idle with reply := .failed "offline" }, .idle, .idle]) ++
      .updateText "q1" "once more" 2 :: calls (.sendNow "q1") (List.replicate 6 .idle)
    let w := (Run.exec World.step (.boot "a" id [drafted]) acts).get (by decide +kernel)
    handings w.host.log "q1" = 1 ∧ (∀ id, handings w.host.log id ≤ 1) ∧
      (∀ id, waiting [drafted] w.host.log id = (rowAt w.host.doc id).map content) := by
  intro acts w
  have h := queued_once "a" id [drafted] tidy_drafted acts
    (Run.guarded_of_checks (by decide +kernel)) w (Option.some_get _).symm
  exact ⟨by decide +kernel, h.1, h.2.2 (by decide +kernel)⟩

/-- The host dies before the queue is saved without a row that the agent has: the row is there again,
and is handed to the agent again. -/
theorem crash_after_delivery :
    (Run.exec World.step (.boot "a" id [drafted])
      (calls (.sendNow "q1") (List.replicate 6 .idle) ++
        .restart :: calls (.sendNow "q1") (List.replicate 6 .idle))).map
        (fun w => handings w.host.log "q1") = some 2 := by
  decide +kernel

end Zeron.Delivery
