import Zeron.Delivery.Lease
import Zeron.Delivery.Once

/-!
# Edit leases are safe

* `BasisInv`: the gate of a row carries the hash of the one text its lease was granted over;
* `Spared`: what a step does to the gate of an edit: it expires, or is replaced, after its deadline,
  it is renewed, or it is finished;
* **`edit_leases_safe`**: in every run of sound steps a leased row is not delivered, a row has one
  live lease at most, the lease is spared by every step, another lease finishes nothing, and a commit
  replaces the text that the lease was granted over;
* `edit_overwritten`: an edit between the check of a commit and its write.
-/

namespace Zeron.Delivery

open Session History

/-! ## What a lease was granted over -/

/-- Where a gate comes from: its lease was granted over one text, or is in the first queue. -/
def Origin (saved : Queue) (h : Host) (id : String) (gate : QueueDeliveryGate) : Prop :=
  gate.lease ∈ h.known ∧
    ((∃ text, basis h.log id gate.lease = [text] ∧ h.queueTextHash text = gate.baseTextHash) ∨
      (basis h.log id gate.lease = [] ∧ ∃ m gate₀, rowAt saved id = some m ∧
        m.deliveryGate = some gate₀ ∧ gate₀.lease = gate.lease ∧
          gate₀.baseTextHash = gate.baseTextHash))

/-- Every gate of a queue has an origin. -/
def Traced (saved : Queue) (h : Host) (D : Queue) : Prop :=
  ∀ id m gate, rowAt D id = some m → m.deliveryGate = some gate → Origin saved h id gate

structure BasisInv (saved : Queue) (w : World) : Prop where
  minted : ∀ id lease, basis w.host.log id lease ≠ [] → lease ∈ w.host.known
  doc : Traced saved w.host w.host.doc
  durable : Traced saved w.host w.host.saved
  hand : ∀ s ∈ w.holder, ∀ m ∈ s.hand, m.deliveryGate = none

/-- Every gate of `D'` is of the lease that gates its row in `D`. -/
def Inherits (D D' : Queue) : Prop :=
  ∀ id m gate, rowAt D' id = some m → m.deliveryGate = some gate → ∃ m₀ gate₀,
    rowAt D id = some m₀ ∧ m₀.deliveryGate = some gate₀ ∧ gate₀.lease = gate.lease ∧
      gate₀.baseTextHash = gate.baseTextHash

theorem inherits_same {D D' : Queue} (h : rowAt D' = rowAt D) : Inherits D D' :=
  fun id m gate hm hgate => ⟨m, gate, by rw [← h, hm], hgate, rfl, rfl⟩

theorem inherits_update {D D' : Queue} {id : String} {x : Option QueuedMessage}
    (h : rowAt D' = Function.update (rowAt D) id x)
    (hx : ∀ m gate, x = some m → m.deliveryGate = some gate → ∃ m₀ gate₀, rowAt D id = some m₀ ∧
      m₀.deliveryGate = some gate₀ ∧ gate₀.lease = gate.lease ∧
        gate₀.baseTextHash = gate.baseTextHash) : Inherits D D' := by
  intro id' m gate hm hgate
  rw [h] at hm
  by_cases hid : id' = id
  · subst hid
    rw [Function.update_self] at hm
    exact hx m gate hm hgate
  · rw [Function.update_of_ne hid] at hm
    exact ⟨m, gate, hm, hgate, rfl, rfl⟩

/-- The event grants no lease. -/
def Event.grants : Event → Bool
  | .granted _ _ _ => true
  | _ => false

theorem basis_append {log events : List Event} (h : ∀ e ∈ events, e.grants = false)
    (id lease : String) : basis (log ++ events) id lease = basis log id lease := by
  have hnone : events.filterMap (Event.grantOver id lease) = [] := by
    refine List.filterMap_eq_nil_iff.mpr fun e he => ?_
    have hgrants := h e he
    cases e with
    | granted => cases hgrants
    | _ => rfl
  rw [basis, List.filterMap_append, hnone, List.append_nil, basis]

section Traces

variable {saved : Queue} {w : World}

theorem Traced.mono {h h' : Host} {D D' : Queue} (ht : Traced saved h D) (hi : Inherits D D')
    (hknown : h.known ⊆ h'.known) (hhash : h'.queueTextHash = h.queueTextHash)
    (hbasis : ∀ id, ∀ lease ∈ h.known, basis h'.log id lease = basis h.log id lease) :
    Traced saved h' D' := by
  intro id m gate hm hgate
  obtain ⟨m₀, gate₀, hm₀, hgate₀, hlease, hbase⟩ := hi id m gate hm hgate
  obtain ⟨hkn, horigin⟩ := ht id m₀ gate₀ hm₀ hgate₀
  rw [hlease] at hkn
  refine ⟨hknown hkn, ?_⟩
  rw [hbasis id _ hkn, hhash, ← hlease, ← hbase]
  exact horigin

theorem basisInv_inherits (h : BasisInv saved w) {host : Host} {holder : Option Section}
    {thaws : ℕ} {events : List Event}
    (hlog : host.log = w.host.log ++ events) (hevents : ∀ e ∈ events, e.grants = false)
    (hhash : host.queueTextHash = w.host.queueTextHash)
    (hknown : w.host.known ⊆ host.known)
    (hdoc : Inherits w.host.doc host.doc ∨ Inherits w.host.saved host.doc)
    (hsaved : host.saved = w.host.saved ∨ host.saved = w.host.doc)
    (hhand : ∀ s ∈ holder, ∀ m ∈ s.hand, m.deliveryGate = none) :
    BasisInv saved ⟨host, holder, thaws⟩ := by
  have hbasis : ∀ id lease, basis host.log id lease = basis w.host.log id lease := by
    intro id lease
    rw [hlog, basis_append hevents]
  refine ⟨fun id lease hne => ?_, ?_, ?_, hhand⟩
  · rw [hbasis] at hne
    exact hknown (h.minted id lease hne)
  · rcases hdoc with hi | hi
    · exact h.doc.mono hi hknown hhash fun id lease _ => hbasis id lease
    · exact h.durable.mono hi hknown hhash fun id lease _ => hbasis id lease
  · rcases hsaved with hsame | hsame <;> rw [hsame]
    · exact h.durable.mono (inherits_same rfl) hknown hhash fun id lease _ => hbasis id lease
    · exact h.doc.mono (inherits_same rfl) hknown hhash fun id lease _ => hbasis id lease

/-- A lease is granted over the text the client is shown. -/
theorem basisInv_grant (h : BasisInv saved w) {item : QueuedMessage}
    {lease : String} {gate : QueueDeliveryGate} {next : Option Section} (ht : TableInv w)
    (hsome : (rowAt w.host.doc item.id).isSome = true) (hfresh : lease ∉ w.host.known)
    (hlease : gate.lease = lease) (hhash : gate.baseTextHash = w.host.queueTextHash item.text)
    (hnext : ∀ t ∈ next, t.hand = none) :
    BasisInv saved
      { w with host := w.host.apply (.grant item.id lease item.text gate), holder := next } := by
  obtain ⟨ha, hkn⟩ := applied_grant ht.tidy lease item.text gate hsome
  have hnone : ∀ id, basis w.host.log id lease = [] := by
    intro id
    by_contra hne
    exact hfresh (h.minted id lease hne)
  have hbasis : ∀ id lease', basis (w.host.apply (.grant item.id lease item.text gate)).log id
      lease' = if item.id = id ∧ lease = lease' then [item.text] else basis w.host.log id lease' := by
    intro id lease'
    rw [ha.log, basis, List.filterMap_append, ← basis]
    by_cases hsame : item.id = id ∧ lease = lease'
    · rw [if_pos hsame, ← hsame.2, hnone, hsame.1]
      simp [Event.grantOver]
    · rw [if_neg hsame]
      simp [Event.grantOver, hsame]
  have hold : ∀ id, ∀ lease' ∈ w.host.known,
      basis (w.host.apply (.grant item.id lease item.text gate)).log id lease' =
        basis w.host.log id lease' := by
    intro id lease' hmem
    rw [hbasis, if_neg]
    rintro ⟨-, rfl⟩
    exact hfresh hmem
  refine ⟨fun id lease' hne => ?_, fun id m gate' hm hgate => ?_, ?_, fun t htn m hm => ?_⟩
  · rw [hbasis] at hne
    split_ifs at hne with hsame
    · exact hsame.2 ▸ hkn
    · exact ha.mem_known (h.minted id lease' hne)
  · by_cases hid : id = item.id
    · subst hid
      rw [ha.rows, Function.update_self] at hm
      obtain ⟨m₀, -, rfl⟩ := Option.map_eq_some_iff.mp hm
      cases hgate
      refine ⟨hlease.symm ▸ hkn, .inl ⟨item.text, ?_, ?_⟩⟩
      · rw [hbasis, if_pos ⟨rfl, hlease.symm⟩]
      · rw [ha.hash, hhash]
    · have hrow : rowAt w.host.doc id = some m := by
        rw [ha.rows, Function.update_of_ne hid] at hm
        exact hm
      obtain ⟨hmem, horigin⟩ := h.doc id m gate' hrow hgate
      refine ⟨ha.mem_known hmem, ?_⟩
      rw [hold id _ hmem, ha.hash]
      exact horigin
  · rw [ha.saved]
    exact h.durable.mono (inherits_same rfl) ha.known ha.hash hold
  · rw [hnext t htn] at hm
    cases hm

theorem inherits_regate {h : Host} (ht : Tidy h.doc) {id : String} {gate : QueueDeliveryGate}
    (hgated : Gated h.doc id gate.lease gate.baseTextHash) :
    Inherits h.doc (h.apply (.regate id gate)).doc := by
  refine inherits_update (applied_regate ht id gate).rows fun m gate' hm hgate => ?_
  obtain ⟨m₀, hm₀, rfl⟩ := Option.map_eq_some_iff.mp hm
  cases hgate
  obtain ⟨gate₀, hgate₀, hlease, hbase⟩ := hgated m₀ hm₀
  exact ⟨m₀, gate₀, hm₀, hgate₀, hlease, hbase⟩

theorem basisInv_section (h : BasisInv saved w) (hl : LeaseInv saved w) {s : Section}
    (hs : w.holder = some s) {a : Answer} {e : Effect} (hfresh : e.Fresh w.host)
    {next : Option Section} (hstep : SectionStep w.host a s e next) :
    BasisInv saved { w with host := w.host.apply e, holder := next } := by
  have ht := hl.table.tidy
  obtain ⟨hready, hclear⟩ := hl.holder s hs
  cases hstep with
  | quiet he hhand hgoes =>
    obtain ⟨events, ha, hevents⟩ := quiet_apply ht he
    refine basisInv_inherits h ha.log (fun e hmem => by rw [hevents e hmem]; rfl) ha.hash ha.known
      (.inl (inherits_same ha.rows)) (.inl ha.saved) fun t htn m hm => h.hand s hs m ?_
    rw [← hhand, show next = some t from htn]
    exact hm
  | @remove id =>
    have ha := applied_remove ht id
    refine basisInv_inherits h ha.log (fun e hmem => ?_) ha.hash ha.known
      (.inl (inherits_update ha.rows fun _ _ hm => by cases hm)) (.inl ha.saved) fun t htn => by
        cases htn
    split at hmem
    · rw [List.mem_singleton.mp hmem]
      rfl
    · cases hmem
  | @grant item lease gate expiresAtMs hsome =>
    obtain ⟨-, owner, inst, nowMs, exp, rfl, -⟩ := hready
    exact basisInv_grant h hl.table hsome hfresh rfl rfl fun t htn => by cases htn; rfl
  | keep =>
    cases hok : a.saved
    all_goals
      refine basisInv_inherits h (List.append_nil _).symm (List.forall_mem_nil _) rfl
        (Finset.Subset.refl _) (.inl (inherits_same rfl)) ?_ fun t htn m hm => by cases htn; cases hm
    · exact .inl rfl
    · exact .inr rfl
  | saving =>
    cases hok : a.saved
    all_goals
      refine basisInv_inherits h (List.append_nil _).symm (List.forall_mem_nil _) rfl
        (Finset.Subset.refl _) (.inl (inherits_same rfl)) ?_ fun t htn => by cases htn
    · exact .inl rfl
    · exact .inr rfl
  | @acquired item lease hash expiresAtMs =>
    exact basisInv_inherits h (show _ = _ ++ [Event.acquired item.id lease] from rfl)
      (List.forall_mem_singleton.mpr rfl) rfl (Finset.Subset.refl _) (.inl (inherits_same rfl))
      (.inl rfl) fun t htn => by cases htn
  | @extend id lease gate expiresAtMs =>
    obtain ⟨-, owner, inst, acq, exp, hash, rfl, hgated⟩ := hready
    exact basisInv_inherits h (List.append_nil _).symm (List.forall_mem_nil _) rfl
      (Finset.Subset.refl _) (.inl (inherits_regate ht hgated)) (.inl rfl)
      fun t htn m hm => by cases htn; cases hm
  | @lapse id gate outcome =>
    obtain ⟨-, lease, owner, since, hash, rfl, hgated, -⟩ := hready
    exact basisInv_inherits h (List.append_nil _).symm (List.forall_mem_nil _) rfl
      (Finset.Subset.refl _) (.inl (inherits_regate ht hgated)) (.inl rfl)
      fun t htn m hm => by cases htn; cases hm
  | @resolve id lease action replacement attachments hsome =>
    have hevents : ∀ e : Event, e.grants = false → ∀ e' ∈ [.ended id lease, e], e'.grants = false :=
      fun e he => List.forall_mem_cons.mpr ⟨rfl, List.forall_mem_singleton.mpr he⟩
    rcases applied_finish ht lease attachments a.nowMs hsome with ⟨-, ha⟩ | ⟨-, changed, ha⟩
    · exact basisInv_inherits h ha.log (hevents _ rfl) ha.hash ha.known
        (.inl (inherits_update ha.rows fun _ _ hm => by cases hm)) (.inl ha.saved)
        fun t htn m hm => by cases htn; cases hm
    · refine basisInv_inherits h ha.log (hevents _ rfl) ha.hash ha.known
        (.inl (inherits_update ha.rows fun m gate hm hgate => ?_)) (.inl ha.saved)
        fun t htn m hm => by cases htn; cases hm
      obtain ⟨m₀, -, rfl⟩ := Option.map_eq_some_iff.mp hm
      cases hgate
  | @take id road m hrow hgate =>
    have ha := applied_take ht road hrow hgate
    refine basisInv_inherits h ha.log (List.forall_mem_singleton.mpr rfl) ha.hash ha.known
      (.inl (inherits_update ha.rows fun _ _ hm => by cases hm)) (.inl ha.saved)
      fun t htn m' hm' => ?_
    cases htn
    have hm : m = m' := by cases road <;> exact Option.some_inj.mp hm'
    exact hm ▸ hgate
  | @sent s m road was hs' =>
    exact basisInv_inherits h (show _ = _ ++ [Event.handed m.id road] from rfl)
      (List.forall_mem_singleton.mpr rfl) rfl (Finset.Subset.refl _) (.inl (inherits_same rfl))
      (.inl rfl) fun t htn m hm => by cases htn; cases hm
  | @halfway s m road was error hs' hreply =>
    exact basisInv_inherits h (show _ = _ ++ [Event.handed m.id road] from rfl)
      (List.forall_mem_singleton.mpr rfl) rfl (Finset.Subset.refl _) (.inl (inherits_same rfl))
      (.inl rfl) fun t htn m' hm => by cases htn; exact h.hand s hs m' (hs'.trans hm)
  | @accept m road was s' hs' =>
    refine basisInv_inherits h (show _ = _ ++ [Event.accepted m.id road] from rfl)
      (List.forall_mem_singleton.mpr rfl) rfl (Finset.Subset.refl _) (.inl (inherits_same rfl))
      (.inl rfl) fun t htn m hm => ?_
    rcases hs' with rfl | rfl <;> cases htn
    cases hm
  | @putBack m road error =>
    obtain ⟨⟨hcheck, htrim⟩, hkn, hnone⟩ := hl.table.hand _ hs m rfl
    have ha := applied_putBack ht hcheck htrim hnone
    refine basisInv_inherits h ha.log (List.forall_mem_nil _) ha.hash ha.known
      (.inl (inherits_update ha.rows fun m' gate hm hgate => ?_)) (.inl ha.saved)
      fun t htn => by cases htn
    cases hm
    rw [h.hand _ hs m rfl] at hgate
    cases hgate

theorem basisInv_push (h : BasisInv saved w) (ht : TableInv w) {m : QueuedMessage}
    (htrim : trim m.id = m.id) (hnew : m.id ∉ w.host.known) (hgate : m.deliveryGate = none) :
    BasisInv saved { w with host := w.host.push m } := by
  have hnone : rowAt w.host.doc m.id = none :=
    Option.eq_none_iff_forall_ne_some.mpr fun m' hm' => hnew (ht.known m.id m' hm')
  rcases applied_push ht.tidy htrim hnone with hsame | ⟨ha, -⟩
  · rw [hsame]
    exact h
  · refine basisInv_inherits h ha.log (List.forall_mem_singleton.mpr rfl) ha.hash ha.known
      (.inl (inherits_update ha.rows fun m' gate hm hg => ?_)) (.inl ha.saved) h.hand
    cases hm
    rw [hgate] at hg
    cases hg

theorem basisInv_retype (h : BasisInv saved w) (ht : TableInv w) (id text : String) (nowMs : ℤ) :
    BasisInv saved { w with host := w.host.retype id text nowMs } := by
  rcases applied_retype ht.tidy id text nowMs with ⟨-, ha⟩ | ⟨-, hsame, -⟩ | ⟨-, -, editedAt, ha⟩
  · refine basisInv_inherits h ha.log (fun e he => ?_) ha.hash ha.known
      (.inl (inherits_update ha.rows fun _ _ hm => by cases hm)) (.inl ha.saved) h.hand
    split at he
    · rw [List.mem_singleton.mp he]
      rfl
    · cases he
  · rw [hsame]
    exact h
  · refine basisInv_inherits h ha.log (List.forall_mem_singleton.mpr rfl) ha.hash ha.known
      (.inl (inherits_update ha.rows fun m gate hm hgate => ?_)) (.inl ha.saved) h.hand
    obtain ⟨m₀, hm₀, rfl⟩ := Option.map_eq_some_iff.mp hm
    exact ⟨m₀, gate, hm₀, hgate, rfl, rfl⟩

end Traces

theorem basisInv_step {saved : Queue} {w w' : World} {act : Act} (h : BasisInv saved w)
    (hl : LeaseInv saved w) (hg : Sound saved w act) (hs : w.step act = some w') :
    BasisInv saved w' := by
  have hsame : Inherits w.host.doc w.host.doc := inherits_same rfl
  cases act with
  | queueMessage id text attachments hold nowMs =>
    simp only [World.step, Option.ite_none_right_eq_some, Option.some_inj] at hs
    obtain ⟨⟨htrim, hnew⟩, rfl⟩ := hs
    exact basisInv_push h hl.table htrim hnew rfl
  | holdSteer messageId prompt nowMs =>
    obtain rfl := Option.some.inj hs
    exact basisInv_push h hl.table hg.1 hg.2 rfl
  | updateText id text nowMs =>
    obtain rfl := Option.some.inj hs
    exact basisInv_retype h hl.table id text nowMs
  | move id target =>
    obtain rfl := Option.some.inj hs
    exact basisInv_inherits h (List.append_nil _).symm (List.forall_mem_nil _) rfl
      (Finset.Subset.refl _) (.inl (inherits_same (tidy_move hl.table.tidy id target).2)) (.inl rfl)
      h.hand
  | call s =>
    simp only [World.step, Option.ite_none_right_eq_some, Option.some_inj] at hs
    obtain ⟨⟨-, hentry⟩, rfl⟩ := hs
    refine basisInv_inherits h (List.append_nil _).symm (List.forall_mem_nil _) rfl
      (Finset.Subset.refl _) (.inl hsame) (.inl rfl) fun t ht m hm => ?_
    cases ht
    rw [entry_hand hentry] at hm
    cases hm
  | fire t =>
    simp only [World.step, Option.ite_none_right_eq_some, Option.some_inj] at hs
    obtain ⟨-, rfl⟩ := hs
    exact basisInv_inherits h (List.append_nil _).symm (List.forall_mem_nil _) rfl
      (Finset.Subset.refl _) (.inl hsame) (.inl rfl) fun t ht m hm => by cases ht; cases hm
  | turn a =>
    simp only [World.step] at hs
    split at hs
    · rename_i s hholder
      split_ifs at hs with hfresh
      obtain rfl := Option.some.inj hs
      exact basisInv_section h hl hholder hfresh (section_step hl.table.tidy hl.table.known a s)
    · cases hs
  | sent =>
    obtain rfl := Option.some.inj hs
    exact basisInv_inherits h (show _ = _ ++ [Event.sent] from rfl) (List.forall_mem_singleton.mpr rfl) rfl
      (Finset.Subset.refl _) (.inl hsame) (.inl rfl) h.hand
  | thaw =>
    simp only [World.step, Option.ite_none_left_eq_some, Option.some_inj] at hs
    obtain ⟨-, rfl⟩ := hs
    exact ⟨h.minted, h.doc, h.durable, h.hand⟩
  | pauseAll =>
    obtain rfl := Option.some.inj hs
    exact ⟨h.minted, h.doc, h.durable, h.hand⟩
  | save =>
    obtain rfl := Option.some.inj hs
    exact ⟨h.minted, h.doc, h.doc, h.hand⟩
  | restart =>
    obtain rfl := Option.some.inj hs
    exact basisInv_inherits h (show _ = _ ++ [Event.opened _] from rfl) (List.forall_mem_singleton.mpr rfl) rfl
      (Finset.Subset.refl _) (.inr (inherits_same rfl)) (.inl rfl) fun t ht => by cases ht

theorem basisInv_boot (deviceId : String) (queueTextHash : String → String) (saved : Queue) :
    BasisInv saved (.boot deviceId queueTextHash saved) := by
  have htraced : Traced saved (World.boot deviceId queueTextHash saved).host saved := by
    intro id m gate hm hgate
    refine ⟨?_, .inr ⟨rfl, m, gate, hm, hgate, rfl, rfl⟩⟩
    refine List.mem_toFinset.mpr (List.mem_append_right _ (List.mem_filterMap.mpr ?_))
    exact ⟨m, mem_of_rowAt hm, by rw [hgate]; rfl⟩
  exact ⟨fun id lease hne => absurd rfl hne, htraced, htraced, fun s hs => by cases hs⟩

/-! ## What becomes of an edit -/

/-- What a step may make of the gate of an edit: the edit is up for review, or its row is leased anew,
after the deadline; it is renewed; or it is finished. -/
def SparedGate (w w' : World) (id lease : String) (expiresAtMs : ℤ) :
    Option QueueDeliveryGate → Prop
  | some (.reviewRequired _ _ sinceMs _) => expiresAtMs ≤ sinceMs
  | some (.editing lease' _ _ acquiredAtMs expiresAtMs' _) => (lease' = lease ∧
      (expiresAtMs' = expiresAtMs ∨
        ∃ gate deadline, w.holder = some (.extend id lease gate deadline))) ∨
      expiresAtMs ≤ acquiredAtMs
  | none => ∃ e, w'.host.log = w.host.log ++ [.ended id lease, e]

/-- The edit of a row under a lease is spared, where the row is there after the step. -/
def Spared (w w' : World) (id lease : String) : Prop :=
  ∀ m owner inst acquiredAtMs expiresAtMs hash, rowAt w.host.doc id = some m →
    m.deliveryGate = some (.editing lease owner inst acquiredAtMs expiresAtMs hash) →
    ∀ m', rowAt w'.host.doc id = some m' → SparedGate w w' id lease expiresAtMs m'.deliveryGate

section Spare

variable {saved : Queue} {w w' : World} {id lease : String}

theorem spared_keeps {committing : Option String} {host : Host} {holder : Option Section}
    {thaws : ℕ} (hk : Keeps committing w.host host)
    (hid : id ∈ w.host.known) : Spared w ⟨host, holder, thaws⟩ id lease := by
  intro m owner inst acquiredAtMs expiresAtMs hash hm hgate m' hm'
  obtain ⟨m₀, hm₀, hsame, -⟩ := hk.rows id hid m' hm'
  obtain rfl := Option.some_inj.mp (hm.symm.trans hm₀)
  rw [hsame, hgate]
  exact .inl ⟨rfl, .inl rfl⟩

theorem spared_update {id' : String} {x : Option QueuedMessage}
    (hrows : rowAt w'.host.doc = Function.update (rowAt w.host.doc) id' x)
    (hx : ∀ m owner inst acquiredAtMs expiresAtMs hash, rowAt w.host.doc id' = some m →
      m.deliveryGate = some (.editing lease owner inst acquiredAtMs expiresAtMs hash) →
      ∀ m', x = some m' → SparedGate w w' id' lease expiresAtMs m'.deliveryGate) :
    Spared w w' id lease := by
  intro m owner inst acquiredAtMs expiresAtMs hash hm hgate m' hm'
  rw [hrows] at hm'
  by_cases hid : id = id'
  · subst hid
    rw [Function.update_self] at hm'
    exact hx m owner inst acquiredAtMs expiresAtMs hash hm hgate m' hm'
  · rw [Function.update_of_ne hid, hm] at hm'
    cases hm'
    rw [hgate]
    exact .inl ⟨rfl, .inl rfl⟩

theorem spared_section (hl : LeaseInv saved w) (hid : id ∈ w.host.known) {s : Section}
    (hs : w.holder = some s) {a : Answer} {e : Effect} {next : Option Section}
    (hstep : SectionStep w.host a s e next) :
    Spared w { w with host := w.host.apply e, holder := next } id lease := by
  have ht := hl.table.tidy
  obtain ⟨hready, hclear⟩ := hl.holder s hs
  cases hstep with
  | quiet he hhand hgoes =>
    obtain ⟨events, ha, -⟩ := quiet_apply ht he
    exact spared_keeps (keeps_same none ha.rows ha.hash ha.known) hid
  | @remove id' => exact spared_update (applied_remove ht id').rows fun _ _ _ _ _ _ _ _ _ hm => by cases hm
  | @grant item lease' gate expiresAtMs hsome =>
    obtain ⟨-, owner', inst', nowMs, exp', rfl, hexpired⟩ := hready
    refine spared_update (applied_grant ht lease' item.text _ hsome).1.rows ?_
    intro m owner inst acq exp hash hm hgate m' hm'
    obtain ⟨m₀, hm₀, rfl⟩ := Option.map_eq_some_iff.mp hm'
    exact .inr (hexpired m hm lease owner inst acq exp hash hgate)
  | keep | saving =>
    cases hok : a.saved <;>
      exact spared_keeps (keeps_same none rfl rfl (Finset.Subset.refl _)) hid
  | acquired | sent | halfway | accept =>
    exact spared_keeps (keeps_same none rfl rfl (Finset.Subset.refl _)) hid
  | @extend id' lease' gate expiresAtMs =>
    obtain ⟨-, owner', inst', acq', exp', hash', rfl, hgated⟩ := hready
    refine spared_update (applied_regate ht id' _).rows ?_
    intro m owner inst acq exp hash hm hgate m' hm'
    obtain ⟨m₀, hm₀, rfl⟩ := Option.map_eq_some_iff.mp hm'
    obtain ⟨gate₀, hgate₀, hlease, -⟩ := hgated m hm
    rw [hgate] at hgate₀
    cases hgate₀
    obtain rfl : lease = lease' := hlease
    exact .inl ⟨rfl, .inr ⟨_, _, hs⟩⟩
  | @lapse id' gate outcome =>
    obtain ⟨-, lease', owner', since, hash', rfl, hgated, hexpired⟩ := hready
    refine spared_update (applied_regate ht id' _).rows ?_
    intro m owner inst acq exp hash hm hgate m' hm'
    obtain ⟨m₀, hm₀, rfl⟩ := Option.map_eq_some_iff.mp hm'
    exact hexpired m hm lease owner inst acq exp hash hgate
  | @resolve id' lease' action replacement attachments hsome =>
    obtain ⟨-, hash', hgated, -⟩ := hready
    rcases applied_finish ht lease' attachments a.nowMs hsome with ⟨-, ha⟩ | ⟨-, changed, ha⟩
    · exact spared_update ha.rows fun _ _ _ _ _ _ _ _ _ hm => by cases hm
    · refine spared_update ha.rows ?_
      intro m owner inst acq exp hash hm hgate m' hm'
      obtain ⟨m₀, hm₀, rfl⟩ := Option.map_eq_some_iff.mp hm'
      obtain ⟨gate₀, hgate₀, hlease, -⟩ := hgated m hm
      rw [hgate] at hgate₀
      cases hgate₀
      obtain rfl : lease = lease' := hlease
      exact ⟨_, ha.log⟩
  | @take id' road m hrow hgate =>
    exact spared_update (applied_take ht road hrow hgate).rows fun _ _ _ _ _ _ _ _ _ hm => by cases hm
  | @putBack m road error =>
    obtain ⟨⟨hcheck, htrim⟩, hkn, hnone⟩ := hl.table.hand _ hs m rfl
    refine spared_update (applied_putBack ht hcheck htrim hnone).rows ?_
    intro m₀ owner inst acq exp hash hm₀
    cases hnone.symm.trans hm₀

/-- **A live lease is spared by every sound step.** -/
theorem spared_step {act : Act} (hl : LeaseInv saved w) (hg : Sound saved w act)
    (hs : w.step act = some w') (hlive : leases saved w.host.log id = some lease) :
    Spared w w' id lease := by
  have hid := (hl.live id lease hlive).1
  have hsame : ∀ {host : Host}, rowAt host.doc = rowAt w.host.doc →
      host.queueTextHash = w.host.queueTextHash → w.host.known ⊆ host.known →
      Keeps none w.host host := fun hrows hhash hknown => keeps_same _ hrows hhash hknown
  have hpush : ∀ {m : QueuedMessage}, trim m.id = m.id → m.id ∉ w.host.known →
      Spared w { w with host := w.host.push m } id lease := by
    intro m htrim hnew
    have hnone : rowAt w.host.doc m.id = none :=
      Option.eq_none_iff_forall_ne_some.mpr fun m' hm' => hnew (hl.table.known m.id m' hm')
    rcases applied_push hl.table.tidy htrim hnone with heq | ⟨ha, -⟩
    · rw [heq]
      exact spared_keeps (hsame rfl rfl (Finset.Subset.refl _)) hid
    · exact spared_keeps (keeps_update none ha fun _ _ => .inl hnew) hid
  cases act with
  | queueMessage id' text attachments hold nowMs =>
    simp only [World.step, Option.ite_none_right_eq_some, Option.some_inj] at hs
    obtain ⟨⟨htrim, hnew⟩, rfl⟩ := hs
    exact hpush htrim hnew
  | holdSteer messageId prompt nowMs =>
    obtain rfl := Option.some.inj hs
    exact hpush hg.1 hg.2
  | updateText id' text nowMs =>
    obtain rfl := Option.some.inj hs
    rcases applied_retype hl.table.tidy id' text nowMs with
      ⟨-, ha⟩ | ⟨-, heq, -⟩ | ⟨-, -, editedAt, ha⟩
    · exact spared_update ha.rows fun _ _ _ _ _ _ _ _ _ hm => by cases hm
    · rw [heq]
      exact spared_keeps (hsame rfl rfl (Finset.Subset.refl _)) hid
    · refine spared_keeps (keeps_update none ha fun m' hm' => .inr ?_) hid
      obtain ⟨m, hm, rfl⟩ := Option.map_eq_some_iff.mp hm'
      exact ⟨m, hm, rfl, fun h => (by cases h)⟩
  | move id' target =>
    obtain rfl := Option.some.inj hs
    exact spared_keeps (hsame (tidy_move hl.table.tidy id' target).2 rfl (Finset.Subset.refl _)) hid
  | call s =>
    simp only [World.step, Option.ite_none_right_eq_some, Option.some_inj] at hs
    obtain ⟨-, rfl⟩ := hs
    exact spared_keeps (hsame rfl rfl (Finset.Subset.refl _)) hid
  | fire t =>
    simp only [World.step, Option.ite_none_right_eq_some, Option.some_inj] at hs
    obtain ⟨-, rfl⟩ := hs
    exact spared_keeps (hsame rfl rfl (Finset.Subset.refl _)) hid
  | turn a =>
    simp only [World.step] at hs
    split at hs
    · rename_i s hholder
      split_ifs at hs
      obtain rfl := Option.some.inj hs
      exact spared_section hl hid hholder (section_step hl.table.tidy hl.table.known a s)
    · cases hs
  | thaw =>
    simp only [World.step, Option.ite_none_left_eq_some, Option.some_inj] at hs
    obtain ⟨-, rfl⟩ := hs
    exact spared_keeps (hsame rfl rfl (Finset.Subset.refl _)) hid
  | sent | pauseAll | save =>
    obtain rfl := Option.some.inj hs
    exact spared_keeps (hsame rfl rfl (Finset.Subset.refl _)) hid
  | restart =>
    obtain rfl := Option.some.inj hs
    intro m owner inst acq exp hash hm hgate m' hm'
    have hsaved := hg id hid (by rw [hlive]; rfl) m' hm'
    rw [hm, Option.map_some, Option.some_inj] at hsaved
    rw [← hsaved, hgate]
    exact .inl ⟨rfl, .inl rfl⟩

end Spare

/-! ## The leases of a run -/

/-- The row and the lease under which a call is about to write. -/
def Section.writes : Section → Option (String × String)
  | .extend id lease _ _ | .resolve id lease _ _ _ => some (id, lease)
  | _ => none

/-- The leases at a state. -/
structure Safe (saved : Queue) (w : World) : Prop where
  /-- A row has one live lease at most, the one that `leases` computes. -/
  one : ∀ id lease, Live saved w.host.log id lease ↔ leases saved w.host.log id = some lease
  gated : ∀ id lease, Live saved w.host.log id lease →
    ∀ m, rowAt w.host.doc id = some m → leaseOf m = some lease
  /-- No row was taken or handed to the agent under a live lease. -/
  undelivered : Each (fun pre e => ∀ id, e.delivers = some id → ∀ lease, ¬ Live saved pre id lease)
    w.host.log
  /-- Another lease than the one on the row is lost. -/
  lost : ∀ id lease m, rowAt w.host.doc id = some m → leaseOf m ≠ some lease → ∀ a,
    (Section.renew id lease).step w.host a = (.none, .inr .lost) ∧
      ∀ action text hash attachments, (action = .commit → text ≠ none ∧ hash ≠ none) →
        (Section.finish id lease action text hash attachments).step w.host a = (.none, .inr .lost)
  /-- A renewal or a finish that writes does so under the lease on the row. -/
  written : ∀ s ∈ w.holder, ∀ c ∈ s.writes, ∀ m, rowAt w.host.doc c.1 = some m →
    leaseOf m = some c.2

/-- The text of the row is the one that the lease was granted over: by the log, or by the hash that the
first queue holds. -/
def Unedited (saved : Queue) (w : World) (id lease : String) (m : QueuedMessage) : Prop :=
  basis w.host.log id lease = [m.text] ∨ ∃ m₀ gate₀, rowAt saved id = some m₀ ∧
    m₀.deliveryGate = some gate₀ ∧ gate₀.lease = lease ∧
      gate₀.baseTextHash = w.host.queueTextHash m.text

theorem step_lost {h : Host} {id lease : String} {m : QueuedMessage} (hm : rowAt h.doc id = some m)
    (hne : leaseOf m ≠ some lease) (a : Answer) :
    (Section.renew id lease).step h a = (.none, .inr .lost) ∧
      ∀ action text hash attachments, (action = .commit → text ≠ none ∧ hash ≠ none) →
        (Section.finish id lease action text hash attachments).step h a = (.none, .inr .lost) := by
  have hbad : ∀ {action : FinishQueueEditAction} {text hash : Option String},
      (action = .commit → text ≠ none ∧ hash ≠ none) →
      ¬(action = .commit ∧ (text = none ∨ hash = none)) := by
    rintro action text hash hok ⟨hcommit, htext | hhash⟩
    · exact (hok hcommit).1 htext
    · exact (hok hcommit).2 hhash
  cases hgate : m.deliveryGate with
  | none =>
    refine ⟨by simp only [Section.step, hm, hgate], fun action text hash attachments hok => ?_⟩
    simp only [Section.step, if_neg (hbad hok), hm, hgate]
  | some gate =>
    have hother : gate.lease ≠ lease := by
      rintro rfl
      exact hne (by rw [leaseOf, hgate]; rfl)
    refine ⟨?_, fun action text hash attachments hok => ?_⟩
    · cases gate with
      | reviewRequired => simp only [Section.step, hm, hgate]
      | editing current =>
        have hcurrent : current ≠ lease := hother
        simp only [Section.step, hm, hgate, if_pos hcurrent]
    · simp only [Section.step, if_neg (hbad hok), hm, hgate, if_pos hother]

theorem safe_of_leaseInv {saved : Queue} {w : World} (h : LeaseInv saved w) : Safe saved w where
  one id lease := live_iff h.kept
  gated id lease hlive := (h.live id lease ((live_iff h.kept).mp hlive)).2
  undelivered pre e post he id hd lease hlive := by
    have hpre : Each (Permitted saved) pre := fun pre' e' post' he' =>
      h.kept pre' e' (post' ++ e :: post) (by rw [he, he']; simp)
    cases ((h.kept pre e post he).1 id hd).symm.trans ((live_iff hpre).mp hlive)
  lost id lease m hm hne a := step_lost hm hne a
  written s hs c hc m hm := by
    have hready := (h.holder s hs).1
    cases s with
    | extend id lease gate expiresAtMs =>
      cases hc
      obtain ⟨-, owner, inst, acq, exp, hash, -, hgated⟩ := hready
      exact lease_of_gated hgated hm
    | resolve id lease action replacement attachments =>
      cases hc
      obtain ⟨-, hash, hgated, -⟩ := hready
      exact lease_of_gated hgated hm
    | _ => cases hc

theorem unedited_commit {saved : Queue} {w : World} {a : Answer} (h : LeaseInv saved w)
    (hb : BasisInv saved w) (hg : Sound saved w (.turn a)) {id lease : String}
    {replacement : Option String} {attachments : Option (List String)}
    (hs : w.holder = some (.resolve id lease .commit replacement attachments)) {m : QueuedMessage}
    (hm : rowAt w.host.doc id = some m) : Unedited saved w id lease m := by
  obtain ⟨-, hash, hgated, htext⟩ := (h.holder _ hs).1
  obtain ⟨gate, hgate, rfl, rfl⟩ := hgated m hm
  have hhash := htext rfl m hm
  rcases (hb.doc id m gate hm hgate).2 with
    ⟨text, hbasis, hbase⟩ | ⟨-, m₀, gate₀, hm₀, hgate₀, hlease₀, hbase₀⟩
  · have hsame := hg _ hs (id, gate.lease) rfl text
      (by rw [hbasis]; exact List.mem_singleton_self text) m hm (hhash.trans hbase.symm)
    exact .inl (by rw [hbasis, hsame])
  · exact .inr ⟨m₀, gate₀, hm₀, hgate₀, hlease₀, hbase₀.trans hhash.symm⟩

/-- **Edit leases are safe.** In every run of sound steps over a durable queue: a row has one live
lease at most, the gate of the row, and is not delivered under it; every sound step spares the edit;
another lease is lost; and a commit that writes finds the text that its lease was granted over. -/
theorem edit_leases_safe (deviceId : String) (queueTextHash : String → String) (saved : Queue)
    (ht : Tidy saved) (acts : List Act)
    (hg : Run.Guarded World.step (Sound saved) (.boot deviceId queueTextHash saved) acts)
    (w : World) (hw : Run.exec World.step (.boot deviceId queueTextHash saved) acts = some w) :
    Safe saved w ∧ ∀ act w', Sound saved w act → w.step act = some w' →
      (∀ id lease, Live saved w.host.log id lease → Spared w w' id lease) ∧
        ∀ id lease replacement attachments a, act = .turn a →
          w.holder = some (.resolve id lease .commit replacement attachments) →
          ∀ m, rowAt w.host.doc id = some m → Unedited saved w id lease m := by
  obtain ⟨h, hb⟩ : LeaseInv saved w ∧ BasisInv saved w :=
    Run.exec_invariant (I := fun w => LeaseInv saved w ∧ BasisInv saved w)
      (fun _ _ _ h hg hs => ⟨leaseInv_step h.1 hg hs, basisInv_step h.2 h.1 hg hs⟩)
      ⟨leaseInv_boot deviceId queueTextHash ht, basisInv_boot deviceId queueTextHash saved⟩ hg hw
  refine ⟨safe_of_leaseInv h, fun act w' hs hstep => ⟨fun id lease hlive => ?_, ?_⟩⟩
  · exact spared_step h hs hstep ((live_iff h.kept).mp hlive)
  · rintro id lease replacement attachments a rfl hholder m hm
    exact unedited_commit h hb hs hholder hm

/-- SHA-256 in hexadecimal, of the text that the runs below hash. -/
def hashOf (text : String) : String :=
  if text = "hi" then "8f434346648f6b96df89dda901c5176b10a6d83961dd3c1ac88b59b2dc327aa4" else text

def Answer.at (nowMs : ℤ) : Answer := { idle with nowMs }

/-- The durable row is leased at 1 under `n`, and its client is told. -/
def beginEdit : List Act := calls (.begin "q1" "b" "tab") (List.replicate 4 (.at 1))

/-- The lease is renewed at 30000. -/
def renewEdit : List Act := calls (.renew "q1" "n") (List.replicate 3 (.at 30000))

/-- The commit of a new text, checked. -/
def commitEdit : List Act :=
  calls (.finish "q1" "n" .commit (some "bye") (some (hashOf "hi")) none) [.at 80000]

/-- The timer of the lease fires after its renewal, the row is sent, and the edit is committed. -/
theorem edit_leases_safe_commit :
    let acts := beginEdit ++ renewEdit ++ [.fire ⟨"q1", "n", 60001⟩, .turn (.at 70000)] ++
      calls (.sendNow "q1") [.at 75000] ++ commitEdit
    let w := (Run.exec World.step (.boot "a" hashOf [drafted]) acts).get (by decide +kernel)
    Safe [drafted] w ∧
      ∀ m, rowAt w.host.doc "q1" = some m → Unedited [drafted] w "q1" "n" m := by
  intro acts w
  obtain ⟨hsafe, hstep⟩ := edit_leases_safe "a" hashOf [drafted] tidy_drafted acts
    (Run.guarded_of_checks (by decide +kernel)) w (Option.some_get _).symm
  refine ⟨hsafe, ?_⟩
  exact (hstep (.turn (.at 80000)) ((w.step (.turn (.at 80000))).get (by decide +kernel))
    (by decide +kernel) (Option.some_get _).symm).2 "q1" "n" (some "bye") none _ rfl
    (by decide +kernel)

/-- The text is edited between the check of a commit and its write: the row that was leased over `hi`
is at `newer` when the commit puts `bye` in its place. -/
theorem edit_overwritten :
    let acts := beginEdit ++ commitEdit ++ [.updateText "q1" "newer" 80001]
    let text := fun w : World => (rowAt w.host.doc "q1").map (·.text)
    (Run.exec World.step (.boot "a" hashOf [drafted]) acts).map
        (fun w => (basis w.host.log "q1" "n", text w)) = some (["hi"], some "newer") ∧
      (Run.exec World.step (.boot "a" hashOf [drafted]) (acts ++ [.turn (.at 80002)])).map text =
        some (some "bye") := by
  decide +kernel

end Zeron.Delivery
