import Zeron.Agent.Rpc

/-!
# Every call ends with its own answer

The reader stops at a message nobody receives, and then leaves the table as it is and the flag
down: the calls in it wait, and so do those that follow.

* `Call.Right`, `Rpc.Quiet`: a call takes its first response; nothing is pending after the reader;
* `Received`: no message is forwarded once its receiver is gone;
* `Inv`, `inv_step`; **`answers_own`**; `pending_after_stop`.
-/

namespace Zeron.Agent

open Run

/-! ## What is promised -/

/-- A call that ended has the first response that named it, or none named it, or its request was
not written; one that waits has that response at hand. -/
def Call.Right (c : Call) : Prop :=
  match c.stage with
  | .minted => c.answer = none ∧ c.heard = []
  | .ended (.answered outcome) => c.heard.head? = some outcome
  | .ended .exited => c.heard = []
  | .awaiting => c.answer = c.heard.head?
  | _ => True

namespace Rpc

variable {toText : Json → String} {s s' : Rpc}

/-- A call is in the table, and waits. -/
def Pending (s : Rpc) (i : ℕ) : Prop :=
  ((s.calls i).stage = .entered ∨ (s.calls i).stage = .awaiting) ∧ (s.calls i).answer = none ∧
    s.table (s.calls i).id = some i

/-- Once the reader has stopped no call is pending. -/
def Quiet (s : Rpc) : Prop := s.reader = .stopped → ∀ i, ¬ s.Pending i

/-- A call that was named, or that outlives the reader, returns. -/
def Returns (s : Rpc) : Prop := ∀ i, (s.calls i).stage = .awaiting →
  (s.calls i).heard ≠ [] ∨ s.reader = .stopped → (s.finish i).isSome

/-- A message is forwarded only while the receiver is there. -/
def Received (s : Rpc) : Act → Prop
  | .forward => s.listening = true
  | _ => True

instance (s : Rpc) (a : Act) : Decidable (s.Received a) := by
  cases a <;> unfold Received <;> infer_instance

/-! ## The invariant -/

/-- The table is cleared. -/
def Cleared (s : Rpc) : Prop := s.reader = .signalling ∨ s.reader = .stopped

structure Inv (s : Rpc) : Prop where
  minted : ∀ i, (s.calls i).stage ≠ .idle → (s.calls i).id ≤ s.nextId
  distinct : ∀ i j, (s.calls i).stage ≠ .idle → (s.calls j).stage ≠ .idle →
    (s.calls i).id = (s.calls j).id → i = j
  /-- A call of the table has heard nothing. -/
  table : ∀ id i, s.table id = some i → (s.calls i).id = id ∧
    ((s.calls i).stage = .entered ∨ (s.calls i).stage = .awaiting ∨ (s.calls i).stage = .dropped) ∧
    ((s.calls i).stage ≠ .dropped → (s.calls i).heard = [])
  waiting : ∀ i, (s.calls i).stage = .entered ∨ (s.calls i).stage = .awaiting →
    (s.calls i).answer = (s.calls i).heard.head? ∧
      (s.table (s.calls i).id = some i ∨ (s.calls i).answer ≠ none ∨ s.Cleared)
  right : ∀ i, (s.calls i).Right
  closing : s.reader = .closing ∨ s.Cleared → s.closed = true
  cleared : s.Cleared → ∀ id, s.table id = none

theorem inv_start : start.Inv where
  minted i h := absurd rfl h
  distinct i _ h := absurd rfl h
  table _ _ h := by cases h
  waiting i h := by rcases h with h | h <;> cases h
  right i := trivial
  closing h := by rcases h with h | h | h <;> cases h
  cleared h := by rcases h with h | h <;> cases h

theorem not_cleared_of_reading (h : s.reader = .reading) : ¬ s.Cleared := by
  rintro (h' | h') <;> rw [h] at h' <;> cases h'

namespace Inv

/-- What one call does, where the others and the reader stay as they are. -/
theorem setCall (h : s.Inv) {i : ℕ} {c : Call} {nextId : ℤ} {table : ℤ → Option ℕ}
    (hnext : s.nextId ≤ nextId)
    (hid : c.id ≤ nextId ∧ ∀ j, j ≠ i → (s.calls j).stage ≠ .idle → (s.calls j).id ≠ c.id)
    (hother : ∀ id j, j ≠ i → (table id = some j ↔ s.table id = some j))
    (hown : ∀ id, table id = some i → c.id = id ∧
      (c.stage = .entered ∨ c.stage = .awaiting ∨ c.stage = .dropped) ∧
      (c.stage ≠ .dropped → c.heard = []))
    (hwaits : c.stage = .entered ∨ c.stage = .awaiting → c.answer = c.heard.head? ∧
      (table c.id = some i ∨ c.answer ≠ none ∨ s.Cleared))
    (hright : c.Right) (hcleared : s.Cleared → ∀ id, table id ≠ some i) :
    ({ s with nextId, table }.setCall i c).Inv where
  minted j hj := by
    simp only [Rpc.setCall, Function.update_apply] at hj ⊢
    split_ifs with hji
    · exact hid.1
    · rw [if_neg hji] at hj
      exact (h.minted j hj).trans hnext
  distinct j k hj hk he := by
    simp only [Rpc.setCall, Function.update_apply] at hj hk he
    split_ifs at hj hk he with hji hki hki
    · exact hji.trans hki.symm
    · exact absurd he.symm (hid.2 k hki hk)
    · exact absurd he (hid.2 j hji hj)
    · exact h.distinct j k hj hk he
  table id j hj := by
    simp only [Rpc.setCall, Function.update_apply] at hj ⊢
    split_ifs with hji
    · subst hji
      exact hown id hj
    · exact h.table id j ((hother id j hji).mp hj)
  waiting j hj := by
    simp only [Rpc.setCall, Function.update_apply] at hj ⊢
    split_ifs at hj ⊢ with hji
    · subst hji
      exact hwaits hj
    · obtain ⟨hanswer, hplace⟩ := h.waiting j hj
      exact ⟨hanswer, hplace.imp_left (hother _ j hji).mpr⟩
  right j := by
    simp only [Rpc.setCall, Function.update_apply]
    split_ifs
    · exact hright
    · exact h.right j
  closing := h.closing
  cleared hc id := by
    refine Option.eq_none_iff_forall_ne_some.mpr fun j hj => ?_
    by_cases hji : j = i
    · subst hji
      exact hcleared hc id hj
    · exact absurd ((hother id j hji).mp hj) (by rw [h.cleared hc id]; simp)

theorem move (h : s.Inv) {i : ℕ} {c : Call} (hidle : (s.calls i).stage ≠ .idle)
    (hid : c.id = (s.calls i).id) (htable : ∀ id, s.table id = some i →
      (c.stage = .entered ∨ c.stage = .awaiting ∨ c.stage = .dropped) ∧
        (c.stage ≠ .dropped → c.heard = []))
    (hwaits : c.stage = .entered ∨ c.stage = .awaiting → c.answer = c.heard.head? ∧
      (s.table c.id = some i ∨ c.answer ≠ none ∨ s.Cleared))
    (hright : c.Right) : (s.setCall i c).Inv := by
  refine h.setCall (i := i) (c := c) le_rfl
    ⟨hid ▸ h.minted i hidle, fun j hj hji he => hj (h.distinct j i hji hidle (he.trans hid))⟩
    (fun _ _ _ => Iff.rfl) (fun id hown => ⟨hid.trans (h.table id i hown).1, htable id hown⟩)
    hwaits hright fun hc id hown => ?_
  rw [h.cleared hc id] at hown
  cases hown

end Inv

theorem Inv.frame (h : s.Inv) {closed writing listening : Bool} {channel : List Incoming}
    {reader : Reader} (hreader : s.Cleared ↔ (reader = .signalling ∨ reader = .stopped))
    (hclosed : reader = .closing ∨ reader = .signalling ∨ reader = .stopped → closed = true) :
    ({ s with closed, writing, listening, channel, reader } : Rpc).Inv where
  minted := h.minted
  distinct := h.distinct
  table := h.table
  waiting i hi := by
    obtain ⟨hanswer, hplace⟩ := h.waiting i hi
    exact ⟨hanswer, hplace.imp_right (Or.imp_right hreader.mp)⟩
  right := h.right
  closing := hclosed
  cleared hc := h.cleared (hreader.mpr hc)

theorem note_calls (id : ℤ) (outcome : Outcome) (i : ℕ) :
    (s.note id outcome).calls i =
      if ((s.calls i).stage = .entered ∨ (s.calls i).stage = .awaiting) ∧ (s.calls i).id = id then
        { s.calls i with heard := (s.calls i).heard ++ [outcome] }
      else s.calls i := rfl

theorem Inv.head_note (h : s.Inv) (hreader : s.reader = .reading) {id : ℤ} (outcome : Outcome)
    (htable : s.table id = none) {i : ℕ}
    (hn : ((s.calls i).stage = .entered ∨ (s.calls i).stage = .awaiting) ∧ (s.calls i).id = id) :
    (s.calls i).answer ≠ none ∧
      ((s.calls i).heard ++ [outcome]).head? = (s.calls i).answer := by
  obtain ⟨hanswer, hplace⟩ := h.waiting i hn.1
  have hsome : (s.calls i).answer ≠ none := by
    rcases hplace with hin | hsome | hc
    · rw [hn.2, htable] at hin
      cases hin
    · exact hsome
    · exact absurd hc (not_cleared_of_reading hreader)
  refine ⟨hsome, ?_⟩
  rw [List.head?_append, ← hanswer]
  exact Option.or_of_isSome (Option.isSome_iff_ne_none.mpr hsome)

theorem inv_note (h : s.Inv) (hreader : s.reader = .reading) {id : ℤ} (outcome : Outcome)
    (htable : s.table id = none) : (s.note id outcome).Inv := by
  refine ⟨fun i => ?_, fun i j => ?_, fun id' i hi => ?_, fun i => ?_, fun i => ?_, h.closing,
    h.cleared⟩
  · rw [note_calls]
    split_ifs <;> exact h.minted i
  · rw [note_calls, note_calls]
    split_ifs <;> exact h.distinct i j
  · have hown := h.table id' i hi
    have hne : (s.calls i).id ≠ id := fun he => by
      have hsame : s.table id = some i := by rw [← he, hown.1]; exact hi
      exact absurd (htable.symm.trans hsame) (by simp)
    rw [note_calls, if_neg fun hn => hne hn.2]
    exact hown
  · rw [note_calls]
    split_ifs with hn
    · intro _
      obtain ⟨hsome, hhead⟩ := h.head_note hreader outcome htable hn
      exact ⟨hhead.symm, Or.inr (Or.inl hsome)⟩
    · exact h.waiting i
  · rw [note_calls]
    split_ifs with hn
    · obtain ⟨-, hhead⟩ := h.head_note hreader outcome htable hn
      unfold Call.Right
      rcases hn.1 with hstage | hstage
      · simp [hstage]
      · simpa [hstage] using hhead.symm
    · exact h.right i

/-- **A response answers the call of the table, and no other.** -/
theorem inv_resolve (h : s.Inv) (hreader : s.reader = .reading) (id : ℤ) (outcome : Outcome) :
    ((s.note id outcome).resolve id outcome).Inv := by
  unfold resolve
  cases htable : (s.note id outcome).table id with
  | none => exact inv_note h hreader outcome htable
  | some i =>
    obtain ⟨rfl, hstage, hfresh⟩ := h.table id i htable
    have hidle : ∀ j, (s.calls j).stage = .entered ∨ (s.calls j).stage = .awaiting ∨
        (s.calls j).stage = .dropped → (s.calls j).stage ≠ .idle := by
      rintro j (hj | hj | hj) <;> rw [hj] <;> exact fun h => by cases h
    -- every other call is as it was: the ids are distinct
    have hother : ∀ j, j ≠ i → (s.note (s.calls i).id outcome).calls j = s.calls j := by
      intro j hj
      rw [note_calls, if_neg]
      rintro ⟨hwaits, he⟩
      exact hj (h.distinct j i (hidle j (hwaits.imp_right Or.inl)) (hidle i hstage) he)
    have hcalls : ({ s.note (s.calls i).id outcome with
        table := Function.update s.table (s.calls i).id none }.setCall i
          { (s.note (s.calls i).id outcome).calls i with answer := some outcome }) =
        { s with table := Function.update s.table (s.calls i).id none }.setCall i
          { (s.note (s.calls i).id outcome).calls i with answer := some outcome } := by
      refine congrArg (fun calls => { s with
        table := Function.update s.table (s.calls i).id none, calls }) (funext fun j => ?_)
      simp only [Function.update_apply]
      split_ifs with hj
      · rfl
      · exact hother j hj
    change ({ s.note (s.calls i).id outcome with
      table := Function.update s.table (s.calls i).id none }.setCall i
        { (s.note (s.calls i).id outcome).calls i with answer := some outcome }).Inv
    rw [hcalls, note_calls]
    have hgone : ∀ id', Function.update s.table (s.calls i).id none id' ≠ some i := by
      intro id' hid'
      rw [Function.update_apply] at hid'
      split_ifs at hid' with he
      exact he (h.table id' i hid').1.symm
    refine h.setCall le_rfl ⟨?_, fun j hj hji he => ?_⟩ (fun id' j hj => ?_)
      (fun id' hid' => absurd hid' (hgone id')) (fun hwaits => ?_) ?_ (fun _ => hgone)
    · split_ifs <;> exact h.minted i (hidle i hstage)
    · refine hj (h.distinct j i hji (hidle i hstage) (he.trans ?_))
      split_ifs <;> rfl
    · rw [Function.update_apply]
      split_ifs with he
      · subst he
        rw [show s.table (s.calls i).id = some i from htable, Option.some_inj]
        exact ⟨fun h => (by cases h), fun h => absurd h.symm hj⟩
      · exact Iff.rfl
    · split_ifs at hwaits ⊢ with hn
      · refine ⟨?_, Or.inr (Or.inl (by simp))⟩
        have hnil : (s.calls i).heard = [] := hfresh fun hd => by
          rcases hn.1 with hs | hs <;> rw [hs] at hd <;> cases hd
        simp [hnil]
      · exact absurd ⟨hwaits, rfl⟩ hn
    · unfold Call.Right
      split_ifs with hn
      · have hnil : (s.calls i).heard = [] := hfresh fun hd => by
          rcases hn.1 with hs | hs <;> rw [hs] at hd <;> cases hd
        rcases hn.1 with hs | hs <;> simp [hs, hnil]
      · rcases hstage with hs | hs | hs
        · exact absurd ⟨Or.inl hs, rfl⟩ hn
        · exact absurd ⟨Or.inr hs, rfl⟩ hn
        · simp [hs]

/-- **One step.** -/
theorem inv_step {a : Act} (h : s.Inv) (hg : s.Received a) (hs : s.step toText a = some s') :
    s'.Inv := by
  cases a with
  | mint i method =>
    simp only [step] at hs
    split_ifs at hs with hidle
    cases hs
    have hout : ∀ id, s.table id ≠ some i := fun id hid => by
      rcases (h.table id i hid).2.1 with hst | hst | hst <;> rw [hst] at hidle <;>
        cases hidle
    refine h.setCall (Int.le_add_one le_rfl)
      ⟨le_rfl, fun j _ hj he => ?_⟩ (fun _ _ _ => Iff.rfl) (fun id hid => absurd hid (hout id))
      (fun hst => ?_) ⟨rfl, rfl⟩ (fun _ => hout)
    · have hle := h.minted j hj
      simp only at he
      omega
    · rcases hst with hst | hst <;> cases hst
  | enter i =>
    simp only [step, enter] at hs
    split_ifs at hs with hstage hclosed
    · -- refused: the reader has closed
      cases hs
      rw [not_not] at hstage
      have hright := h.right i
      simp only [Call.Right, hstage] at hright
      refine h.move (by simp [hstage]) rfl (fun id hid => ?_) (fun hst => ?_) hright.2
      · exact absurd (h.table id i hid).2.1 (by simp [hstage])
      · rcases hst with hst | hst <;> cases hst
    · cases hs
      rw [not_not] at hstage
      have hright := h.right i
      simp only [Call.Right, hstage] at hright
      have hidle : (s.calls i).stage ≠ .idle := by simp [hstage]
      have hopen : ¬ s.Cleared := fun hc => hclosed (h.closing (Or.inr hc))
      refine h.setCall le_rfl
        ⟨h.minted i hidle, fun j hj hji he => hj (h.distinct j i hji hidle he)⟩
        (fun id j hj => ?_) (fun id hid => ?_) (fun _ => ?_) trivial
        (fun hc => absurd hc hopen)
      · rw [Function.update_apply]
        split_ifs with he
        · refine ⟨fun heq => absurd (Option.some_inj.mp heq).symm hj, fun hin => ?_⟩
          -- the id is not another call's
          obtain ⟨hid, hst, -⟩ := h.table id j hin
          have hjidle : (s.calls j).stage ≠ .idle := by
            rcases hst with hst | hst | hst <;> simp [hst]
          exact absurd (h.distinct j i hjidle hidle (hid.trans he)) hj
        · exact Iff.rfl
      · rw [Function.update_apply] at hid
        split_ifs at hid with he
        · exact ⟨he.symm, Or.inl rfl, fun _ => hright.2⟩
        · exact absurd (h.table id i hid).2.1 (by simp [hstage])
      · refine ⟨?_, Or.inl (Function.update_self _ _ _)⟩
        simp [hright.1, hright.2]
  | send i =>
    simp only [step, send] at hs
    split_ifs at hs with hstage hwriting
    · cases hs
      rw [not_not] at hstage
      have hwait := h.waiting i (Or.inl hstage)
      refine h.move (by simp [hstage]) rfl (fun id hid => ?_) (fun _ => hwait) hwait.1
      exact ⟨Or.inr (Or.inl rfl), fun _ => (h.table id i hid).2.2 (by simp [hstage])⟩
    · cases hs
      rw [not_not] at hstage
      have hidle : (s.calls i).stage ≠ .idle := by simp [hstage]
      have hgone : ∀ id, Function.update s.table (s.calls i).id none id ≠ some i := by
        intro id hid
        rw [Function.update_apply] at hid
        split_ifs at hid with he
        exact he (h.table id i hid).1.symm
      refine h.setCall le_rfl
        ⟨h.minted i hidle, fun j hj hji he => hj (h.distinct j i hji hidle he)⟩
        (fun id j hj => ?_) (fun id hid => absurd hid (hgone id)) (fun hst => ?_) trivial
        (fun _ => hgone)
      · rw [Function.update_apply]
        split_ifs with he
        · refine ⟨fun heq => (by cases heq), fun hin => ?_⟩
          obtain ⟨hid, hst, -⟩ := h.table id j hin
          have hjidle : (s.calls j).stage ≠ .idle := by
            rcases hst with hst | hst | hst <;> simp [hst]
          exact absurd (h.distinct j i hjidle hidle (hid.trans he)) hj
        · exact Iff.rfl
      · rcases hst with hst | hst <;> cases hst
  | finish i =>
    simp only [step, finish] at hs
    by_cases hstage : (s.calls i).stage = .awaiting
    swap
    · rw [if_pos hstage] at hs
      cases hs
    rw [if_neg (not_not_intro hstage)] at hs
    obtain ⟨hanswer, hplace⟩ := h.waiting i (Or.inr hstage)
    split at hs
    · rename_i outcome hsome
      cases hs
      refine h.move (by simp [hstage]) rfl (fun id hid => ?_) (fun hst => ?_) ?_
      · -- a call of the table has no answer yet
        have hnil := (h.table id i hid).2.2 (by simp [hstage])
        rw [hanswer, hnil] at hsome
        cases hsome
      · rcases hst with hst | hst <;> cases hst
      · exact hanswer.symm.trans hsome
    · rename_i hnone
      split_ifs at hs with hin
      cases hs
      have hnil : (s.calls i).heard = [] := List.head?_eq_none_iff.mp (hanswer.symm.trans hnone)
      refine h.move (by simp [hstage]) rfl (fun id hid => ?_) (fun hst => ?_) hnil
      · rw [(h.table id i hid).1] at hin
        exact absurd hid hin
      · rcases hst with hst | hst <;> cases hst
  | cancel i =>
    simp only [step] at hs
    split_ifs at hs with hstage
    cases hs
    refine h.move (by rcases hstage with hst | hst <;> simp [hst]) rfl
      (fun id _ => ⟨Or.inr (Or.inr rfl), fun hne => absurd rfl hne⟩) (fun hst => ?_) trivial
    rcases hst with hst | hst <;> cases hst
  | read line =>
    simp only [step, read] at hs
    split at hs
    · cases hs
      exact h
    · rename_i id outcome hreader _
      cases hs
      exact inv_resolve h hreader id outcome
    · rename_i incoming hreader _
      cases hs
      exact h.frame (by simp [Cleared, hreader]) (by simp)
    · cases hs
  | close =>
    simp only [step] at hs
    split_ifs at hs with hreader
    cases hs
    exact h.frame (by simp [Cleared, hreader]) fun _ => rfl
  | clear =>
    simp only [step] at hs
    split_ifs at hs with hreader
    cases hs
    exact {
      minted := h.minted
      distinct := h.distinct
      table := fun _ _ hi => by cases hi
      waiting := fun i hi => ⟨(h.waiting i hi).1, Or.inr (Or.inr (Or.inl rfl))⟩
      right := h.right
      closing := fun _ => h.closing (Or.inl hreader)
      cleared := fun _ _ => rfl }
  | forward =>
    have hlistening : s.listening = true := hg
    simp only [step, forward] at hs
    split at hs
    · rename_i incoming hreader
      split_ifs at hs with hlost hroom
      · simp [hlistening] at hlost
      · cases hs
        exact h.frame (by simp [Cleared, hreader]) (by simp)
    · cases hs
  | signal =>
    simp only [step, signal] at hs
    split at hs
    · rename_i hreader
      have hclosed : s.closed = true := h.closing (Or.inr (Or.inl hreader))
      split_ifs at hs with hlost hroom
      · cases hs
        exact h.frame (by simp [Cleared, hreader]) fun _ => hclosed
      · cases hs
        exact h.frame (by simp [Cleared, hreader]) fun _ => hclosed
    · cases hs
  | receive =>
    simp only [step] at hs
    split at hs
    · cases hs
      exact h.frame Iff.rfl h.closing
    · cases hs
  | lose =>
    cases hs
    exact h.frame Iff.rfl h.closing
  | writerStops =>
    cases hs
    exact h.frame Iff.rfl h.closing

theorem Inv.quiet (h : s.Inv) : s.Quiet := by
  rintro hstopped i ⟨-, -, hin⟩
  rw [h.cleared (Or.inr hstopped)] at hin
  cases hin

theorem Inv.returns (h : s.Inv) : s.Returns := by
  intro i hstage hnamed
  obtain ⟨hanswer, -⟩ := h.waiting i (Or.inr hstage)
  rw [finish, if_neg (not_not_intro hstage)]
  cases hsome : (s.calls i).answer with
  | some outcome => rfl
  | none =>
    rcases hnamed with hheard | hstopped
    · rw [hsome] at hanswer
      exact absurd (List.head?_eq_none_iff.mp hanswer.symm) hheard
    · have hnone := h.cleared (Or.inr hstopped) (s.calls i).id
      simp [hnone]

/-- **Each call ends with the first response that names it, and the reader leaves none behind**, in
every run that forwards no message without its receiver. -/
theorem answers_own (toText : Json → String) {acts : List Act}
    (hg : Guarded (step toText) Received start acts) {s : Rpc}
    (he : exec (step toText) start acts = some s) :
    (∀ i, (s.calls i).Right) ∧ s.Returns ∧ s.Quiet := by
  have h := exec_invariant (fun _ _ _ h hg hs => inv_step h hg hs) inv_start hg he
  exact ⟨h.right, h.returns, h.quiet⟩

/-- A response, as a line. -/
def reply (id : Id) (result : String) : Line :=
  .object
    { jsonrpc := some (.str "2.0"), method := none, id := some id, result := some (.str result)
      error := none, params := none }

/-- A notification. -/
def started : Line :=
  .object
    { jsonrpc := none, method := some (.str "turn/started"), id := none, result := none
      error := none, params := none }

/-- Two calls, answered in the other order, one of them twice and with a text for its id. -/
def crossed : List Act :=
  [.mint 0 "a", .enter 0, .send 0, .mint 1 "b", .enter 1, .send 1, .read (reply (.str "+2") "two"),
    .read started, .forward, .read (reply (.int 2) "late"), .read (reply (.float 1) "one"),
    .finish 0, .finish 1, .close, .clear, .signal]

theorem answers_own_crossed : ∃ s, exec (step fun _ => "") start crossed = some s ∧
    (s.calls 0).stage = .ended (.answered (.ok (.str "one"))) ∧
    (s.calls 1).stage = .ended (.answered (.ok (.str "two"))) ∧ s.reader = .stopped ∧
    (∀ i, (s.calls i).Right) ∧ s.Returns ∧ s.Quiet := by
  have hg : Guarded (step fun _ => "") Received start crossed := guarded_of_checks (by decide)
  exact ⟨_, rfl, rfl, rfl, rfl, answers_own _ hg rfl⟩

/-! ## A message nobody receives -/

/-- A call is made, the session goes away, and the agent sends a notification. -/
def unheard : List Act :=
  [.mint 0 "session/prompt", .enter 0, .send 0, .lose, .read started, .forward, .mint 1 "goal",
    .enter 1, .send 1]

/-- **The reader has stopped; the call waits, and so does the next one.** -/
theorem pending_after_stop : ∃ s, exec (step fun _ => "") start unheard = some s ∧
    s.reader = .stopped ∧ s.closed = false ∧ s.Pending 0 ∧ s.Pending 1 ∧ ¬ s.Quiet := by
  refine ⟨_, rfl, rfl, rfl, ⟨Or.inr rfl, rfl, rfl⟩, ⟨Or.inr rfl, rfl, rfl⟩, fun h => ?_⟩
  exact h rfl 0 ⟨Or.inr rfl, rfl, rfl⟩

end Rpc

end Zeron.Agent
