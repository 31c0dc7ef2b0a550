import Zeron.Phone.Store

/-!
# Every local edit reaches the room

Where the batch of an operation is until the room has answered for it
(`Zeron/Sync/SessionStore.swift`).

* `Covers`, `Promised`, `Kept`: an operation is answered, in the outbox, or left to the first
  contact; with nothing queued, and as it is kept;
* `Calm`: no file is written, and no store stopped, while the batch of an operation in it is still
  to come;
* **`edits_kept`**; `edits_lost`: a batch that the room rejects, and a second commit.
-/

namespace Zeron.Phone

open Run

/-! ## What is promised -/

/-- The operation is answered, in a batch of the outbox, or left to the first contact. -/
def Disk.Covers (disk : Disk) (answered : List ℕ) (op : ℕ) : Prop :=
  op ∈ answered ∨ (∃ push ∈ disk.outbox, op ∈ push.ops) ∨
    disk.cursor = 0 ∧ disk.firstContactQueued = false

instance (disk : Disk) (answered : List ℕ) : DecidablePred (disk.Covers answered) := fun _ => by
  unfold Disk.Covers
  infer_instance

namespace App

variable (p : App)

/-- Every operation is covered, and a batch that is handed over was written before. -/
structure Promised : Prop where
  doc : ∀ s ∈ p.store, ∀ op ∈ s.doc, s.disk.Covers p.acked op
  file : ∀ disk ∈ p.file, ∀ op ∈ disk.doc, disk.Covers p.acked op
  handed : ∀ batchId ∈ p.handed, batchId ∈ p.written

/-- The same, but for batches that were given up, and for updates that are queued. -/
structure Kept : Prop where
  doc : ∀ s ∈ p.store, ∀ op ∈ s.doc, (∃ u ∈ s.updates, u.op = op) ∨
    s.disk.Covers (p.acked ++ p.givenUp) op
  saved : ∀ s ∈ p.store, s.dirty = false → ∀ push ∈ s.outbox, push.batchId ∈ p.written
  file : ∀ disk ∈ p.file, ∀ op ∈ disk.doc, disk.Covers (p.acked ++ p.givenUp) op
  handed : ∀ batchId ∈ p.handed, batchId ∈ p.written

end App

/-- None of the updates is of an operation in the document, unless the first contact is to come. -/
def Quiet (updates : List Update) (doc : List ℕ) (cursor : ℕ) (firstContactQueued : Bool) : Prop :=
  (∀ u ∈ updates, u.op ∉ doc) ∨ cursor = 0 ∧ firstContactQueued = false

instance (updates : List Update) (doc : List ℕ) (cursor : ℕ) (firstContactQueued : Bool) :
    Decidable (Quiet updates doc cursor firstContactQueued) := by
  unfold Quiet
  infer_instance

namespace Store

variable (s : Store)

/-- A file that is written has no operation whose update is queued; a store that is stopped has no
update queued and takes no edit; the full log can be exported for the first contact. -/
def Calm : Act → Prop
  | .update i ok => ok = true → Quiet (s.updates.eraseIdx i) s.doc s.cursor s.firstContactQueued
  | .flush ok => ok = true → Quiet s.updates s.doc s.cursor s.firstContactQueued
  | .finish i ok => ok = true → ∀ save ∈ s.saves[i]?, ∀ snapshot ∈ save.snapshot,
    ∀ doc ∈ snapshot, Quiet s.updates doc save.cursor save.firstContactQueued
  | .connect exported _ => s.cursor = 0 ∧ s.firstContactQueued = false → exported ≠ none
  | .stop => s.updates = []
  | .commit _ => s.stopped = false
  | _ => True

instance (a : Act) : Decidable (s.Calm a) := by
  cases a <;> simp only [Calm] <;> infer_instance

end Store

def App.Calm (p : App) (a : Act) : Prop := ∀ s ∈ p.store, s.Calm a

instance (p : App) (a : Act) : Decidable (p.Calm a) := by
  unfold App.Calm
  infer_instance

/-! ## The invariant -/

/-- What is known of the batches: those that were minted, those that some file had, and the
operations that are answered. -/
structure Ledger where
  batches : List Push
  written : List ℕ
  answered : List ℕ

def App.ledger (p : App) : Ledger where
  batches := p.batches
  written := p.written
  answered := p.acked ++ p.givenUp

structure Ledger.Le (l l' : Ledger) : Prop where
  batches : l.batches <+: l'.batches
  written : l.written ⊆ l'.written
  answered : l.answered ⊆ l'.answered

def Ledger.Known (l : Ledger) (outbox : List Push) : Prop :=
  ∀ push ∈ outbox, l.batches[push.batchId]? = some push

def Save.disk (save : Save) (doc : List ℕ) : Disk where
  doc
  cursor := save.cursor
  firstContactQueued := save.firstContactQueued
  outbox := save.outbox

/-- A save that may be stale. -/
structure Save.Sane (l : Ledger) (s : Store) (save : Save) : Prop where
  known : l.Known save.outbox
  contact : save.cursor ≠ 0 → save.firstContactQueued = true
  snapshot : ∀ doc, save.snapshot = some (some doc) → doc ⊆ s.doc
  found : ∀ begun, save.begun = some begun → begun.1 ≤ s.generation ∧ begun.2 ≤ s.syncCommits
  begun : save.begun = none → s.stopped = true

/-- **What was captured for a save still covers the document**, as long as no commit was written,
and has the outbox, as long as the generation is the same. -/
structure Save.Inv (l : Ledger) (s : Store) (save : Save) : Prop extends save.Sane l s where
  doc : (∀ begun, save.begun = some begun → begun.2 = s.syncCommits) → ∀ op ∈ s.doc,
    (∃ u ∈ s.updates, u.op = op) ∨ (save.disk s.doc).Covers l.answered op
  current : (∀ begun, save.begun = some begun → begun.1 = s.generation) → s.outbox ⊆ save.outbox
  fresh : ∀ begun, save.begun = some begun → begun.1 = s.generation → begun.2 = s.syncCommits

/-- But for the saves and for what is saved. -/
structure Store.Sane (l : Ledger) (s : Store) : Prop where
  doc : ∀ op ∈ s.doc, (∃ u ∈ s.updates, u.op = op) ∨ s.disk.Covers l.answered op
  contact : s.cursor ≠ 0 → s.firstContactQueued = true
  room : s.chatRoom = true → s.firstContactQueued = true
  admissions : ∀ push ∈ s.admissions, push.batchId ∈ l.written
  known : l.Known s.outbox
  retired : ∀ batchId ∈ s.retired, ∃ push, l.batches[batchId]? = some push ∧
    push.ops ⊆ l.answered
  stopped : s.stopped = true → s.updates = []

structure Store.Inv (l : Ledger) (s : Store) : Prop extends s.Sane l where
  saved : s.dirty = false → ∀ push ∈ s.outbox, push.batchId ∈ l.written
  saves : ∀ save ∈ s.saves, save.Inv l s

structure Disk.Inv (l : Ledger) (disk : Disk) : Prop where
  doc : ∀ op ∈ disk.doc, disk.Covers l.answered op
  contact : disk.cursor ≠ 0 → disk.firstContactQueued = true
  known : l.Known disk.outbox
  written : ∀ push ∈ disk.outbox, push.batchId ∈ l.written

structure App.Inv (p : App) : Prop where
  store : ∀ s ∈ p.store, s.Inv p.ledger
  file : ∀ disk ∈ p.file, disk.Inv p.ledger
  handed : ∀ batchId ∈ p.handed, batchId ∈ p.written

/-! ## The ledger grows -/

theorem Disk.Covers.mono {disk : Disk} {answered answered' : List ℕ} {op : ℕ}
    (h : disk.Covers answered op) (hsub : answered ⊆ answered') : disk.Covers answered' op :=
  h.imp_left fun hin => hsub hin

namespace Ledger

variable {l l' : Ledger}

theorem Le.getElem? (hle : l.Le l') {i : ℕ} {push : Push} (h : l.batches[i]? = some push) :
    l'.batches[i]? = some push := by
  obtain ⟨more, hmore⟩ := hle.batches
  rw [← hmore]
  rw [List.getElem?_append_left (List.getElem?_eq_some_iff.mp h).1]
  exact h

theorem Known.mono {outbox : List Push} (h : l.Known outbox) (hle : l.Le l') : l'.Known outbox :=
  fun push hpush => hle.getElem? (h push hpush)

end Ledger

section Mono

variable {l l' : Ledger} {s : Store} {save : Save} {disk : Disk}

theorem Save.Sane.mono (h : save.Sane l s) (hle : l.Le l') : save.Sane l' s :=
  { h with known := h.known.mono hle }

theorem Save.Inv.mono (h : save.Inv l s) (hle : l.Le l') : save.Inv l' s where
  toSane := h.toSane.mono hle
  doc hfresh op hop := (h.doc hfresh op hop).imp_right fun hc => hc.mono hle.answered
  current := h.current
  fresh := h.fresh

theorem Store.Sane.mono (h : s.Sane l) (hle : l.Le l') : s.Sane l' where
  doc op hop := (h.doc op hop).imp_right fun hc => hc.mono hle.answered
  contact := h.contact
  room := h.room
  admissions push hpush := hle.written (h.admissions push hpush)
  known := h.known.mono hle
  retired batchId hid := by
    obtain ⟨push, hpush, hops⟩ := h.retired batchId hid
    exact ⟨push, hle.getElem? hpush, fun op hop => hle.answered (hops hop)⟩
  stopped := h.stopped

theorem Store.Inv.mono (h : s.Inv l) (hle : l.Le l') : s.Inv l' where
  toSane := h.toSane.mono hle
  saved hdirty push hpush := hle.written (h.saved hdirty push hpush)
  saves save hsave := (h.saves save hsave).mono hle

theorem Disk.Inv.mono (h : disk.Inv l) (hle : l.Le l') : disk.Inv l' where
  doc op hop := (h.doc op hop).mono hle.answered
  contact := h.contact
  known := h.known.mono hle
  written push hpush := hle.written (h.written push hpush)

end Mono

/-! ## One step -/

variable {p p' : App} {s : Store}

theorem mem_getElem? {α : Type*} {l : List α} {i : ℕ} {a : α} (h : l[i]? = some a) : a ∈ l :=
  List.mem_of_getElem? h

theorem admit_eq {written : List ℕ} (s : Store)
    (hsaved : s.dirty = false → ∀ push ∈ s.outbox, push.batchId ∈ written)
    (hold : ∀ push ∈ s.admissions, push.batchId ∈ written) :
    ∃ admissions admitted, s.admitDurableBatches = { s with admissions, admitted } ∧
      ∀ push ∈ admissions, push.batchId ∈ written := by
  unfold Store.admitDurableBatches
  split_ifs with hopen
  · refine ⟨_, _, rfl, fun push hpush => ?_⟩
    rcases List.mem_append.mp hpush with hpush | hpush
    · exact hold push hpush
    · exact hsaved hopen.2.1 push (List.mem_filter.mp hpush).1
  · exact ⟨s.admissions, s.admitted, rfl, hold⟩

theorem Store.Inv.admitBatches {l : Ledger} (h : s.Inv l) : s.admitDurableBatches.Inv l := by
  obtain ⟨admissions, admitted, he, hadmissions⟩ := admit_eq s h.saved h.admissions
  rw [he]
  refine ⟨⟨h.doc, h.contact, h.room, hadmissions, h.known, h.retired, h.stopped⟩, h.saved,
    fun save hsave => ?_⟩
  have hs := h.saves save hsave
  exact ⟨⟨hs.known, hs.contact, hs.snapshot, hs.found, hs.begun⟩, hs.doc, hs.current, hs.fresh⟩

theorem App.Inv.withStore (h : p.Inv) (hs : s.Inv p.ledger) :
    ({ p with store := some s } : App).Inv where
  store s' hs' := by
    cases Option.some_inj.mp hs'
    exact hs
  file := h.file
  handed := h.handed

theorem ledger_write (p : App) (disk : Disk) : p.ledger.Le (p.write disk).ledger :=
  ⟨List.prefix_rfl, fun _ hid => List.mem_append_left _ hid, List.Subset.refl _⟩

theorem App.Inv.write (h : p.Inv) {disk : Disk}
    (hdoc : ∀ op ∈ disk.doc, disk.Covers p.ledger.answered op)
    (hcontact : disk.cursor ≠ 0 → disk.firstContactQueued = true)
    (hknown : p.ledger.Known disk.outbox) : (p.write disk).Inv where
  store s hs := (h.store s hs).mono (ledger_write p disk)
  file disk' hdisk' := by
    cases Option.some_inj.mp hdisk'
    exact ⟨hdoc, hcontact, hknown, fun push hpush =>
      List.mem_append_right _ (List.mem_map.mpr ⟨push, hpush, rfl⟩)⟩
  handed batchId hid := List.mem_append_left _ (h.handed batchId hid)

theorem Save.Sane.outdated {l : Ledger} {save : Save} {s s' : Store} (h : save.Sane l s)
    (hopen : s.stopped = false) (hdoc : s'.doc = s.doc) (hgen : s'.generation = s.generation + 1)
    (hsync : s'.syncCommits = s.syncCommits + 1) : save.Inv l s' := by
  obtain ⟨begun, hbegun⟩ : ∃ begun, save.begun = some begun := by
    cases hb : save.begun with
    | some begun => exact ⟨begun, rfl⟩
    | none => exact absurd (h.begun hb) (by simp [hopen])
  obtain ⟨hle, hle'⟩ := h.found begun hbegun
  refine ⟨⟨h.known, h.contact, fun doc hd => hdoc ▸ h.snapshot doc hd, fun begun' hb => ?_,
    fun hnone => ?_⟩, fun hfresh => ?_, fun hcurrent => ?_, fun begun' hb hsame => ?_⟩
  · have hbound := h.found begun' hb
    exact ⟨by omega, by omega⟩
  · rw [hbegun] at hnone
    cases hnone
  · have hsame := hfresh begun hbegun
    omega
  · have hsame := hcurrent begun hbegun
    omega
  · have hbound := h.found begun' hb
    omega

/-- **`commitNow`.** The saves need only be sane: none is fresh after it. -/
theorem App.Inv.commitNow (h : p.Inv) (hs : s.Sane p.ledger)
    (hsaves : ∀ save ∈ s.saves, save.Sane p.ledger s) (hopen : s.stopped = false) {ok : Bool}
    (hcovers : ok = true → ∀ op ∈ s.doc, s.disk.Covers p.ledger.answered op) :
    (p.commitNow s ok).Inv := by
  unfold App.commitNow
  dsimp only
  split_ifs with hok
  · have hle := ledger_write p s.disk
    have hnow := hs.mono hle
    refine App.Inv.withStore (h.write (hcovers hok) hs.contact hs.known) (Store.Inv.admitBatches ?_)
    refine ⟨⟨hnow.doc, hnow.contact, hnow.room, hnow.admissions, hnow.known, hnow.retired,
      hnow.stopped⟩, fun _ push hpush => ?_, fun save hsave => ?_⟩
    · exact List.mem_append_right _ (List.mem_map.mpr ⟨push, hpush, rfl⟩)
    · exact ((hsaves save hsave).mono hle).outdated hopen rfl rfl rfl
  · refine h.withStore ⟨⟨hs.doc, hs.contact, hs.room, hs.admissions, hs.known, hs.retired,
      hs.stopped⟩, (fun hdirty => by cases hdirty), fun save hsave => ?_⟩
    exact (hsaves save hsave).outdated hopen rfl rfl rfl

theorem Store.Sane.covers {l : Ledger} (h : s.Sane l)
    (hquiet : Quiet s.updates s.doc s.cursor s.firstContactQueued) :
    ∀ op ∈ s.doc, s.disk.Covers l.answered op := by
  intro op hop
  rcases hquiet with hnone | hcontact
  · rcases h.doc op hop with ⟨u, hu, rfl⟩ | hc
    · exact absurd hop (hnone u hu)
    · exact hc
  · exact Or.inr (Or.inr hcontact)

/-- **A store is started** from the file. -/
theorem App.Inv.start (h : p.Inv) (adopted : ℕ) : (p.start adopted).Inv := by
  have hdisk : (p.file.getD { doc := List.range' p.made adopted, cursor := 0
                              firstContactQueued := false, outbox := [] }).Inv p.ledger := by
    cases hfile : p.file with
    | some disk => exact h.file disk hfile
    | none => exact ⟨fun _ _ => Or.inr (Or.inr ⟨rfl, rfl⟩), (fun hne => absurd rfl hne),
        (fun _ hpush => by cases hpush), (fun _ hpush => by cases hpush)⟩
  have hstore : (App.mk (p.start adopted).store p.file p.made p.batches p.written p.handed p.acked
      p.givenUp).Inv := by
    refine h.withStore ⟨⟨fun op hop => Or.inr (hdisk.doc op hop), hdisk.contact,
      (fun hroom => by cases hroom), (fun _ hpush => by cases hpush), hdisk.known,
      (fun _ hid => by cases hid), fun _ => rfl⟩, fun _ => hdisk.written,
      fun _ hsave => (by cases hsave)⟩
  exact ⟨hstore.store, hstore.file, hstore.handed⟩

/-- **A commit**: its update is queued. -/
theorem App.Inv.commit (h : p.Inv) (hs : s.Inv p.ledger) (hopen : s.stopped = false) (size : ℕ) :
    (p.commit s size).Inv := by
  have hnew : ∀ {covers : ℕ → Prop} {op : ℕ},
      (op ∈ s.doc → (∃ u ∈ s.updates, u.op = op) ∨ covers op) → op ∈ s.doc ++ [p.made] →
      (∃ u ∈ s.updates ++ [({ op := p.made, size } : Update)], u.op = op) ∨ covers op := by
    intro covers op hold hop
    rcases List.mem_append.mp hop with hop | hop
    · exact (hold hop).imp_left fun ⟨u, hu, he⟩ => ⟨u, List.mem_append_left _ hu, he⟩
    · rw [List.mem_singleton.mp hop]
      exact Or.inl ⟨_, List.mem_append_right _ (List.mem_singleton_self _), rfl⟩
  have hstore : (App.mk (p.commit s size).store p.file p.made p.batches p.written p.handed p.acked
      p.givenUp).Inv := by
    unfold App.commit
    rw [if_neg (show ¬ s.stopped = true by simp [hopen])]
    refine h.withStore ⟨⟨fun op => hnew (hs.doc op), hs.contact, hs.room, hs.admissions, hs.known,
      hs.retired, fun hstopped => absurd hstopped (by simp [hopen])⟩, hs.saved,
      fun save hsave => ?_⟩
    have hsave := hs.saves save hsave
    refine ⟨⟨hsave.known, hsave.contact, fun doc hd op hop => ?_, hsave.found, hsave.begun⟩,
      fun hfresh op => hnew (hsave.doc hfresh op), hsave.current, hsave.fresh⟩
    exact List.mem_append_left _ (hsave.snapshot doc hd hop)
  exact ⟨hstore.store, hstore.file, hstore.handed⟩

theorem ledger_mint (p : App) (push : Push) :
    p.ledger.Le ({ p with batches := p.batches ++ [push] } : App).ledger :=
  ⟨List.prefix_append _ _, List.Subset.refl _, List.Subset.refl _⟩

theorem known_mint {outbox : List Push} (h : p.ledger.Known outbox) {push : Push}
    (hid : push.batchId = p.batches.length) :
    ({ p with batches := p.batches ++ [push] } : App).ledger.Known (outbox ++ [push]) := by
  intro push' hpush'
  rcases List.mem_append.mp hpush' with hpush' | hpush'
  · exact (ledger_mint p push).getElem? (h push' hpush')
  · rw [List.mem_singleton.mp hpush', hid]
    exact List.getElem?_concat_length

theorem App.Inv.mint (h : p.Inv) (push : Push) :
    ({ p with batches := p.batches ++ [push] } : App).Inv where
  store s hs := (h.store s hs).mono (ledger_mint p push)
  file disk hdisk := (h.file disk hdisk).mono (ledger_mint p push)
  handed := h.handed

/-- **The update of a commit**: its batch enters the outbox. -/
theorem App.Inv.update (h : p.Inv) (hs : s.Inv p.ledger) {i : ℕ} {u : Update}
    (hu : s.updates[i]? = some u) {ok : Bool} (hcalm : s.Calm (.update i ok)) :
    (p.update s i u ok).Inv := by
  have hopen : s.stopped = false := by
    cases hstopped : s.stopped with
    | false => rfl
    | true =>
      rw [hs.stopped hstopped] at hu
      cases hu
  obtain ⟨push, hpush⟩ : ∃ push : Push,
    push = { batchId := p.batches.length, ops := [u.op], size := u.size } := ⟨_, rfl⟩
  unfold App.update
  dsimp only
  rw [if_neg (show ¬ s.stopped = true by simp [hopen]), ← hpush]
  have hid : push.batchId = p.batches.length := by rw [hpush]
  have hmint := ledger_mint p push
  have hnow := hs.toSane.mono hmint
  have hdoc : ∀ op ∈ s.doc, (∃ u' ∈ s.updates.eraseIdx i, u'.op = op) ∨
      ({ s.disk with outbox := s.outbox ++ [push] } : Disk).Covers p.ledger.answered op := by
    intro op hop
    rcases hs.doc op hop with ⟨u', hu', rfl⟩ | hanswered | ⟨old, hold, hin⟩ | hcontact
    · rcases mem_eraseIdx hu hu' with rfl | hrest
      · have hin : push ∈ s.outbox ++ [push] :=
          List.mem_append_right _ (List.mem_singleton_self _)
        refine Or.inr (Or.inr (Or.inl ⟨push, hin, ?_⟩))
        rw [hpush]
        exact List.mem_singleton_self _
      · exact Or.inl ⟨u', hrest, rfl⟩
    · exact Or.inr (Or.inl hanswered)
    · exact Or.inr (Or.inr (Or.inl ⟨old, List.mem_append_left _ hold, hin⟩))
    · exact Or.inr (Or.inr (Or.inr hcontact))
  have hsane : ({ s with updates := s.updates.eraseIdx i, outbox := s.outbox ++ [push] } :
      Store).Sane ({ p with batches := p.batches ++ [push] } : App).ledger :=
    ⟨hdoc, hnow.contact, hnow.room, hnow.admissions, known_mint hs.known hid, hnow.retired,
      fun hstopped => absurd hstopped (by simp [hopen])⟩
  refine (h.mint push).commitNow hsane (fun save hsave => ?_) hopen
    fun hok => hsane.covers (hcalm hok)
  have hsave := (hs.saves save hsave).toSane.mono hmint
  exact ⟨hsave.known, hsave.contact, hsave.snapshot, hsave.found, hsave.begun⟩

/-- **The first contact** takes the whole document; what is too large is given up. -/
theorem App.Inv.connect (h : p.Inv) (hs : s.Inv p.ledger) (hopen : s.stopped = false)
    {exported : Option ℕ} {ok : Bool} (hcalm : s.Calm (.connect exported ok)) :
    (p.connect s exported ok).Inv := by
  obtain ⟨admissions, admitted, he, hadmissions⟩ :=
    admit_eq { s with chatRoom := true } hs.saved hs.admissions
  unfold App.connect
  dsimp only
  rw [he]
  have hsaves : ∀ save ∈ s.saves, save.Sane p.ledger s := fun save hsave =>
    (hs.saves save hsave).toSane
  have hstopped : ∀ {updates : List Update}, s.stopped = true → updates = [] := fun hstopped =>
    absurd hstopped (by simp [hopen])
  dsimp only
  split_ifs with hcontact
  · cases exported with
    | none => exact absurd rfl (hcalm hcontact)
    | some size =>
      dsimp only
      split_ifs with hfits
      · obtain ⟨push, hpush⟩ : ∃ push : Push,
          push = { batchId := p.batches.length, ops := s.doc, size } := ⟨_, rfl⟩
        rw [← hpush]
        have hmint := ledger_mint p push
        have hnow := hs.toSane.mono hmint
        have hdoc : ∀ op ∈ s.doc, ∃ push' ∈ s.outbox ++ [push], op ∈ push'.ops := fun op hop =>
          ⟨push, List.mem_append_right _ (List.mem_singleton_self _), by rw [hpush]; exact hop⟩
        have hsane : ({ s with
              chatRoom := true, admissions, admitted, firstContactQueued := true
              outbox := s.outbox ++ [push] } : Store).Sane
            ({ p with batches := p.batches ++ [push] } : App).ledger :=
          ⟨fun op hop => Or.inr (Or.inr (Or.inl (hdoc op hop))), fun _ => rfl, fun _ => rfl,
            hadmissions, known_mint hs.known (by rw [hpush]), hnow.retired, hstopped⟩
        refine (h.mint push).commitNow hsane (fun save hsave => ?_) hopen
          fun _ op hop => Or.inr (Or.inl (hdoc op hop))
        have hsave := (hsaves save hsave).mono hmint
        exact ⟨hsave.known, hsave.contact, hsave.snapshot, hsave.found, hsave.begun⟩
      · have hle : p.ledger.Le ({ p with givenUp := p.givenUp ++ s.doc } : App).ledger :=
          ⟨List.prefix_rfl, List.Subset.refl _, fun op hop => by
            rcases List.mem_append.mp hop with hop | hop
            · exact List.mem_append_left _ hop
            · exact List.mem_append_right _ (List.mem_append_left _ hop)⟩
        have hdoc : ∀ op ∈ s.doc, op ∈ p.acked ++ (p.givenUp ++ s.doc) := fun op hop =>
          List.mem_append_right _ (List.mem_append_right _ hop)
        have hnow := hs.toSane.mono hle
        have hp : ({ p with givenUp := p.givenUp ++ s.doc } : App).Inv :=
          ⟨fun s' hs' => (h.store s' hs').mono hle, fun disk hdisk => (h.file disk hdisk).mono hle,
            h.handed⟩
        have hsane : ({ s with
              chatRoom := true, admissions, admitted, firstContactQueued := true } : Store).Sane
            ({ p with givenUp := p.givenUp ++ s.doc } : App).ledger :=
          ⟨fun op hop => Or.inr (Or.inl (hdoc op hop)), fun _ => rfl, fun _ => rfl, hadmissions,
            hnow.known, hnow.retired, hstopped⟩
        refine hp.commitNow hsane (fun save hsave => ?_) hopen fun _ op hop => Or.inl (hdoc op hop)
        have hsave := (hsaves save hsave).mono hle
        exact ⟨hsave.known, hsave.contact, hsave.snapshot, hsave.found, hsave.begun⟩
  · refine h.withStore ⟨⟨hs.doc, hs.contact, fun _ => ?_, hadmissions, hs.known, hs.retired,
      hs.stopped⟩, hs.saved, fun save hsave => ?_⟩
    · cases hfirst : s.firstContactQueued with
      | true => rfl
      | false =>
        have hcursor : s.cursor ≠ 0 := fun hzero => hcontact ⟨hzero, hfirst⟩
        rw [hs.contact hcursor] at hfirst
        cases hfirst
    · have hsave := hs.saves save hsave
      exact ⟨⟨hsave.known, hsave.contact, hsave.snapshot, hsave.found, hsave.begun⟩, hsave.doc,
        hsave.current, hsave.fresh⟩

theorem Save.Inv.stale {l : Ledger} {save : Save} {s s' : Store} (h : save.Inv l s)
    (hdoc : s'.doc = s.doc) (hupdates : s'.updates = s.updates) (houtbox : s'.outbox ⊆ s.outbox)
    (hstopped : s'.stopped = s.stopped) (hgen : s'.generation = s.generation + 1)
    (hsync : s'.syncCommits = s.syncCommits) : save.Inv l s' := by
  refine ⟨⟨h.known, h.contact, fun doc hd => hdoc ▸ h.snapshot doc hd, fun begun hb => ?_,
    fun hnone => hstopped ▸ h.begun hnone⟩, fun hfresh op hop => ?_, fun hcurrent => ?_,
    fun begun hb hsame => ?_⟩
  · have hbound := h.found begun hb
    exact ⟨by omega, by omega⟩
  · rw [hupdates]
    rw [hdoc] at hop
    exact h.doc (fun begun hb => (hfresh begun hb).trans hsync) op hop
  · have hnone : ∀ begun, save.begun ≠ some begun := fun begun hb => by
      have hbound := h.found begun hb
      have hsame := hcurrent begun hb
      omega
    exact List.Subset.trans houtbox (h.current fun begun hb => absurd hb (hnone begun))
  · have hbound := h.found begun hb
    omega

/-- **`poke`.** -/
theorem Store.Inv.poke {l : Ledger} (h : s.Inv l) : s.poke.Inv l where
  doc := h.doc
  contact := h.contact
  room := h.room
  admissions := h.admissions
  known := h.known
  retired := h.retired
  stopped := h.stopped
  saved hdirty := by cases hdirty
  saves save hsave := (h.saves save hsave).stale rfl rfl (List.Subset.refl _) rfl rfl rfl

/-- **A save begins**: it has the store as it is. -/
theorem Store.Inv.flushAsync {l : Ledger} (h : s.Inv l) :
    ({ s with
      generation := s.generation + 1
      saves := s.saves ++ [s.capture (some (s.generation + 1, s.syncCommits))] } :
        Store).Inv l := by
  refine ⟨⟨h.doc, h.contact, h.room, h.admissions, h.known, h.retired, h.stopped⟩, h.saved,
    fun save hsave => ?_⟩
  rcases List.mem_append.mp hsave with hsave | hsave
  · exact (h.saves save hsave).stale rfl rfl (List.Subset.refl _) rfl rfl rfl
  · rw [List.mem_singleton.mp hsave]
    refine ⟨⟨h.known, h.contact, (fun _ hd => by cases hd), fun begun hb => ?_,
      (fun hnone => by cases hnone)⟩, fun _ => h.doc, fun _ => List.Subset.refl _,
      fun begun hb _ => ?_⟩
    · cases Option.some_inj.mp hb
      exact ⟨Nat.le_refl _, Nat.le_refl _⟩
    · cases Option.some_inj.mp hb
      rfl

theorem Store.Inv.begin {l : Ledger} (h : s.Inv l) {i : ℕ} {save : Save}
    (hsave : s.saves[i]? = some save) (hnone : save.begun = none) :
    ({ s with
      generation := s.generation + 1
      saves := s.saves.set i
        { save with begun := some (s.generation + 1, s.syncCommits) } } : Store).Inv l := by
  refine ⟨⟨h.doc, h.contact, h.room, h.admissions, h.known, h.retired, h.stopped⟩, h.saved,
    fun save' hsave' => ?_⟩
  rcases List.mem_or_eq_of_mem_set hsave' with hsave' | rfl
  · exact (h.saves save' hsave').stale rfl rfl (List.Subset.refl _) rfl rfl rfl
  · have hold := h.saves save (mem_getElem? hsave)
    have hnever : ∀ {P : ℕ × ℕ → Prop} begun, save.begun = some begun → P begun :=
      fun begun hb => by
        rw [hnone] at hb
        cases hb
    refine ⟨⟨hold.known, hold.contact, hold.snapshot, fun begun hb => ?_,
      (fun hnone => by cases hnone)⟩, fun _ => hold.doc hnever, fun _ => hold.current hnever,
      fun begun hb _ => ?_⟩
    · cases Option.some_inj.mp hb
      exact ⟨Nat.le_refl _, Nat.le_refl _⟩
    · cases Option.some_inj.mp hb
      rfl

theorem Store.Inv.withSaves {l : Ledger} (h : s.Inv l) {saves : List Save}
    (hsaves : ∀ save ∈ saves, save.Inv l s) : ({ s with saves } : Store).Inv l := by
  refine ⟨⟨h.doc, h.contact, h.room, h.admissions, h.known, h.retired, h.stopped⟩, h.saved,
    fun save hsave => ?_⟩
  have hold := hsaves save hsave
  exact ⟨⟨hold.known, hold.contact, hold.snapshot, hold.found, hold.begun⟩, hold.doc,
    hold.current, hold.fresh⟩

/-- **The snapshot of a save** is of the document as it is now. -/
theorem Store.Inv.snapshot {l : Ledger} (h : s.Inv l) {i : ℕ} {save : Save}
    (hsave : s.saves[i]? = some save) (ok : Bool) :
    ({ s with
      saves := s.saves.set i
        { save with snapshot := some (if ok then some s.doc else none) } } : Store).Inv l := by
  refine h.withSaves fun save' hsave' => ?_
  rcases List.mem_or_eq_of_mem_set hsave' with hsave' | rfl
  · exact h.saves save' hsave'
  · have hold := h.saves save (mem_getElem? hsave)
    refine ⟨⟨hold.known, hold.contact, fun doc hd => ?_, hold.found, hold.begun⟩, hold.doc,
      hold.current, hold.fresh⟩
    cases ok with
    | true =>
      cases Option.some_inj.mp (Option.some_inj.mp hd)
      exact List.Subset.refl _
    | false => cases hd

theorem Save.Inv.covers {l : Ledger} {save : Save} (h : save.Inv l s) {begun : ℕ × ℕ}
    (hbegun : save.begun = some begun) (hsync : s.syncCommits = begun.2) {doc : List ℕ}
    (hdoc : save.snapshot = some (some doc))
    (hquiet : Quiet s.updates doc save.cursor save.firstContactQueued) :
    ∀ op ∈ doc, (save.disk doc).Covers l.answered op := by
  intro op hop
  rcases hquiet with hnone | hcontact
  · have hfresh : ∀ begun', save.begun = some begun' → begun'.2 = s.syncCommits :=
      fun begun' hb => by
        rw [hbegun] at hb
        cases Option.some_inj.mp hb
        exact hsync.symm
    rcases h.doc hfresh op (h.snapshot doc hdoc hop) with ⟨u, hu, rfl⟩ | hc
    · exact absurd hop (hnone u hu)
    · exact hc
  · exact Or.inr (Or.inr hcontact)

/-- **The end of a save.** -/
theorem App.Inv.finish (h : p.Inv) (hs : s.Inv p.ledger) {i : ℕ} {save : Save}
    (hsave : s.saves[i]? = some save) {begun : ℕ × ℕ} (hbegun : save.begun = some begun)
    {snapshot : Option (List ℕ)} (hsnapshot : save.snapshot = some snapshot) {ok : Bool}
    (hcalm : s.Calm (.finish i ok)) : (p.finish s i save begun snapshot ok).Inv := by
  have hold := hs.saves save (mem_getElem? hsave)
  have hrest : ({ s with saves := s.saves.eraseIdx i } : Store).Inv p.ledger :=
    hs.withSaves fun save' hsave' => hs.saves save' (List.mem_of_mem_eraseIdx hsave')
  have hwrite : ∀ {doc : List ℕ}, snapshot = some doc → ok = true → s.syncCommits = begun.2 →
      (p.write (save.disk doc)).Inv := by
    intro doc hdoc hok hsync
    rw [hdoc] at hsnapshot
    have hquiet := hcalm hok save hsave (some doc) hsnapshot doc rfl
    exact h.write (hold.covers hbegun hsync hsnapshot hquiet) hold.contact hold.known
  unfold App.finish
  dsimp only
  by_cases hgen : s.generation ≠ begun.1
  · rw [if_pos hgen]
    split
    · split_ifs with hsync
      · exact (hwrite rfl rfl hsync).withStore (hrest.mono (ledger_write p _))
      · exact h.withStore hrest
    · exact h.withStore hrest
  · rw [if_neg hgen]
    have hsame : begun.1 = s.generation := (not_not.mp hgen).symm
    have hsync := (hold.fresh begun hbegun hsame).symm
    split
    · rename_i doc
      refine (hwrite rfl rfl hsync).withStore (Store.Inv.admitBatches ?_)
      have hnow := hrest.mono (ledger_write p (save.disk doc))
      refine ⟨⟨hnow.doc, hnow.contact, hnow.room, hnow.admissions, hnow.known, hnow.retired,
        hnow.stopped⟩, fun _ push hpush => ?_, fun save' hsave' => ?_⟩
      · have hcurrent : ∀ begun', save.begun = some begun' → begun'.1 = s.generation :=
          fun begun' hb => by
            rw [hbegun] at hb
            cases Option.some_inj.mp hb
            exact hsame
        exact List.mem_append_right _
          (List.mem_map.mpr ⟨push, hold.current hcurrent hpush, rfl⟩)
      · exact (hnow.saves save' hsave').stale rfl rfl (List.Subset.refl _) rfl rfl rfl
    · exact h.withStore hrest.poke

/-- **A batch is handed over**, which some file has. -/
theorem App.Inv.enqueue (h : p.Inv) (hs : s.Inv p.ledger) {i : ℕ} {push : Push}
    (hpush : s.admissions[i]? = some push) : (p.enqueue s i push).Inv := by
  have hrest : ∀ pending, ({ s with admissions := s.admissions.eraseIdx i, pending } :
      Store).Inv p.ledger := by
    refine fun pending => ⟨⟨hs.doc, hs.contact, hs.room, fun push' hpush' => ?_, hs.known,
      hs.retired, hs.stopped⟩, hs.saved, fun save hsave => ?_⟩
    · exact hs.admissions push' (List.mem_of_mem_eraseIdx hpush')
    · have hold := hs.saves save hsave
      exact ⟨⟨hold.known, hold.contact, hold.snapshot, hold.found, hold.begun⟩, hold.doc,
        hold.current, hold.fresh⟩
  unfold App.enqueue
  dsimp only
  by_cases hclosed : s.stopped = true ∨ s.chatRoom = false
  · rw [if_pos hclosed]
    exact h.withStore (hrest s.pending)
  · rw [if_neg hclosed]
    have hhanded : ∀ batchId ∈ p.handed ++ [push.batchId], batchId ∈ p.written := by
      intro batchId hid
      rcases List.mem_append.mp hid with hid | hid
      · exact h.handed batchId hid
      · rw [List.mem_singleton.mp hid]
        exact hs.admissions push (mem_getElem? hpush)
    exact ⟨(h.withStore (hrest _)).store, h.file, hhanded⟩

/-- **The room answers for a batch**: its operations are acknowledged, or given up. -/
theorem App.Inv.answer (h : p.Inv) (hs : s.Inv p.ledger) {batchId : ℕ} {push : Push}
    (hpush : p.batches[batchId]? = some push) (accepted : Bool) (pending : List Push) :
    ({ p with
      acked := if accepted then p.acked ++ push.ops else p.acked
      givenUp := if accepted then p.givenUp else p.givenUp ++ push.ops
      store := some { s with pending, retired := s.retired ++ [batchId] } } : App).Inv := by
  have hle : p.ledger.Le ({ p with
      acked := if accepted then p.acked ++ push.ops else p.acked
      givenUp := if accepted then p.givenUp else p.givenUp ++ push.ops } : App).ledger := by
    refine ⟨List.prefix_rfl, List.Subset.refl _, fun op hop => ?_⟩
    cases accepted <;> simp only [App.ledger, List.mem_append] at hop ⊢ <;> grind
  have hops : push.ops ⊆ ({ p with
      acked := if accepted then p.acked ++ push.ops else p.acked
      givenUp := if accepted then p.givenUp else p.givenUp ++ push.ops } :
        App).ledger.answered := by
    intro op hop
    cases accepted <;> simp [App.ledger, hop]
  have hnow := hs.mono hle
  refine ⟨fun s' hs' => ?_, fun disk hdisk => (h.file disk hdisk).mono hle, h.handed⟩
  cases Option.some_inj.mp hs'
  refine ⟨⟨hnow.doc, hnow.contact, hnow.room, hnow.admissions, hnow.known, fun id hid => ?_,
    hnow.stopped⟩, hnow.saved, fun save hsave => ?_⟩
  · rcases List.mem_append.mp hid with hid | hid
    · exact hnow.retired id hid
    · rw [List.mem_singleton.mp hid]
      exact ⟨push, hpush, hops⟩
  · have hold := hnow.saves save hsave
    exact ⟨⟨hold.known, hold.contact, hold.snapshot, hold.found, hold.begun⟩, hold.doc,
      hold.current, hold.fresh⟩

/-- **A batch leaves the outbox**: its operations are answered. -/
theorem App.Inv.retirePush (h : p.Inv) (hs : s.Inv p.ledger) {i batchId : ℕ}
    (hid : s.retired[i]? = some batchId) : (p.retirePush s i batchId).Inv := by
  obtain ⟨push, hpush, hops⟩ := hs.retired batchId (mem_getElem? hid)
  have hretired : ∀ id ∈ s.retired.eraseIdx i, ∃ push, p.ledger.batches[id]? = some push ∧
      push.ops ⊆ p.ledger.answered := fun id hin => hs.retired id (List.mem_of_mem_eraseIdx hin)
  unfold App.retirePush
  dsimp only
  by_cases hstopped : s.stopped = true
  · rw [if_pos hstopped]
    refine h.withStore ⟨⟨hs.doc, hs.contact, hs.room, hs.admissions, hs.known, hretired,
      hs.stopped⟩, hs.saved, fun save hsave => ?_⟩
    have hold := hs.saves save hsave
    exact ⟨⟨hold.known, hold.contact, hold.snapshot, hold.found, hold.begun⟩, hold.doc,
      hold.current, hold.fresh⟩
  · rw [if_neg hstopped]
    have hkept : ∀ push' ∈ s.outbox.filter (·.batchId ≠ batchId), push' ∈ s.outbox :=
      fun push' hpush' => (List.mem_filter.mp hpush').1
    have hdoc : ∀ op ∈ s.doc, (∃ u ∈ s.updates, u.op = op) ∨ ({ s.disk with
        outbox := s.outbox.filter (·.batchId ≠ batchId) } : Disk).Covers p.ledger.answered op := by
      intro op hop
      rcases hs.doc op hop with hu | hanswered | ⟨old, hold, hin⟩ | hcontact
      · exact Or.inl hu
      · exact Or.inr (Or.inl hanswered)
      · by_cases hgone : old.batchId = batchId
        · have hsame := hs.known old hold
          rw [hgone, hpush] at hsame
          cases Option.some_inj.mp hsame
          exact Or.inr (Or.inl (hops hin))
        · have hin' : old ∈ s.outbox.filter (·.batchId ≠ batchId) :=
            List.mem_filter.mpr ⟨hold, decide_eq_true hgone⟩
          exact Or.inr (Or.inr (Or.inl ⟨old, hin', hin⟩))
      · exact Or.inr (Or.inr (Or.inr hcontact))
    have hnow : ({ s with
        retired := s.retired.eraseIdx i
        outbox := s.outbox.filter (·.batchId ≠ batchId)
        admitted := s.admitted.filter (· ≠ batchId) } : Store).Inv p.ledger := by
      refine ⟨⟨hdoc, hs.contact, hs.room, hs.admissions,
        fun push' hpush' => hs.known push' (hkept push' hpush'), hretired, hs.stopped⟩,
        fun hdirty push' hpush' => hs.saved hdirty push' (hkept push' hpush'),
        fun save hsave => ?_⟩
      have hold := hs.saves save hsave
      exact ⟨⟨hold.known, hold.contact, hold.snapshot, hold.found, hold.begun⟩, hold.doc,
        fun hcurrent push' hpush' => hold.current hcurrent (hkept push' hpush'), hold.fresh⟩
    refine h.withStore ?_
    split_ifs
    · exact hnow.poke
    · exact hnow

/-- **A store is stopped** with no update queued; what is dirty is captured. -/
theorem App.Inv.stop (h : p.Inv) (hs : s.Inv p.ledger) (hcalm : s.updates = []) :
    (p.stop s).Inv := by
  refine h.withStore ⟨⟨hs.doc, hs.contact, (fun hroom => by cases hroom), hs.admissions, hs.known,
    hs.retired, fun _ => hcalm⟩, hs.saved, fun save hsave => ?_⟩
  have hkeep : ∀ save ∈ s.saves, save.Inv p.ledger
      { s with
        stopped := true, chatRoom := false
        saves := if s.dirty then s.saves ++ [s.capture none] else s.saves } := fun save hsave => by
    have hold := hs.saves save hsave
    exact ⟨⟨hold.known, hold.contact, hold.snapshot, hold.found, fun _ => rfl⟩, hold.doc,
      hold.current, hold.fresh⟩
  dsimp only at hsave
  split_ifs at hsave
  · rcases List.mem_append.mp hsave with hsave | hsave
    · exact hkeep save hsave
    · rw [List.mem_singleton.mp hsave]
      exact ⟨⟨hs.known, hs.contact, (fun _ hd => by cases hd), (fun _ hb => by cases hb),
        fun _ => rfl⟩, fun _ => hs.doc, fun _ => List.Subset.refl _, (fun _ hb => by cases hb)⟩
  · exact hkeep save hsave

/-! ## Runs -/

theorem Store.Inv.remote {l : Ledger} (h : s.Inv l) (hroom : s.chatRoom = true) (cursor : ℕ) :
    ({ s with cursor } : Store).Inv l := by
  have hfirst := h.room hroom
  refine ⟨⟨fun op hop => ?_, fun _ => hfirst, h.room, h.admissions, h.known, h.retired,
    h.stopped⟩, h.saved, fun save hsave => ?_⟩
  · rcases h.doc op hop with hu | hanswered | hpush | hcontact
    · exact Or.inl hu
    · exact Or.inr (Or.inl hanswered)
    · exact Or.inr (Or.inr (Or.inl hpush))
    · rw [show s.disk.firstContactQueued = true from hfirst] at hcontact
      cases hcontact.2
  · have hold := h.saves save hsave
    exact ⟨⟨hold.known, hold.contact, hold.snapshot, hold.found, hold.begun⟩, hold.doc,
      hold.current, hold.fresh⟩

theorem inv_step (h : p.Inv) {a : Act} (hcalm : p.Calm a) (hstep : p.step a = some p') :
    p'.Inv := by
  cases a with
  | start adopted =>
    unfold App.step at hstep
    dsimp only at hstep
    cases hs : p.store with
    | some s =>
      rw [hs] at hstep
      dsimp only at hstep
      split_ifs at hstep
      cases Option.some_inj.mp hstep
      exact h.start adopted
    | none =>
      rw [hs] at hstep
      cases Option.some_inj.mp hstep
      exact h.start adopted
  | kill =>
    obtain ⟨s, hs, rfl⟩ := Option.map_eq_some_iff.mp hstep
    exact ⟨(fun _ hs => by cases hs), h.file, h.handed⟩
  | commit size =>
    obtain ⟨s, hs, rfl⟩ := Option.map_eq_some_iff.mp hstep
    exact h.commit (h.store s hs) (hcalm s hs) size
  | update i ok =>
    obtain ⟨s, hs, hstep⟩ := Option.bind_eq_some_iff.mp hstep
    obtain ⟨u, hu, hstep⟩ := Option.bind_eq_some_iff.mp hstep
    cases Option.some_inj.mp hstep
    exact h.update (h.store s hs) hu (hcalm s hs)
  | connect exported ok =>
    obtain ⟨s, hs, hstep⟩ := Option.bind_eq_some_iff.mp hstep
    split_ifs at hstep with hclosed
    cases Option.some_inj.mp hstep
    exact h.connect (h.store s hs) (by simpa using (not_or.mp hclosed).1) (hcalm s hs)
  | remote cursor =>
    obtain ⟨s, hs, hstep⟩ := Option.bind_eq_some_iff.mp hstep
    split_ifs at hstep with hroom
    cases Option.some_inj.mp hstep
    exact h.withStore ((h.store s hs).remote hroom cursor).poke
  | flush ok =>
    obtain ⟨s, hs, hstep⟩ := Option.bind_eq_some_iff.mp hstep
    split_ifs at hstep with hopen
    cases Option.some_inj.mp hstep
    have hstore := h.store s hs
    exact h.commitNow hstore.toSane (fun save hsave => (hstore.saves save hsave).toSane) hopen.1
      fun hok => hstore.covers (hcalm s hs hok)
  | flushAsync =>
    obtain ⟨s, hs, hstep⟩ := Option.bind_eq_some_iff.mp hstep
    split_ifs at hstep
    cases Option.some_inj.mp hstep
    exact h.withStore (h.store s hs).flushAsync
  | begin i =>
    obtain ⟨s, hs, hstep⟩ := Option.bind_eq_some_iff.mp hstep
    obtain ⟨save, hsave, hstep⟩ := Option.bind_eq_some_iff.mp hstep
    have hstore := h.store s hs
    split_ifs at hstep with hbegun
    · cases Option.some_inj.mp hstep
      exact h.withStore (hstore.begin hsave (by simpa using hbegun))
    · cases Option.some_inj.mp hstep
      exact h.withStore (hstore.withSaves fun save' hsave' =>
        hstore.saves save' (List.mem_of_mem_eraseIdx hsave'))
  | snapshot i ok =>
    obtain ⟨s, hs, hstep⟩ := Option.bind_eq_some_iff.mp hstep
    obtain ⟨save, hsave, hstep⟩ := Option.bind_eq_some_iff.mp hstep
    split at hstep
    · cases hstep
    · cases Option.some_inj.mp hstep
      exact h.withStore ((h.store s hs).snapshot hsave ok)
  | finish i ok =>
    obtain ⟨s, hs, hstep⟩ := Option.bind_eq_some_iff.mp hstep
    obtain ⟨save, hsave, hstep⟩ := Option.bind_eq_some_iff.mp hstep
    obtain ⟨begun, hbegun, hstep⟩ := Option.bind_eq_some_iff.mp hstep
    obtain ⟨snapshot, hsnapshot, hstep⟩ := Option.bind_eq_some_iff.mp hstep
    cases Option.some_inj.mp hstep
    exact h.finish (h.store s hs) hsave hbegun hsnapshot (hcalm s hs)
  | enqueue i =>
    obtain ⟨s, hs, hstep⟩ := Option.bind_eq_some_iff.mp hstep
    obtain ⟨push, hpush, hstep⟩ := Option.bind_eq_some_iff.mp hstep
    cases Option.some_inj.mp hstep
    exact h.enqueue (h.store s hs) hpush
  | answer batchId accepted =>
    obtain ⟨s, hs, hstep⟩ := Option.bind_eq_some_iff.mp hstep
    obtain ⟨push, hpush, hstep⟩ := Option.bind_eq_some_iff.mp hstep
    split at hstep
    · cases hstep
    · cases Option.some_inj.mp hstep
      exact h.answer (h.store s hs) hpush accepted _
  | retire i =>
    obtain ⟨s, hs, hstep⟩ := Option.bind_eq_some_iff.mp hstep
    obtain ⟨batchId, hid, hstep⟩ := Option.bind_eq_some_iff.mp hstep
    cases Option.some_inj.mp hstep
    exact h.retirePush (h.store s hs) hid
  | stop =>
    obtain ⟨s, hs, hstep⟩ := Option.bind_eq_some_iff.mp hstep
    split_ifs at hstep
    cases Option.some_inj.mp hstep
    exact h.stop (h.store s hs) (hcalm s hs)

theorem inv_new : App.new.Inv :=
  ⟨(fun _ hs => by cases hs), (fun _ hdisk => by cases hdisk), (fun _ hid => by cases hid)⟩

/-- **Every local edit is kept until the room has answered for it**, over every run in which no
file is written and no store stopped while the batch of an operation in it is still to come. -/
theorem edits_kept {acts : List Act} (hg : Guarded App.step App.Calm App.new acts)
    (he : exec App.step App.new acts = some p) : p.Kept := by
  have hi : p.Inv := exec_invariant (fun _ _ _ h hcalm hs => inv_step h hcalm hs) inv_new hg he
  exact ⟨fun s hs => (hi.store s hs).doc, fun s hs => (hi.store s hs).saved,
    fun disk hdisk => (hi.file disk hdisk).doc, hi.handed⟩

/-- An edit before the first contact and one after it. The second cannot be written at first; the
app is killed before the room has answered. -/
def relaunched : List Act :=
  [.start 0, .commit 10, .update 0 true, .connect (some 100) true, .enqueue 0, .enqueue 0,
    .commit 10, .update 0 false, .flushAsync, .snapshot 0 true, .finish 0 true, .enqueue 0,
    .answer 0 true, .retire 0, .flush true, .kill, .start 0, .connect none true]

theorem edits_kept_relaunched : ∃ p, exec App.step App.new relaunched = some p ∧
    p.store.map (·.doc) = some [0, 1] ∧ p.store.map (·.outbox.map (·.batchId)) = some [1, 2] ∧
    p.handed = [0, 1, 2] ∧ p.Kept := by
  have hg : Guarded App.step App.Calm App.new relaunched := guarded_of_checks (by decide)
  exact ⟨_, rfl, by decide, by decide, by decide, edits_kept hg rfl⟩

/-! ## What is not kept -/

/-- The room rejects the batch of an edit. -/
def rejected : List Act :=
  [.start 0, .connect (some 100) true, .commit 10, .update 0 true, .enqueue 0, .enqueue 0,
    .answer 1 false, .retire 0]

/-- Two edits follow each other: the first one's update writes a file that has both. -/
def twice : List Act :=
  [.start 0, .connect (some 100) true, .commit 10, .commit 10, .update 0 true, .kill, .start 0]

/-- **A batch that is rejected is retired, and the file of a commit has the edits after it.** -/
theorem edits_lost :
    (∃ p, exec App.step App.new rejected = some p ∧ p.givenUp = [0] ∧ ¬ p.Promised) ∧
      ∃ p, exec App.step App.new twice = some p ∧ p.givenUp = [] ∧
        p.store.map (·.doc) = some [0, 1] ∧ p.store.map (·.updates) = some [] ∧ ¬ p.Promised := by
  refine ⟨⟨_, rfl, by decide, fun h => ?_⟩, ⟨_, rfl, by decide, by decide, by decide, fun h => ?_⟩⟩
  · exact absurd h.doc (by decide)
  · exact absurd h.doc (by decide)

end Zeron.Phone
