import Zeron.Journal.Line
import Zeron.Lib.Run

/-!
# Subscribing to a chat's events

Publishers of one chat, each between its append and its broadcast, and one `subscribe` call.

* `World`, `step`: `publish` and `subscribe`, at each lock they take;
* `watchRunEvents`: what the stream of `WATCH_RUN_EVENTS` yields;
* `Exact`: **the stream has no gaps and no duplicates**;
* `InOrder`: when a broadcast keeps it; **`subscribe_exact`**;
* `broadcasts_cross`: two publishers.
-/

namespace Zeron.Journal

open Ascend Run

variable {ε : Type*}

/-- Where a `subscribe` call is. A receiver holds what was broadcast since it was made. -/
inductive Reader (ε : Type*) where
  | absent
  | subscribed (live : List (JournaledEvent ε))
  /-- `taken` is the last number of the journal when the replay was read. -/
  | replayed (replay : List (JournaledEvent ε)) (taken : ℕ) (live : List (JournaledEvent ε))

/-- The journal of the chat; what each publisher has appended and not yet broadcast; the reader. -/
structure World (ε : Type*) where
  journal : List (JournaledEvent ε)
  publishers : ℕ → Option (JournaledEvent ε)
  reader : Reader ε

inductive Action (ε : Type*) where
  /-- `publish`, as far as its append, which succeeds. -/
  | append (p : ℕ) (event : ε)
  /-- `publish`, as far as its append, which fails. -/
  | fail (p : ℕ) (event : ε)
  /-- The broadcast of `publish`. -/
  | send (p : ℕ)
  | subscribe
  | replay

/-- The receiver of a reader, if it has one, gets an item. -/
def Reader.receive (x : JournaledEvent ε) : Reader ε → Reader ε
  | .absent => .absent
  | .subscribed live => .subscribed (live ++ [x])
  | .replayed replay taken live => .replayed replay taken (live ++ [x])

/-- What a publisher is to broadcast. -/
def World.hold (w : World ε) (p : ℕ) (x : Option (JournaledEvent ε)) : World ε :=
  { w with publishers := Function.update w.publishers p x }

/-- The event takes the next line of the journal. -/
def World.append (w : World ε) (event : ε) : World ε :=
  { w with journal := w.journal ++ [{ seq := nextSeq w.journal, event }] }

/-- A step of the publishers and of `subscribe(chat, after)`. An event whose append fails is
broadcast with the number 0. -/
def step (after : ℕ) (w : World ε) : Action ε → Option (World ε)
  | .append p event =>
    match w.publishers p with
    | some _ => none
    | none => some ((w.append event).hold p (some { seq := nextSeq w.journal, event }))
  | .fail p event =>
    match w.publishers p with
    | some _ => none
    | none => some (w.hold p (some { seq := 0, event }))
  | .send p =>
    match w.publishers p with
    | none => none
    | some x => some { w.hold p none with reader := w.reader.receive x }
  | .subscribe =>
    match w.reader with
    | .absent => some { w with reader := .subscribed [] }
    | _ => none
  | .replay =>
    match w.reader with
    | .subscribed live =>
      some { w with reader := .replayed (replayAfter w.journal after) (lastSeq w.journal) live }
    | _ => none

/-- The cursor that the stream starts from. A replay that starts at or below the cursor of the
subscription is of another era. -/
def streamStart (after : ℕ) (replay : List (JournaledEvent ε)) : ℕ :=
  if replay.head?.any (·.seq ≤ after) then 0 else after

/-- The items that the stream yields: none that is not above the last one. -/
def watchRunEvents (after : ℕ) (replay live : List (JournaledEvent ε)) : List (JournaledEvent ε) :=
  take (·.seq) (streamStart after replay) (replay ++ live)

/-- The part of a list that lies after the cursor of the subscription. -/
def beyond (after : ℕ) (l : List (JournaledEvent ε)) : List (JournaledEvent ε) :=
  l.filter fun x => decide (after < x.seq)

/-- **No gaps and no duplicates.** Whatever part of the receiver is read, the stream has yielded the
events after the cursor from the first one on, in order and once each; and all of them when no
broadcast is outstanding and all of the receiver is read. -/
def Exact (after : ℕ) (w : World ε) : Prop :=
  match w.reader with
  | .replayed replay _ live =>
    (∀ n, beyond after (watchRunEvents after replay (live.take n)) <+: beyond after w.journal) ∧
    ((∀ p, w.publishers p = none) →
      beyond after (watchRunEvents after replay live) = beyond after w.journal)
  | _ => True

/-- A broadcast after the replay passes by no earlier event that is to come: one after the cursor,
not in the replay, that another publisher has appended and not yet broadcast. -/
def InOrder (after : ℕ) (w : World ε) : Action ε → Prop
  | .send p =>
    match w.reader with
    | .replayed _ taken _ => ∀ x, w.publishers p = some x → ∀ q y, w.publishers q = some y →
        after < y.seq → taken < y.seq → x.seq ≤ y.seq
    | _ => True
  | _ => True

/-- The state before the subscription: a journal, and publishers that have all been heard. -/
def World.start (journal : List (JournaledEvent ε)) : World ε where
  journal
  publishers := fun _ => none
  reader := .absent

/-! ## What a replay and a receiver hold -/

section Watch

variable {after : ℕ} {journal : List (JournaledEvent ε)}

theorem streamStart_lt (h : Numbered journal) {x : JournaledEvent ε}
    (hx : x ∈ replayAfter journal after) :
    streamStart after (replayAfter journal after) < x.seq := by
  obtain ⟨hmem, hlt⟩ := mem_replayAfter.mp hx
  have hpos := h.pos x hmem
  unfold streamStart
  split_ifs with hhead
  · exact hpos
  · by_contra hle
    refine hhead ?_
    -- the first line is not above `x`, which is at or below the cursor
    cases hl : replayAfter journal after with
    | nil => exact absurd (hl ▸ hx) List.not_mem_nil
    | cons y l =>
      have hascends := (numbered_replayAfter h after).ascends
      rw [hl] at hascends hx
      have hyx : y.seq ≤ x.seq := by
        rcases List.mem_cons.mp hx with rfl | hx
        · exact le_rfl
        · exact (hascends.head x hx).le
      simpa using hyx.trans (Nat.not_lt.mp hle)

/-- Where the stream stands after the replay. -/
def position (after : ℕ) (replay : List (JournaledEvent ε)) : ℕ :=
  cursor (·.seq) (streamStart after replay) replay

theorem watchRunEvents_replay (h : Numbered journal) (live : List (JournaledEvent ε)) :
    watchRunEvents after (replayAfter journal after) live = replayAfter journal after ++
      take (·.seq) (position after (replayAfter journal after)) live := by
  unfold watchRunEvents position
  rw [take_append, take_of_ascends (numbered_replayAfter h after).ascends
    fun _ hx => streamStart_lt h hx]

theorem position_replay (h : Numbered journal) :
    lastSeq journal ≤ position after (replayAfter journal after) ∧
      position after (replayAfter journal after) ≤ max after (lastSeq journal) := by
  unfold position
  rw [cursor_of_ascends (numbered_replayAfter h after).ascends fun _ hx => streamStart_lt h hx]
  split_ifs with hnil
  · rw [show streamStart after (replayAfter journal after) = after by simp [hnil, streamStart]]
    refine ⟨?_, le_max_left _ _⟩
    -- nothing lies after the cursor, so the last line does not either
    by_contra hlt
    have hne : journal ≠ [] := by
      rintro rfl
      exact hlt (Nat.zero_le _)
    obtain ⟨x, hx, hlast⟩ := exists_lastSeq hne
    have hmem : x ∈ replayAfter journal after := mem_replayAfter.mpr ⟨hx, by split_ifs <;> omega⟩
    rw [hnil] at hmem
    exact absurd hmem List.not_mem_nil
  · have hlast : last (·.seq) (replayAfter journal after) = lastSeq journal :=
      lastSeq_replayAfter h hnil
    rw [hlast]
    exact ⟨le_rfl, le_max_right _ _⟩

end Watch

/-! ## The invariant -/

/-- The numbers that a publisher holds are of the journal, and no two hold the same. -/
structure Held (w : World ε) : Prop where
  numbered : Numbered w.journal
  mem : ∀ p x, w.publishers p = some x → x.seq ≠ 0 → x ∈ w.journal
  apart : ∀ p q x, w.publishers p = some x → w.publishers q = some x → x.seq ≠ 0 → p = q

/-- After the replay: the receiver has heard the events beyond `max after taken` up to some number
`s`, in order, and those that it has not heard are held. -/
structure Caught (after taken : ℕ) (w : World ε) (live : List (JournaledEvent ε)) (s : ℕ) :
    Prop where
  le : max after taken ≤ s
  bound : s ≤ max (max after taken) (lastSeq w.journal)
  heard : beyond (max after taken) live =
    w.journal.filter fun x => decide (max after taken < x.seq) && decide (x.seq ≤ s)
  held : ∀ x ∈ w.journal, s < x.seq → ∃ p, w.publishers p = some x
  gone : ∀ p x, w.publishers p = some x → max after taken < x.seq → s < x.seq

/-- What holds in every state of a run. -/
structure Invariant (after : ℕ) (w : World ε) : Prop extends Held w where
  subscribed : ∀ live, w.reader = .subscribed live → ∀ x ∈ live, x.seq ≠ 0 → x ∈ w.journal
  replayed : ∀ replay taken live, w.reader = .replayed replay taken live →
    (∃ old new, w.journal = old ++ new ∧ taken = lastSeq old ∧ replay = replayAfter old after) ∧
      ∃ s, Caught after taken w live s

section Steps

variable {after : ℕ} {w w' : World ε} {p : ℕ} {x : JournaledEvent ε}

theorem invariant_start {journal : List (JournaledEvent ε)} (h : Numbered journal) :
    Invariant after (World.start journal) where
  numbered := h
  mem := fun _ _ h => by cases h
  apart := fun _ _ _ h => by cases h
  subscribed := fun _ h => by cases h
  replayed := fun _ _ _ h => by cases h

theorem Held.hold (h : Held w) (hmem : x.seq ≠ 0 → x ∈ w.journal)
    (hnew : x.seq ≠ 0 → ∀ q, w.publishers q ≠ some x) : Held (w.hold p (some x)) where
  numbered := h.numbered
  mem := by
    intro q y hy hne
    simp only [World.hold, Function.update_apply] at hy
    split_ifs at hy
    · cases hy; exact hmem hne
    · exact h.mem q y hy hne
  apart := by
    intro q r y hq hr hne
    simp only [World.hold, Function.update_apply] at hq hr
    split_ifs at hq hr with h1 h2 h2
    · exact h1.trans h2.symm
    · cases hq; exact absurd hr (hnew hne r)
    · cases hr; exact absurd hq (hnew hne q)
    · exact h.apart q r y hq hr hne

theorem Held.release (h : Held w) : Held (w.hold p none) where
  numbered := h.numbered
  mem := by
    intro q y hy hne
    simp only [World.hold, Function.update_apply] at hy
    split_ifs at hy
    exact h.mem q y hy hne
  apart := by
    intro q r y hq hr hne
    simp only [World.hold, Function.update_apply] at hq hr
    split_ifs at hq hr
    exact h.apart q r y hq hr hne

theorem Held.append (h : Held w) (event : ε) : Held (w.append event) where
  numbered := h.numbered.concat (Nat.lt_succ_self _)
  mem := fun q y hy hne => List.mem_append_left _ (h.mem q y hy hne)
  apart := h.apart

theorem Held.ne_next (h : Held w) (event : ε) (q : ℕ) :
    w.publishers q ≠ some { seq := nextSeq w.journal, event } := by
  intro hq
  have hmem := h.mem q _ hq (Nat.succ_ne_zero _)
  have : nextSeq w.journal ≤ lastSeq w.journal := h.numbered.le_lastSeq hmem
  unfold nextSeq at this
  omega

section Caught

variable {taken s : ℕ} {live : List (JournaledEvent ε)}

@[simp] theorem hold_self (w : World ε) (p : ℕ) (x : Option (JournaledEvent ε)) :
    (w.hold p x).publishers p = x := Function.update_self ..

theorem hold_of_ne {q : ℕ} (h : q ≠ p) (w : World ε) (x : Option (JournaledEvent ε)) :
    (w.hold p x).publishers q = w.publishers q := Function.update_of_ne h ..

theorem Caught.reader (h : Caught after taken w live s) (r : Reader ε) :
    Caught after taken { w with reader := r } live s :=
  ⟨h.le, h.bound, h.heard, h.held, h.gone⟩

theorem Caught.hold (h : Caught after taken w live s) (hp : w.publishers p = none)
    (hx : max after taken < x.seq → s < x.seq) :
    Caught after taken (w.hold p (some x)) live s where
  le := h.le
  bound := h.bound
  heard := h.heard
  held := by
    intro y hy hlt
    obtain ⟨q, hq⟩ := h.held y hy hlt
    refine ⟨q, ?_⟩
    rwa [hold_of_ne]
    rintro rfl
    exact absurd (hp.symm.trans hq) (by simp)
  gone := by
    intro q y hy hlt
    by_cases hqp : q = p
    · subst hqp
      rw [hold_self, Option.some_inj] at hy
      subst hy
      exact hx hlt
    · rw [hold_of_ne hqp] at hy
      exact h.gone q y hy hlt

theorem Caught.append (h : Caught after taken w live s) (hp : w.publishers p = none)
    (ht : taken ≤ lastSeq w.journal) (event : ε) :
    Caught after taken ((w.append event).hold p (some { seq := nextSeq w.journal, event }))
      live s := by
  have hbound := h.bound
  have hnew : max after taken < nextSeq w.journal → s < nextSeq w.journal := by
    unfold nextSeq
    omega
  refine ⟨h.le, ?_, ?_, ?_, ?_⟩
  · show s ≤ max (max after taken) (lastSeq (w.journal ++ [_]))
    rw [lastSeq_concat]
    show s ≤ max (max after taken) (lastSeq w.journal + 1)
    omega
  · show _ = (w.journal ++ [_]).filter _
    rw [List.filter_append, List.filter_cons_of_neg, List.filter_nil, List.append_nil, h.heard]
    simp only [Bool.and_eq_true, decide_eq_true_eq, not_and]
    omega
  · intro y hy hlt
    rcases List.mem_append.mp hy with hy | hy
    · obtain ⟨q, hq⟩ := h.held y hy hlt
      refine ⟨q, ?_⟩
      rw [hold_of_ne]
      · exact hq
      · rintro rfl
        exact absurd (hp.symm.trans hq) (by simp)
    · exact ⟨p, by rw [hold_self, List.mem_singleton.mp hy]⟩
  · intro q y hy hlt
    by_cases hqp : q = p
    · subst hqp
      rw [hold_self, Option.some_inj] at hy
      subst hy
      exact hnew hlt
    · rw [hold_of_ne hqp] at hy
      exact h.gone q y hy hlt

/-- **A broadcast in order**: the receiver hears the next event that it has not heard. -/
theorem Caught.send (hheld : Held w) (h : Caught after taken w live s)
    (hp : w.publishers p = some x)
    (hg : ∀ q y, w.publishers q = some y → after < y.seq → taken < y.seq → x.seq ≤ y.seq) :
    ∃ s', Caught after taken (w.hold p none) (live ++ [x]) s' := by
  by_cases hx : max after taken < x.seq
  · have hlt := h.gone p x hp hx
    have hmem : x ∈ w.journal := hheld.mem p x hp (by omega)
    have hgap : ∀ y ∈ w.journal, s < y.seq → x.seq ≤ y.seq := by
      intro y hy hys
      obtain ⟨q, hq⟩ := h.held y hy hys
      have hle := h.le
      exact hg q y hq (by omega) (by omega)
    have hbound := hheld.numbered.le_lastSeq hmem
    refine ⟨x.seq, hx.le, hbound.trans (le_max_right _ _), ?_, ?_, ?_⟩
    · rw [beyond, List.filter_append, List.filter_cons_of_pos (by simpa using hx), List.filter_nil]
      rw [show live.filter _ = _ from h.heard]
      exact (filter_le_concat hheld.numbered.ascends hmem (by simpa using hx) hlt
        fun y hy _ hys => hgap y hy hys).symm
    · intro y hy hys
      obtain ⟨q, hq⟩ := h.held y hy (hlt.trans hys)
      refine ⟨q, ?_⟩
      rwa [hold_of_ne]
      rintro rfl
      rw [hp, Option.some_inj] at hq
      exact absurd hys (by rw [hq]; exact lt_irrefl _)
    · intro q y hy hym
      have hqp : q ≠ p := by
        rintro rfl
        simp at hy
      rw [hold_of_ne hqp] at hy
      have hle : x.seq ≤ y.seq := hg q y hy (by omega) (by omega)
      refine lt_of_le_of_ne hle fun heq => hqp ?_
      have hxy : x = y := hheld.numbered.ascends.eq_of_num hmem (hheld.mem q y hy (by omega)) heq
      exact hheld.apart q p x (hxy ▸ hy) hp (by omega)
  · refine ⟨s, h.le, h.bound, ?_, ?_, ?_⟩
    · rw [beyond, List.filter_append, List.filter_cons_of_neg (by simpa using hx), List.filter_nil,
        List.append_nil]
      exact h.heard
    · intro y hy hys
      obtain ⟨q, hq⟩ := h.held y hy hys
      refine ⟨q, ?_⟩
      rwa [hold_of_ne]
      rintro rfl
      rw [hp, Option.some_inj] at hq
      subst hq
      exact hx (h.le.trans_lt hys)
    · intro q y hy hym
      have hqp : q ≠ p := by
        rintro rfl
        simp at hy
      rw [hold_of_ne hqp] at hy
      exact h.gone q y hy hym

theorem caught_replay (hheld : Held w) (hlive : ∀ x ∈ live, x.seq ≠ 0 → x ∈ w.journal) :
    Caught after (lastSeq w.journal) w live (max after (lastSeq w.journal)) where
  le := le_rfl
  bound := le_max_left _ _
  heard := by
    rw [beyond, List.filter_eq_nil_iff.mpr, List.filter_eq_nil_iff.mpr]
    · intro x _
      simp only [Bool.and_eq_true, decide_eq_true_eq]
      omega
    · intro x hx
      rw [decide_eq_true_eq]
      intro hlt
      have := hheld.numbered.le_lastSeq (hlive x hx (by omega))
      omega
  held := by
    intro x hx hlt
    have := hheld.numbered.le_lastSeq hx
    omega
  gone := by
    intro q x hq hlt
    exact hlt

end Caught

/-- **One step.** -/
theorem invariant_step (h : Invariant after w) {a : Action ε} (hg : InOrder after w a)
    (hw : step after w a = some w') : Invariant after w' := by
  cases a with
  | append p event =>
    simp only [step] at hw
    split at hw
    · cases hw
    · rename_i hp
      cases hw
      refine { (h.toHeld.append event).hold (fun _ => ?_) (fun _ => h.ne_next event) with
        subscribed := fun live hr x hx hne => ?_
        replayed := fun replay taken live hr => ?_ }
      · exact List.mem_append_right _ (List.mem_singleton_self _)
      · exact List.mem_append_left _ (h.subscribed live hr x hx hne)
      · obtain ⟨⟨old, new, hjournal, htaken, hreplay⟩, s, hs⟩ := h.replayed replay taken live hr
        have hle : taken ≤ lastSeq w.journal := by
          by_cases hold : old = []
          · rw [htaken, hold]; exact Nat.zero_le _
          · obtain ⟨y, hy, hylast⟩ := exists_lastSeq hold
            rw [htaken, ← hylast]
            exact h.numbered.le_lastSeq (hjournal ▸ List.mem_append_left _ hy)
        refine ⟨⟨old, new ++ [{ seq := nextSeq w.journal, event }], ?_, htaken, hreplay⟩, s,
          hs.append hp hle event⟩
        rw [← List.append_assoc, ← hjournal]
        rfl
  | fail p event =>
    simp only [step] at hw
    split at hw
    · cases hw
    · rename_i hp
      cases hw
      refine { h.toHeld.hold (fun hne => absurd rfl hne) (fun hne => absurd rfl hne) with
        subscribed := h.subscribed
        replayed := fun replay taken live hr => ?_ }
      obtain ⟨hold, s, hs⟩ := h.replayed replay taken live hr
      exact ⟨hold, s, hs.hold hp fun hlt => absurd hlt (Nat.not_lt_zero _)⟩
  | send p =>
    simp only [step] at hw
    split at hw
    · cases hw
    · rename_i x hp
      cases hw
      cases hr : w.reader with
      | absent =>
        exact { h.toHeld.release (p := p) with
          subscribed := fun _ h => by cases h
          replayed := fun _ _ _ h => by cases h }
      | subscribed live =>
        refine { h.toHeld.release (p := p) with
          subscribed := fun live' hr' y hy hne => ?_
          replayed := fun _ _ _ h => by cases h }
        cases hr'
        rcases List.mem_append.mp hy with hy | hy
        · exact h.subscribed live hr y hy hne
        · rw [List.mem_singleton] at hy
          exact hy ▸ h.mem p x hp (hy ▸ hne)
      | replayed replay taken live =>
        refine { h.toHeld.release (p := p) with
          subscribed := fun _ h => by cases h
          replayed := fun replay' taken' live' hr' => ?_ }
        cases hr'
        obtain ⟨hold, s, hs⟩ := h.replayed replay taken live hr
        unfold InOrder at hg
        simp only [hr] at hg
        obtain ⟨s', hs'⟩ := hs.send h.toHeld hp (hg x hp)
        exact ⟨hold, s', hs'.reader _⟩
  | subscribe =>
    simp only [step] at hw
    split at hw
    · cases hw
      exact { h.toHeld with
        subscribed := fun _ hr x hx => by cases hr; exact absurd hx List.not_mem_nil
        replayed := fun _ _ _ h => by cases h }
    · cases hw
  | replay =>
    simp only [step] at hw
    split at hw
    · rename_i live hr
      cases hw
      refine { h.toHeld with
        subscribed := fun _ h => by cases h
        replayed := fun replay taken live' hr' => ?_ }
      cases hr'
      exact ⟨⟨w.journal, [], (List.append_nil _).symm, rfl, rfl⟩, _,
        (caught_replay h.toHeld (h.subscribed live hr)).reader _⟩
    · cases hw

end Steps

/-! ## What the stream yields -/

section Exact

variable {after : ℕ} {w : World ε}

theorem beyond_append (l l' : List (JournaledEvent ε)) :
    beyond after (l ++ l') = beyond after l ++ beyond after l' := List.filter_append ..

theorem beyond_watch {old live : List (JournaledEvent ε)} (h : Numbered old)
    (hlive : Ascends (·.seq) (beyond (max after (lastSeq old)) live)) :
    beyond after (watchRunEvents after (replayAfter old after) live) =
      beyond after old ++ beyond (max after (lastSeq old)) live := by
  obtain ⟨hpos, hle⟩ : lastSeq old ≤ position after (replayAfter old after) ∧
      position after (replayAfter old after) ≤ max after (lastSeq old) := position_replay h
  rw [watchRunEvents_replay h, beyond_append]
  have hreplay : beyond after (replayAfter old after) = beyond after old :=
    filter_replayAfter old after
  have hraise : beyond after (take (·.seq) (position after (replayAfter old after)) live) =
      beyond (max after (lastSeq old))
        (take (·.seq) (position after (replayAfter old after)) live) := by
    refine List.filter_congr fun x hx => ?_
    have hlt : position after (replayAfter old after) < x.seq := lt_of_mem_take hx
    rw [decide_eq_decide]
    omega
  rw [hreplay, hraise]
  exact congrArg _ (take_filter hle hlive)

theorem exact_of_invariant (h : Invariant after w) : Exact after w := by
  unfold Exact
  split
  · rename_i replay taken live hr
    obtain ⟨⟨old, new, hjournal, rfl, rfl⟩, s, hs⟩ := h.replayed replay taken live hr
    have hnum : Numbered old := Numbered.left (hjournal ▸ h.numbered)
    have hheard := hs.heard
    have hascends : Ascends (·.seq) (beyond (max after (lastSeq old)) live) := by
      rw [hheard]
      exact h.numbered.ascends.filter _
    -- the journal falls into the replayed lines and those beyond them
    have hsplit : beyond after old ++ beyond (max after (lastSeq old)) w.journal =
        beyond after w.journal := by
      have hbelow : beyond after old =
          w.journal.filter fun x => decide (after < x.seq) && decide (x.seq ≤ lastSeq old) := by
        rw [hjournal]
        have hnew : new.filter (fun x => decide (after < x.seq) && decide (x.seq ≤ lastSeq old)) =
            [] := by
          rw [List.filter_eq_nil_iff]
          intro y hy
          have hlt : lastSeq old < y.seq := Numbered.lastSeq_lt (hjournal ▸ h.numbered) hy
          simp only [Bool.and_eq_true, decide_eq_true_eq]
          omega
        rw [List.filter_append, hnew, List.append_nil]
        refine List.filter_congr fun x hx => ?_
        simp [hnum.le_lastSeq hx]
      rw [hbelow]
      refine Eq.trans (congrArg _ (List.filter_congr fun x _ => ?_))
        (filter_le_append h.numbered.ascends (fun x => decide (after < x.seq)) (lastSeq old))
      rw [← Bool.decide_and, decide_eq_decide]
      omega
    constructor
    · intro n
      have hpart : beyond (max after (lastSeq old)) (live.take n) <+:
          beyond (max after (lastSeq old)) live :=
        List.IsPrefix.filter _ (List.take_prefix n live)
      rw [beyond_watch hnum (List.Pairwise.sublist hpart.sublist hascends), ← hsplit]
      refine (List.prefix_append_right_inj _).mpr (hpart.trans ?_)
      rw [hheard]
      exact filter_le_prefix h.numbered.ascends _ s
    · intro hidle
      rw [beyond_watch hnum hascends, ← hsplit, hheard]
      refine congrArg _ (List.filter_congr fun x hx => ?_)
      have hxs : x.seq ≤ s := by
        by_contra hlt
        obtain ⟨p, hp⟩ := hs.held x hx (Nat.not_le.mp hlt)
        rw [hidle p] at hp
        cases hp
      simp [hxs]
  · trivial

/-- **No gaps and no duplicates**, in every run whose broadcasts are in order. -/
theorem subscribe_exact {journal : List (JournaledEvent ε)} (hj : Numbered journal)
    {as : List (Action ε)} (hg : Guarded (step after) (InOrder after) (World.start journal) as)
    (he : exec (step after) (World.start journal) as = some w) : Exact after w :=
  exact_of_invariant (exec_invariant (fun _ _ _ h hg hs => invariant_step h hg hs)
    (invariant_start hj) hg he)

/-- One publisher, a subscription between its append and its broadcast. -/
theorem subscribe_exact_overlap :
    ∃ w, exec (step 0) (World.start []) [.append 0 "a", .subscribe, .send 0, .replay] = some w ∧
      Exact 0 w := by
  have hg : Guarded (step 0) (InOrder 0) (World.start [])
      [.append 0 "a", .subscribe, .send 0, .replay] := by
    refine guarded_cons trivial fun w₁ h₁ => guarded_cons trivial fun w₂ h₂ => ?_
    cases h₁
    cases h₂
    exact guarded_cons trivial fun w₃ h₃ => guarded_cons trivial fun w₄ _ => guarded_nil w₄
  exact ⟨_, rfl, subscribe_exact numbered_nil hg rfl⟩

end Exact

/-! ## Two publishers -/

/-- The second publisher broadcasts before the first. -/
def crossed : List (Action String) :=
  [.subscribe, .replay, .append 0 "a", .append 1 "b", .send 1, .send 0]

/-- **The first event is lost**: both are broadcast, and the stream yields the second alone. -/
theorem broadcasts_cross : ∃ w, exec (step 0) (World.start []) crossed = some w ∧ ¬Exact 0 w := by
  refine ⟨_, rfl, fun h => ?_⟩
  have hall := h.2 fun p => by
    by_cases h0 : p = 0
    · subst h0; rfl
    · by_cases h1 : p = 1
      · subst h1; rfl
      · simp [World.hold, World.append, World.start, h0, h1]
  revert hall
  decide

end Zeron.Journal
