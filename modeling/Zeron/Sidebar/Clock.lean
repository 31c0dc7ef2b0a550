import Zeron.Sidebar.Reads

/-!
# Clocks of sidebar rows

`observe_sidebar_row` moves a replica's clock over a row, so that the next write to it lands. That
holds as long as the clocks fit their widths: `Sidebar.Orderly k` says so with room for `k` ticks.

* `Registry.HlcClock.count`: a clock as one number; `count_next`: a tick in that number;
* **`hlcParts_encodeHlc`**: the parts `observe_sidebar_row` reads;
* `Past`, **`past_lt_stamp`**: a clock already passed is below the next one minted;
* `Orderly`: rows under their keys, none deleted, all clocks in the format and with room;
* **`seen_observe`**: after observing a row its clocks are past.
-/

namespace Zeron.Registry

/-- A clock as one number. -/
def HlcClock.count (clock : HlcClock) : ℕ := clock.lastMs * 10 ^ 6 + clock.counter

/-- The first number no clock of the format has. -/
def clockEnd : ℕ := 10 ^ 19

section Count

variable {clock : HlcClock}

theorem count_next (h : clock.counter < 10 ^ 6) (nowMs : ℤ) (device : String) :
    (clock.next nowMs device).1.counter < 10 ^ 6 ∧
      clock.count < (clock.next nowMs device).1.count ∧
      (clock.next nowMs device).1.count ≤ max (clock.count + 1) (nowMs.toNat * 10 ^ 6) := by
  simp only [HlcClock.next, HlcClock.count]
  split_ifs with hnow hfull
  · dsimp only
    omega
  · dsimp only
    omega
  · dsimp only
    omega

theorem encodeHlc_lt_of_count {clock' : HlcClock} {device device' : String}
    (h : clock.counter < 10 ^ 6) (h' : clock'.counter < 10 ^ 6) (hlt : clock.count < clock'.count)
    (hend : clock'.count < clockEnd) :
    encodeHlc clock.lastMs clock.counter device <
      encodeHlc clock'.lastMs clock'.counter device' := by
  simp only [HlcClock.count, clockEnd] at hlt hend
  rw [encodeHlc_lt (by omega) (by omega) h h']
  omega

end Count

end Zeron.Registry

namespace Zeron.Sidebar

open Registry Lww
open Std (ExtTreeMap)

/-! ## The parts of a clock -/

theorem parseUpTo_zeroPad {max width n : ℕ} (hw : 0 < width) (h : n < 10 ^ width) (hn : n ≤ max) :
    parseUpTo max (zeroPad width n).toList = some n := by
  have hlen := length_zeroPad hw h
  have hdigits : ∀ c ∈ (zeroPad width n).toList, c.isDigit = true :=
    fun c hc => isDigit_of_mem_zeroPad hc
  have hval := ofDigitChars_zeroPad width n
  revert hlen hdigits hval
  generalize (zeroPad width n).toList = l
  intro hlen hdigits hval
  cases l with
  | nil => simp at hlen; omega
  | cons c l =>
    have hplus : dropPlus (c :: l) = c :: l := by
      unfold dropPlus
      split
      · rename_i l' he
        rw [List.cons.injEq] at he
        exact absurd (he.1 ▸ hdigits c List.mem_cons_self) (by decide)
      · rfl
    unfold parseUpTo
    dsimp only
    rw [hplus, hval, if_pos ⟨List.cons_ne_nil _ _, List.all_eq_true.mpr hdigits, hn⟩]

/-- **The parts of an encoded clock are its numbers.** -/
theorem hlcParts_encodeHlc {clock : HlcClock} (h : clock.counter < 10 ^ 6)
    (hend : clock.count < clockEnd) (device : String) :
    hlcParts (encodeHlc clock.lastMs clock.counter device) =
      some (clock.lastMs, clock.counter) := by
  simp only [HlcClock.count, clockEnd] at hend
  have hdash : ∀ {width n : ℕ}, ∀ c ∈ (zeroPad width n).toList, decide (c ≠ '-') = true := by
    intro width n c hc
    rw [decide_eq_true_iff]
    rintro rfl
    exact dash_notMem_zeroPad width n hc
  have htake : ∀ {width n : ℕ} (rest : List Char),
      ((zeroPad width n).toList ++ '-' :: rest).takeWhile (· ≠ '-') = (zeroPad width n).toList := by
    intro width n rest
    rw [List.takeWhile_append_of_pos hdash]
    simp
  have hdrop : ∀ {width n : ℕ} (rest : List Char),
      ((zeroPad width n).toList ++ '-' :: rest).dropWhile (· ≠ '-') = '-' :: rest := by
    intro width n rest
    rw [List.dropWhile_append_of_pos hdash]
    simp
  unfold hlcParts
  rw [encodeHlc_toList, hdrop, htake]
  dsimp only
  rw [htake, parseUpTo_zeroPad (by omega) (by omega) (by omega),
    parseUpTo_zeroPad (by omega) h (by omega)]
  rfl

/-! ## Past clocks -/

/-- In the format, and no later than a clock. -/
def Past (clock : HlcClock) (h : Hlc) : Prop :=
  ∃ (c : HlcClock) (device : String), h = encodeHlc c.lastMs c.counter device ∧
    c.counter < 10 ^ 6 ∧ c.count ≤ clock.count

theorem Past.mono {clock clock' : HlcClock} {h : Hlc} (hp : Past clock h)
    (hle : clock.count ≤ clock'.count) : Past clock' h := by
  obtain ⟨c, device, he, hc, hcount⟩ := hp
  exact ⟨c, device, he, hc, hcount.trans hle⟩

/-- The clocks of a row. -/
def RowClock (row : Option RegistryRow) (h : Hlc) : Prop :=
  ∃ r, row = some r ∧ (r.delHlc = some h ∨ ∃ f : String, r.clocks[f]? = some h)

/-- The kinds of rows the sidebar is made of. -/
def sidebarKinds : List String := [kindSidebarPins, kindLocations, kindSections]

/-- A replica whose sidebar rows are as clients write them, with room for `k` ticks. -/
structure Orderly (k : ℕ) (t : Clocked) : Prop where
  keyed : t.doc.Keyed
  /-- No sidebar row is ever deleted. -/
  kept : ∀ key : RowKey, key.kind ∈ sidebarKinds → ∀ r, held t.doc key = some r → r.deleted = false
  counter : t.doc.clock.counter < 10 ^ 6
  clock : t.doc.clock.count + k < clockEnd
  now : ∀ n, (t.now n).toNat * 10 ^ 6 + k < clockEnd
  dated : ∀ key : RowKey, key.kind ∈ sidebarKinds → ∀ h, RowClock (held t.doc key) h →
    ∃ (c : HlcClock) (device : String), h = encodeHlc c.lastMs c.counter device ∧
      c.counter < 10 ^ 6 ∧ c.count + k < clockEnd

/-- All clocks of a row are past. -/
def Seen (t : Clocked) (key : RowKey) : Prop :=
  ∀ h, RowClock (held t.doc key) h → Past t.doc.clock h

/-- The next clock a replica mints. -/
def Clocked.stamp (t : Clocked) : Hlc := (t.doc.nextHlc (t.now 0)).2

section Stamp

variable {t : Clocked} {k : ℕ}

theorem Orderly.mono {j : ℕ} (h : Orderly k t) (hle : j ≤ k) : Orderly j t where
  keyed := h.keyed
  kept := h.kept
  counter := h.counter
  clock := by
    have := h.clock
    omega
  now n := by
    have := h.now n
    omega
  dated key hkey c hc := by
    obtain ⟨c, device, he, hcounter, hcount⟩ := h.dated key hkey c hc
    exact ⟨c, device, he, hcounter, by omega⟩

theorem Orderly.overlayRow (h : Orderly k t) {key : RowKey} (hkey : key.kind ∈ sidebarKinds) :
    t.doc.overlayRow key = held t.doc key := by
  rw [overlayRow_eq]
  cases hr : held t.doc key with
  | none => rfl
  | some r => simp [h.kept key hkey r hr]

theorem count_nextHlc (h : t.doc.clock.counter < 10 ^ 6) :
    t.nextHlc.1.doc.clock.counter < 10 ^ 6 ∧ t.doc.clock.count < t.nextHlc.1.doc.clock.count ∧
      t.nextHlc.1.doc.clock.count ≤ max (t.doc.clock.count + 1) ((t.now 0).toNat * 10 ^ 6) :=
  count_next h (t.now 0) t.doc.deviceId

theorem stamp_eq (t : Clocked) : t.stamp = encodeHlc t.nextHlc.1.doc.clock.lastMs
    t.nextHlc.1.doc.clock.counter t.doc.deviceId := rfl

/-- **A past clock is below the next one.** -/
theorem past_lt_stamp (h : Orderly (k + 1) t) {c : Hlc} (hp : Past t.doc.clock c) :
    c < t.stamp := by
  obtain ⟨hcounter, hlt, hle⟩ := count_nextHlc h.counter
  obtain ⟨d, device, rfl, hd, hcount⟩ := hp
  have hclock := h.clock
  have hnow := h.now 0
  have hend : t.nextHlc.1.doc.clock.count < clockEnd := by omega
  exact encodeHlc_lt_of_count hd hcounter (hcount.trans_lt hlt) hend

theorem past_stamp (h : Orderly k t) : Past t.nextHlc.1.doc.clock t.stamp :=
  ⟨t.nextHlc.1.doc.clock, t.doc.deviceId, stamp_eq t, (count_nextHlc h.counter).1, le_rfl⟩

theorem stamp_lt (h : Orderly (k + 1) t) {key : RowKey} (hkey : key.kind ∈ sidebarKinds)
    (hs : Seen t key) (f : String) : (overlayReg t.doc key f).stamp < t.stamp := by
  rw [overlayReg, h.overlayRow hkey]
  cases hr : held t.doc key with
  | none => exact WithBot.bot_lt_coe _
  | some r =>
    cases hf : r.clocks[f]? with
    | none =>
      rw [regOf, RegistryRow.reg, hf]
      exact WithBot.bot_lt_coe _
    | some c =>
      rw [regOf, RegistryRow.reg, hf]
      exact WithBot.coe_lt_coe.mpr (past_lt_stamp h (hs c ⟨r, hr, Or.inr ⟨f, hf⟩⟩))

theorem now_nextHlc (t : Clocked) (n : ℕ) : t.nextHlc.1.now n = t.now (n + 1) := rfl

theorem orderly_nextHlc (h : Orderly (k + 1) t) : Orderly k t.nextHlc.1 := by
  obtain ⟨hcounter, hlt, hle⟩ := count_nextHlc h.counter
  have hclock := h.clock
  have hnow := h.now 0
  have hend : t.nextHlc.1.doc.clock.count + k < clockEnd := by omega
  have hlater : ∀ n, (t.nextHlc.1.now n).toNat * 10 ^ 6 + k < clockEnd := by
    intro n
    have := h.now (n + 1)
    rw [now_nextHlc]
    exact Nat.lt_of_succ_lt this
  exact
    { keyed := h.keyed
      kept := h.kept
      counter := hcounter
      clock := hend
      now := hlater
      dated := (h.mono (Nat.le_succ k)).dated }

theorem held_nextHlc (t : Clocked) (key : RowKey) :
    held t.nextHlc.1.doc key = held t.doc key := rfl

theorem seen_nextHlc (h : Orderly k t) {key : RowKey} (hs : Seen t key) : Seen t.nextHlc.1 key :=
  fun c hc => (hs c hc).mono (count_nextHlc h.counter).2.1.le

end Stamp

/-! ## Observing a row -/

section Observe

variable {t : Clocked} {k : ℕ} {kind id : String}

theorem held_observe (t : Clocked) (kind id : String) (key : RowKey) :
    held (t.observe kind id).doc key = held t.doc key := rfl

theorem overlayRow_observe (t : Clocked) (kind id : String) (key : RowKey) :
    (t.observe kind id).doc.overlayRow key = t.doc.overlayRow key := rfl

/-- What observing does to the clock: nothing, or it becomes the row's newest one. -/
theorem clock_observe (h : Orderly k t) (hkind : kind ∈ sidebarKinds) :
    (t.observe kind id).doc.clock.counter < 10 ^ 6 ∧
      t.doc.clock.count ≤ (t.observe kind id).doc.clock.count ∧
      (t.observe kind id).doc.clock.count + k < clockEnd ∧
      ∀ r m, held t.doc ⟨kind, id⟩ = some r → r.maxClock = some m →
        Past (t.observe kind id).doc.clock m := by
  have hclock := h.clock
  have hcounter := h.counter
  have hkept : t.doc.overlayRow ⟨kind, id⟩ = held t.doc ⟨kind, id⟩ := h.overlayRow hkind
  have hsame : (t.observe kind id).doc.clock = observeRow t.doc.clock (held t.doc ⟨kind, id⟩) := by
    show observeRow t.doc.clock (t.doc.overlayRow ⟨kind, id⟩) = _
    rw [hkept]
  cases hr : held t.doc ⟨kind, id⟩ with
  | none =>
    rw [hsame, hr, show observeRow t.doc.clock none = t.doc.clock from rfl]
    exact ⟨hcounter, le_rfl, hclock, fun r m hr' => (by cases hr')⟩
  | some r =>
    cases hmax : r.maxClock with
    | none =>
      have hsame : (t.observe kind id).doc.clock = t.doc.clock := by
        rw [hsame, hr, observeRow, Option.bind_some, hmax]
        rfl
      rw [hsame]
      refine ⟨hcounter, le_rfl, hclock, fun r' m hr' hm => ?_⟩
      cases hr'
      rw [hmax] at hm
      cases hm
    | some m =>
      -- the newest clock is one of the row's
      have hrow : RowClock (held t.doc ⟨kind, id⟩) m := ⟨r, hr, maxClock_eq_some hmax⟩
      obtain ⟨c, device, rfl, hc, hcount⟩ := h.dated ⟨kind, id⟩ hkind m hrow
      rw [hsame, hr, observeRow, Option.bind_some, hmax, Option.bind_some,
        hlcParts_encodeHlc hc (by omega) device]
      have hpast : ∀ clock : HlcClock, c.count ≤ clock.count →
          ∀ r' m, some r = some r' → r'.maxClock = some m → Past clock m := by
        intro clock hle r' m hr' hm
        cases hr'
        rw [hmax] at hm
        cases hm
        exact ⟨c, device, rfl, hc, hle⟩
      dsimp only
      simp only [HlcClock.count] at hcount hclock hpast ⊢
      split_ifs with hnewer
      · exact ⟨hc, by dsimp only; omega, by dsimp only; omega, hpast _ le_rfl⟩
      · exact ⟨hcounter, le_rfl, hclock, hpast _ (by omega)⟩

theorem orderly_observe (h : Orderly k t) (hkind : kind ∈ sidebarKinds) :
    Orderly k (t.observe kind id) :=
  ⟨h.keyed, h.kept, (clock_observe h hkind).1, (clock_observe h hkind).2.2.1, h.now, h.dated⟩

theorem seen_of_observe (h : Orderly k t) (hkind : kind ∈ sidebarKinds) {key : RowKey}
    (hs : Seen t key) : Seen (t.observe kind id) key :=
  fun c hc => (hs c hc).mono (clock_observe h hkind).2.1

/-- **An observed row's clocks are past.** -/
theorem seen_observe (h : Orderly k t) (hkind : kind ∈ sidebarKinds) :
    Seen (t.observe kind id) ⟨kind, id⟩ := by
  intro c hc
  have hdated := h.dated ⟨kind, id⟩ hkind c hc
  obtain ⟨r, hr, hrc⟩ := hc
  rw [held_observe] at hr
  have hle : (c : WithBot Hlc) ≤ rank r.maxClock := by
    obtain ⟨hdel, hstamp⟩ := rank_maxClock_le.mp (le_refl (rank r.maxClock))
    rcases hrc with hrc | ⟨f, hrc⟩
    · rw [hrc] at hdel
      exact hdel
    · have := hstamp f
      rw [RegistryRow.reg, hrc] at this
      exact this
  cases hmax : r.maxClock with
  | none =>
    rw [hmax] at hle
    exact absurd hle (by simp)
  | some m =>
    rw [hmax] at hle
    have hle : c ≤ m := WithBot.coe_le_coe.mp hle
    obtain ⟨d, device, rfl, hd, hcount⟩ := (clock_observe h hkind).2.2.2 r m hr hmax
    obtain ⟨e, device', rfl, he, hecount⟩ := hdated
    refine ⟨e, device', rfl, he, le_trans ?_ hcount⟩
    by_contra hlt
    exact absurd hle (not_le.mpr (encodeHlc_lt_of_count hd he (not_le.mp hlt) (by omega)))

end Observe

end Zeron.Sidebar
