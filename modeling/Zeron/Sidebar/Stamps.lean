import Zeron.Lib.Run
import Zeron.Sidebar.Clock

/-!
# The stamps of one replica

What the clock of a replica emits, over wall-clock readings, observed rows, saves and restores.

* `PersistedState`, `toBytes`, `fromBytes`: the source, before the JSON;
* `Stamper`, `Act`, `step`: one replica's stamps;
* **`exists_encodeHlc`**: a stamp the server accepts is an encoded clock;
* `Fits`, `fits_step`: while no clock outgrows its width;
* **`stamps_increase`**; `stamps_outgrow`: a peer's last clock.
-/

namespace Zeron.Registry

/-- The encoded form of a replica. -/
structure PersistedState where
  v : ℕ
  resyncEpoch : ℕ
  deviceId : String
  serverSeq : ℕ
  gcFloor : ℕ
  clock : HlcClock
  rows : List RegistryRow
  pending : List PendingBatch
  deriving DecidableEq

/-- `CURRENT_RESYNC_EPOCH`. -/
def currentResyncEpoch : ℕ := 1

namespace RegistryDoc

/-- `to_bytes`. What is in flight is not written. -/
def toBytes (doc : RegistryDoc) : PersistedState :=
  { v := 1, resyncEpoch := currentResyncEpoch, deviceId := doc.deviceId
    serverSeq := doc.serverSeq, gcFloor := doc.gcFloor, clock := doc.clock
    rows := doc.authoritative.toList.map Prod.snd
    pending := doc.pending.map fun b => { b with inFlight := false } }

/-- `from_bytes`. -/
def fromBytes (state : PersistedState) (deviceId : String) : Except String RegistryDoc :=
  if state.v ≠ 1 then
    .error ("unknown registry snapshot version " ++ toString state.v)
  else
    .ok { new deviceId with
      authoritative := putRows ∅ state.rows
      serverSeq := if state.resyncEpoch < currentResyncEpoch then 0 else state.serverSeq
      gcFloor := state.gcFloor, clock := state.clock, pending := state.pending }

theorem fromBytes_clock {state : PersistedState} {deviceId : String} {doc : RegistryDoc}
    (h : fromBytes state deviceId = .ok doc) :
    doc.clock = state.clock ∧ doc.deviceId = deviceId := by
  unfold fromBytes at h
  by_cases hv : state.v ≠ 1
  · rw [if_pos hv] at h
    cases h
  · rw [if_neg hv, Except.ok.injEq] at h
    subst h
    exact ⟨rfl, rfl⟩

end RegistryDoc

/-! ## The clock grammar -/

theorem zeroPad_ofDigitChars {l : List Char} (h : ∀ c ∈ l, c.isDigit = true) (hl : l ≠ []) :
    (zeroPad l.length (Nat.ofDigitChars 10 l 0)).toList = l := by
  have hpos : 0 < l.length := List.length_pos_of_ne_nil hl
  have hlen := length_zeroPad hpos (ofDigitChars_lt h)
  have hdigits : ∀ c ∈ (zeroPad l.length (Nat.ofDigitChars 10 l 0)).toList, c.isDigit = true :=
    fun c hc => isDigit_of_mem_zeroPad hc
  have hval := ofDigitChars_zeroPad l.length (Nat.ofDigitChars 10 l 0)
  -- neither text is before the other
  apply le_antisymm
  · rw [← not_lt, digits_lt_iff hlen.symm h hdigits, hval]
    exact lt_irrefl _
  · rw [← not_lt, digits_lt_iff hlen hdigits h, hval]
    exact lt_irrefl _

/-- **A stamp the server accepts is an encoded clock.** -/
theorem exists_encodeHlc {h : Hlc} (hre : hlcRe h = true) :
    ∃ (clock : HlcClock) (device : String), h = encodeHlc clock.lastMs clock.counter device ∧
      clock.counter < 10 ^ 6 ∧ clock.count < clockEnd := by
  obtain ⟨ms, counter, device, hs, hms, hmsd, hcn, hcd, -⟩ := hlcRe_iff.mp hre
  have hmslt := ofDigitChars_lt hmsd
  have hcnlt := ofDigitChars_lt hcd
  have hpad := zeroPad_ofDigitChars hmsd (by rintro rfl; simp at hms)
  have hpad' := zeroPad_ofDigitChars hcd (by rintro rfl; simp at hcn)
  rw [hms] at hmslt hpad
  rw [hcn] at hcnlt hpad'
  refine ⟨⟨Nat.ofDigitChars 10 ms 0, Nat.ofDigitChars 10 counter 0⟩, String.ofList device, ?_,
    hcnlt, ?_⟩
  · rw [← String.toList_inj, encodeHlc_toList, hs, hpad, hpad', String.toList_ofList]
  · simp only [HlcClock.count, clockEnd]
    omega

end Zeron.Registry

namespace Zeron.Sidebar

open Registry

/-! ## One replica's stamps -/

/-- A replica, its saved state and the stamps it has emitted. -/
structure Stamper where
  doc : RegistryDoc
  /-- The saved state, and how many stamps had been emitted when it was saved. -/
  saved : Option (PersistedState × ℕ)
  emitted : List Hlc

namespace Stamper

/-- A fresh replica. -/
def new (deviceId : String) : Stamper := ⟨.new deviceId, none, []⟩

/-- What moves a replica's clock. -/
inductive Act where
  /-- `next_hlc` at a reading of the wall clock. -/
  | stamp (nowMs : ℤ)
  /-- `observe_sidebar_row` of the row shown. -/
  | observe (row : Option RegistryRow)
  | save
  | restore

/-- The clocks of the row are ones the server accepts. -/
def Accepted (row : Option RegistryRow) : Bool :=
  row.all fun r => r.delHlc.all hlcRe && r.clocks.toList.all fun e => hlcRe e.2

def step (s : Stamper) : Act → Option Stamper
  | .stamp nowMs =>
    some { s with
      doc := (s.doc.nextHlc nowMs).1
      emitted := s.emitted ++ [(s.doc.nextHlc nowMs).2] }
  | .observe row =>
    if Accepted row then
      some { s with doc := { s.doc with clock := observeRow s.doc.clock row } }
    else none
  | .save => some { s with saved := some (s.doc.toBytes, s.emitted.length) }
  | .restore => do
    let (state, _) ← s.saved
    let doc ← (RegistryDoc.fromBytes state s.doc.deviceId).toOption
    some { s with doc }

/-- The wall clock reads 13 digits, the last clock of the format is not used up, and a restored
state was saved after the last stamp. -/
def InWidth (s : Stamper) : Act → Prop
  | .stamp nowMs => nowMs < 10 ^ 13 ∧ s.doc.clock ≠ ⟨10 ^ 13 - 1, 999999⟩
  | .restore => ∀ p, s.saved = some p → p.2 = s.emitted.length
  | _ => True

/-- A clock in the format. -/
def InFormat (clock : HlcClock) : Prop := clock.counter < 10 ^ 6 ∧ clock.count < clockEnd

theorem InFormat.lastMs_lt {clock : HlcClock} (h : InFormat clock) : clock.lastMs < 10 ^ 13 := by
  have hend := h.2
  simp only [HlcClock.count, clockEnd] at hend
  omega

/-- What a replica keeps while its clock stays in the format. -/
structure Fits (s : Stamper) : Prop where
  device : repeated 1 128 isDeviceChar s.doc.deviceId.toList = true
  clock : InFormat s.doc.clock
  past : ∀ h ∈ s.emitted, Past s.doc.clock h
  /-- A saved clock is past every stamp emitted before. -/
  saved : ∀ p, s.saved = some p → InFormat p.1.clock ∧ p.2 ≤ s.emitted.length ∧
    ∀ h ∈ s.emitted.take p.2, Past p.1.clock h
  increasing : s.emitted.Pairwise (· < ·)
  grammar : ∀ h ∈ s.emitted, hlcRe h = true

theorem fits_new {deviceId : String} (h : repeated 1 128 isDeviceChar deviceId.toList = true) :
    Fits (.new deviceId) where
  device := h
  clock := by simp [new, RegistryDoc.new, InFormat, HlcClock.count, clockEnd]
  past := by simp [new]
  saved := by simp [new]
  increasing := List.Pairwise.nil
  grammar := by simp [new]

section Step

variable {s s' : Stamper}

theorem past_lt {clock clock' : HlcClock} {h : Hlc} {device : String} (hp : Past clock h)
    (hlt : clock.count < clock'.count) (hf : InFormat clock') :
    h < encodeHlc clock'.lastMs clock'.counter device := by
  obtain ⟨c, device, rfl, hc, hle⟩ := hp
  exact encodeHlc_lt_of_count hc hf.1 (hle.trans_lt hlt) hf.2

theorem inFormat_next {clock : HlcClock} {nowMs : ℤ} (hf : InFormat clock) (hnow : nowMs < 10 ^ 13)
    (hlast : clock ≠ ⟨10 ^ 13 - 1, 999999⟩) (device : String) :
    InFormat (clock.next nowMs device).1 ∧ clock.count < (clock.next nowMs device).1.count := by
  obtain ⟨hcounter, hlt, hle⟩ := count_next hf.1 nowMs device
  refine ⟨⟨hcounter, hle.trans_lt ?_⟩, hlt⟩
  have hroom : clock.count + 1 < clockEnd := by
    obtain ⟨hc, hend⟩ := hf
    by_contra hfull
    apply hlast
    simp only [HlcClock.count, clockEnd] at hend hfull
    rw [HlcClock.mk.injEq]
    omega
  simp only [clockEnd] at hroom ⊢
  omega

theorem fits_stamp (h : Fits s) {nowMs : ℤ} (hg : InWidth s (.stamp nowMs))
    (hs : step s (.stamp nowMs) = some s') : Fits s' := by
  rw [step, Option.some_inj] at hs
  subst hs
  obtain ⟨hf, hlt⟩ := inFormat_next h.clock hg.1 hg.2 s.doc.deviceId
  have hnew : ∀ h' ∈ s.emitted, h' < (s.doc.nextHlc nowMs).2 :=
    fun h' hh' => past_lt (h.past h' hh') hlt hf
  refine ⟨h.device, hf, ?_, ?_, ?_, ?_⟩
  · intro h' hh'
    rw [List.mem_append, List.mem_singleton] at hh'
    obtain hh' | rfl := hh'
    · exact (h.past h' hh').mono hlt.le
    · exact ⟨_, _, rfl, hf.1, le_rfl⟩
  · intro p hp
    obtain ⟨hformat, hle, hpast⟩ := h.saved p hp
    refine ⟨hformat, ?_, ?_⟩
    · rw [List.length_append]
      omega
    · dsimp only
      rwa [List.take_append_of_le_length hle]
  · rw [List.pairwise_append]
    refine ⟨h.increasing, List.pairwise_singleton _ _, ?_⟩
    simpa using hnew
  · intro h' hh'
    rw [List.mem_append, List.mem_singleton] at hh'
    obtain hh' | rfl := hh'
    · exact h.grammar h' hh'
    · exact hlcRe_encodeHlc hf.lastMs_lt hf.1 h.device

theorem hlcRe_maxClock {row : RegistryRow} {m : Hlc} (h : Accepted (some row) = true)
    (hm : row.maxClock = some m) : hlcRe m = true := by
  simp only [Accepted, Option.all_some, Bool.and_eq_true, List.all_eq_true] at h
  obtain hd | ⟨k, hk⟩ := maxClock_eq_some hm
  · rw [hd, Option.all_some] at h
    exact h.1
  · exact h.2 (k, m) (Std.ExtTreeMap.mem_toList_iff_getElem?_eq_some.mpr hk)

theorem inFormat_observeRow {clock : HlcClock} {row : Option RegistryRow} (hf : InFormat clock)
    (hrow : Accepted row = true) :
    InFormat (observeRow clock row) ∧ clock.count ≤ (observeRow clock row).count := by
  cases hmax : row.bind (·.maxClock) with
  | none =>
    rw [observeRow, hmax]
    exact ⟨hf, le_rfl⟩
  | some m =>
    obtain ⟨r, rfl, hm⟩ := Option.bind_eq_some_iff.mp hmax
    obtain ⟨c, device, rfl, hc, hend⟩ := exists_encodeHlc (hlcRe_maxClock hrow hm)
    rw [observeRow, hmax, Option.bind_some, hlcParts_encodeHlc hc hend]
    dsimp only
    split_ifs with hnewer
    · refine ⟨⟨hc, hend⟩, ?_⟩
      obtain ⟨hcounter, -⟩ := hf
      simp only [HlcClock.count]
      omega
    · exact ⟨hf, le_rfl⟩

theorem fits_observe (h : Fits s) {row : Option RegistryRow}
    (hs : step s (.observe row) = some s') : Fits s' := by
  obtain ⟨hrow, rfl⟩ := Run.of_guard hs
  obtain ⟨hf, hle⟩ := inFormat_observeRow h.clock hrow
  exact ⟨h.device, hf, fun h' hh' => (h.past h' hh').mono hle, h.saved, h.increasing, h.grammar⟩

theorem fits_save (h : Fits s) (hs : step s .save = some s') : Fits s' := by
  rw [step, Option.some_inj] at hs
  subst hs
  refine ⟨h.device, h.clock, h.past, ?_, h.increasing, h.grammar⟩
  intro p hp
  rw [Option.some_inj] at hp
  subst hp
  exact ⟨h.clock, le_rfl, fun h' hh' => h.past h' (List.mem_of_mem_take hh')⟩

theorem fits_restore (h : Fits s) (hg : InWidth s .restore) (hs : step s .restore = some s') :
    Fits s' := by
  simp only [step, bind, Option.bind_eq_some_iff, Option.some_inj] at hs
  obtain ⟨p, hp, doc, hdoc, rfl⟩ := hs
  have hdoc : RegistryDoc.fromBytes p.1 s.doc.deviceId = .ok doc := by
    cases hfrom : RegistryDoc.fromBytes p.1 s.doc.deviceId with
    | error e => simp [hfrom, Except.toOption] at hdoc
    | ok d =>
      rw [hfrom] at hdoc
      exact congrArg Except.ok (Option.some_inj.mp hdoc)
  obtain ⟨hclock, hdevice⟩ := RegistryDoc.fromBytes_clock hdoc
  obtain ⟨hf, -, hpast⟩ := h.saved p hp
  rw [hg p hp, List.take_length] at hpast
  refine ⟨?_, ?_, ?_, h.saved, h.increasing, h.grammar⟩
  · rw [hdevice]
    exact h.device
  · rw [hclock]
    exact hf
  · rw [hclock]
    exact hpast

theorem fits_step (s : Stamper) (a : Act) (s' : Stamper) (h : Fits s) (hg : InWidth s a)
    (hs : step s a = some s') : Fits s' := by
  cases a with
  | stamp nowMs => exact fits_stamp h hg hs
  | observe row => exact fits_observe h hs
  | save => exact fits_save h hs
  | restore => exact fits_restore h hg hs

end Step

/-- **A replica's stamps strictly increase and stay in the wire grammar** in every run that keeps
its clock inside the width of the format. -/
theorem stamps_increase {deviceId : String} {acts : List Act} {s : Stamper}
    (hdevice : repeated 1 128 isDeviceChar deviceId.toList = true)
    (hg : Run.Guarded step InWidth (.new deviceId) acts)
    (h : Run.exec step (.new deviceId) acts = some s) :
    s.emitted.Pairwise (· < ·) ∧ ∀ h ∈ s.emitted, hlcRe h = true :=
  have hfits : Fits s := Run.exec_invariant fits_step (fits_new hdevice) hg h
  ⟨hfits.increasing, hfits.grammar⟩

/-- A row of a peer under one clock. -/
def peerRow (clock : Hlc) : RegistryRow :=
  { kind := kindLocations, id := "s", seq := 1, deleted := false, delHlc := none, fields := ∅
    clocks := Std.ExtTreeMap.ofList [("location", clock)] }

instance (s : Stamper) (a : Act) : Decidable (InWidth s a) :=
  match a with
  | .stamp nowMs => inferInstanceAs (Decidable (nowMs < 10 ^ 13 ∧ s.doc.clock ≠ _))
  | .restore => decidable_of_iff (s.saved.all fun p => p.2 == s.emitted.length)
      (by simp [InWidth, Option.all_eq_true])
  | .observe _ => inferInstanceAs (Decidable True)
  | .save => inferInstanceAs (Decidable True)

/-- A clock that runs backwards, a peer ahead of it, a full counter and a restart. -/
theorem stamps_increase_restart : ∃ s, Run.exec step (.new "a")
    [.stamp 7, .stamp 5, .save, .restore, .observe (peerRow "0000000000009-999999-z"), .stamp 6] =
      some s ∧ s.emitted.Pairwise (· < ·) ∧ ∀ h ∈ s.emitted, hlcRe h = true := by
  refine ⟨_, rfl, @stamps_increase "a" [.stamp 7, .stamp 5, .save, .restore,
    .observe (peerRow "0000000000009-999999-z"), .stamp 6] _ (by decide +kernel) ?_ rfl⟩
  exact Run.guarded_of_checks (by decide +kernel)

/-- **A peer's stamp at the end of the format leaves no room**: the next stamp has 14 digits and
sorts below those before it. -/
theorem stamps_outgrow : ¬ ∀ (deviceId : String) (acts : List Act) (s : Stamper),
    repeated 1 128 isDeviceChar deviceId.toList = true →
    Run.exec step (.new deviceId) acts = some s →
    s.emitted.Pairwise (· < ·) ∧ ∀ h ∈ s.emitted, hlcRe h = true := by
  intro hall
  have hrun := hall "a" [.observe (peerRow "9999999999999-999998-z"), .stamp 5, .stamp 5]
    _ (by decide +kernel) rfl
  exact absurd hrun (by decide +kernel)

end Stamper

end Zeron.Sidebar
