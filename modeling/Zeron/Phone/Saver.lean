import Zeron.Lib.Run

/-!
# Debounced saves

`DocSaver` writes a store's file some time after its changes (`Zeron/Sync/DocDisk.swift`). The
export of a background save runs beside the main actor (`flushToDiskAsync` of
`Zeron/Sync/SessionStore.swift`), and any other call may run at an `await`.

* `Saver`: the saver, its timers, the saves under way and the file;
* `poke`, `commitNow`, `beginAsync`, `finishAsync`, `flushFromTimer`, `flushedFromTimer`: the code;
* `Act`, `step`, `Orderly`: what may happen, and what must not;
* `Core`, `Kept`, `good_step`: what every orderly step keeps;
* **`saves_keep`**: no change is lost over orderly runs; `saves_lose`: two runs that are not.
-/

namespace Zeron.Phone.DocSaver

open Run

/-! ## The state -/

/-- How many changes the document has, and how many the cursor, the flags and the outbox. -/
structure Content where
  doc : ℕ
  info : ℕ
  deriving DecidableEq

/-- No part is older. -/
def Content.Le (a b : Content) : Prop := a.doc ≤ b.doc ∧ a.info ≤ b.info

instance (a b : Content) : Decidable (a.Le b) := inferInstanceAs (Decidable (_ ∧ _))

inductive Change where
  | doc
  | info
  deriving DecidableEq

def Content.change (c : Content) : Change → Content
  | .doc => { c with doc := c.doc + 1 }
  | .info => { c with info := c.info + 1 }

/-- The document as it was exported; `place` counts the exports. -/
structure Export where
  doc : ℕ
  place : ℕ
  deriving DecidableEq

/-- A `commitAsync` behind its first line; `order` counts them. `snapshot` is the result of the
export, once there is one. -/
structure Save where
  expected : ℕ
  syncCommitsAtStart : ℕ
  info : ℕ
  order : ℕ
  snapshot : Option (Option Export)
  deriving DecidableEq

/-- Where a call of `flushFromTimer` or `flushToDiskAsync` stands: in front of `flushFromTimer`, in
front of `flushToDiskAsync`, in front of `commitAsync` with what was captured for it, at the export,
or behind `flushToDiskAsync`. -/
inductive Phase where
  | due
  | calling
  | captured (info : ℕ)
  | exporting (save : Save)
  | returned (ok : Bool)
  deriving DecidableEq

structure Call where
  fromTimer : Bool
  phase : Phase
  deriving DecidableEq

/-- The saver. `quiet` has the generations that sleeping tasks of `poke` and `scheduleRetry` expect,
`deadlines` those of `armDeadline`. Not of the code: `now`, `poked` and `file` are the store's
content, its part at the last `poke`, and that of the file; `begun` and `exports` count saves and
exports, `lastOrder` and `lastPlace` are the largest of a save that wrote; `retired` holds from
`retireTimers` to the next timer that is armed. -/
structure Saver where
  generation : ℕ
  deadlineGeneration : ℕ
  syncCommits : ℕ
  dirty : Bool
  background : Bool
  quiet : List ℕ
  deadlines : List ℕ
  calls : List Call
  now : Content
  poked : Content
  file : Content
  begun : ℕ
  exports : ℕ
  lastOrder : ℕ
  lastPlace : ℕ
  retired : Bool
  deriving DecidableEq

/-- A saver of a store that was just loaded. -/
def Saver.new (background : Bool) : Saver where
  generation := 0
  deadlineGeneration := 0
  syncCommits := 0
  dirty := false
  background
  quiet := []
  deadlines := []
  calls := []
  now := ⟨0, 0⟩
  poked := ⟨0, 0⟩
  file := ⟨0, 0⟩
  begun := 0
  exports := 0
  lastOrder := 0
  lastPlace := 0
  retired := false

/-! ## The code -/

namespace Saver

variable (s : Saver)

def retireTimers : Saver :=
  { s with
    generation := s.generation + 1
    deadlineGeneration := s.deadlineGeneration + 1
    retired := true }

def armDeadline : Saver :=
  { s with
    deadlineGeneration := s.deadlineGeneration + 1
    deadlines := s.deadlines ++ [s.deadlineGeneration + 1]
    retired := false }

/-- A sleeping task that expects the next generation. -/
def armQuiet : Saver :=
  { s with
    generation := s.generation + 1
    quiet := s.quiet ++ [s.generation + 1]
    retired := false }

def scheduleRetry : Saver := s.armQuiet

def poke : Saver :=
  let s' := { s with dirty := true, poked := s.now }
  if s.dirty then s'.armQuiet else s'.armDeadline.armQuiet

/-- A save has succeeded. -/
def clean : Saver :=
  { s with
    dirty := false
    generation := s.generation + 1
    deadlineGeneration := s.deadlineGeneration + 1 }

def commitNow (ok : Bool) : Saver :=
  let s := { s with syncCommits := s.syncCommits + 1 }
  if ok then { s with file := s.now }.clean else { s with dirty := true }.scheduleRetry

def flush (ok : Bool) : Saver := if s.dirty then s.commitNow ok else s

/-- The save that `commitAsync` begins. -/
def newSave (info : ℕ) : Save where
  expected := s.generation + 1
  syncCommitsAtStart := s.syncCommits
  info
  order := s.begun + 1
  snapshot := none

/-- A write of a background save. -/
def write (save : Save) (e : Export) : Saver :=
  { s with
    file := ⟨e.doc, save.info⟩
    lastOrder := max s.lastOrder save.order
    lastPlace := max s.lastPlace e.place }

/-- `commitAsync` behind the export; `ok`: the write succeeds. The result is returned. -/
def finishAsync (save : Save) (snapshot : Option Export) (ok : Bool) : Saver × Bool :=
  if s.generation ≠ save.expected then
    match snapshot with
    | some e =>
      (if s.syncCommits = save.syncCommitsAtStart ∧ ok then s.write save e else s, false)
    | none => (s, false)
  else
    match snapshot with
    | some e => if ok then ((s.write save e).clean, true)
      else ({ s with dirty := true }.scheduleRetry, false)
    | none => ({ s with dirty := true }.scheduleRetry, false)

def setCall (i : ℕ) (call : Call) : Saver := { s with calls := s.calls.set i call }

def dropCall (i : ℕ) : Saver := { s with calls := s.calls.eraseIdx i }

/-- `flushFromTimer` up to its `await`; `ok` is for the save of a saver without a background. -/
def flushFromTimer (i : ℕ) (ok : Bool) : Saver :=
  if s.dirty then
    if s.background then s.setCall i ⟨true, .calling⟩ else (s.dropCall i).flush ok
  else s.dropCall i

/-- `flushFromTimer` behind its `await`. -/
def flushedFromTimer (ok : Bool) : Saver :=
  if ok ∧ s.dirty then s.clean else if s.dirty then s.armDeadline else s

/-- The result of `flushToDiskAsync` goes to its caller. -/
def answer (i : ℕ) (call : Call) (ok : Bool) : Saver :=
  if call.fromTimer then s.setCall i { call with phase := .returned ok } else s.dropCall i

/-- `flushToDiskAsync` up to its `await`; the store may have stopped. -/
def flushToDiskAsync (i : ℕ) (call : Call) (stopped : Bool) : Saver :=
  if stopped then s.answer i call false
  else s.setCall i { call with phase := .captured s.now.info }

/-- `commitAsync` up to the export. -/
def beginAsync (i : ℕ) (call : Call) (info : ℕ) : Saver :=
  if s.dirty then
    { s with generation := s.generation + 1, begun := s.begun + 1 }.setCall i
      { call with phase := .exporting (s.newSave info) }
  else s.answer i call true

def exported (i : ℕ) (call : Call) (save : Save) (ok : Bool) : Saver :=
  { s with exports := s.exports + 1 }.setCall i
    { call with
      phase := .exporting
        { save with snapshot := some (if ok then some ⟨s.now.doc, s.exports + 1⟩ else none) } }

end Saver

/-! ## Steps -/

inductive Act where
  /-- A change that no `poke` tells of. -/
  | edit (change : Change)
  /-- A `poke`, with the change it tells of. -/
  | poke (change : Option Change)
  /-- A timer of `poke` or `scheduleRetry` fires. -/
  | quiet (i : ℕ)
  | deadline (i : ℕ)
  | flush (ok : Bool)
  | commitNow (ok : Bool)
  /-- `flushToDiskAsync` is called. -/
  | flushAsync
  /-- The call `i` goes on, from one `await` to the next. -/
  | due (i : ℕ) (ok : Bool)
  | enter (i : ℕ) (stopped : Bool)
  | begin (i : ℕ)
  | exported (i : ℕ) (ok : Bool)
  | resume (i : ℕ) (ok : Bool)
  | back (i : ℕ)
  | retire
  deriving DecidableEq

namespace Saver

variable (s : Saver)

def addCall (call : Call) : Saver := { s with calls := s.calls ++ [call] }

def changed (change : Option Change) : Saver :=
  { s with now := change.elim s.now s.now.change }

def step (s : Saver) : Act → Option Saver
  | .edit change => some (s.changed (some change))
  | .poke change => some (s.changed change).poke
  | .quiet i => do
    let expected ← s.quiet[i]?
    let s := { s with quiet := s.quiet.eraseIdx i }
    return if s.generation = expected then s.addCall ⟨true, .due⟩ else s
  | .deadline i => do
    let expected ← s.deadlines[i]?
    let s := { s with deadlines := s.deadlines.eraseIdx i }
    return if s.deadlineGeneration = expected ∧ s.dirty then s.addCall ⟨true, .due⟩ else s
  | .flush ok => some (s.flush ok)
  | .commitNow ok => some (s.commitNow ok)
  | .flushAsync => some (s.addCall ⟨false, .calling⟩)
  | .due i ok => do
    let call ← s.calls[i]?
    match call.phase with
    | .due => return s.flushFromTimer i ok
    | _ => none
  | .enter i stopped => do
    let call ← s.calls[i]?
    match call.phase with
    | .calling => return s.flushToDiskAsync i call stopped
    | _ => none
  | .begin i => do
    let call ← s.calls[i]?
    match call.phase with
    | .captured info => return s.beginAsync i call info
    | _ => none
  | .exported i ok => do
    let call ← s.calls[i]?
    match call.phase with
    | .exporting save => if save.snapshot = none then return s.exported i call save ok else none
    | _ => none
  | .resume i ok => do
    let call ← s.calls[i]?
    match call.phase with
    | .exporting save => do
      let snapshot ← save.snapshot
      return (s.finishAsync save snapshot ok).1.answer i call (s.finishAsync save snapshot ok).2
    | _ => none
  | .back i => do
    let call ← s.calls[i]?
    match call.phase with
    | .returned ok => return (s.dropCall i).flushedFromTimer ok
    | _ => none
  | .retire => some s.retireTimers

/-- The save is written if it can be. -/
def Writes (save : Save) : Prop :=
  s.generation = save.expected ∨ s.syncCommits = save.syncCommitsAtStart

instance (save : Save) : Decidable (s.Writes save) := inferInstanceAs (Decidable (_ ∨ _))

def phaseAt (i : ℕ) : Option Phase := (s.calls[i]?).map (·.phase)

/-- What is captured for a save does not change before the save begins; of two saves that write, the
one that began or was exported first writes first; and no change comes between the end of a save and
the look of its timer at it. -/
def orderly : Act → Bool
  | .begin i =>
    match s.phaseAt i with
    | some (.captured info) => info = s.now.info
    | _ => true
  | .resume i ok =>
    match s.phaseAt i with
    | some (.exporting save) =>
      match save.snapshot with
      | some (some e) => ok = true → s.Writes save →
        s.lastOrder ≤ save.order ∧ s.lastPlace ≤ e.place
      | _ => true
    | _ => true
  | .back i => s.phaseAt i = some (.returned true) → s.dirty = false
  | _ => true

def Orderly (a : Act) : Prop := s.orderly a = true

instance (a : Act) : Decidable (s.Orderly a) := inferInstanceAs (Decidable (_ = true))

end Saver

/-! ## What is kept -/

namespace Saver

variable (s : Saver)

/-- A timer is armed, or a call will save or arm one. -/
def Tries : Prop :=
  s.generation ∈ s.quiet ∨ s.deadlineGeneration ∈ s.deadlines ∨
    ∃ call ∈ s.calls, call.fromTimer = true ∨
      ∃ save, call.phase = .exporting save ∧ save.expected = s.generation

structure Kept : Prop where
  clean : s.dirty = false → s.poked.Le s.file
  tries : s.dirty = true → s.retired = false → s.Tries

end Saver

/-- A save under way. Nothing was poked since the last one began, and unless another one was written
out of turn, the file is not newer. -/
structure Save.Sane (s : Saver) (save : Save) : Prop where
  expected : save.expected ≤ s.generation
  syncs : save.syncCommitsAtStart ≤ s.syncCommits
  order : save.order ≤ s.begun
  info : save.info ≤ s.now.info
  export_le : ∀ e, save.snapshot = some (some e) → e.place ≤ s.exports ∧ e.doc ≤ s.now.doc
  same : save.expected = s.generation → save.syncCommitsAtStart = s.syncCommits
  current : save.expected = s.generation → s.poked.info ≤ save.info ∧
    ∀ e, save.snapshot = some (some e) → s.poked.doc ≤ e.doc
  fresh : save.syncCommitsAtStart = s.syncCommits → (s.lastOrder ≤ save.order →
    s.file.info ≤ save.info) ∧ ∀ e, save.snapshot = some (some e) → s.lastPlace ≤ e.place →
      s.file.doc ≤ e.doc

namespace Saver

/-- The save is under way. -/
def Has (s : Saver) (save : Save) : Prop := ∃ call ∈ s.calls, call.phase = .exporting save

/-- What is known of the content and of the saves under way. -/
structure Core (s : Saver) : Prop where
  poked : s.poked.Le s.now
  file : s.file.Le s.now
  lastOrder : s.lastOrder ≤ s.begun
  lastPlace : s.lastPlace ≤ s.exports
  saves : ∀ save, s.Has save → save.Sane s
  order : ∀ a b, s.Has a → s.Has b → a.order ≤ b.order → a.info ≤ b.info
  place : ∀ a b, s.Has a → s.Has b → ∀ e f, a.snapshot = some (some e) →
    b.snapshot = some (some f) → e.place ≤ f.place → e.doc ≤ f.doc

/-- A step that adds no save, ends no export and writes nothing in the background. -/
structure Quiet (s s' : Saver) : Prop where
  now : s.now.Le s'.now
  poked : s'.poked = s.poked ∨ s'.poked = s'.now
  file : s'.file = s.file ∨ s.syncCommits < s'.syncCommits ∧ s'.file = s'.now
  counts : s'.lastOrder = s.lastOrder ∧ s'.lastPlace = s.lastPlace ∧ s.begun ≤ s'.begun ∧
    s.exports ≤ s'.exports
  generation : s.generation ≤ s'.generation
  syncs : s.syncCommits ≤ s'.syncCommits
  same : s'.generation = s.generation → s'.poked = s.poked ∧ s'.syncCommits = s.syncCommits
  has : ∀ save, s'.Has save → s.Has save

end Saver

theorem Content.Le.refl (a : Content) : a.Le a := ⟨le_refl _, le_refl _⟩

theorem Content.Le.trans {a b c : Content} (h : a.Le b) (h' : b.Le c) : a.Le c :=
  ⟨h.1.trans h'.1, h.2.trans h'.2⟩

namespace Saver

variable {s s' : Saver}

theorem Core.quiet (h : s.Core) (hq : Quiet s s') : s'.Core := by
  obtain ⟨hlo, hlp, hbegun, hexports⟩ := hq.counts
  have hsane : ∀ save, s'.Has save → save.Sane s' := fun save hsave => by
    have hs := h.saves save (hq.has save hsave)
    have hgen := hq.generation
    have hsync := hq.syncs
    have hsame : save.expected = s'.generation → s'.generation = s.generation := fun he => by
      have := hs.expected
      omega
    refine ⟨hs.expected.trans hgen, hs.syncs.trans hsync, hs.order.trans hbegun,
      hs.info.trans hq.now.2, fun e he => ?_, fun he => ?_, fun he => ?_, fun he => ?_⟩
    · obtain ⟨hplace, hdoc⟩ := hs.export_le e he
      exact ⟨hplace.trans hexports, hdoc.trans hq.now.1⟩
    · have hg := hsame he
      rw [(hq.same hg).2]
      exact hs.same (he.trans hg)
    · have hg := hsame he
      rw [(hq.same hg).1]
      exact hs.current (he.trans hg)
    · have hsyncs := hs.syncs
      have hold : save.syncCommitsAtStart = s.syncCommits := by omega
      rcases hq.file with hfile | ⟨hlt, -⟩
      · rw [hfile, hlo, hlp]
        exact hs.fresh hold
      · omega
  refine ⟨?_, ?_, ?_, ?_, hsane, fun a b ha hb => h.order a b (hq.has a ha) (hq.has b hb),
    fun a b ha hb => h.place a b (hq.has a ha) (hq.has b hb)⟩
  · rcases hq.poked with hp | hp
    · rw [hp]
      exact h.poked.trans hq.now
    · rw [hp]
      exact .refl _
  · rcases hq.file with hf | ⟨-, hf⟩
    · rw [hf]
      exact h.file.trans hq.now
    · rw [hf]
      exact .refl _
  · rw [hlo]
    exact h.lastOrder.trans hbegun
  · rw [hlp]
    exact h.lastPlace.trans hexports

/-! ### The calls -/

theorem has_addCall {call : Call} (hc : ∀ save, call.phase ≠ .exporting save) {save : Save}
    (h : (s.addCall call).Has save) : s.Has save := by
  obtain ⟨c, hmem, hphase⟩ := h
  rcases List.mem_append.mp hmem with hmem | hmem
  · exact ⟨c, hmem, hphase⟩
  · rw [List.mem_singleton.mp hmem] at hphase
    exact absurd hphase (hc save)

theorem has_dropCall {i : ℕ} {save : Save} (h : (s.dropCall i).Has save) : s.Has save := by
  obtain ⟨c, hmem, hphase⟩ := h
  exact ⟨c, List.mem_of_mem_eraseIdx hmem, hphase⟩

theorem has_setCall {i : ℕ} {call : Call} {save : Save} (h : (s.setCall i call).Has save) :
    s.Has save ∨ call.phase = .exporting save := by
  obtain ⟨c, hmem, hphase⟩ := h
  rcases List.mem_or_eq_of_mem_set hmem with hmem | rfl
  · exact .inl ⟨c, hmem, hphase⟩
  · exact .inr hphase

theorem Quiet.calls {calls : List Call} (h : ∀ save, Has { s with calls } save → s.Has save) :
    Quiet s { s with calls } :=
  ⟨.refl _, .inl rfl, .inl rfl, ⟨rfl, rfl, le_refl _, le_refl _⟩, le_refl _, le_refl _,
    fun _ => ⟨rfl, rfl⟩, h⟩

theorem Quiet.of_bump (hs : s'.generation = s.generation + 1) (hnow : s'.now = s.now)
    (hpoked : s'.poked = s.poked) (hfile : s'.file = s.file)
    (hsync : s'.syncCommits = s.syncCommits)
    (hcounts : s'.lastOrder = s.lastOrder ∧ s'.lastPlace = s.lastPlace ∧ s.begun ≤ s'.begun ∧
      s.exports ≤ s'.exports) (hcalls : s'.calls = s.calls) : Quiet s s' :=
  ⟨hnow ▸ .refl _, .inl hpoked, .inl hfile, hcounts, by omega, by omega, by omega,
    fun save ⟨call, hmem, hphase⟩ => ⟨call, hcalls ▸ hmem, hphase⟩⟩

theorem Core.changed (h : s.Core) (change : Option Change) : (s.changed change).Core := by
  have hnow : s.now.Le (change.elim s.now s.now.change) := by
    rcases change with - | - | -
    · exact .refl _
    · exact ⟨Nat.le_succ _, le_refl _⟩
    · exact ⟨le_refl _, Nat.le_succ _⟩
  exact h.quiet ⟨hnow, .inl rfl, .inl rfl, ⟨rfl, rfl, le_refl _, le_refl _⟩, le_refl _, le_refl _,
    fun _ => ⟨rfl, rfl⟩, fun _ hsave => hsave⟩

theorem Core.armQuiet (h : s.Core) : s.armQuiet.Core :=
  h.quiet (.of_bump rfl rfl rfl rfl rfl ⟨rfl, rfl, le_refl _, le_refl _⟩ rfl)

theorem Core.clean (h : s.Core) : s.clean.Core :=
  h.quiet (.of_bump rfl rfl rfl rfl rfl ⟨rfl, rfl, le_refl _, le_refl _⟩ rfl)

theorem Core.retireTimers (h : s.Core) : s.retireTimers.Core :=
  h.quiet (.of_bump rfl rfl rfl rfl rfl ⟨rfl, rfl, le_refl _, le_refl _⟩ rfl)

theorem Core.fields (h : s.Core) (deadlineGeneration : ℕ) (dirty : Bool) (quiet deadlines : List ℕ)
    (retired : Bool) :
    Core { s with deadlineGeneration, dirty, quiet, deadlines, retired } :=
  h.quiet ⟨.refl _, .inl rfl, .inl rfl, ⟨rfl, rfl, le_refl _, le_refl _⟩, le_refl _, le_refl _,
    fun _ => ⟨rfl, rfl⟩, fun _ hsave => hsave⟩

theorem Core.armDeadline (h : s.Core) : s.armDeadline.Core := h.fields _ _ _ _ _

theorem Core.poke (h : s.Core) : s.poke.Core := by
  have hbump : ∀ s' : Saver, s'.generation = s.generation + 1 → s'.now = s.now →
      s'.poked = s.now → s'.file = s.file → s'.syncCommits = s.syncCommits →
      (s'.lastOrder = s.lastOrder ∧ s'.lastPlace = s.lastPlace ∧ s.begun ≤ s'.begun ∧
        s.exports ≤ s'.exports) → s'.calls = s.calls → s'.Core :=
    fun s' hg hn hp hf hs hc hcalls => h.quiet ⟨hn ▸ .refl _, .inr (hp.trans hn.symm), .inl hf, hc,
      by omega, by omega, by omega, fun save ⟨call, hmem, hphase⟩ => ⟨call, hcalls ▸ hmem, hphase⟩⟩
  unfold Saver.poke
  dsimp only
  split_ifs
  · exact hbump _ rfl rfl rfl rfl rfl ⟨rfl, rfl, le_refl _, le_refl _⟩ rfl
  · exact hbump _ rfl rfl rfl rfl rfl ⟨rfl, rfl, le_refl _, le_refl _⟩ rfl

theorem Core.commitNow (h : s.Core) (ok : Bool) : (s.commitNow ok).Core := by
  unfold Saver.commitNow
  dsimp only
  split_ifs
  · exact h.quiet ⟨.refl _, .inl rfl, .inr ⟨Nat.lt_succ_self _, rfl⟩,
      ⟨rfl, rfl, le_refl _, le_refl _⟩, Nat.le_succ _, Nat.le_succ _,
      fun he => absurd he (Nat.succ_ne_self _), fun _ hsave => hsave⟩
  · exact h.quiet ⟨.refl _, .inl rfl, .inl rfl, ⟨rfl, rfl, le_refl _, le_refl _⟩,
      Nat.le_succ _, Nat.le_succ _, fun he => absurd he (Nat.succ_ne_self _), fun _ hsave => hsave⟩

theorem Core.addCall (h : s.Core) {call : Call} (hc : ∀ save, call.phase ≠ .exporting save) :
    (s.addCall call).Core := h.quiet (.calls fun _ hsave => has_addCall hc hsave)

theorem Core.dropCall (h : s.Core) (i : ℕ) : (s.dropCall i).Core :=
  h.quiet (.calls fun _ hsave => has_dropCall hsave)

theorem Core.setCall (h : s.Core) (i : ℕ) {call : Call}
    (hc : ∀ save, call.phase = .exporting save → s.Has save) : (s.setCall i call).Core :=
  h.quiet (.calls fun save hsave => (has_setCall hsave).elim id (hc save))

theorem Core.answer (h : s.Core) (i : ℕ) (call : Call) (ok : Bool) : (s.answer i call ok).Core := by
  unfold Saver.answer
  split_ifs
  · exact h.setCall i fun _ he => by cases he
  · exact h.dropCall i

/-! ### A save -/

/-- Two saves were captured and exported in one order. -/
def Ordered (a b : Save) : Prop :=
  (a.order ≤ b.order → a.info ≤ b.info) ∧ ∀ e f, a.snapshot = some (some e) →
    b.snapshot = some (some f) → e.place ≤ f.place → e.doc ≤ f.doc

theorem Core.setSave (h : s.Core) (i : ℕ) {call : Call} {save : Save}
    (hphase : call.phase = .exporting save) (hsane : save.Sane s)
    (hothers : ∀ b, s.Has b → Ordered save b ∧ Ordered b save) : (s.setCall i call).Core := by
  have hhas : ∀ b, (s.setCall i call).Has b → s.Has b ∨ b = save := fun b hb => by
    rcases has_setCall hb with hb | hb
    · exact .inl hb
    · rw [hphase] at hb
      exact .inr (Phase.exporting.inj hb).symm
  have hself : Ordered save save := by
    refine ⟨fun _ => le_refl _, fun e f he hf _ => ?_⟩
    rw [he] at hf
    cases hf
    exact le_refl _
  have hordered : ∀ a b, (s.setCall i call).Has a → (s.setCall i call).Has b → Ordered a b := by
    intro a b ha hb
    rcases hhas a ha with ha | rfl
    · rcases hhas b hb with hb | rfl
      · exact ⟨h.order a b ha hb, h.place a b ha hb⟩
      · exact (hothers a ha).2
    · rcases hhas b hb with hb | rfl
      · exact (hothers b hb).1
      · exact hself
  have hsaves : ∀ b, (s.setCall i call).Has b → b.Sane s := fun b hb => by
    rcases hhas b hb with hb | rfl
    · exact h.saves b hb
    · exact hsane
  exact ⟨h.poked, h.file, h.lastOrder, h.lastPlace,
    fun b hb => ⟨(hsaves b hb).expected, (hsaves b hb).syncs, (hsaves b hb).order,
      (hsaves b hb).info, (hsaves b hb).export_le, (hsaves b hb).same, (hsaves b hb).current,
      (hsaves b hb).fresh⟩,
    fun a b ha hb => (hordered a b ha hb).1, fun a b ha hb => (hordered a b ha hb).2⟩

theorem Core.beginAsync (h : s.Core) (i : ℕ) (call : Call) :
    (s.beginAsync i call s.now.info).Core := by
  unfold Saver.beginAsync
  split_ifs
  · have h₀ : Core { s with generation := s.generation + 1, begun := s.begun + 1 } :=
      h.quiet ⟨.refl _, .inl rfl, .inl rfl, ⟨rfl, rfl, Nat.le_succ _, le_refl _⟩, Nat.le_succ _,
        le_refl _, fun he => absurd he (Nat.succ_ne_self _), fun _ hsave => hsave⟩
    have hnone : ∀ e : Export, (s.newSave s.now.info).snapshot ≠ some (some e) := fun e he => by
      cases he
    refine h₀.setSave i rfl ⟨le_refl _, le_refl _, le_refl _, le_refl _,
      fun e he => absurd he (hnone e), fun _ => rfl,
      fun _ => ⟨h.poked.2, fun e he => absurd he (hnone e)⟩,
      fun _ => ⟨fun _ => h.file.2, fun e he => absurd he (hnone e)⟩⟩ fun b hb => ?_
    have hb := h.saves b hb
    refine ⟨⟨fun hle => ?_, fun e f he => absurd he (hnone e)⟩, fun _ => hb.info,
      fun e f _ hf => absurd hf (hnone f)⟩
    have hlt : s.begun + 1 ≤ b.order := hle
    have := hb.order
    omega
  · exact h.answer i call true

theorem Core.exported (h : s.Core) {i : ℕ} {call : Call} {save : Save} (hsave : s.Has save)
    (ok : Bool) : (s.exported i call save ok).Core := by
  have h₀ : Core { s with exports := s.exports + 1 } :=
    h.quiet ⟨.refl _, .inl rfl, .inl rfl, ⟨rfl, rfl, le_refl _, Nat.le_succ _⟩, le_refl _,
      le_refl _, fun _ => ⟨rfl, rfl⟩, fun _ hsave => hsave⟩
  have hs := h.saves save hsave
  have hexport : ∀ e : Export, some (if ok then some ⟨s.now.doc, s.exports + 1⟩ else none) =
      some (some e) → e.doc = s.now.doc ∧ e.place = s.exports + 1 := fun e he => by
    split_ifs at he
    · cases he
      exact ⟨rfl, rfl⟩
    · cases he
  refine h₀.setSave i rfl ⟨hs.expected, hs.syncs, hs.order, hs.info, fun e he => ?_, hs.same,
    fun he => ⟨(hs.current he).1, fun e he => ?_⟩, fun he => ⟨(hs.fresh he).1, fun e he _ => ?_⟩⟩
    fun b hb => ⟨⟨h.order save b hsave hb, fun e f he hf hle => ?_⟩,
      h.order b save hb hsave, fun e f he hf _ => ?_⟩
  · obtain ⟨hdoc, hplace⟩ := hexport e he
    exact ⟨hplace.le, hdoc.le⟩
  · rw [(hexport e he).1]
    exact h.poked.1
  · rw [(hexport e he).1]
    exact h.file.1
  · have hf := ((h.saves b hb).export_le f hf).1
    rw [(hexport e he).2] at hle
    omega
  · rw [(hexport f hf).1]
    exact ((h.saves b hb).export_le e he).2

/-- **A write in turn.** -/
theorem Core.write (h : s.Core) {save : Save} {e : Export} (hsave : s.Has save)
    (he : save.snapshot = some (some e)) (hw : s.Writes save)
    (ho : s.lastOrder ≤ save.order ∧ s.lastPlace ≤ e.place) :
    (s.write save e).Core ∧ s.file.Le (s.write save e).file := by
  have hs := h.saves save hsave
  have hsync : save.syncCommitsAtStart = s.syncCommits := by
    rcases hw with hw | hw
    · exact hs.same hw.symm
    · exact hw.symm
  obtain ⟨hinfo, hdoc⟩ := hs.fresh hsync
  obtain ⟨hplace, hnow⟩ := hs.export_le e he
  refine ⟨⟨h.poked, ⟨hnow, hs.info⟩, max_le h.lastOrder hs.order, max_le h.lastPlace hplace,
    fun b hb => ?_, h.order, h.place⟩, hdoc e he ho.2, hinfo ho.1⟩
  have hb' := h.saves b hb
  refine ⟨hb'.expected, hb'.syncs, hb'.order, hb'.info, hb'.export_le, hb'.same, hb'.current,
    fun _ => ⟨fun hle => ?_, fun f hf hle => ?_⟩⟩
  · exact h.order save b hsave hb ((le_max_right _ _).trans hle)
  · exact h.place save b hsave hb e f he hf ((le_max_right _ _).trans hle)

/-! ### Steps -/

/-- What a step leaves. -/
structure Good (s s' : Saver) : Prop where
  core : s'.Core
  kept : s'.Kept
  file : s.file.Le s'.file

theorem Kept.of_call (hclean : s'.dirty = false → s'.poked.Le s'.file) {call : Call}
    (hmem : call ∈ s'.calls) (ht : call.fromTimer = true) : s'.Kept :=
  ⟨hclean, fun _ _ => .inr (.inr ⟨call, hmem, .inl ht⟩)⟩

theorem Kept.of_armed (hd : s'.dirty = true) (h : s'.generation ∈ s'.quiet) : s'.Kept :=
  ⟨fun he => by simp [hd] at he, fun _ _ => .inl h⟩

theorem Kept.of_clean (hd : s'.dirty = false) (h : s'.poked.Le s'.file) : s'.Kept :=
  ⟨fun _ => h, fun he => by simp [hd] at he⟩

theorem good_changed (h : s.Core) (hk : s.Kept) (change : Option Change) :
    Good s (s.changed change) := ⟨h.changed change, ⟨hk.clean, hk.tries⟩, .refl _⟩

theorem kept_poke : s.poke.Kept := by
  unfold Saver.poke
  dsimp only
  split_ifs
  · exact .of_armed rfl (List.mem_append_right _ (List.mem_singleton_self _))
  · exact .of_armed rfl (List.mem_append_right _ (List.mem_singleton_self _))

theorem file_poke : s.poke.file = s.file := by
  unfold Saver.poke
  dsimp only
  split_ifs <;> rfl

theorem good_commitNow (h : s.Core) (ok : Bool) : Good s (s.commitNow ok) := by
  refine ⟨h.commitNow ok, ?_, ?_⟩
  · unfold Saver.commitNow
    dsimp only
    split_ifs
    · exact .of_clean rfl h.poked
    · exact .of_armed rfl (List.mem_append_right _ (List.mem_singleton_self _))
  · unfold Saver.commitNow
    dsimp only
    split_ifs
    · exact h.file
    · exact .refl _

theorem good_flush (h : s.Core) (hk : s.Kept) (ok : Bool) : Good s (s.flush ok) := by
  unfold Saver.flush
  split_ifs
  · exact good_commitNow h ok
  · exact ⟨h, hk, .refl _⟩

theorem mem_set_of_ne {α : Type} {l : List α} {i : ℕ} {x y : α} (z : α) (hx : x ∈ l)
    (hi : l[i]? = some y) (hne : x ≠ y) : x ∈ l.set i z := by
  obtain ⟨j, hj, he⟩ := List.mem_iff_getElem.mp hx
  refine List.mem_iff_getElem.mpr ⟨j, by rwa [List.length_set], ?_⟩
  rw [List.getElem_set_of_ne, he]
  rintro rfl
  rw [List.getElem?_eq_getElem hj] at hi
  exact hne (he.symm.trans (Option.some.inj hi))

theorem mem_set_self {α : Type} {l : List α} {i : ℕ} {y : α} (z : α) (hi : l[i]? = some y) :
    z ∈ l.set i z :=
  List.mem_set (List.getElem?_eq_some_iff.mp hi).1 z

theorem good_quiet (h : s.Core) (hk : s.Kept) {i expected : ℕ} (hi : s.quiet[i]? = some expected) :
    Good s (if s.generation = expected then
      Saver.addCall { s with quiet := s.quiet.eraseIdx i } ⟨true, .due⟩
      else { s with quiet := s.quiet.eraseIdx i }) := by
  have hfields : Core { s with quiet := s.quiet.eraseIdx i } := h.fields _ _ _ _ _
  split_ifs with he
  · exact ⟨hfields.addCall (fun _ hp => by cases hp),
      .of_call hk.clean (List.mem_append_right _ (List.mem_singleton_self _)) rfl, .refl _⟩
  · refine ⟨hfields, ⟨hk.clean, fun hd hr => ?_⟩, .refl _⟩
    rcases hk.tries hd hr with hq | ht
    · exact .inl ((mem_eraseIdx hi hq).resolve_left he)
    · exact .inr ht

theorem good_deadline (h : s.Core) (hk : s.Kept) {i expected : ℕ}
    (hi : s.deadlines[i]? = some expected) :
    Good s (if s.deadlineGeneration = expected ∧ s.dirty then
      Saver.addCall { s with deadlines := s.deadlines.eraseIdx i } ⟨true, .due⟩
      else { s with deadlines := s.deadlines.eraseIdx i }) := by
  have hfields : Core { s with deadlines := s.deadlines.eraseIdx i } := h.fields _ _ _ _ _
  split_ifs with he
  · exact ⟨hfields.addCall (fun _ hp => by cases hp),
      .of_call hk.clean (List.mem_append_right _ (List.mem_singleton_self _)) rfl, .refl _⟩
  · refine ⟨hfields, ⟨hk.clean, fun hd hr => ?_⟩, .refl _⟩
    rcases hk.tries hd hr with hq | hq | ht
    · exact .inl hq
    · exact .inr (.inl ((mem_eraseIdx hi hq).resolve_left fun hg => he ⟨hg, hd⟩))
    · exact .inr (.inr ht)

theorem Kept.setCall (hk : s.Kept) {i : ℕ} {call call' : Call} (hi : s.calls[i]? = some call)
    (ht : call'.fromTimer = call.fromTimer)
    (hsave : ∀ save, call.phase = .exporting save → save.expected = s.generation →
      call.fromTimer = true ∨ ∃ save', call'.phase = .exporting save' ∧
        save'.expected = s.generation) : (s.setCall i call').Kept := by
  refine ⟨hk.clean, fun hd hr => ?_⟩
  rcases hk.tries hd hr with hq | hq | ⟨c, hmem, hc⟩
  · exact .inl hq
  · exact .inr (.inl hq)
  · right
    right
    by_cases he : c = call
    · subst he
      refine ⟨call', mem_set_self call' hi, ?_⟩
      rcases hc with hc | ⟨save, hphase, hexpected⟩
      · exact .inl (ht.trans hc)
      · rcases hsave save hphase hexpected with hc | hc
        · exact .inl (ht.trans hc)
        · exact .inr hc
    · exact ⟨c, mem_set_of_ne call' hmem hi he, hc⟩

theorem Kept.dropCall (hk : s.Kept) {i : ℕ} {call : Call} (hi : s.calls[i]? = some call)
    (ht : call.fromTimer = false)
    (hsave : ∀ save, call.phase = .exporting save → save.expected ≠ s.generation) :
    (s.dropCall i).Kept := by
  refine ⟨hk.clean, fun hd hr => ?_⟩
  rcases hk.tries hd hr with hq | hq | ⟨c, hmem, hc⟩
  · exact .inl hq
  · exact .inr (.inl hq)
  · right
    right
    refine ⟨c, (mem_eraseIdx hi hmem).resolve_left ?_, hc⟩
    rintro rfl
    rcases hc with hc | ⟨save, hphase, hexpected⟩
    · simp [ht] at hc
    · exact hsave save hphase hexpected

theorem Kept.answer (hk : s.Kept) {i : ℕ} {call : Call} (hi : s.calls[i]? = some call)
    (hsave : ∀ save, call.phase = .exporting save → save.expected ≠ s.generation) (ok : Bool) :
    (s.answer i call ok).Kept := by
  unfold Saver.answer
  split_ifs with ht
  · exact hk.setCall hi rfl fun save hphase he => absurd he (hsave save hphase)
  · exact hk.dropCall hi (by simpa using ht) hsave

theorem answer_eq (i : ℕ) (call : Call) (ok : Bool) :
    ∃ calls, s.answer i call ok = { s with calls } := by
  unfold Saver.answer
  split_ifs
  · exact ⟨_, rfl⟩
  · exact ⟨_, rfl⟩

theorem good_due (h : s.Core) (hk : s.Kept) {i : ℕ} {call : Call} (hi : s.calls[i]? = some call)
    (ok : Bool) : Good s (s.flushFromTimer i ok) := by
  unfold Saver.flushFromTimer
  split_ifs with hd hb
  · exact ⟨h.setCall i (fun _ hp => by cases hp), .of_call hk.clean (mem_set_self _ hi) rfl,
      .refl _⟩
  · have hgood := good_commitNow (h.dropCall i) ok
    rw [Saver.flush, if_pos (show (s.dropCall i).dirty = true from hd)]
    exact ⟨hgood.core, hgood.kept, hgood.file⟩
  · have hd' : s.dirty = false := by simpa using hd
    exact ⟨h.dropCall i, .of_clean hd' (hk.clean hd'), .refl _⟩

theorem good_enter (h : s.Core) (hk : s.Kept) {i : ℕ} {call : Call} (hi : s.calls[i]? = some call)
    (hphase : call.phase = .calling) (stopped : Bool) :
    Good s (s.flushToDiskAsync i call stopped) := by
  have hno : ∀ save, call.phase ≠ .exporting save := fun save hp => by
    rw [hphase] at hp
    cases hp
  unfold Saver.flushToDiskAsync
  split_ifs
  · obtain ⟨calls, he⟩ := @answer_eq s i call false
    exact ⟨h.answer i call false, hk.answer hi (fun save hp => absurd hp (hno save)) false,
      he ▸ .refl _⟩
  · exact ⟨h.setCall i (fun _ hp => by cases hp),
      hk.setCall hi rfl fun save hp => absurd hp (hno save), .refl _⟩

theorem good_begin (h : s.Core) (hk : s.Kept) {i : ℕ} {call : Call} (hi : s.calls[i]? = some call)
    {info : ℕ} (hphase : call.phase = .captured info) (hinfo : info = s.now.info) :
    Good s (s.beginAsync i call info) := by
  subst hinfo
  have hcore := h.beginAsync i call
  unfold Saver.beginAsync at hcore ⊢
  split_ifs at hcore ⊢ with hd
  · refine ⟨hcore, ⟨fun hc => ?_, fun _ _ => .inr (.inr ⟨_, mem_set_self _ hi, .inr
      ⟨_, rfl, rfl⟩⟩)⟩, .refl _⟩
    exact absurd (show s.dirty = false from hc) (by simp [hd])
  · obtain ⟨calls, he⟩ := @answer_eq s i call true
    have hd' : s.dirty = false := by simpa using hd
    refine ⟨hcore, ?_, he ▸ .refl _⟩
    rw [he]
    exact .of_clean hd' (hk.clean hd')

theorem good_exported (h : s.Core) (hk : s.Kept) {i : ℕ} {call : Call}
    (hi : s.calls[i]? = some call) {save : Save} (hphase : call.phase = .exporting save)
    (ok : Bool) : Good s (s.exported i call save ok) := by
  refine ⟨h.exported ⟨call, List.mem_of_getElem? hi, hphase⟩ ok, ?_, .refl _⟩
  have hk' : Kept { s with exports := s.exports + 1 } := ⟨hk.clean, hk.tries⟩
  refine hk'.setCall hi rfl fun save' hp hexpected => .inr ⟨_, rfl, ?_⟩
  rw [hphase] at hp
  rw [← Phase.exporting.inj hp] at hexpected
  exact hexpected

theorem Good.answer (h : Good s s') (hcalls : s'.calls = s.calls) {i : ℕ} {call : Call}
    (hi : s.calls[i]? = some call) (ok : Bool)
    (hno : s'.dirty = false ∨ s'.generation ∈ s'.quiet ∨ ∀ save, call.phase = .exporting save →
      save.expected ≠ s'.generation) : Good s (s'.answer i call ok) := by
  obtain ⟨calls, he⟩ := @answer_eq s' i call ok
  refine ⟨h.core.answer i call ok, ?_, he ▸ h.file⟩
  rcases hno with hd | hq | hsave
  · rw [he]
    exact .of_clean hd (h.kept.clean hd)
  · rw [he]
    exact ⟨h.kept.clean, fun _ _ => .inl hq⟩
  · exact h.kept.answer (hcalls ▸ hi) hsave ok

theorem good_retry (h : s.Core) : Good s (scheduleRetry { s with dirty := true }) :=
  ⟨(h.fields _ true _ _ _).armQuiet,
    .of_armed rfl (List.mem_append_right _ (List.mem_singleton_self _)), .refl _⟩

theorem good_resume (h : s.Core) (hk : s.Kept) {i : ℕ} {call : Call}
    (hi : s.calls[i]? = some call) {save : Save} (hphase : call.phase = .exporting save)
    {snapshot : Option Export} (hsnapshot : save.snapshot = some snapshot) {ok : Bool}
    (ho : ok = true → s.Writes save → ∀ e, save.snapshot = some (some e) →
      s.lastOrder ≤ save.order ∧ s.lastPlace ≤ e.place) :
    Good s
      ((s.finishAsync save snapshot ok).1.answer i call (s.finishAsync save snapshot ok).2) := by
  have hhas : s.Has save := ⟨call, List.mem_of_getElem? hi, hphase⟩
  have hself : Good s s := ⟨h, hk, .refl _⟩
  have hretry : ∀ {b : Bool}, Good s ((scheduleRetry { s with dirty := true }).answer i call b) :=
    (good_retry h).answer rfl hi _
      (.inr (.inl (List.mem_append_right _ (List.mem_singleton_self _))))
  unfold finishAsync
  by_cases hgen : s.generation = save.expected
  · rw [if_neg (not_not.mpr hgen)]
    cases snapshot with
    | none => exact hretry
    | some e =>
      dsimp only
      split_ifs with hok
      · -- nothing was poked since the save began
        obtain ⟨hcore, hfile⟩ := h.write hhas hsnapshot (.inl hgen) (ho hok (.inl hgen) e hsnapshot)
        obtain ⟨hinfo, hdoc⟩ := (h.saves save hhas).current hgen.symm
        exact Good.answer ⟨hcore.clean, .of_clean rfl ⟨hdoc e hsnapshot, hinfo⟩, hfile⟩ rfl hi _
          (.inl rfl)
      · exact hretry
  · rw [if_pos hgen]
    have hno : ∀ save', call.phase = .exporting save' → save'.expected ≠ s.generation := by
      intro save' hp
      rw [hphase] at hp
      rw [← Phase.exporting.inj hp]
      exact fun he => hgen he.symm
    cases snapshot with
    | none => exact hself.answer rfl hi _ (.inr (.inr hno))
    | some e =>
      dsimp only
      split_ifs with hw
      · have hturn := ho hw.2 (.inr hw.1) e hsnapshot
        obtain ⟨hcore, hfile⟩ := h.write hhas hsnapshot (.inr hw.1) hturn
        have hkept : (s.write save e).Kept :=
          ⟨fun hd => (hk.clean hd).trans hfile, hk.tries⟩
        exact Good.answer ⟨hcore, hkept, hfile⟩ rfl hi _ (.inr (.inr hno))
      · exact hself.answer rfl hi _ (.inr (.inr hno))

theorem good_back (h : s.Core) (hk : s.Kept) {i : ℕ} {ok : Bool}
    (ho : ok = true → s.dirty = false) : Good s ((s.dropCall i).flushedFromTimer ok) := by
  have hdrop := h.dropCall i
  unfold Saver.flushedFromTimer
  split_ifs with hc hd
  · have hd : s.dirty = true := hc.2
    exact absurd (ho hc.1) (by simp [hd])
  · have hd' : s.dirty = true := hd
    refine ⟨hdrop.armDeadline, ⟨fun he => ?_, fun _ _ => ?_⟩, .refl _⟩
    · exact absurd (show s.dirty = false from he) (by simp [hd'])
    · exact .inr (.inl (List.mem_append_right _ (List.mem_singleton_self _)))
  · have hd' : s.dirty = false := eq_false_of_ne_true hd
    exact ⟨hdrop, .of_clean hd' (hk.clean hd'), .refl _⟩

theorem good_retire (h : s.Core) (hk : s.Kept) : Good s s.retireTimers :=
  ⟨h.retireTimers, ⟨hk.clean, fun _ hr => by cases hr⟩, .refl _⟩

/-- **What an orderly step leaves.** -/
theorem good_step (h : s.Core) (hk : s.Kept) {a : Act} (ho : s.Orderly a)
    (hs : s.step a = some s') : Good s s' := by
  cases a with
  | edit change =>
    cases hs
    exact good_changed h hk (some change)
  | poke change =>
    cases hs
    exact ⟨(h.changed change).poke, kept_poke, by rw [file_poke]; exact .refl _⟩
  | quiet i =>
    obtain ⟨expected, hi, hs⟩ := Option.bind_eq_some_iff.mp hs
    rw [← Option.some.inj hs]
    exact good_quiet h hk hi
  | deadline i =>
    obtain ⟨expected, hi, hs⟩ := Option.bind_eq_some_iff.mp hs
    rw [← Option.some.inj hs]
    exact good_deadline h hk hi
  | flush ok =>
    cases hs
    exact good_flush h hk ok
  | commitNow ok =>
    cases hs
    exact good_commitNow h ok
  | flushAsync =>
    cases hs
    refine ⟨h.addCall (fun _ hp => by cases hp), ⟨hk.clean, fun hd hr => ?_⟩, .refl _⟩
    rcases hk.tries hd hr with hq | hq | ⟨c, hmem, hc⟩
    · exact .inl hq
    · exact .inr (.inl hq)
    · exact .inr (.inr ⟨c, List.mem_append_left _ hmem, hc⟩)
  | due i ok =>
    obtain ⟨call, hi, hs⟩ := Option.bind_eq_some_iff.mp hs
    split at hs
    · rw [← Option.some.inj hs]
      exact good_due h hk hi ok
    · cases hs
  | enter i stopped =>
    obtain ⟨call, hi, hs⟩ := Option.bind_eq_some_iff.mp hs
    split at hs
    · rename_i hphase
      rw [← Option.some.inj hs]
      exact good_enter h hk hi hphase stopped
    · cases hs
  | begin i =>
    obtain ⟨call, hi, hs⟩ := Option.bind_eq_some_iff.mp hs
    split at hs
    · rename_i info hphase
      rw [← Option.some.inj hs]
      have hp : s.phaseAt i = some (.captured info) := by simp [phaseAt, hi, hphase]
      exact good_begin h hk hi hphase (by simpa [Orderly, orderly, hp] using ho)
    · cases hs
  | exported i ok =>
    obtain ⟨call, hi, hs⟩ := Option.bind_eq_some_iff.mp hs
    split at hs
    · rename_i save hphase
      split_ifs at hs
      rw [← Option.some.inj hs]
      exact good_exported h hk hi hphase ok
    · cases hs
  | resume i ok =>
    obtain ⟨call, hi, hs⟩ := Option.bind_eq_some_iff.mp hs
    split at hs
    · rename_i save hphase
      obtain ⟨snapshot, hsnapshot, hs⟩ := Option.bind_eq_some_iff.mp hs
      rw [← Option.some.inj hs]
      have hp : s.phaseAt i = some (.exporting save) := by simp [phaseAt, hi, hphase]
      refine good_resume h hk hi hphase hsnapshot fun hok hw e he => ?_
      rw [Orderly, orderly, hp] at ho
      dsimp only at ho
      rw [he] at ho
      exact of_decide_eq_true ho hok hw
    · cases hs
  | back i =>
    obtain ⟨call, hi, hs⟩ := Option.bind_eq_some_iff.mp hs
    split at hs
    · rename_i ok hphase
      rw [← Option.some.inj hs]
      refine good_back h hk fun hok => ?_
      have hp : s.phaseAt i = some (.returned true) := by simp [phaseAt, hi, hphase, hok]
      exact of_decide_eq_true ho hp
    · cases hs
  | retire =>
    cases hs
    exact good_retire h hk

end Saver

/-! ## Runs -/

theorem core_new (background : Bool) : (Saver.new background).Core :=
  ⟨.refl _, .refl _, le_refl _, le_refl _, (fun _ ⟨_, hmem, _⟩ => by cases hmem),
    (fun _ _ ⟨_, hmem, _⟩ => by cases hmem), (fun _ _ ⟨_, hmem, _⟩ => by cases hmem)⟩

/-- **Saves lose no change**, over every run whose steps are orderly: a clean saver's file has
every change that was poked, a dirty one will try again, and the file never gets older. -/
theorem saves_keep {background : Bool} {before acts : List Act}
    (hg : Guarded Saver.step Saver.Orderly (.new background) (before ++ acts)) {s s' : Saver}
    (hs : exec Saver.step (.new background) before = some s)
    (hs' : exec Saver.step s acts = some s') : s'.Kept ∧ s.file.Le s'.file := by
  have hstep : ∀ (file : Content) (s₁ : Saver) (a : Act) (s₂ : Saver),
      (s₁.Core ∧ s₁.Kept ∧ file.Le s₁.file) → s₁.Orderly a → s₁.step a = some s₂ →
        s₂.Core ∧ s₂.Kept ∧ file.Le s₂.file := fun file s₁ a s₂ h ho he =>
    have hgood := Saver.good_step h.1 h.2.1 ho he
    ⟨hgood.core, hgood.kept, h.2.2.trans hgood.file⟩
  have hnew : (Saver.new background).Kept := .of_clean rfl (.refl _)
  obtain ⟨hcore, hkept, -⟩ := exec_invariant (hstep (Saver.new background).file)
    ⟨core_new background, hnew, .refl _⟩ hg.left hs
  obtain ⟨-, hkept', hfile⟩ := exec_invariant (hstep s.file) ⟨hcore, hkept, .refl _⟩
    (hg.right hs) hs'
  exact ⟨hkept', hfile⟩

/-- A change, a save whose export fails, another change, and a save of both. -/
def retried : List Act :=
  [.poke (some .doc), .quiet 0, .due 0 true, .enter 0 false, .begin 0, .exported 0 false,
    .resume 0 true, .back 0, .poke (some .info), .quiet 1, .due 0 true, .enter 0 false, .begin 0,
    .exported 0 true, .resume 0 true, .back 0]

theorem saves_keep_retried : ∃ s s', exec Saver.step (.new true) [.poke (some .doc)] = some s ∧
    exec Saver.step s retried.tail = some s' ∧ s'.dirty = false ∧ s'.file = ⟨1, 1⟩ ∧
      s'.Kept ∧ s.file.Le s'.file := by
  have hg : Guarded Saver.step Saver.Orderly (.new true) ([.poke (some .doc)] ++ retried.tail) :=
    guarded_of_checks (by decide)
  exact ⟨_, _, rfl, rfl, by decide, by decide, saves_keep hg rfl rfl⟩

/-! ## What is lost -/

/-- Two saves under way; the first goes on behind the second. -/
def overtaken : List Act :=
  [.poke (some .doc), .flushAsync, .enter 0 false, .begin 0, .exported 0 true, .poke (some .doc),
    .flushAsync, .enter 1 false, .begin 1, .exported 1 true, .resume 1 true]

/-- A change between the end of a save and its timer. -/
def overlooked : List Act :=
  [.poke (some .doc), .quiet 0, .due 0 true, .enter 0 false, .begin 0, .exported 0 true,
    .resume 0 true, .poke (some .doc), .back 0]

/-- **A save that was superseded replaces the file of the one that superseded it**, and a timer
clears the mark of a change that its save does not have. -/
theorem saves_lose :
    (∃ s s', exec Saver.step (.new true) overtaken = some s ∧ s.step (.resume 0 true) = some s' ∧
      s.file = ⟨2, 0⟩ ∧ s'.file = ⟨1, 0⟩ ∧ s'.dirty = false ∧ s'.poked = ⟨2, 0⟩) ∧
    ∃ s, exec Saver.step (.new true) overlooked = some s ∧ s.dirty = false ∧ s.file = ⟨1, 0⟩ ∧
      s.poked = ⟨2, 0⟩ :=
  ⟨⟨_, _, rfl, rfl, by decide, by decide, by decide, by decide⟩,
    ⟨_, rfl, by decide, by decide, by decide⟩⟩

end Zeron.Phone.DocSaver
