import Zeron.Sidebar.Doc

/-!
# Rejected sidebar changes

What a sidebar change that returns an error leaves behind.

* `Untouched`: the same queue, the same clock, the same lists;
* `FailsEarly`: the change fails at a check that comes before the first write or tick;
* `initialize_moves`, `placePin_moves`: past those checks the clock has moved;
* **`rejected_untouched`**; `assign_leaves_trace`: an assignment to a missing section.
-/

namespace Zeron.Sidebar

open Registry

variable {t t' : Clocked}

/-- What a change can be seen by. -/
structure Untouched (t t' : Clocked) : Prop where
  pending : t'.doc.pending = t.doc.pending
  clock : t'.doc.clock = t.doc.clock
  preferences : sidebarPreferences t'.doc = sidebarPreferences t.doc

theorem Untouched.refl (t : Clocked) : Untouched t t := ⟨rfl, rfl, rfl⟩

/-- The replica's clock has moved up. -/
def Ticked (t t' : Clocked) : Prop := t.doc.clock.ticks < t'.doc.clock.ticks

theorem Ticked.not_untouched (h : Ticked t t') : ¬ Untouched t t' := by
  intro hu
  rw [Ticked, hu.clock] at h
  exact absurd h (lt_irrefl _)

/-! ## Clocks -/

theorem ticks_observe (t : Clocked) (kind id : String) :
    t.doc.clock.ticks ≤ (t.observe kind id).doc.clock.ticks := by
  simp only [Clocked.observe, observeRow]
  split
  · exact le_rfl
  · split_ifs with hnewer
    · simp only [HlcClock.ticks, Prod.Lex.toLex_le_toLex]
      omega
    · exact le_rfl

theorem ticks_nextHlc (t : Clocked) : t.doc.clock.ticks < t.nextHlc.1.doc.clock.ticks :=
  ticks_lt_next t.doc.clock (t.now 0) t.doc.deviceId

theorem ticks_enqueue (t : Clocked) (op : RowOp) :
    t.doc.clock.ticks ≤ (t.enqueue op).doc.clock.ticks := by
  obtain ⟨batches, h⟩ := enqueueOps_spec t.doc t.now [op]
  exact h.ticks

theorem ticks_write (t : Clocked) (kind id : String) (set : SMap Json) :
    t.doc.clock.ticks < (t.write kind id set).doc.clock.ticks :=
  (ticks_nextHlc t).trans_le (ticks_enqueue _ _)

theorem ticks_ready (t : Clocked) :
    t.doc.clock.ticks ≤ t.initializeSidebarPins.doc.clock.ticks := by
  unfold Clocked.initializeSidebarPins
  split_ifs
  · exact le_rfl
  · exact (ticks_write t _ _ _).le

theorem initialize_moves (h : sidebarPinsInitialized t.doc = false) :
    Ticked t t.initializeSidebarPins := by
  unfold Clocked.initializeSidebarPins
  rw [h]
  exact ticks_write t _ _ _

theorem initialize_same (h : sidebarPinsInitialized t.doc = true) :
    t.initializeSidebarPins = t :=
  if_pos h

theorem ticks_observeSession (t : Clocked) (id : String) :
    t.doc.clock.ticks ≤ (t.observeSession id).doc.clock.ticks :=
  (ticks_observe t _ id).trans (ticks_observe _ _ id)

/-! ## The changes -/

theorem placePin_moves {id : String} {next : List String} {pinned : Bool} {e : String}
    (h : (t.placePin id next pinned).2 = some e) : Ticked t (t.placePin id next pinned).1 := by
  unfold Clocked.placePin at h ⊢
  dsimp only at h ⊢
  split
  · exact ticks_nextHlc t
  · rename_i key hkey
    simp [hkey] at h

/-- The checks that come before the first write. -/
def FailsEarly (t : Clocked) : SidebarPinChange → Prop
  | .section change => checkSection change ≠ none ∨ sidebarPinsInitialized t.doc = true
  | .pin id _ _ => validId id = false ∨ id ∉ t.current ∧ maxSidebarPins ≤ t.current.length ∨
      t.doc.overlayRow ⟨kindChats, id⟩ = none
  | .move id _ _ | .unpin id => validId id = false

theorem section_untouched {change : SidebarSectionChange} {e : String}
    (h : (t.changeSidebarSection change).2 = some e) :
    Untouched t (t.changeSidebarSection change).1 ↔ FailsEarly t (.section change) := by
  unfold Clocked.changeSidebarSection at h ⊢
  cases hcheck : checkSection change with
  | some error => simp [FailsEarly, hcheck, Untouched.refl]
  | none =>
    have hiff : FailsEarly t (.section change) ↔ sidebarPinsInitialized t.doc = true := by
      simp [FailsEarly, hcheck]
    rw [hiff]
    rw [hcheck] at h
    cases change with
    | assign sessionId sectionId =>
      -- the only change that fails after the checks, and then with nothing more written
      have hsame : (t.initializeSidebarPins.assignSession sessionId sectionId).1 =
          t.initializeSidebarPins := by
        dsimp only at h
        unfold Clocked.assignSession at h ⊢
        split_ifs at h ⊢
        · rfl
        · rfl
        · cases sectionId <;> simp at h
      dsimp only
      rw [hsame]
      cases hinit : sidebarPinsInitialized t.doc with
      | true => simp [initialize_same hinit, Untouched.refl]
      | false => simp [(initialize_moves hinit).not_untouched]
    | _ => simp at h

/-- **A rejected change leaves no trace exactly where it fails before the first write.** -/
theorem rejected_untouched {change : SidebarPinChange} {e : String}
    (h : (t.changeSidebarPin change).2 = some e) :
    Untouched t (t.changeSidebarPin change).1 ↔ FailsEarly t change := by
  cases change with
  | «section» change => exact section_untouched h
  | pin id after before =>
    simp only [Clocked.changeSidebarPin, Bool.not_eq_true', Option.isNone_iff_eq_none] at h ⊢
    split_ifs at h ⊢ with hid hfull hchat
    · simp [FailsEarly, hid, Untouched.refl]
    · simp [FailsEarly, hfull, Untouched.refl]
    · simp [FailsEarly, hchat, Untouched.refl]
    · have hmoved : Ticked t _ := ((ticks_ready t).trans (ticks_observeSession _ id)).trans_lt
        (placePin_moves h)
      simp only [FailsEarly, hid, hfull, hchat, Bool.true_eq_false, or_false, iff_false]
      exact hmoved.not_untouched
  | move id after before =>
    simp only [Clocked.changeSidebarPin, Bool.not_eq_true'] at h ⊢
    split_ifs at h ⊢ with hid hmem
    · simp [FailsEarly, hid, Untouched.refl]
    · have hmoved : Ticked t _ := ((ticks_ready t).trans (ticks_observeSession _ id)).trans_lt
        (placePin_moves h)
      simp only [FailsEarly, hid, Bool.true_eq_false, iff_false]
      exact hmoved.not_untouched
  | unpin id =>
    simp only [Clocked.changeSidebarPin, Bool.not_eq_true'] at h ⊢
    split_ifs at h ⊢ with hid
    simp [FailsEarly, hid, Untouched.refl]

theorem rejected_untouched_missing :
    Untouched (⟨.new "a", fun _ => 5⟩ : Clocked)
      (Clocked.changeSidebarPin ⟨.new "a", fun _ => 5⟩ (.pin "s" none none)).1 :=
  (rejected_untouched (e := "Session no longer exists") (by decide +kernel)).mpr
    (Or.inr (Or.inr (by decide +kernel)))

/-- **An assignment to a missing section marks the sidebar as ready.** -/
theorem assign_leaves_trace : ¬ ∀ (t : Clocked) (change : SidebarPinChange) (e : String),
    (t.changeSidebarPin change).2 = some e → Untouched t (t.changeSidebarPin change).1 := by
  intro hall
  have hsame := hall ⟨.new "a", fun _ => 5⟩ (.section (.assign "s" (some "x")))
    "Section no longer exists" (by decide +kernel)
  exact absurd hsame.pending (by decide +kernel)

end Zeron.Sidebar
