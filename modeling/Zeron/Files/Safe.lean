import Zeron.Files.Told

/-!
# Saves under the lock

* `Inv`: the lock, the temporary files and the events, in every reachable state;
* **`Inv.of_frame`**: one request moves, the others see no more of it than its events;
* **`inv_move`, `inv_step`, `inv_run`**: every system call of a save keeps it.
-/

namespace Zeron.Files

/-! ## The invariant -/

/-- It has an `Arc` of a lock. -/
def Phase.alive (phase : Phase) : Bool := decide (phase = .waiting) || phase.running

/-- A temporary file may be there. -/
def Phase.holdsTemp : Phase → Bool
  | .prepare _ | .second _ _ | .replace _ => true
  | _ => false

theorem Phase.alive_of_running {phase : Phase} (h : phase.running = true) : phase.alive = true := by
  rw [Phase.alive, h, Bool.or_true]

section Inv

variable (hash : Bytes → String) (req : ℕ → WriteRequest) (checkoutId : String) (initial : Place)

structure Inv (w : World) : Prop where
  place_eq : w.place = placeAt initial w.history
  live : ∀ id, id ∈ w.live ↔ (w.jobs id).phase.alive = true
  nodup : w.live.Nodup
  lock : ∀ id ∈ w.live, w.slot = some (w.jobs id).lock
  /-- The lock does its work. -/
  alone : ∀ {id other}, (w.jobs id).phase.running = true → (w.jobs other).phase.running = true →
    id = other
  encoded : ∀ id, (w.jobs id).phase.alive = true ∨ (∃ c n m, (w.jobs id).phase = .done
    (.ok (.written c n m))) → encodeWriteText (req id) = .ok (w.jobs id).bytes
  temps : ∀ id, w.temps id ≠ none → (w.jobs id).phase.holdsTemp = true ∨ .leftover id ∈ w.history
  told : ∀ id, Told hash initial (req id).expectedContentHash (w.jobs id).bytes w.place w.history id
    (w.jobs id).phase

theorem inv_start : Inv hash req initial (World.start initial) where
  place_eq := rfl
  live id := ⟨fun h => absurd h List.not_mem_nil, fun h => by cases h⟩
  nodup := List.nodup_nil
  lock id h := absurd h List.not_mem_nil
  alone h := by cases h
  encoded id h := by
    rcases h with h | ⟨c, n, m, h⟩
    · cases h
    · cases h
  temps id h := absurd rfl h
  told id place h := absurd h List.not_mem_nil

variable {hash req checkoutId initial} {w : World} {id : ℕ}

/-- What a step of one request may do to the rest of the world. -/
structure Frame (w w' : World) (id : ℕ) (events : List Event) : Prop where
  history : w'.history = w.history ++ events
  /-- A rename is the request's own, under the lock. -/
  own : (∀ event ∈ events, event.publishes = false) ∧ w'.place = w.place ∨
    (w.jobs id).phase.running = true ∧ ∀ other ≠ id, Untouched events other
  jobs : ∀ other ≠ id, w'.jobs other = w.jobs other
  temps : ∀ other ≠ id, w'.temps other = w.temps other

/-- **One request moves.** What remains to show is about that request alone. -/
theorem Inv.of_frame (h : Inv hash req initial w) (id : ℕ) {w' : World} {events : List Event}
    (frame : Frame w w' id events)
    (hplace : w'.place = placeAt initial w'.history)
    (hlive : w'.live = w.live ∧ (w'.jobs id).phase.alive = (w.jobs id).phase.alive ∨
      w'.live = w.live.erase id ∧ (w'.jobs id).phase.alive = false ∨
      w'.live = id :: w.live ∧ (w.jobs id).phase.alive = false ∧ (w'.jobs id).phase.alive = true)
    (hlock : ∀ other ∈ w'.live, w'.slot = some (w'.jobs other).lock)
    (hrun : (w'.jobs id).phase.running = true → ∀ other ≠ id, (w.jobs other).phase.running = false)
    (hencoded : (w'.jobs id).phase.alive = true ∨ (∃ c n m, (w'.jobs id).phase = .done
      (.ok (.written c n m))) → encodeWriteText (req id) = .ok (w'.jobs id).bytes)
    (htemp : w'.temps id ≠ none → (w'.jobs id).phase.holdsTemp = true ∨ .leftover id ∈ w'.history)
    (htold : Told hash initial (req id).expectedContentHash (w'.jobs id).bytes w'.place w'.history
      id (w'.jobs id).phase) :
    Inv hash req initial w' where
  place_eq := hplace
  live other := by
    by_cases hother : other = id
    · subst hother
      rcases hlive with ⟨hl, ha⟩ | ⟨hl, ha⟩ | ⟨hl, -, ha⟩
      · rw [hl, ha]
        exact h.live other
      · rw [hl, ha]
        exact ⟨fun hmem => absurd hmem h.nodup.not_mem_erase, fun hfalse => by cases hfalse⟩
      · rw [hl, ha]
        exact ⟨fun _ => rfl, fun _ => List.mem_cons_self⟩
    · rw [frame.jobs other hother, ← h.live other]
      rcases hlive with ⟨hl, -⟩ | ⟨hl, -⟩ | ⟨hl, -⟩
      · rw [hl]
      · rw [hl, List.mem_erase_of_ne hother]
      · rw [hl, List.mem_cons, or_iff_right hother]
  nodup := by
    rcases hlive with ⟨hl, -⟩ | ⟨hl, -⟩ | ⟨hl, ha, -⟩
    · rw [hl]
      exact h.nodup
    · rw [hl]
      exact h.nodup.erase id
    · rw [hl, List.nodup_cons]
      refine ⟨fun hmem => ?_, h.nodup⟩
      rw [(h.live id).mp hmem] at ha
      cases ha
  lock := hlock
  alone {i j} hi hj := by
    by_cases hid : i = id <;> by_cases hjd : j = id
    · rw [hid, hjd]
    · subst hid
      rw [frame.jobs j hjd] at hj
      rw [hrun hi j hjd] at hj
      cases hj
    · subst hjd
      rw [frame.jobs i hid] at hi
      rw [hrun hj i hid] at hi
      cases hi
    · rw [frame.jobs i hid] at hi
      rw [frame.jobs j hjd] at hj
      exact h.alone hi hj
  encoded other hother := by
    by_cases hid : other = id
    · subst hid
      exact hencoded hother
    · rw [frame.jobs other hid] at hother ⊢
      exact h.encoded other hother
  temps other hother := by
    by_cases hid : other = id
    · subst hid
      exact htemp hother
    · rw [frame.temps other hid] at hother
      rw [frame.jobs other hid, frame.history]
      exact (h.temps other hother).imp_right (List.mem_append_left _)
  told other := by
    by_cases hid : other = id
    · subst hid
      exact htold
    · rw [frame.jobs other hid, frame.history]
      rcases frame.own with ⟨hquiet, hplace'⟩ | ⟨hrun', hun⟩
      · exact (h.told other).quiet hquiet (.inl hplace')
      · refine (h.told other).append (hun other hid) (Bool.eq_false_iff.mpr fun hr => hid ?_)
        exact h.alone hr hrun'

@[simp] theorem setJob_jobs (w : World) (id : ℕ) (job : Job) : (w.setJob id job).jobs id = job := by
  show Function.update w.jobs id job id = job
  rw [Function.update_self]

theorem setJob_other (w : World) {id other : ℕ} (job : Job) (h : other ≠ id) :
    (w.setJob id job).jobs other = w.jobs other := by
  show Function.update w.jobs id job other = w.jobs other
  rw [Function.update_of_ne h]

@[simp] theorem setPhase_jobs (w : World) (id : ℕ) (phase : Phase) :
    (w.setPhase id phase).jobs id = { w.jobs id with phase } :=
  setJob_jobs w id _

theorem setPhase_other (w : World) {id other : ℕ} (phase : Phase) (h : other ≠ id) :
    (w.setPhase id phase).jobs other = w.jobs other :=
  setJob_other w _ h

theorem Inv.others (h : Inv hash req initial w) (hrun : (w.jobs id).phase.running = true)
    {other : ℕ} (hother : other ≠ id) : (w.jobs other).phase.running = false :=
  Bool.eq_false_iff.mpr fun hr => hother (h.alone hr hrun)

theorem Inv.advance (h : Inv hash req initial w) (hrun : (w.jobs id).phase.running = true)
    {place : Place} {temps : ℕ → Option Temp} {events : List Event} {phase : Phase}
    (hrun' : phase.running = true) (hplace : place = placeAt initial (w.history ++ events))
    (hown : ∀ other ≠ id, Untouched events other)
    (htemps : ∀ other ≠ id, temps other = w.temps other)
    (htemp : temps id ≠ none → phase.holdsTemp = true ∨ .leftover id ∈ w.history ++ events)
    (htold : Told hash initial (req id).expectedContentHash (w.jobs id).bytes place
      (w.history ++ events) id phase) :
    Inv hash req initial
      (({ w with place, temps }.emit events).setPhase id phase) := by
  have halive := Phase.alive_of_running hrun
  have halive' := Phase.alive_of_running hrun'
  refine h.of_frame id
    ⟨rfl, .inr ⟨hrun, hown⟩, fun other hother => setPhase_other _ _ hother, htemps⟩ hplace
    (.inl ⟨rfl, ?_⟩) (fun other hmem => ?_) (fun _ other hother => h.others hrun hother)
    (fun _ => ?_) (fun htemp' => ?_) ?_
  · rw [setPhase_jobs, halive]
    exact halive'
  · by_cases hother : other = id
    · subst hother
      rw [setPhase_jobs]
      exact h.lock other hmem
    · rw [setPhase_other _ _ hother]
      exact h.lock other hmem
  · rw [setPhase_jobs]
    exact h.encoded id (.inl halive)
  · rw [setPhase_jobs]
    exact htemp htemp'
  · rw [setPhase_jobs]
    exact htold

/-- **The end of a request.** The temporary file goes, or it is left over. -/
theorem Inv.finish (h : Inv hash req initial w) (hrun : (w.jobs id).phase.running = true)
    {result : Result} (removed : Bool)
    (htold : Told hash initial (req id).expectedContentHash (w.jobs id).bytes w.place w.history id
      (.done result)) :
    Inv hash req initial (w.finish id result removed) := by
  have halive := Phase.alive_of_running hrun
  have hquiet : ∀ event ∈ (if ((w.temps id).isSome && !removed) = true then
      [Event.leftover id] else []), event.publishes = false := by
    intro event hmem
    split_ifs at hmem
    · rw [List.mem_singleton.mp hmem]
      rfl
    · exact absurd hmem List.not_mem_nil
  have hplace : w.place = placeAt initial (w.history ++
      (if ((w.temps id).isSome && !removed) = true then [Event.leftover id] else [])) := by
    rw [placeAt_append, ← h.place_eq]
    split_ifs <;> rfl
  refine h.of_frame id
    ⟨rfl, .inl ⟨hquiet, rfl⟩, fun other hother => setPhase_other _ _ hother,
      fun other hother => ?_⟩ hplace (.inr (.inl ⟨rfl, ?_⟩)) (fun other hmem => ?_) (fun hr => ?_)
    (fun _ => ?_) (fun htemp => ?_) ?_
  · show (if ((w.temps id).isSome && !removed) = true then w.temps
      else Function.update w.temps id none) other = w.temps other
    split_ifs
    · rfl
    · rw [Function.update_of_ne hother]
  · rw [World.finish, setPhase_jobs]
    rfl
  · have hmem' := (h.nodup.mem_erase_iff).mp hmem
    rw [World.finish, setPhase_other _ _ hmem'.1]
    exact h.lock other hmem'.2
  · rw [World.finish, setPhase_jobs] at hr
    cases hr
  · rw [World.finish, setPhase_jobs]
    exact h.encoded id (.inl halive)
  · right
    have hleft : ((w.temps id).isSome && !removed) = true := by
      by_contra hno
      apply htemp
      show (if ((w.temps id).isSome && !removed) = true then w.temps
        else Function.update w.temps id none) id = none
      rw [if_neg hno, Function.update_self]
    show Event.leftover id ∈ w.history ++ _
    rw [if_pos hleft]
    exact List.mem_append_right _ List.mem_cons_self
  · rw [World.finish, setPhase_jobs]
    exact htold.quiet hquiet (.inl rfl)

theorem Inv.giveUp (h : Inv hash req initial w) (hrun : (w.jobs id).phase.running = true)
    (hv : (w.jobs id).phase ≠ .verify) (hr : ∀ m, (w.jobs id).phase ≠ .reread m) {result : Result}
    (removed : Bool) (hresult : ∀ c n m, result ≠ .ok (.written c n m)) :
    Inv hash req initial (w.finish id result removed) :=
  h.finish hrun removed (.of_untouched ((h.told id).untouched hrun hv hr) hresult)

theorem revisionResult_ne (error : Error) (c : String) (n : ℕ) (m : Option ℕ) :
    revisionResult error ≠ .ok (.written c n m) := by
  cases error with
  | unsupported message =>
    rw [revisionResult]
    split_ifs <;> exact fun h => by cases h
  | _ => exact fun h => by cases h

end Inv

/-! ## The system calls -/

theorem content_of_read {place : Place} {fault : Option String} {bytes : Bytes}
    (h : place.read fault = .ok bytes) : fault = none ∧ place.content = some bytes := by
  unfold Place.read at h
  split at h
  · rename_i hcontent
    obtain rfl := Except.ok.inj h
    exact ⟨rfl, hcontent⟩
  · cases h
  · cases h

theorem whole_of_checked {place : Place} {fault : Option String} {metadata : Meta}
    (h : place.checkedFileMetadata fault = .ok metadata) : place.Whole := by
  cases fault with
  | none => exact ⟨metadata, h⟩
  | some message => cases h

theorem next_read {probe : Probe} {place : Place} {fault : Option String} {metadata : Meta}
    {bytes : Bytes} (h : probe.next place fault = .ok (.inl (.read metadata bytes))) :
    place.content = some bytes := by
  cases probe with
  | start =>
    rw [Probe.next] at h
    rcases hlook : place.checkedFileMetadata fault with error | found
    · rw [hlook] at h
      cases h
    · rw [hlook] at h
      dsimp only [bind, Except.bind] at h
      split_ifs at h
      cases h
  | opened found =>
    rw [Probe.next] at h
    rcases hread : place.read fault with error | content
    · rw [hread] at h
      cases h
    · rw [hread] at h
      obtain ⟨rfl, rfl⟩ := Probe.read.inj (Sum.inl.inj (Except.ok.inj h))
      exact (content_of_read hread).2
  | read before content =>
    rw [Probe.next] at h
    rcases hlook : place.checkedFileMetadata fault with error | found
    · rw [hlook] at h
      cases h
    · rw [hlook] at h
      dsimp only [bind, Except.bind] at h
      split_ifs at h
      cases h

theorem next_revision {probe : Probe} {place : Place} {fault : Option String} {after : Meta}
    {bytes : Bytes} (h : probe.next place fault = .ok (.inr (after, bytes))) :
    (∃ before, probe = .read before bytes) ∧ place.Whole := by
  cases probe with
  | start =>
    rw [Probe.next] at h
    rcases hlook : place.checkedFileMetadata fault with error | found
    · rw [hlook] at h
      cases h
    · rw [hlook] at h
      dsimp only [bind, Except.bind] at h
      split_ifs at h
      cases h
  | opened found =>
    rw [Probe.next] at h
    rcases hread : place.read fault with error | content
    · rw [hread] at h
      cases h
    · rw [hread] at h
      cases h
  | read before content =>
    rw [Probe.next] at h
    rcases hlook : place.checkedFileMetadata fault with error | found
    · rw [hlook] at h
      cases h
    · rw [hlook] at h
      dsimp only [bind, Except.bind] at h
      split_ifs at h
      obtain ⟨rfl, rfl⟩ := Prod.mk.inj (Sum.inr.inj (Except.ok.inj h))
      exact ⟨⟨before, rfl⟩, whole_of_checked hlook⟩

theorem Place.Whole.file {place : Place} (h : place.Whole) (metadata : Meta) (content : Bytes) :
    { place with leaf := .file metadata content }.Whole := by
  obtain ⟨found, h⟩ := h
  refine ⟨metadata, ?_⟩
  rw [Place.checkedFileMetadata] at h ⊢
  dsimp only [bind, Except.bind] at h ⊢
  rcases hparents : checkedParents place.parents with error | _
  · rw [hparents] at h
    cases h
  · rw [hparents] at h
    dsimp only at h ⊢
    rcases hleaf : checkedLeaf place.leaf with error | found'
    · rw [hleaf] at h
      cases h
    · rw [hleaf] at h
      dsimp only at h
      split_ifs at h with hescaped
      rw [checkedLeaf]
      dsimp only
      rw [if_neg hescaped]

section Moves

variable {hash : Bytes → String} {req : ℕ → WriteRequest} {checkoutId : String} {initial : Place}
  {w w' : World} {id : ℕ} {fault : Option String} {stamp : Meta} {removed : Bool}

theorem Inv.setPhase (h : Inv hash req initial w) (hrun : (w.jobs id).phase.running = true)
    {temps : ℕ → Option Temp} {phase : Phase} (hrun' : phase.running = true)
    (htemps : ∀ other ≠ id, temps other = w.temps other)
    (htemp : temps id ≠ none → phase.holdsTemp = true ∨ .leftover id ∈ w.history)
    (htold : Told hash initial (req id).expectedContentHash (w.jobs id).bytes w.place w.history id
      phase) :
    Inv hash req initial ({ w with temps }.setPhase id phase) := by
  have hnil : w.history ++ [] = w.history := List.append_nil _
  have hnext : Inv hash req initial
      (({ w with place := w.place, temps }.emit []).setPhase id phase) :=
    h.advance hrun hrun' (by rw [hnil]; exact h.place_eq)
      (fun other _ place hmem => absurd hmem List.not_mem_nil) htemps (by rwa [hnil])
      (by rwa [hnil])
  rw [World.emit] at hnext
  dsimp only at hnext
  rwa [hnil] at hnext

theorem Inv.emit (h : Inv hash req initial w) {events : List Event}
    (he : ∀ event ∈ events, event.publishes = false) (hplace : placeAt w.place events = w.place) :
    Inv hash req initial (w.emit events) where
  place_eq := by
    show w.place = placeAt initial (w.history ++ events)
    rw [placeAt_append, ← h.place_eq, hplace]
  live := h.live
  nodup := h.nodup
  lock := h.lock
  alone := h.alone
  encoded := h.encoded
  temps id hid := (h.temps id hid).imp_right (List.mem_append_left _)
  told id := (h.told id).quiet he (.inl rfl)

theorem inv_compare (h : Inv hash req initial w) {probe : Probe}
    (hphase : (w.jobs id).phase = .first probe) (metadata : Meta) (bytes : Bytes) :
    Inv hash req initial (w.compare hash req id metadata bytes removed) := by
  have hrun : (w.jobs id).phase.running = true := by rw [hphase]; rfl
  have hv : (w.jobs id).phase ≠ .verify := by rw [hphase]; exact fun hno => by cases hno
  have hr : ∀ m, (w.jobs id).phase ≠ .reread m := by
    rw [hphase]
    exact fun m hno => by cases hno
  rw [World.compare]
  split
  · exact h.giveUp hrun hv hr removed fun c n m hno => by cases hno
  · split_ifs
    · exact h.giveUp hrun hv hr removed fun c n m hno => by cases hno
    · exact h.giveUp hrun hv hr removed fun c n m hno => by cases hno
    · refine h.setPhase hrun rfl (fun _ _ => rfl) (fun ht => .inr ?_)
        ((h.told id).untouched hrun hv hr)
      have htemp := h.temps id ht
      rw [hphase] at htemp
      exact htemp.resolve_left fun hno => by cases hno

theorem inv_recompare (h : Inv hash req initial w) {metadata before : Meta} {bytes : Bytes}
    (hphase : (w.jobs id).phase = .second metadata (.read before bytes)) (hwhole : w.place.Whole)
    (latest : Meta) :
    Inv hash req initial (w.recompare hash req id metadata latest bytes removed) := by
  have hrun : (w.jobs id).phase.running = true := by rw [hphase]; rfl
  have hv : (w.jobs id).phase ≠ .verify := by rw [hphase]; exact fun hno => by cases hno
  have hr : ∀ m, (w.jobs id).phase ≠ .reread m := by
    rw [hphase]
    exact fun m hno => by cases hno
  rw [World.recompare]
  split
  · exact h.giveUp hrun hv hr removed fun c n m hno => by cases hno
  · split_ifs with hcmp
    · exact h.giveUp hrun hv hr removed fun c n m hno => by cases hno
    · have htold := h.told id
      rw [hphase] at htold
      obtain ⟨hun, pre, mid, hsince⟩ := htold
      rw [not_or, not_not] at hcmp
      refine h.setPhase hrun rfl (fun _ _ => rfl) (fun _ => .inl rfl)
        ⟨hun, bytes, pre, mid, hsince, hcmp.1, .inr hwhole⟩

theorem inv_replace (h : Inv hash req initial w) {metadata : Meta}
    (hphase : (w.jobs id).phase = .replace metadata) :
    Inv hash req initial (w.replace id metadata stamp) := by
  have hrun : (w.jobs id).phase.running = true := by rw [hphase]; rfl
  have htold := h.told id
  rw [hphase] at htold
  obtain ⟨hun, content, pre, mid, hsince, hhash, hor⟩ := htold
  rw [World.replace]
  refine h.advance hrun rfl ?_ (fun other hother place hmem => ?_)
    (fun other hother => Function.update_of_ne hother _ _) (fun ht => absurd ?_ ht)
    ⟨pre, mid, [], _, hsince.swap hun hhash rfl, ?_⟩
  · rw [placeAt_append]
    rfl
  · exact hother (Event.published.inj (List.mem_singleton.mp hmem)).1
  · exact Function.update_self ..
  · rw [List.append_nil]
    exact hor.imp_right fun hwhole => ⟨hwhole.file _ _, rfl⟩

/-- **The verification.** It fails after a disturbance only. -/
theorem inv_verify (fault : Option String) (removed : Bool) (h : Inv hash req initial w)
    (hphase : (w.jobs id).phase = .verify ∨ ∃ m, (w.jobs id).phase = .reread m) :
    Inv hash req initial (w.emit (if fault.isSome then [.unverified id] else [])) ∧
    ∀ error : Error, (w.place.Whole → w.place.content = some (w.jobs id).bytes →
        fault.isSome = true) →
      Inv hash req initial ((w.emit (if fault.isSome then [.unverified id] else [])).finish id
        (.error error) removed) := by
  have hrun : (w.jobs id).phase.running = true := by
    rcases hphase with hphase | ⟨m, hphase⟩ <;> rw [hphase] <;> rfl
  have hquiet : ∀ event ∈ (if fault.isSome then [Event.unverified id] else []),
      event.publishes = false := by
    intro event hmem
    split_ifs at hmem
    · rw [List.mem_singleton.mp hmem]
      rfl
    · exact absurd hmem List.not_mem_nil
  have hkeep : placeAt w.place (if fault.isSome then [Event.unverified id] else []) = w.place := by
    split_ifs <;> rfl
  have hun : Untouched (if fault.isSome then [Event.unverified id] else []) id :=
    fun place hmem => by cases hquiet _ hmem
  have hemit := h.emit hquiet hkeep
  refine ⟨hemit, fun error hcause => hemit.finish hrun removed ?_⟩
  have htold : ∃ pre mid post written, Swap hash initial (req id).expectedContentHash
      (w.jobs id).bytes w.history id pre mid post written ∧ (Disturbed id (mid ++ post) ∨
        (w.place.Whole ∧ w.place.content = some (w.jobs id).bytes)) := by
    have htold := h.told id
    rcases hphase with hphase | ⟨m, hphase⟩ <;> rw [hphase] at htold <;> exact htold
  obtain ⟨pre, mid, post, written, hswap, hor⟩ := htold
  refine .inr ⟨pre, mid, _, written, hswap.append hun, ?_⟩
  rw [← List.append_assoc]
  rcases hor with hdist | ⟨hwhole, hcontent⟩
  · exact hdist.mono (List.subset_append_left _ _)
  · rw [if_pos (hcause hwhole hcontent)]
    exact .inr (List.mem_append_right _ List.mem_cons_self)

theorem inv_move (h : Inv hash req initial w)
    (hstep : w.move hash req id fault stamp removed = some w') : Inv hash req initial w' := by
  have htemps : ∀ {phase : Phase}, (w.jobs id).phase = phase → phase.holdsTemp = false →
      w.temps id ≠ none → .leftover id ∈ w.history := by
    intro phase hphase hholds ht
    exact (h.temps id ht).resolve_left fun hno => by rw [hphase, hholds] at hno; cases hno
  rw [World.move] at hstep
  split at hstep
  case h_1 probe hphase =>
    have hrun : (w.jobs id).phase.running = true := by rw [hphase]; rfl
    split at hstep
    · obtain rfl := Option.some.inj hstep
      exact h.giveUp hrun (by rw [hphase]; exact fun hno => by cases hno)
        (by rw [hphase]; exact fun m hno => by cases hno) removed (revisionResult_ne _)
    · obtain rfl := Option.some.inj hstep
      have hun := h.told id
      rw [hphase] at hun
      exact h.setPhase hrun rfl (fun _ _ => rfl) (fun ht => .inr (htemps hphase rfl ht)) hun
    · obtain rfl := Option.some.inj hstep
      exact inv_compare h hphase _ _
  case h_2 metadata hphase =>
    have hrun : (w.jobs id).phase.running = true := by rw [hphase]; rfl
    split at hstep
    · obtain rfl := Option.some.inj hstep
      exact h.giveUp hrun (by rw [hphase]; exact fun hno => by cases hno)
        (by rw [hphase]; exact fun m hno => by cases hno) removed fun c n m hno => by cases hno
    · obtain rfl := Option.some.inj hstep
      have hun := h.told id
      rw [hphase] at hun
      exact h.setPhase hrun rfl (fun other hother => Function.update_of_ne hother _ _)
        (fun _ => .inl rfl) hun
  case h_3 metadata hphase =>
    have hrun : (w.jobs id).phase.running = true := by rw [hphase]; rfl
    have hun := h.told id
    rw [hphase] at hun
    split at hstep
    · obtain rfl := Option.some.inj hstep
      exact h.giveUp hrun (by rw [hphase]; exact fun hno => by cases hno)
        (by rw [hphase]; exact fun m hno => by cases hno) removed fun c n m hno => by cases hno
    · -- the temporary file is written, then the flag is read
      have hwritten : ∀ temp, Inv hash req initial
          { w with temps := Function.update w.temps id (some temp) } := by
        intro temp
        refine { h with temps := fun other ht => ?_ }
        by_cases hother : other = id
        · subst hother
          exact .inl (by rw [hphase]; rfl)
        · have ht' : Function.update w.temps id (some temp) other ≠ none := ht
          rw [Function.update_of_ne hother] at ht'
          exact h.temps other ht'
      dsimp only at hstep
      split_ifs at hstep
      · obtain rfl := Option.some.inj hstep
        exact (hwritten _).giveUp hrun (by rw [hphase]; exact fun hno => by cases hno)
          (by rw [hphase]; exact fun m hno => by cases hno) removed fun c n m hno => by cases hno
      · obtain rfl := Option.some.inj hstep
        exact (hwritten _).setPhase hrun rfl (fun _ _ => rfl) (fun _ => .inl rfl) hun
  case h_4 metadata probe hphase =>
    have hrun : (w.jobs id).phase.running = true := by rw [hphase]; rfl
    have hv : (w.jobs id).phase ≠ .verify := by rw [hphase]; exact fun hno => by cases hno
    have hr : ∀ m, (w.jobs id).phase ≠ .reread m := by
      rw [hphase]
      exact fun m hno => by cases hno
    have hun := (h.told id).untouched hrun hv hr
    split at hstep
    · obtain rfl := Option.some.inj hstep
      exact h.giveUp hrun hv hr removed (revisionResult_ne _)
    · rename_i before bytes hnext
      obtain rfl := Option.some.inj hstep
      -- the final check finds what is there now
      have hfound : (placeAt initial w.history).content = some bytes := by
        rw [← h.place_eq]
        exact next_read hnext
      have hchecked : Untouched [Event.checked id] id :=
        fun place hmem => by cases List.mem_singleton.mp hmem
      exact h.advance hrun rfl (by rw [placeAt_append, ← h.place_eq]; rfl)
        (fun other _ place hmem => by cases List.mem_singleton.mp hmem) (fun _ _ => rfl)
        (fun _ => .inl rfl)
        ⟨hun.append hchecked, w.history, [], rfl, hfound, fun event hmem =>
          absurd hmem List.not_mem_nil⟩
    · rename_i probe' hne hnext
      obtain rfl := Option.some.inj hstep
      refine h.setPhase hrun rfl (fun _ _ => rfl) (fun _ => .inl rfl) ?_
      cases probe' with
      | start | opened => exact hun
      | read before bytes => exact absurd rfl (hne before bytes)
    · rename_i latest bytes hnext
      obtain rfl := Option.some.inj hstep
      obtain ⟨⟨before, rfl⟩, hwhole⟩ := next_revision hnext
      exact inv_recompare h hphase hwhole latest
  case h_5 metadata hphase =>
    have hrun : (w.jobs id).phase.running = true := by rw [hphase]; rfl
    have hv : (w.jobs id).phase ≠ .verify := by rw [hphase]; exact fun hno => by cases hno
    have hr : ∀ m, (w.jobs id).phase ≠ .reread m := by
      rw [hphase]
      exact fun m hno => by cases hno
    split at hstep
    · obtain rfl := Option.some.inj hstep
      exact inv_replace h hphase
    · obtain rfl := Option.some.inj hstep
      exact h.giveUp hrun hv hr removed fun c n m hno => by cases hno
    · obtain rfl := Option.some.inj hstep
      exact h.giveUp hrun hv hr removed fun c n m hno => by cases hno
  case h_6 hphase =>
    have hrun : (w.jobs id).phase.running = true := by rw [hphase]; rfl
    obtain ⟨hemit, hfail⟩ := inv_verify fault removed h (.inl hphase)
    dsimp only at hstep
    split at hstep
    · rename_i error hlook
      obtain rfl := Option.some.inj hstep
      refine hfail error fun hwhole _ => ?_
      cases hfault : fault with
      | some message => rfl
      | none =>
        obtain ⟨metadata, hwhole⟩ := hwhole
        rw [hfault] at hlook
        exact absurd (hwhole.symm.trans hlook) (by simp)
    · obtain rfl := Option.some.inj hstep
      have htold := hemit.told id
      rw [show ((w.emit _).jobs id).phase = .verify from hphase] at htold
      exact hemit.setPhase hrun rfl (fun _ _ => rfl)
        (fun ht => .inr (List.mem_append_left _ (htemps hphase rfl ht))) htold
  case h_7 published hphase =>
    have hrun : (w.jobs id).phase.running = true := by rw [hphase]; rfl
    obtain ⟨hemit, hfail⟩ := inv_verify fault removed h (.inr ⟨_, hphase⟩)
    dsimp only at hstep
    generalize (if fault.isSome = true then [Event.unverified id] else []) = events
      at hstep hemit hfail
    split at hstep
    · rename_i error hread
      obtain rfl := Option.some.inj hstep
      refine hfail error fun _ hcontent => ?_
      cases hfault : fault with
      | some message => rfl
      | none =>
        have hread' : w.place.read fault = .error error := hread
        rw [hfault] at hread'
        unfold Place.read at hread'
        rw [hcontent] at hread'
        cases hread'
    · rename_i bytes hread
      obtain ⟨hnone, hcontent⟩ := content_of_read hread
      split at hstep
      · rename_i hcmp
        obtain rfl := Option.some.inj hstep
        refine hfail _ fun _ hcontent' => absurd ?_ hcmp
        exact congrArg hash (Option.some.inj (hcontent.symm.trans hcontent'))
      · rename_i hcmp
        obtain rfl := Option.some.inj hstep
        have htold := hemit.told id
        rw [show ((w.emit _).jobs id).phase = .reread published from hphase] at htold
        obtain ⟨pre, mid, post, written, hswap, -⟩ := htold
        have hdone : Told hash initial (req id).expectedContentHash (w.jobs id).bytes w.place
            (w.emit events).history id
            (.done (.ok (.written (hash bytes) published.len published.modified))) :=
          ⟨not_not.mp hcmp, pre, mid, post, written, hswap⟩
        exact hemit.finish hrun removed hdone
  all_goals cases hstep

theorem Frame.still {w' : World} (hhistory : w'.history = w.history) (hplace : w'.place = w.place)
    (hjobs : ∀ other ≠ id, w'.jobs other = w.jobs other)
    (htemps : w'.temps = w.temps) : Frame w w' id [] where
  history := by rw [hhistory, List.append_nil]
  own := .inl ⟨fun event hmem => absurd hmem List.not_mem_nil, hplace⟩
  jobs := hjobs
  temps other _ := by rw [htemps]

theorem inv_external (h : Inv hash req initial w) (place : Place) :
    Inv hash req initial ({ w with place }.emit [.external place]) where
  place_eq := by
    show place = placeAt initial (w.history ++ [Event.external place])
    rw [placeAt_append]
    rfl
  live := h.live
  nodup := h.nodup
  lock := h.lock
  alone := h.alone
  encoded := h.encoded
  temps id hid := (h.temps id hid).imp_right (List.mem_append_left _)
  told id := by
    refine (h.told id).quiet (fun event hmem => ?_) (.inr (.inl ⟨place, List.mem_singleton_self _⟩))
    rw [List.mem_singleton.mp hmem]
    rfl

theorem Inv.leave (h : Inv hash req initial w) {phase : Phase} (hgone : phase.alive = false)
    (htold : Told hash initial (req id).expectedContentHash (w.jobs id).bytes w.place w.history id
      phase) (hwritten : ∀ c n m, phase ≠ .done (.ok (.written c n m)))
    (hholds : (w.jobs id).phase.holdsTemp = false) :
    Inv hash req initial ({ w with live := w.live.erase id }.setPhase id phase) := by
  refine h.of_frame id (.still rfl rfl (fun other hother => setPhase_other _ _ hother) rfl)
    h.place_eq (.inr (.inl ⟨rfl, ?_⟩)) (fun other hmem => ?_) (fun hr => ?_) (fun hor => ?_)
    (fun ht => .inr ?_) ?_
  · rw [setPhase_jobs]
    exact hgone
  · have hmem' := h.nodup.mem_erase_iff.mp hmem
    rw [setPhase_other _ _ hmem'.1]
    exact h.lock other hmem'.2
  · rw [setPhase_jobs] at hr
    rw [Phase.alive_of_running hr] at hgone
    cases hgone
  · rw [setPhase_jobs] at hor
    rcases hor with hor | ⟨c, n, m, hor⟩
    · rw [hgone] at hor
      cases hor
    · exact absurd hor (hwritten c n m)
  · refine (h.temps id ht).resolve_left fun hno => ?_
    rw [hholds] at hno
    cases hno
  · rw [setPhase_jobs]
    exact htold

/-- The lock of the table is the one of everybody who waits or works. -/
theorem inv_enter (h : Inv hash req initial w) (hphase : (w.jobs id).phase = .idle) :
    Inv hash req initial (w.enter req checkoutId id) := by
  have hun : Untouched w.history id := by
    have htold := h.told id
    rw [hphase] at htold
    exact htold
  have hnot : id ∉ w.live := fun hmem => by
    have halive := (h.live id).mp hmem
    rw [hphase] at halive
    cases halive
  have hholds : (w.jobs id).phase.holdsTemp = false := by rw [hphase]; rfl
  have hrefused : ∀ error : Error, Inv hash req initial (w.setPhase id (.done (.error error))) := by
    intro error
    have hleave := @Inv.leave _ _ _ _ _ h (.done (.error error)) rfl (.inl hun)
      (fun c n m hno => by cases hno) hholds
    rwa [List.erase_of_not_mem hnot] at hleave
  rw [World.enter]
  split
  · exact hrefused _
  · rename_i bytes hbytes
    split_ifs
    · exact hrefused _
    · -- whoever is alive has the lock of the table, so a new one is made for an empty room only
      have henter : ∀ (slot : Option ℕ) (nextLock lock : ℕ), slot = some lock →
          (∀ other ∈ w.live, some (w.jobs other).lock = slot) →
          Inv hash req initial ({ w with slot, nextLock, live := id :: w.live }.setJob id
            { w.jobs id with phase := .waiting, bytes, lock }) := by
        intro slot nextLock lock hslot hall
        refine h.of_frame id
          (.still rfl rfl (fun other hother => setJob_other _ _ hother) rfl) h.place_eq
          (.inr (.inr ⟨rfl, ?_, ?_⟩)) (fun other hmem => ?_) (fun hr => ?_) (fun _ => ?_)
          (fun ht => .inr ?_) ?_
        · rw [hphase]
          rfl
        · rw [setJob_jobs]
          rfl
        · by_cases hother : other = id
          · subst hother
            rw [setJob_jobs]
            exact hslot
          · rw [setJob_other _ _ hother]
            exact (hall other ((List.mem_cons.mp hmem).resolve_left hother)).symm
        · rw [setJob_jobs] at hr
          cases hr
        · rw [setJob_jobs]
          exact hbytes
        · refine (h.temps id ht).resolve_left fun hno => ?_
          rw [hholds] at hno
          cases hno
        · rw [setJob_jobs]
          exact hun
      split
      · rename_i lock hslot
        rw [Option.filter_eq_some_iff] at hslot
        exact henter w.slot w.nextLock lock hslot.1 fun other hmem => (h.lock other hmem).symm
      · rename_i hslot
        rw [Option.filter_eq_none_iff] at hslot
        refine henter (some w.nextLock) (w.nextLock + 1) w.nextLock rfl fun other hmem => ?_
        have hno := hslot _ (h.lock other hmem)
        rw [List.any_eq_true] at hno
        exact absurd ⟨other, hmem, by simp⟩ hno

theorem inv_acquire (h : Inv hash req initial w) (hphase : (w.jobs id).phase = .waiting)
    (hfree : w.lockFree id = true) : Inv hash req initial (w.setPhase id (.first .start)) := by
  have hun := h.told id
  rw [hphase] at hun
  have halive : (w.jobs id).phase.alive = true := by rw [hphase]; rfl
  have hlock := h.lock id ((h.live id).mpr halive)
  refine h.of_frame id (.still rfl rfl (fun other hother => setPhase_other _ _ hother) rfl)
    h.place_eq (.inl ⟨rfl, ?_⟩) (fun other hmem => ?_) (fun _ other hother => ?_) (fun _ => ?_)
    (fun ht => .inr ?_) ?_
  · rw [setPhase_jobs, halive]
    rfl
  · by_cases hother : other = id
    · subst hother
      rw [setPhase_jobs]
      exact hlock
    · rw [setPhase_other _ _ hother]
      exact h.lock other hmem
  · rw [Bool.eq_false_iff]
    intro hr
    have hmem := (h.live other).mpr (Phase.alive_of_running hr)
    have hsame := Option.some.inj ((h.lock other hmem).symm.trans hlock)
    rw [World.lockFree, List.all_eq_true] at hfree
    have hno := hfree other hmem
    rw [hr, hsame] at hno
    simp at hno
  · rw [setPhase_jobs]
    exact h.encoded id (.inl halive)
  · refine (h.temps id ht).resolve_left fun hno => ?_
    rw [hphase] at hno
    cases hno
  · rw [setPhase_jobs]
    exact hun

theorem inv_cancel (h : Inv hash req initial w) (cancelled : Bool) :
    Inv hash req initial (w.setJob id { w.jobs id with cancelled }) := by
  refine h.of_frame id (.still rfl rfl (fun other hother => setJob_other _ _ hother) rfl)
    h.place_eq (.inl ⟨rfl, ?_⟩) (fun other hmem => ?_) (fun hr other hother => ?_) (fun hor => ?_)
    (fun ht => ?_) ?_
  · rw [setJob_jobs]
  · by_cases hother : other = id
    · subst hother
      rw [setJob_jobs]
      exact h.lock other hmem
    · rw [setJob_other _ _ hother]
      exact h.lock other hmem
  · rw [setJob_jobs] at hr
    exact h.others hr hother
  · rw [setJob_jobs] at hor ⊢
    exact h.encoded id hor
  · rw [setJob_jobs]
    exact h.temps id ht
  · rw [setJob_jobs]
    exact h.told id

/-- **Every step keeps the invariant.** -/
theorem inv_step (h : Inv hash req initial w) {a : Act}
    (hstep : World.step hash req checkoutId w a = some w') : Inv hash req initial w' := by
  cases a with
  | external place =>
    obtain rfl := Option.some.inj hstep
    exact inv_external h place
  | enter id =>
    rw [World.step] at hstep
    split at hstep
    · rename_i hphase
      obtain rfl := Option.some.inj hstep
      exact inv_enter h hphase
    · cases hstep
  | cancel id =>
    rw [World.step] at hstep
    split at hstep
    · rename_i hphase
      obtain rfl := Option.some.inj hstep
      have hun := h.told id
      rw [hphase] at hun
      exact h.leave rfl hun (fun c n m hno => by cases hno)
        (by rw [hphase]; rfl)
    · split_ifs at hstep
      obtain rfl := Option.some.inj hstep
      exact inv_cancel h true
  | acquire id =>
    rw [World.step] at hstep
    split at hstep
    · rename_i hphase
      split_ifs at hstep with hfree
      obtain rfl := Option.some.inj hstep
      exact inv_acquire h hphase hfree
    · cases hstep
  | move id fault stamp removed => exact inv_move h hstep

/-- **Every reachable state.** -/
theorem inv_run {acts : List Act} (hrun : Run.exec (World.step hash req checkoutId)
    (World.start initial) acts = some w) : Inv hash req initial w :=
  Run.exec_invariant (G := fun _ _ => True) (fun _ _ _ hinv _ hstep => inv_step hinv hstep)
    (inv_start hash req initial) (fun _ _ _ _ _ _ => trivial) hrun

end Moves

end Zeron.Files
