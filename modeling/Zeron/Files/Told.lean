import Zeron.Files.Write

/-!
# The events of a save

* `placeAt_of_changes`: the file is what the last event to change it left;
* `Since`, `Swap`: a request between its final check and its rename, and after it;
* `Told`: what the events say of a request in each phase;
* `Told.append`, `Told.quiet`: later events take nothing of it back.
-/

namespace Zeron.Files

/-! ## Events -/

@[simp] theorem placeAt_nil (initial : Place) : placeAt initial [] = initial := rfl

@[simp] theorem placeAt_append (initial : Place) (history events : List Event) :
    placeAt initial (history ++ events) = placeAt (placeAt initial history) events :=
  List.foldl_append

@[simp] theorem placeAt_cons (initial : Place) (event : Event) (history : List Event) :
    placeAt initial (event :: history) = placeAt (event.place.getD initial) history := rfl

def Event.publishes : Event → Bool
  | .published _ _ => true
  | _ => false

theorem placeAt_of_changes (initial place : Place) (event : Event) (history : List Event)
    (h : event.place = some place) :
    ∃ event' ∈ event :: history, event'.place = some (placeAt initial (event :: history)) := by
  induction history generalizing initial event place with
  | nil => exact ⟨event, List.mem_cons_self, by simp [h]⟩
  | cons next history ih =>
    by_cases hnext : next.place = none
    · obtain ⟨event', hmem, hplace⟩ := ih initial place event h
      refine ⟨event', ?_, ?_⟩
      · rcases List.mem_cons.mp hmem with rfl | hmem
        · exact List.mem_cons_self
        · exact List.mem_cons_of_mem _ (List.mem_cons_of_mem _ hmem)
      · rw [hplace, placeAt_cons, placeAt_cons, placeAt_cons, hnext, Option.getD_none]
    · obtain ⟨place', hnext⟩ := Option.ne_none_iff_exists'.mp hnext
      obtain ⟨event', hmem, hplace⟩ := ih (event.place.getD initial) place' next hnext
      exact ⟨event', List.mem_cons_of_mem _ hmem, hplace⟩

/-! ## A request -/

section Requests

variable (hash : Bytes → String) (initial : Place)

def Untouched (history : List Event) (id : ℕ) : Prop :=
  ∀ place, Event.published id place ∉ history

/-- The final check of a request found `content`, and nothing was published since. -/
structure Since (history : List Event) (id : ℕ) (content : Bytes) (pre mid : List Event) :
    Prop where
  split : history = pre ++ .checked id :: mid
  found : (placeAt initial pre).content = some content
  quiet : ∀ event ∈ mid, event.publishes = false

/-- A request replaced what its final check found (content of the hash `expected`) by `bytes`, and
nothing was published in between. -/
structure Swap (expected : String) (bytes : Bytes) (history : List Event) (id : ℕ)
    (pre mid post : List Event) (place : Place) : Prop where
  split : history = pre ++ .checked id :: (mid ++ .published id place :: post)
  found : ∃ content, (placeAt initial pre).content = some content ∧ hash content = expected
  quiet : ∀ event ∈ mid, event.publishes = false
  wrote : place.content = some bytes
  once : Untouched (pre ++ post) id

/-- Something else changed the file, or a system call of the verification failed. -/
def Disturbed (id : ℕ) (events : List Event) : Prop :=
  (∃ place, Event.external place ∈ events) ∨ Event.unverified id ∈ events

/-- The check of the path goes through. -/
def Place.Whole (place : Place) : Prop := ∃ metadata, place.checkedFileMetadata none = .ok metadata

/-- What the events say of a request. -/
def Told (expected : String) (bytes : Bytes) (place : Place) (history : List Event) (id : ℕ) :
    Phase → Prop
  | .second _ (.read _ content) =>
    Untouched history id ∧ ∃ pre mid, Since initial history id content pre mid
  | .replace _ =>
    Untouched history id ∧ ∃ content pre mid, Since initial history id content pre mid ∧
      hash content = expected ∧ (Disturbed id mid ∨ place.Whole)
  | .verify | .reread _ =>
    ∃ pre mid post written, Swap hash initial expected bytes history id pre mid post written ∧
      (Disturbed id (mid ++ post) ∨ (place.Whole ∧ place.content = some bytes))
  | .done (.ok (.written contentHash _ _)) =>
    contentHash = hash bytes ∧
      ∃ pre mid post written, Swap hash initial expected bytes history id pre mid post written
  | .done (.error _) =>
    Untouched history id ∨ ∃ pre mid post written,
      Swap hash initial expected bytes history id pre mid post written ∧ Disturbed id (mid ++ post)
  | _ => Untouched history id

variable {hash initial} {expected : String} {bytes : Bytes} {history events : List Event} {id : ℕ}
  {pre mid post : List Event} {place : Place}

theorem Untouched.append (h : Untouched history id) (he : Untouched events id) :
    Untouched (history ++ events) id := by
  intro place hmem
  rcases List.mem_append.mp hmem with hmem | hmem
  · exact h place hmem
  · exact he place hmem

theorem Disturbed.mono {events' : List Event} (h : Disturbed id events) (hsub : events ⊆ events') :
    Disturbed id events' :=
  h.imp (fun ⟨place, hmem⟩ => ⟨place, hsub hmem⟩) fun hmem => hsub hmem

theorem Since.append {content : Bytes} (h : Since initial history id content pre mid)
    (he : ∀ event ∈ events, event.publishes = false) :
    Since initial (history ++ events) id content pre (mid ++ events) where
  split := by rw [h.split, List.append_assoc, List.cons_append]
  found := h.found
  quiet event hmem := (List.mem_append.mp hmem).elim (h.quiet event) (he event)

theorem Swap.append (h : Swap hash initial expected bytes history id pre mid post place)
    (he : Untouched events id) :
    Swap hash initial expected bytes (history ++ events) id pre mid (post ++ events) place where
  split := by
    rw [h.split, List.append_assoc, List.cons_append, List.append_assoc, List.cons_append]
  found := h.found
  quiet := h.quiet
  wrote := h.wrote
  once := by
    rw [← List.append_assoc]
    exact h.once.append he

theorem Since.swap {content : Bytes} (h : Since initial history id content pre mid)
    (hu : Untouched history id) (hhash : hash content = expected)
    (hwrote : place.content = some bytes) :
    Swap hash initial expected bytes (history ++ [Event.published id place]) id pre mid [] place where
  split := by rw [h.split, List.append_assoc, List.cons_append]
  found := ⟨content, h.found, hhash⟩
  quiet := h.quiet
  wrote := hwrote
  once place' hmem := by
    rw [List.append_nil] at hmem
    exact hu place' (h.split ▸ List.mem_append_left _ hmem)

theorem Told.untouched {phase : Phase} (h : Told hash initial expected bytes place history id phase)
    (hrun : phase.running = true) (hv : phase ≠ .verify) (hr : ∀ m, phase ≠ .reread m) :
    Untouched history id := by
  cases phase with
  | second metadata probe =>
    cases probe with
    | read => exact h.1
    | start | opened => exact h
  | replace => exact h.1
  | verify => exact absurd rfl hv
  | reread m => exact absurd rfl (hr m)
  | first | create | prepare => exact h
  | idle | waiting | done | dropped => cases hrun

theorem Told.of_untouched (h : Untouched history id) {result : Result}
    (hr : ∀ c n m, result ≠ .ok (.written c n m)) :
    Told hash initial expected bytes place history id (.done result) := by
  rcases result with error | outcome
  · exact .inl h
  · cases outcome with
    | written c n m => exact absurd rfl (hr c n m)
    | conflict => exact h

theorem Told.append {phase : Phase} {place' : Place}
    (h : Told hash initial expected bytes place history id phase) (he : Untouched events id)
    (hrun : phase.running = false) :
    Told hash initial expected bytes place' (history ++ events) id phase := by
  cases phase with
  | idle | waiting | dropped => exact Untouched.append h he
  | done result =>
    rcases result with error | outcome
    · refine h.imp (·.append he) ?_
      rintro ⟨pre, mid, post, written, hswap, hdist⟩
      refine ⟨pre, mid, post ++ events, written, hswap.append he, hdist.mono ?_⟩
      rw [← List.append_assoc]
      exact List.subset_append_left _ _
    · cases outcome with
      | written c n m =>
        obtain ⟨hc, pre, mid, post, written, hswap⟩ := h
        exact ⟨hc, pre, mid, post ++ events, written, hswap.append he⟩
      | conflict => exact Untouched.append h he
  | first | create | prepare | second | replace | verify | reread => cases hrun

/-- Events that publish nothing: the request stays where it was, or it was disturbed. -/
theorem Told.quiet {phase : Phase} {place' : Place}
    (h : Told hash initial expected bytes place history id phase)
    (he : ∀ event ∈ events, event.publishes = false)
    (hplace : place' = place ∨ Disturbed id events) :
    Told hash initial expected bytes place' (history ++ events) id phase := by
  have hu : Untouched events id := fun place hmem => absurd (he _ hmem) (by simp [Event.publishes])
  by_cases hrun : phase.running = false
  · exact h.append hu hrun
  cases phase with
  | second metadata probe =>
    cases probe with
    | read metadata' content =>
      obtain ⟨hun, pre, mid, hsince⟩ := h
      exact ⟨hun.append hu, pre, mid ++ events, hsince.append he⟩
    | start | opened => exact Untouched.append h hu
  | replace =>
    obtain ⟨hun, content, pre, mid, hsince, hhash, hor⟩ := h
    refine ⟨hun.append hu, content, pre, mid ++ events, hsince.append he, hhash, ?_⟩
    rcases hor, hplace with ⟨hdist | hwhole, rfl | hdist'⟩
    · exact .inl (hdist.mono (List.subset_append_left _ _))
    · exact .inl (hdist.mono (List.subset_append_left _ _))
    · exact .inr hwhole
    · exact .inl (hdist'.mono (List.subset_append_right _ _))
  | verify | reread =>
    obtain ⟨pre, mid, post, written, hswap, hor⟩ := h
    refine ⟨pre, mid, post ++ events, written, hswap.append hu, ?_⟩
    rw [← List.append_assoc]
    rcases hor, hplace with ⟨hdist | hwhole, rfl | hdist'⟩
    · exact .inl (hdist.mono (List.subset_append_left _ _))
    · exact .inl (hdist.mono (List.subset_append_left _ _))
    · exact .inr hwhole
    · exact .inl (hdist'.mono (List.subset_append_right _ _))
  | first | create | prepare => exact Untouched.append h hu
  | idle | waiting | done | dropped => exact absurd rfl hrun

end Requests

end Zeron.Files
