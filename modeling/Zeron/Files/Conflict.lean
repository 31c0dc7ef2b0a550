import Zeron.Files.Safe

/-!
# What a save promises

* `PutBack`: how two saves over one content can both succeed;
* **`write_file_safe`**: what each result of `write_file` means for the file.
-/

namespace Zeron.Files

variable {hash : Bytes → String} {req : ℕ → WriteRequest} {checkoutId : String} {initial : Place}

/-- The save of `first` comes before the save of `second`, and by then an event, the first save
included, had left content of the hash. -/
def PutBack (hash : Bytes → String) (expected : String) (history : List Event)
    (first second : ℕ) : Prop :=
  ∃ pre between post new new', history =
      pre ++ Event.published first new :: (between ++ Event.published second new' :: post) ∧
    ∃ event ∈ Event.published first new :: between, ∃ place content,
      event.place = some place ∧ place.content = some content ∧ hash content = expected

section Saves

variable {expected : String} {history : List Event} {i j : ℕ} {bytes bytes' : Bytes}
  {pre mid post pre' mid' post' : List Event} {new new' : Place}

theorem Swap.putBack (h : Swap hash initial expected bytes history j pre mid post new)
    (hmem : Event.published i new' ∈ pre) : PutBack hash expected history i j := by
  obtain ⟨before, after, rfl⟩ := List.append_of_mem hmem
  refine ⟨before, after ++ .checked j :: mid, post, new', new, ?_, ?_⟩
  · rw [h.split]
    simp
  · obtain ⟨content, hfound, hhash⟩ := h.found
    rw [placeAt_append] at hfound
    obtain ⟨event, hevent, hplace⟩ :=
      placeAt_of_changes (placeAt initial before) new' (.published i new') after rfl
    refine ⟨event, ?_, _, content, hplace, hfound, hhash⟩
    rcases List.mem_cons.mp hevent with rfl | hevent
    · exact List.mem_cons_self
    · exact List.mem_cons_of_mem _ (List.mem_append_left _ hevent)

theorem Swap.apart (h : Swap hash initial expected bytes history j pre mid post new) (hij : i ≠ j)
    (hmem : Event.published i new' ∈ history) :
    Event.published i new' ∈ pre ∨ Event.published i new' ∈ post := by
  rw [h.split] at hmem
  rcases List.mem_append.mp hmem with hmem | hmem
  · exact .inl hmem
  rcases List.mem_cons.mp hmem with hmem | hmem
  · cases hmem
  rcases List.mem_append.mp hmem with hmem | hmem
  · exact absurd (h.quiet _ hmem) (by simp [Event.publishes])
  rcases List.mem_cons.mp hmem with hmem | hmem
  · exact absurd (Event.published.inj hmem).1 hij
  · exact .inr hmem

/-- **Two saves over one content.** The second finds content that was put back. -/
theorem Swap.ordered (hi : Swap hash initial expected bytes history i pre mid post new)
    (hj : Swap hash initial expected bytes' history j pre' mid' post' new') (hij : i ≠ j) :
    PutBack hash expected history i j ∨ PutBack hash expected history j i := by
  have hmem : Event.published i new ∈ history := by
    rw [hi.split]
    simp
  rcases hj.apart hij hmem with hbefore | hafter
  · exact .inl (hj.putBack hbefore)
  · -- then the rename of `j` stands before the one rename of `i`
    right
    obtain ⟨front, back, rfl⟩ := List.append_of_mem hafter
    have hsplit : (pre ++ .checked i :: mid) ++ .published i new :: post =
        (pre' ++ .checked j :: (mid' ++ .published j new' :: front)) ++
          .published i new :: back := by
      have hsame := hi.split.symm.trans hj.split
      simpa using hsame
    have hj' : Event.published j new' ∈ pre ++ .checked i :: mid := by
      have hfront : Event.published j new' ∈
          pre' ++ .checked j :: (mid' ++ .published j new' :: front) := by simp
      rcases List.append_eq_append_iff.mp hsplit with ⟨rest, heq, hrest⟩ | ⟨rest, heq, -⟩
      · cases rest with
        | nil =>
          rw [List.append_nil] at heq
          rwa [heq] at hfront
        | cons event rest =>
          -- a second rename of `i`
          rw [List.cons_append, List.cons.injEq] at hrest
          have htwice : Event.published i new ∈ pre ++ post := by
            rw [hrest.2]
            simp
          exact absurd htwice (hi.once new)
      · rw [heq]
        exact List.mem_append_left _ hfront
    rcases List.mem_append.mp hj' with hj' | hj'
    · exact hi.putBack hj'
    · rcases List.mem_cons.mp hj' with hj' | hj'
      · cases hj'
      · exact absurd (hi.quiet _ hj') (by simp [Event.publishes])

end Saves

theorem phase_of_result {w : World} {id : ℕ} {result : Result} (h : w.result id = some result) :
    (w.jobs id).phase = .done result := by
  rw [World.result] at h
  split at h
  · rename_i hphase
    rw [hphase, Option.some.inj h]
  · cases h

/-- **Saves are conflict-safe.** At any point of any interleaving of requests with whatever else
changes the file: the file is what others and the successful renames left; a success replaced the
content of its hash by its own text with no other save in between; two successes over one hash
need content of that hash put back between them; anything else left the file alone, but for errors
of a disturbed verification; and no temporary file stays, unless it cannot be removed. -/
theorem write_file_safe {acts : List Act} {w : World}
    (hrun : Run.exec (World.step hash req checkoutId) (World.start initial) acts = some w) :
    w.place = placeAt initial w.history ∧
    (∀ id c n m, w.result id = some (.ok (.written c n m)) →
      ∃ bytes pre mid post new, encodeWriteText (req id) = .ok bytes ∧ c = hash bytes ∧
        Swap hash initial (req id).expectedContentHash bytes w.history id pre mid post new) ∧
    (∀ i j c n m c' n' m', i ≠ j →
      (req i).expectedContentHash = (req j).expectedContentHash →
      w.result i = some (.ok (.written c n m)) → w.result j = some (.ok (.written c' n' m')) →
      PutBack hash (req i).expectedContentHash w.history i j ∨
        PutBack hash (req i).expectedContentHash w.history j i) ∧
    (∀ id result, w.result id = some result → (∀ c n m, result ≠ .ok (.written c n m)) →
      Untouched w.history id ∨ ∃ error bytes pre mid post new, result = .error error ∧
        Swap hash initial (req id).expectedContentHash bytes w.history id pre mid post new ∧
        Disturbed id (mid ++ post)) ∧
    ∀ id result, w.result id = some result → w.temps id = none ∨ .leftover id ∈ w.history := by
  have hinv : Inv hash req initial w := inv_run hrun
  have hwritten : ∀ id c n m, w.result id = some (.ok (.written c n m)) →
      ∃ bytes pre mid post new, encodeWriteText (req id) = .ok bytes ∧ c = hash bytes ∧
        Swap hash initial (req id).expectedContentHash bytes w.history id pre mid post new := by
    intro id c n m hresult
    have hphase := phase_of_result hresult
    have htold := hinv.told id
    rw [hphase] at htold
    obtain ⟨hc, pre, mid, post, new, hswap⟩ := htold
    exact ⟨_, pre, mid, post, new, hinv.encoded id (.inr ⟨c, n, m, hphase⟩), hc, hswap⟩
  refine ⟨hinv.place_eq, hwritten, ?_, ?_, ?_⟩
  · intro i j c n m c' n' m' hij hsame hi hj
    obtain ⟨bytes, pre, mid, post, new, -, -, hi⟩ := hwritten i c n m hi
    obtain ⟨bytes', pre', mid', post', new', -, -, hj⟩ := hwritten j c' n' m' hj
    rw [← hsame] at hj
    exact hi.ordered hj hij
  · intro id result hresult hno
    have htold := hinv.told id
    rw [phase_of_result hresult] at htold
    rcases result with error | outcome
    · refine htold.imp_right ?_
      rintro ⟨pre, mid, post, new, hswap, hdist⟩
      exact ⟨error, _, pre, mid, post, new, rfl, hswap, hdist⟩
    · cases outcome with
      | written c n m => exact absurd rfl (hno c n m)
      | conflict => exact .inl htold
  · intro id result hresult
    by_cases htemp : w.temps id = none
    · exact .inl htemp
    · refine .inr ((hinv.temps id htemp).resolve_left fun hholds => ?_)
      rw [phase_of_result hresult] at hholds
      cases hholds

/-! ## Two saves of one file -/

/-- Bytes read as Latin-1, for a hash. -/
def latin1 (bytes : Bytes) : String := String.ofList (bytes.map fun b => Char.ofNat b.toNat)

/-- The file `a`. -/
def fileA : Place := ⟨[.directory], .file ⟨1, some 0, 0, 0, 0⟩ [97], false⟩

/-- Saves over `a`: the first writes the same again, the others write `b`. -/
def saves (id : ℕ) : WriteRequest := ⟨if id = 0 then "a" else "b", .utf8, .lf, "a", "checkout"⟩

/-- The first system calls of a save that nothing interferes with; eleven are all. -/
def calls (id n : ℕ) : List Act := List.replicate n (.move id none ⟨0, some 1, 0, 1, 0⟩ true)

def savesRun (acts : List Act) : Option World :=
  Run.exec (World.step latin1 saves "checkout") (World.start fileA) acts

/-- One save after the other. -/
def bothSaves : List Act :=
  [Act.enter 0, .enter 1, .acquire 0] ++ calls 0 11 ++ [Act.acquire 1] ++ calls 1 11

theorem results_bothSaves : (savesRun bothSaves).map (fun w => (w.result 0, w.result 1)) =
    some (some (.ok (.written "a" 1 (some 1))), some (.ok (.written "b" 1 (some 1)))) := by
  decide +kernel

/-- Both succeed, as the first puts back what it found. -/
theorem write_file_safe_two : ∃ w, savesRun bothSaves = some w ∧
    (PutBack latin1 "a" w.history 0 1 ∨ PutBack latin1 "a" w.history 1 0) := by
  obtain ⟨w, hrun, hresults⟩ := Option.map_eq_some_iff.mp results_bothSaves
  obtain ⟨h₀, h₁⟩ := Prod.mk.inj hresults
  exact ⟨w, hrun, (write_file_safe hrun).2.2.1 0 1 _ _ _ _ _ _ (by decide) rfl h₀ h₁⟩

/-- Two saves of different texts over the same content both succeed, and nothing but the two
touches the file; and a save whose verification cannot read the file has replaced it. -/
theorem both_written :
    (saves 0).text ≠ (saves 1).text ∧
    (saves 0).expectedContentHash = (saves 1).expectedContentHash ∧
    (∃ w, savesRun bothSaves = some w ∧ w.result 0 = some (.ok (.written "a" 1 (some 1))) ∧
      w.result 1 = some (.ok (.written "b" 1 (some 1)))) ∧
    ∃ w, savesRun ([.enter 1, .acquire 1] ++ calls 1 10 ++
        [.move 1 (some "Too many open files (os error 24)") ⟨0, none, 0, 0, 0⟩ true]) = some w ∧
      w.result 1 = some (.error (.io "Too many open files (os error 24)")) ∧
      fileA.content = some [97] ∧ w.place.content = some [98] := by
  obtain ⟨w, hrun, hresults⟩ := Option.map_eq_some_iff.mp results_bothSaves
  obtain ⟨h₀, h₁⟩ := Prod.mk.inj hresults
  have herror : (savesRun ([.enter 1, .acquire 1] ++ calls 1 10 ++
      [.move 1 (some "Too many open files (os error 24)") ⟨0, none, 0, 0, 0⟩ true])).map
        (fun w => (w.result 1, w.place.content)) =
      some (some (.error (.io "Too many open files (os error 24)")), some [98]) := by
    decide +kernel
  obtain ⟨w', hrun', hresults'⟩ := Option.map_eq_some_iff.mp herror
  obtain ⟨h₂, h₃⟩ := Prod.mk.inj hresults'
  exact ⟨by decide, rfl, ⟨w, hrun, h₀, h₁⟩, w', hrun', h₂, rfl, h₃⟩

end Zeron.Files
