import Zeron.Diff.Sync

/-!
# The latest diff at every chat

* `World.Delivered`: whoever is grouped under an idle entry has its last sidecar;
* `World.Served`: the steps that record no checksum for a chat that does not get it;
* `Entry.Inv`, `inv_step`: what an entry owes to whom, in each phase of its task;
* **`delivered_of_served`**, and a run in which a chat that joins gets nothing.
-/

namespace Zeron.Diff

/-! ## What is promised -/

/-- The slot of every chat of an idle entry took the sidecar of the last capture. -/
def World.Delivered (w : World) : Prop :=
  ∀ e ∈ w.entries, (w.store e.2).phase = .idle → (w.store e.2).kicks = 0 →
    ∀ checksum, (w.store e.2).captured = some checksum →
      ∀ chat ∈ (w.store e.2).chats, ⟨e.2, chat.id, checksum⟩ ∈ w.sent

/-- A post goes through; and a capture that fails or finds nothing new finds no chat that joined
since the group was last read for an upload and is without the last sidecar. -/
def World.Served (w : World) : Act → Prop
  | .upload _ token success => token = true ∧ success = true
  | .capture key result =>
    result = none ∨ result = (w.store key).checksum →
      ∀ chat ∈ (w.store key).chats, chat.id ∈ (w.store key).late →
        ∀ checksum ∈ (w.store key).captured, (⟨key, chat.id, checksum⟩ : Sidecar) ∈ w.sent
  | _ => True

instance (w : World) (a : Act) : Decidable (w.Served a) := by
  unfold World.Served
  split <;> infer_instance

/-! ## What an entry owes -/

namespace Entry

/-- A chat of the group is without the last sidecar. -/
def Owes (sent : List Sidecar) (key : ℕ) (entry : Entry) (chatId : String) : Prop :=
  chatId ∈ entry.chats.map (·.id) ∧ ∃ checksum, entry.captured = some checksum ∧
    ⟨key, chatId, checksum⟩ ∉ sent

/-- Who may be owed something, in each phase. -/
def Covers (entry : Entry) (chatId : String) : Phase → Prop
  | .idle => chatId ∈ entry.late ∧ 0 < entry.kicks
  | .debouncing | .capturing => chatId ∈ entry.late
  | .publishing _ => True
  | .uploading _ chats => chatId ∈ chats.map (·.id) ∨ (chatId ∈ entry.late ∧ 0 < entry.kicks)

structure Inv (sent : List Sidecar) (key : ℕ) (entry : Entry) : Prop where
  recorded : entry.captured = entry.checksum
  current : ∀ checksum, (entry.phase = .publishing checksum ∨
    ∃ chats, entry.phase = .uploading checksum chats) → entry.captured = some checksum
  covers : ∀ chatId, entry.Owes sent key chatId → entry.Covers chatId entry.phase

variable {sent sent' : List Sidecar} {key : ℕ} {entry : Entry} {chatId : String}

theorem inv_new (identity : Identity) (chats : List Chat) :
    Inv sent key (Entry.new identity chats) where
  recorded := rfl
  current checksum h := by
    rcases h with h | ⟨chats, h⟩ <;> cases h
  covers chatId howes := by
    obtain ⟨-, checksum, hcaptured, -⟩ := howes
    cases hcaptured

theorem Inv.mono (h : entry.Inv sent key) (hsub : sent ⊆ sent') : entry.Inv sent' key where
  recorded := h.recorded
  current := h.current
  covers chatId howes := by
    obtain ⟨hmem, checksum, hcaptured, hnot⟩ := howes
    exact h.covers chatId ⟨hmem, checksum, hcaptured, fun hin => hnot (hsub hin)⟩

theorem Covers.mono {entry' : Entry} {phase : Phase} (h : entry.Covers chatId phase)
    (hlate : entry.late ⊆ entry'.late) (hkicks : entry.kicks ≤ entry'.kicks) :
    entry'.Covers chatId phase := by
  cases phase with
  | idle => exact ⟨hlate h.1, by have := h.2; omega⟩
  | debouncing | capturing => exact hlate h
  | publishing => trivial
  | uploading checksum chats =>
    exact h.imp_right fun hl => ⟨hlate hl.1, by have := hl.2; omega⟩

/-- **The chats of a reconcile.** Whoever is new is late, and there is a kick for them. -/
theorem Inv.regroup (h : entry.Inv sent key) (chats : List Chat) :
    (entry.regroup chats).Inv sent key where
  recorded := h.recorded
  current := h.current
  covers chatId howes := by
    obtain ⟨hmem, howes⟩ := howes
    have hmore : entry.kicks ≤ (entry.regroup chats).kicks := by
      show entry.kicks ≤ (if (entry.joining chats).isEmpty then entry.kicks else entry.kicks + 1)
      split_ifs <;> omega
    by_cases hheld : chatId ∈ entry.chats.map (·.id)
    · exact (h.covers chatId ⟨hheld, howes⟩).mono (List.subset_append_right _ _) hmore
    · have hjoin : chatId ∈ entry.joining chats := by
        rw [joining, List.mem_filter]
        exact ⟨hmem, by simpa using hheld⟩
      have hlate : chatId ∈ (entry.regroup chats).late := List.mem_append_left _ hjoin
      have hkicks : 0 < (entry.regroup chats).kicks := by
        show 0 < (if (entry.joining chats).isEmpty then entry.kicks else entry.kicks + 1)
        rw [if_neg (by simpa [List.isEmpty_iff] using List.ne_nil_of_mem hjoin)]
        omega
      show (entry.regroup chats).Covers chatId entry.phase
      cases entry.phase with
      | idle => exact ⟨hlate, hkicks⟩
      | debouncing | capturing => exact hlate
      | publishing => trivial
      | uploading checksum queue => exact .inr ⟨hlate, hkicks⟩

theorem Inv.task (h : entry.Inv sent key) {kicks : ℕ} {phase : Phase}
    (hphase : phase = .idle ∨ phase = .debouncing ∨ phase = .capturing)
    (hcovers : ∀ chatId, entry.Covers chatId entry.phase →
      { entry with kicks, phase }.Covers chatId phase) :
    { entry with kicks, phase }.Inv sent key where
  recorded := h.recorded
  current checksum hp := by
    rcases hphase with rfl | rfl | rfl <;> rcases hp with hp | ⟨chats, hp⟩ <;> cases hp
  covers chatId howes := hcovers chatId (h.covers chatId howes)

theorem Inv.rest (h : entry.Inv sent key) (hphase : entry.phase = .capturing)
    (hserved : ∀ chat ∈ entry.chats, chat.id ∈ entry.late →
      ∀ checksum ∈ entry.captured, (⟨key, chat.id, checksum⟩ : Sidecar) ∈ sent) :
    { entry with phase := .idle }.Inv sent key where
  recorded := h.recorded
  current checksum hp := by
    rcases hp with hp | ⟨chats, hp⟩ <;> cases hp
  covers chatId howes := by
    have hlate := h.covers chatId howes
    rw [hphase] at hlate
    obtain ⟨hmem, checksum, hcaptured, hnot⟩ := howes
    obtain ⟨chat, hchat, rfl⟩ := List.mem_map.mp hmem
    exact absurd (hserved chat hchat hlate checksum hcaptured) hnot

end Entry

/-! ## The service -/

structure World.Inv (w : World) : Prop where
  entry : ∀ e ∈ w.entries, (w.store e.2).Inv w.sent e.2
  named : ∀ e ∈ w.entries, (w.store e.2).identity.id = e.1
  keys : ∀ e ∈ w.entries, e.2 < w.nextKey

theorem inv_start : World.start.Inv where
  entry _ h := absurd h List.not_mem_nil
  named _ h := absurd h List.not_mem_nil
  keys _ h := absurd h List.not_mem_nil

section Steps

variable {deviceId : String} {orphanGrace : ℕ} {w w' : World} {key : ℕ}

theorem World.Inv.setEntry (h : w.Inv) {entry : Entry} {sent : List Sidecar} (hsub : w.sent ⊆ sent)
    (hname : entry.identity = (w.store key).identity)
    (hentry : w.tracked key = true → (w.store key).Inv w.sent key → entry.Inv sent key) :
    { w.setEntry key entry with sent }.Inv where
  entry e he := by
    show (Function.update w.store key entry e.2).Inv sent e.2
    by_cases hkey : e.2 = key
    · have htracked : w.tracked key = true := List.any_eq_true.mpr ⟨e, he, by simpa using hkey⟩
      rw [hkey, Function.update_self]
      exact hentry htracked (hkey ▸ h.entry e he)
    · rw [Function.update_of_ne hkey]
      exact (h.entry e he).mono hsub
  named e he := by
    show (Function.update w.store key entry e.2).identity.id = e.1
    by_cases hkey : e.2 = key
    · rw [hkey, Function.update_self, hname, ← hkey]
      exact h.named e he
    · rw [Function.update_of_ne hkey]
      exact h.named e he
  keys := h.keys

theorem isSome_of_tracked (h : w.Inv) (htracked : w.tracked key = true) :
    (w.entry? (w.store key).identity.id).isSome = true := by
  obtain ⟨e, he, hkey⟩ := List.any_eq_true.mp htracked
  have hkey : e.2 = key := by simpa using hkey
  rw [← hkey, h.named e he, World.entry?]
  generalize w.entries = entries at he
  induction entries with
  | nil => exact absurd he List.not_mem_nil
  | cons e' entries ih =>
    rw [List.lookup_cons]
    split
    · rfl
    · rename_i hne
      rcases List.mem_cons.mp he with rfl | he
      · simp at hne
      · exact ih he

theorem inv_reconcile (h : w.Inv) (chats : List Chat) (fresh : Bool) (git : String → GitAnswer)
    (now : ℕ) : (w.reconcile deviceId orphanGrace chats fresh git now).Inv := by
  -- a mark is no debt
  have hmark : ∀ key, ∃ orphanedSince, (w.reconcile deviceId orphanGrace chats fresh git now).store
      key = { w.store key with orphanedSince } := by
    intro key
    rw [World.reconcile]
    dsimp only
    split
    · rw [World.mark]
      split_ifs
      · exact ⟨_, rfl⟩
      · exact ⟨_, rfl⟩
    · exact ⟨_, rfl⟩
  constructor
  · intro e he
    obtain ⟨orphanedSince, hstore⟩ := hmark e.2
    rw [hstore]
    have hentry := h.entry e (List.mem_of_mem_filter he)
    exact ⟨hentry.recorded, hentry.current, hentry.covers⟩
  · intro e he
    obtain ⟨orphanedSince, hstore⟩ := hmark e.2
    rw [hstore]
    exact h.named e (List.mem_of_mem_filter he)
  · exact fun e he => h.keys e (List.mem_of_mem_filter he)

theorem inv_regroup (h : w.Inv) (identity : Identity) (chats : List Chat) :
    (w.regroup identity chats).Inv := by
  rw [World.regroup]
  split
  · exact h.setEntry (List.Subset.refl _) rfl fun _ hentry => hentry.regroup chats
  · -- a new entry takes a key nobody has
    constructor
    · intro e he
      show (Function.update w.store w.nextKey _ e.2).Inv w.sent e.2
      rcases List.mem_append.mp he with he | he
      · rw [Function.update_of_ne (by have := h.keys e he; omega)]
        exact h.entry e he
      · rw [List.mem_singleton.mp he, Function.update_self]
        exact Entry.inv_new identity chats
    · intro e he
      show (Function.update w.store w.nextKey _ e.2).identity.id = e.1
      rcases List.mem_append.mp he with he | he
      · rw [Function.update_of_ne (by have := h.keys e he; omega)]
        exact h.named e he
      · rw [List.mem_singleton.mp he, Function.update_self]
        rfl
    · intro e he
      show e.2 < w.nextKey + 1
      rcases List.mem_append.mp he with he | he
      · have := h.keys e he
        omega
      · rw [List.mem_singleton.mp he]
        exact Nat.lt_succ_self _

theorem inv_captured (h : w.Inv) {checksum : String} (hphase : (w.store key).phase = .capturing)
    (hserved : w.Served (.capture key (some checksum))) : (w.captured key checksum).Inv := by
  rw [World.captured]
  dsimp only
  split_ifs with hsame hgone
  · refine h.setEntry (List.Subset.refl _) rfl fun _ hentry => ?_
    have hsame' : (w.store key).captured = some checksum := hentry.recorded.trans hsame
    have hrest := hentry.rest hphase (hserved (.inr hsame.symm))
    rwa [hsame'] at hrest
  · refine h.setEntry (List.Subset.refl _) rfl fun htracked _ => ?_
    have hsome := isSome_of_tracked h htracked
    rw [Option.isNone_iff_eq_none.mp hgone] at hsome
    cases hsome
  · refine h.setEntry (List.Subset.refl _) rfl fun _ _ => ⟨rfl, fun c hp => ?_, fun _ _ => trivial⟩
    rcases hp with hp | ⟨chats, hp⟩
    · rw [Phase.publishing.inj hp]
    · cases hp

/-- **Every step that serves whom it records for keeps the invariant.** -/
theorem inv_step (h : w.Inv) {a : Act} (hserved : w.Served a)
    (hstep : World.step deviceId orphanGrace w a = some w') : w'.Inv := by
  cases a with
  | reconcile chats fresh git now =>
    rw [World.step] at hstep
    split at hstep
    · obtain rfl := Option.some.inj hstep
      exact inv_reconcile h chats fresh git now
    · cases hstep
  | regroup =>
    rw [World.step] at hstep
    split at hstep
    · rename_i identity chats groups hgate
      obtain rfl := Option.some.inj hstep
      have hre := inv_regroup h identity chats
      exact ⟨hre.entry, hre.named, hre.keys⟩
    · obtain rfl := Option.some.inj hstep
      exact ⟨h.entry, h.named, h.keys⟩
    · cases hstep
  | kick key =>
    obtain rfl := Option.some.inj hstep
    refine h.setEntry (List.Subset.refl _) rfl fun _ hentry =>
      ⟨hentry.recorded, hentry.current, fun chatId howes => ?_⟩
    exact (hentry.covers chatId howes).mono (List.Subset.refl _) (Nat.le_succ _)
  | recv key =>
    rw [World.step] at hstep
    split at hstep
    · rename_i kicks hphase hkicks
      obtain rfl := Option.some.inj hstep
      refine h.setEntry (List.Subset.refl _) rfl fun _ hentry =>
        hentry.task (.inr (.inl rfl)) fun chatId hcovers => ?_
      rw [hphase] at hcovers
      exact hcovers.1
    · rename_i kicks hphase hkicks
      obtain rfl := Option.some.inj hstep
      refine h.setEntry (List.Subset.refl _) rfl fun _ hentry =>
        hentry.task (.inr (.inl rfl)) fun chatId hcovers => ?_
      rw [hphase] at hcovers
      exact hcovers
    · cases hstep
  | settle key =>
    rw [World.step] at hstep
    split at hstep
    · rename_i hphase hkicks
      split_ifs at hstep
      obtain rfl := Option.some.inj hstep
      refine h.setEntry (List.Subset.refl _) rfl fun _ hentry =>
        hentry.task (.inr (.inr rfl)) fun chatId hcovers => ?_
      rw [hphase] at hcovers
      exact hcovers
    · cases hstep
  | capture key result =>
    dsimp only [World.step] at hstep
    split at hstep
    · rename_i hphase
      cases result with
      | none =>
        obtain rfl := Option.some.inj hstep
        exact h.setEntry (List.Subset.refl _) rfl fun _ hentry =>
          hentry.rest hphase (hserved (.inl rfl))
      | some checksum =>
        obtain rfl := Option.some.inj hstep
        exact inv_captured h hphase hserved
    · cases hstep
  | readGroup key =>
    rw [World.step] at hstep
    split at hstep
    · rename_i checksum hphase
      obtain rfl := Option.some.inj hstep
      refine h.setEntry (List.Subset.refl _) rfl fun _ hentry =>
        ⟨hentry.recorded, fun c hp => ?_, fun chatId howes => .inl howes.1⟩
      rcases hp with hp | ⟨chats, hp⟩
      · cases hp
      · rw [← (Phase.uploading.inj hp).1]
        exact hentry.current checksum (.inl hphase)
    · cases hstep
  | upload key token success =>
    obtain ⟨rfl, rfl⟩ := hserved
    rw [World.step] at hstep
    split at hstep
    · rename_i checksum chat chats hphase
      obtain rfl := Option.some.inj hstep
      refine h.setEntry (List.subset_cons_self _ _) rfl fun _ hentry => ?_
      have hcurrent := hentry.current checksum (.inr ⟨_, hphase⟩)
      refine ⟨hentry.recorded, fun c hp => ?_, fun chatId howes => ?_⟩
      · rcases hp with hp | ⟨queue, hp⟩
        · cases hp
        · rw [← (Phase.uploading.inj hp).1]
          exact hcurrent
      · obtain ⟨hmem, c, hc, hnot⟩ := howes
        have hcovers := hentry.covers chatId
          ⟨hmem, c, hc, fun hin => hnot (List.mem_cons_of_mem _ hin)⟩
        rw [hphase] at hcovers
        refine hcovers.imp_left fun hqueue => ?_
        -- the chat at the head has just been served
        rcases List.mem_cons.mp hqueue with rfl | hqueue
        · have hsame : checksum = c := Option.some.inj (hcurrent.symm.trans hc)
          rw [hsame] at hnot
          exact absurd List.mem_cons_self hnot
        · exact hqueue
    · cases hstep
  | finish key =>
    rw [World.step] at hstep
    split at hstep
    · rename_i checksum hphase
      obtain rfl := Option.some.inj hstep
      refine h.setEntry (List.Subset.refl _) rfl fun _ hentry =>
        hentry.task (.inl rfl) fun chatId hcovers => ?_
      rw [hphase] at hcovers
      exact hcovers.resolve_left List.not_mem_nil
    · cases hstep

theorem delivered_of_inv (h : w.Inv) : w.Delivered := by
  intro e he hphase hkicks checksum hcaptured chat hchat
  by_contra hnot
  have hcovers := (h.entry e he).covers chat.id
    ⟨List.mem_map_of_mem hchat, checksum, hcaptured, hnot⟩
  rw [hphase] at hcovers
  have hpos := hcovers.2
  omega

end Steps

/-- **Every chat of an idle checkout has the latest diff**, in every run that serves whom it records
a checksum for. -/
theorem delivered_of_served {deviceId : String} {orphanGrace : ℕ} {acts : List Act} {w : World}
    (hserved : Run.Guarded (World.step deviceId orphanGrace) World.Served World.start acts)
    (hrun : Run.exec (World.step deviceId orphanGrace) World.start acts = some w) : w.Delivered :=
  delivered_of_inv (Run.exec_invariant (fun _ _ _ h hs hstep => inv_step h hs hstep) inv_start
    hserved hrun)

/-! ## A chat that joins -/

def chatA : Chat := ⟨"a", "device", some "/r"⟩

def chatB : Chat := ⟨"b", "device", some "/r"⟩

/-- A reconcile of some chats of one checkout. -/
def together (chats : List Chat) : List Act :=
  [.reconcile chats false (fun _ => .identity ⟨"r", "/r"⟩) 0, .regroup, .regroup]

/-- The first chat of a checkout, and the post of its diff. -/
def firstDiff : List Act :=
  together [chatA] ++ [Act.recv 0, .settle 0, .capture 0 (some "1"), .readGroup 0, .upload 0 true true,
    .finish 0]

/-- The second chat joins, and a capture for it has a checksum. -/
def joinedDiff (checksum : String) : List Act :=
  firstDiff ++ together [chatA, chatB] ++ [Act.recv 0, .settle 0, .capture 0 (some checksum)]

def diffRun (acts : List Act) : Option World := Run.exec (World.step "device" 0) World.start acts

/-- Something has changed by then, and it goes to both. -/
theorem delivered_of_served_two :
    ∃ w, diffRun (joinedDiff "2" ++ [.readGroup 0, .upload 0 true true, .upload 0 true true,
      .finish 0]) = some w ∧ w.Delivered := by
  have hserved : Run.Guarded (World.step "device" 0) World.Served World.start (joinedDiff "2" ++
      [.readGroup 0, .upload 0 true true, .upload 0 true true, .finish 0]) :=
    Run.guarded_of_checks (by decide +kernel)
  have hsome : (diffRun (joinedDiff "2" ++ [.readGroup 0, .upload 0 true true,
      .upload 0 true true, .finish 0])).isSome = true := by
    decide +kernel
  obtain ⟨w, hrun⟩ := Option.isSome_iff_exists.mp hsome
  exact ⟨w, hrun, delivered_of_served hserved hrun⟩

/-- Nothing has changed: the kick for the second chat is handled, and it gets nothing. -/
theorem joined_unserved :
    ∃ w, diffRun (joinedDiff "1") = some w ∧ w.entries = [("r", 0)] ∧
      (w.store 0).phase = .idle ∧ (w.store 0).kicks = 0 ∧ (w.store 0).captured = some "1" ∧
      chatB ∈ (w.store 0).chats ∧ ⟨0, "b", "1"⟩ ∉ w.sent ∧ ¬ w.Delivered := by
  have hend : (diffRun (joinedDiff "1")).map (fun w => (w.entries, w.store 0, w.sent)) =
      some ([("r", 0)], ⟨⟨"r", "/r"⟩, [chatA, chatB], some "1", none, 0, .idle, some "1", ["b"]⟩,
        [⟨0, "a", "1"⟩]) := by
    decide +kernel
  obtain ⟨w, hrun, hw⟩ := Option.map_eq_some_iff.mp hend
  obtain ⟨hentries, hw⟩ := Prod.mk.inj hw
  obtain ⟨hentry, hsent⟩ := Prod.mk.inj hw
  have hmem : chatB ∈ (w.store 0).chats := by
    rw [hentry]
    exact List.mem_cons_of_mem _ List.mem_cons_self
  have hnot : (⟨0, "b", "1"⟩ : Sidecar) ∉ w.sent := by
    rw [hsent]
    decide
  have hphase : (w.store 0).phase = .idle := by rw [hentry]
  have hkicks : (w.store 0).kicks = 0 := by rw [hentry]
  have hcaptured : (w.store 0).captured = some "1" := by rw [hentry]
  refine ⟨w, hrun, hentries, hphase, hkicks, hcaptured, hmem, hnot, fun hdelivered => hnot ?_⟩
  have hin : ("r", 0) ∈ w.entries := by
    rw [hentries]
    exact List.mem_cons_self
  exact hdelivered _ hin hphase hkicks "1" hcaptured chatB hmem

end Zeron.Diff
