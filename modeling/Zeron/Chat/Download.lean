import Zeron.Chat.Room

/-!
# Checkpoint downloads

`EdgeCheckpointFetcher::fetch` (`crates/engine/src/chat2_host.rs`) against a room whose checkpoint
may be replaced between two attempts of one download.

* `Download.attempt`: one answered attempt, whole or cut;
* `Link`, `Link.step`: a room, a download, and the commits accepted so far;
* `Resumable`: what a partial download has to do with the blob in the tables;
* **`download_is_committed`**: what a completed download returns, over every run.
-/

namespace Zeron.Chat

/-! ## One download -/

/-- A download between two attempts: the bytes it has, the seq they were stamped with, the attempts
left, and the seq its caller will record. -/
structure Download where
  got : Bytes
  seen : Option ℕ
  left : ℕ
  recorded : ℕ
  deriving DecidableEq

inductive Fetched where
  | again (d : Download)
  | done (bytes : Bytes)
  | failed (message : String)
  deriving DecidableEq

/-- A download before its first attempt. -/
def Download.start (recorded : ℕ) : Download := { got := [], seen := none, left := 4, recorded }

/-- The range an attempt asks for. -/
def Download.range (d : Download) : Option ℕ := if d.got = [] then none else some d.got.length

/-- The stream of an answer: whole, or cut after some bytes. -/
def Download.stream (d : Download) (body : Bytes) (cut : Option ℕ) : Fetched :=
  match cut with
  | none => .done (d.got ++ body)
  | some k => .again { d with got := d.got ++ body.take k }

/-- One answered attempt. -/
def Download.attempt (d : Download) (res : CheckpointResponse) (cut : Option ℕ) : Fetched :=
  if res.seq.isSome ∧ d.seen.isSome ∧ res.seq ≠ d.seen then
    -- replaced since the last attempt: start over, at the next one
    .again { d with got := [], seen := res.seq }
  else
    let d := { d with seen := res.seq.or d.seen }
    if res.status = 200 then { d with got := [] }.stream res.body cut
    else if res.status = 206 then d.stream res.body cut
    else if res.status = 416 then .failed "checkpoint range beyond end"
    else if res.status = 404 then .failed "no checkpoint"
    else .failed ("checkpoint HTTP " ++ toString res.status)

/-! ## The system -/

/-- What a completed download hands over: the bytes, and the seq they are recorded under. -/
structure Installed where
  bytes : Bytes
  seq : ℕ
  deriving DecidableEq

structure Link where
  room : Room
  download : Option Download
  /-- The commits accepted so far. -/
  commits : List Commit
  installed : List Installed
  deriving DecidableEq

def Link.start : Link := { room := .empty, download := none, commits := [], installed := [] }

inductive LinkAct where
  | append (device batchId : String) (bytes : Bytes)
  | commit (seqCovered : ℕ) (frontier bytes : Bytes)
  /-- A catch-up plans a download from the state frame it got. -/
  | plan
  /-- An attempt is not answered. -/
  | unreachable
  /-- An attempt is answered, and its body is cut after some bytes or not. -/
  | get (cut : Option ℕ)
  deriving DecidableEq

/-- The system after an attempt. -/
def Link.fetched (s : Link) (recorded : ℕ) : Fetched → Link
  | .again d => { s with download := some d }
  | .done bytes =>
    { s with download := none, installed := s.installed ++ [{ bytes, seq := recorded }] }
  | .failed _ => { s with download := none }

def Link.step (s : Link) : LinkAct → Option Link
  | .append device batchId bytes =>
    some { s with room := { s.room with log := (s.room.log.appendRow device batchId bytes).1 } }
  | .commit seqCovered frontier bytes =>
    match s.room.log.commitCheckpoint seqCovered frontier bytes with
    | (_, .error _) => some s
    | (log, .ok _ _) =>
      some { s with room := { s.room with log }
                    commits := s.commits ++ [{ seqCovered, frontier, bytes }] }
  | .plan =>
    if s.download = none then
      some { s with download := some (.start s.room.log.checkpointSeq) }
    else none
  | .unreachable =>
    match s.download with
    | some d =>
      if d.left = 0 then none else some { s with download := some { d with left := d.left - 1 } }
    | none => none
  | .get cut =>
    match s.download with
    | some d =>
      if d.left = 0 then none
      else
        let d := { d with left := d.left - 1 }
        some (s.fetched d.recorded (d.attempt (s.room.getCheckpoint d.range) cut))
    | none => none

/-! ## The guard -/

/-- The steps after which a download can go wrong do not happen: the blob a partial download began
on is not replaced by another one under the same seq, no body is cut at its very end, and no
answer is complete under another seq than the recorded one. -/
def Link.Sound (s : Link) : LinkAct → Prop
  | .commit seqCovered _ bytes => ∀ d ∈ s.download, d.got ≠ [] → d.seen = some seqCovered →
      s.room.log.checkpoint = some bytes
  | .get (some k) => ∀ d ∈ s.download, k < (s.room.getCheckpoint d.range).body.length
  | .get none => ∀ d ∈ s.download, s.room.log.checkpointSeq = d.recorded
  | _ => True

instance (s : Link) (a : LinkAct) : Decidable (s.Sound a) := by
  unfold Link.Sound
  cases a with
  | get cut => cases cut <;> infer_instance
  | _ => infer_instance

/-- A partial download and the blob in the tables: where the seqs agree, its bytes are the first
ones of the blob, and not all. -/
structure Resumable (log : Log) (d : Download) : Prop where
  stamped : d.got ≠ [] → ∃ seq, d.seen = some seq
  seen_le : ∀ seq, d.seen = some seq → seq ≤ log.checkpointSeq
  begun : d.got ≠ [] → d.seen = some log.checkpointSeq →
    ∃ rest, rest ≠ [] ∧ log.checkpoint = some (d.got ++ rest)

/-- What the system keeps. -/
structure Link.Inv (s : Link) : Prop where
  wf : s.room.log.Wf
  current : ∀ bytes, s.room.log.checkpoint = some bytes →
    ∃ c ∈ s.commits, c.bytes = bytes ∧ c.seqCovered = s.room.log.checkpointSeq
  resumable : ∀ d ∈ s.download, Resumable s.room.log d
  installed : ∀ f ∈ s.installed, ∃ c ∈ s.commits, c.bytes = f.bytes ∧ c.seqCovered = f.seq

theorem inv_start : Link.start.Inv :=
  ⟨wf_empty, by simp [Link.start, Room.empty, Log.empty, Log.checkpoint, Blobs.get],
    by simp [Link.start], by simp [Link.start]⟩

theorem resumable_start (log : Log) (recorded : ℕ) : Resumable log (.start recorded) :=
  ⟨fun h => absurd rfl h, fun _ h => (by cases h), fun h => absurd rfl h⟩

/-! ## Attempts -/

section Attempt

variable {room : Room} {d : Download}

/-- The answer to an attempt of a resumable download that the seqs let continue: the rest of the
blob. -/
theorem getCheckpoint_resume {bytes : Bytes} (hb : room.log.checkpoint = some bytes)
    (hd : Resumable room.log d) (hseen : d.seen = none ∨ d.seen = some room.log.checkpointSeq) :
    ∃ status rest, room.getCheckpoint d.range = ⟨status, some room.log.checkpointSeq, rest⟩ ∧
      d.got ++ rest = bytes ∧ (status = 200 ∧ d.got = [] ∨ status = 206) := by
  rw [Room.getCheckpoint, hb]
  by_cases hgot : d.got = []
  · refine ⟨200, bytes, ?_, ?_, Or.inl ⟨rfl, hgot⟩⟩
    · rw [Download.range, if_pos hgot]
      rfl
    · rw [hgot, List.nil_append]
  · obtain ⟨seq, hseq⟩ := hd.stamped hgot
    have hcur : d.seen = some room.log.checkpointSeq := by
      rcases hseen with h | h
      · rw [h] at hseq
        cases hseq
      · exact h
    obtain ⟨rest, hrest, he⟩ := hd.begun hgot hcur
    rw [hb, Option.some_inj] at he
    have hpos : 0 < d.got.length := List.length_pos_iff.mpr hgot
    have hlen : ¬ bytes.length ≤ d.got.length := by
      rw [he, List.length_append]
      have := List.length_pos_iff.mpr hrest
      omega
    refine ⟨206, rest, ?_, he.symm, Or.inr rfl⟩
    rw [Download.range, if_neg hgot, Option.filter_some_pos (by simpa using hpos)]
    dsimp only
    rw [if_neg hlen, he, List.drop_left']
    rfl

/-- **An attempt of a resumable download that is answered whole completes it, with the blob in the
tables**, where the seqs let it continue. -/
theorem attempt_whole {bytes : Bytes} (hb : room.log.checkpoint = some bytes)
    (hd : Resumable room.log d) (hseen : d.seen = none ∨ d.seen = some room.log.checkpointSeq) :
    d.attempt (room.getCheckpoint d.range) none = .done bytes := by
  obtain ⟨status, rest, hres, he, hstatus⟩ := getCheckpoint_resume hb hd hseen
  rw [hres, Download.attempt, if_neg]
  · rcases hstatus with ⟨rfl, hgot⟩ | rfl
    · rw [hgot, List.nil_append] at he
      simp [Download.stream, he]
    · simp [Download.stream, he]
  · rcases hseen with h | h
    · simp [h]
    · simp [h]

theorem resumable_cut {bytes : Bytes} (hb : room.log.checkpoint = some bytes)
    (hd : Resumable room.log d) (hseen : d.seen = none ∨ d.seen = some room.log.checkpointSeq)
    {k : ℕ} (hk : k < (room.getCheckpoint d.range).body.length) :
    ∃ d', d.attempt (room.getCheckpoint d.range) (some k) = .again d' ∧
      Resumable room.log d' := by
  obtain ⟨status, rest, hres, he, hstatus⟩ := getCheckpoint_resume hb hd hseen
  rw [hres] at hk ⊢
  have hcut : d.attempt ⟨status, some room.log.checkpointSeq, rest⟩ (some k) =
      .again { d with seen := some room.log.checkpointSeq, got := d.got ++ rest.take k } := by
    rw [Download.attempt, if_neg]
    · rcases hstatus with ⟨rfl, hgot⟩ | rfl
      · simp [Download.stream, hgot]
      · simp [Download.stream]
    · rcases hseen with h | h
      · simp [h]
      · simp [h]
  refine ⟨_, hcut, fun _ => ⟨_, rfl⟩, ?_, fun _ _ => ⟨rest.drop k, ?_, ?_⟩⟩
  · rintro seq h
    cases h
    exact le_rfl
  · rw [Ne, List.drop_eq_nil_iff, not_le]
    exact hk
  · rw [List.append_assoc, List.take_append_drop, he]
    exact hb

theorem attempt_replaced {res : CheckpointResponse} {seq : ℕ} (hres : res.seq = some seq)
    (hne : d.seen ≠ none) (h : d.seen ≠ some seq) (cut : Option ℕ) :
    d.attempt res cut = .again { d with got := [], seen := some seq } := by
  rw [Download.attempt, if_pos, hres]
  rw [hres]
  exact ⟨rfl, Option.isSome_iff_ne_none.mpr hne, fun he => h he.symm⟩

end Attempt

/-! ## Steps -/

theorem getCheckpoint_none {room : Room} (h : room.log.checkpoint = none) (range : Option ℕ) :
    room.getCheckpoint range = ⟨404, none, []⟩ := by
  rw [Room.getCheckpoint, h]

theorem getCheckpoint_cases {room : Room} {bytes : Bytes} (h : room.log.checkpoint = some bytes)
    (range : Option ℕ) : (room.getCheckpoint range).seq = some room.log.checkpointSeq ∨
      room.getCheckpoint range = ⟨416, none, []⟩ := by
  rw [Room.getCheckpoint, h]
  dsimp only
  split
  · exact Or.inl rfl
  · split_ifs
    · exact Or.inr rfl
    · exact Or.inl rfl

theorem inv_append {s : Link} (h : s.Inv) (device batchId : String) (bytes : Bytes) :
    Link.Inv { s with room :=
      { s.room with log := (s.room.log.appendRow device batchId bytes).1 } } := by
  obtain ⟨hw, hcurrent, hresumable, hinstalled⟩ := h
  have hspec := appendRow_spec hw device batchId bytes
  have hw' := wf_appendRow hw device batchId bytes
  generalize s.room.log.appendRow device batchId bytes = out at hspec hw'
  rcases hspec with _ | _ | _
  · exact ⟨hw', hcurrent, hresumable, hinstalled⟩
  · exact ⟨hw', hcurrent, hresumable, hinstalled⟩
  · refine ⟨hw', hcurrent, fun d hd => ?_, hinstalled⟩
    obtain ⟨h₁, h₂, h₃⟩ := hresumable d hd
    exact ⟨h₁, h₂, h₃⟩

theorem resumable_commit {log : Log} {d : Download} (h : Resumable log d) {seqCovered : ℕ}
    {frontier bytes : Bytes} (hfloor : log.checkpointSeq ≤ seqCovered)
    (hsame : d.got ≠ [] → d.seen = some seqCovered → log.checkpoint = some bytes) :
    Resumable { log with
      rows := SeqLog.above LogRow.seq seqCovered log.rows
      blobs := (log.blobs.put checkpointBlob bytes).put frontierBlob frontier
      seqFloor := seqCovered
      checkpointSeq := seqCovered
      checkpointSize := bytes.length } d := by
  refine ⟨h.stamped, fun seq hseq => (h.seen_le seq hseq).trans hfloor, fun hgot hseen => ?_⟩
  have hle := h.seen_le seqCovered hseen
  have heq : log.checkpointSeq = seqCovered := le_antisymm hfloor hle
  rw [← heq] at hseen
  obtain ⟨rest, hrest, he⟩ := h.begun hgot hseen
  refine ⟨rest, hrest, ?_⟩
  rw [heq] at hseen
  rw [hsame hgot hseen] at he
  rw [Log.checkpoint, get_put_of_ne _ _ (by decide), get_put]
  exact he

theorem inv_commit {s : Link} (h : s.Inv) {seqCovered : ℕ} {frontier bytes : Bytes}
    (hg : s.Sound (.commit seqCovered frontier bytes)) {s' : Link}
    (he : s.step (.commit seqCovered frontier bytes) = some s') : s'.Inv := by
  have hspec := commitCheckpoint_spec h.wf seqCovered frontier bytes
  have hw' := wf_commitCheckpoint h.wf seqCovered frontier bytes
  rw [Link.step] at he
  generalize s.room.log.commitCheckpoint seqCovered frontier bytes = out at hspec hw' he
  rcases hspec with _ | ⟨hpos, hfloor, hhead⟩
  · cases he
    exact h
  · cases he
    refine ⟨hw', ?_, ?_, ?_⟩
    · intro blob hblob
      rw [Log.checkpoint, get_put_of_ne _ _ (by decide), get_put, Option.some_inj] at hblob
      exact ⟨_, List.mem_append_right _ List.mem_cons_self, hblob, rfl⟩
    · intro d hd
      exact resumable_commit (h.resumable d hd) (h.wf.covered.le.trans hfloor) (hg d hd)
    · intro f hf
      obtain ⟨c, hc, hbytes⟩ := h.installed f hf
      exact ⟨c, List.mem_append_left _ hc, hbytes⟩

theorem Link.Inv.fetched {s : Link} (h : s.Inv) {d : Download} (hd : Resumable s.room.log d) :
    Link.Inv { s with download := some d } :=
  ⟨h.wf, h.current, fun d' hd' => by cases hd'; exact hd, h.installed⟩

theorem Link.Inv.idle {s : Link} (h : s.Inv) : Link.Inv { s with download := none } :=
  ⟨h.wf, h.current, fun _ hd => (by cases hd), h.installed⟩

theorem inv_get {s : Link} (h : s.Inv) {cut : Option ℕ} (hg : s.Sound (.get cut)) {s' : Link}
    (he : s.step (.get cut) = some s') : s'.Inv := by
  rw [Link.step] at he
  split at he
  · rename_i d hd
    split_ifs at he
    cases he
    obtain ⟨hstamped, hle, hbegun⟩ := h.resumable d hd
    have hres : Resumable s.room.log { d with left := d.left - 1 } := ⟨hstamped, hle, hbegun⟩
    rcases hb : s.room.log.checkpoint with _ | bytes
    · rw [getCheckpoint_none hb]
      exact h.idle
    · by_cases hseen : d.seen = none ∨ d.seen = some s.room.log.checkpointSeq
      · rcases cut with _ | k
        · -- complete: the blob in the tables, under the recorded seq
          rw [attempt_whole hb hres hseen]
          refine ⟨h.wf, h.current, fun d' hd' => (by cases hd'), fun f hf => ?_⟩
          rcases List.mem_append.mp hf with hf | hf
          · exact h.installed f hf
          · rw [List.mem_singleton.mp hf]
            have hrec : s.room.log.checkpointSeq = d.recorded := hg d hd
            obtain ⟨c, hc, hbytes, hseq⟩ := h.current bytes hb
            exact ⟨c, hc, hbytes, hseq.trans hrec⟩
        · obtain ⟨d', hd', hres'⟩ := resumable_cut hb hres hseen (hg d hd)
          rw [hd']
          exact h.fetched hres'
      · rw [not_or] at hseen
        rcases getCheckpoint_cases hb (Download.range { d with left := d.left - 1 }) with hseq | hseq
        · rw [attempt_replaced (d := { d with left := d.left - 1 }) hseq hseen.1 hseen.2]
          refine h.fetched ⟨fun hne => absurd rfl hne, ?_, fun hne => absurd rfl hne⟩
          rintro seq hs
          cases hs
          exact le_rfl
        · rw [hseq]
          exact h.idle
  · cases he

theorem inv_step (s : Link) (a : LinkAct) (s' : Link) (h : s.Inv) (hg : s.Sound a)
    (he : s.step a = some s') : s'.Inv := by
  cases a with
  | append device batchId bytes =>
    cases he
    exact inv_append h device batchId bytes
  | commit seqCovered frontier bytes => exact inv_commit h hg he
  | plan =>
    rw [Link.step] at he
    split_ifs at he
    cases he
    exact h.fetched (resumable_start _ _)
  | unreachable =>
    rw [Link.step] at he
    split at he
    · rename_i d hd
      split_ifs at he
      cases he
      obtain ⟨h₁, h₂, h₃⟩ := h.resumable d hd
      exact h.fetched ⟨h₁, h₂, h₃⟩
    · cases he
  | get cut => exact inv_get h hg he

/-- **A completed download is one committed blob, under the seq it is recorded with; and a partial
one of the checkpoint in the tables completes at its next whole answer.** -/
theorem download_is_committed (acts : List LinkAct) (s : Link)
    (hg : Run.Guarded Link.step Link.Sound Link.start acts)
    (he : Run.exec Link.step Link.start acts = some s) :
    (∀ f ∈ s.installed, ∃ c ∈ s.commits, c.bytes = f.bytes ∧ c.seqCovered = f.seq) ∧
    ∀ d ∈ s.download, d.got ≠ [] → d.seen = some s.room.log.checkpointSeq → 0 < d.left →
      ∃ bytes, s.room.log.checkpoint = some bytes ∧ s.step (.get none) = some { s with
        download := none, installed := s.installed ++ [{ bytes, seq := d.recorded }] } := by
  have h : s.Inv := Run.exec_invariant inv_step inv_start hg he
  refine ⟨h.installed, fun d hd hgot hseen hleft => ?_⟩
  obtain ⟨rest, _, hb⟩ := (h.resumable d hd).begun hgot hseen
  refine ⟨_, hb, ?_⟩
  obtain ⟨h₁, h₂, h₃⟩ := h.resumable d hd
  have hres : Resumable s.room.log { d with left := d.left - 1 } := ⟨h₁, h₂, h₃⟩
  rw [Option.mem_def] at hd
  simp only [Link.step, hd, Nat.ne_of_gt hleft, if_false]
  rw [attempt_whole hb hres (Or.inr hseen)]
  rfl

/-! ## Drops -/

/-- A checkpoint is committed, and its download cut after the first byte. -/
def cutOnce : List LinkAct := [.commit 0 [7] [1, 2, 3], .plan, .get (some 1)]

/-- A download that resumes. -/
theorem download_is_committed_resumed : ∃ s, Run.exec Link.step Link.start
    (cutOnce ++ [.get none]) = some s ∧ s.installed = [⟨[1, 2, 3], 0⟩] ∧
    ∀ f ∈ s.installed, ∃ c ∈ s.commits, c.bytes = f.bytes ∧ c.seqCovered = f.seq := by
  have hs : (Run.exec Link.step Link.start (cutOnce ++ [LinkAct.get none])).isSome = true := by
    decide +kernel
  obtain ⟨s, he⟩ := Option.isSome_iff_exists.mp hs
  refine ⟨s, he, ?_, (download_is_committed _ s (Run.guarded_of_checks (by decide +kernel)) he).1⟩
  have hi : (Run.exec Link.step Link.start (cutOnce ++ [.get none])).map (·.installed) =
      some [⟨[1, 2, 3], 0⟩] := by decide +kernel
  rw [he, Option.map_some, Option.some_inj] at hi
  exact hi

/-- Another blob under the seq of the partial download is spliced onto it; and a download cut at
the end of its body is answered 416 and given up. -/
theorem spliced_download :
    (¬ ∀ acts s, Run.exec Link.step Link.start acts = some s →
      ∀ f ∈ s.installed, ∃ c ∈ s.commits, c.bytes = f.bytes) ∧
    (Run.exec Link.step Link.start
      [.commit 0 [7] [1, 2, 3], .plan, .get (some 3), .get none]).map
        (fun s => (s.download, s.installed)) = some (none, []) := by
  refine ⟨fun h => ?_, by decide +kernel⟩
  have hi : (Run.exec Link.step Link.start (cutOnce ++ [.commit 0 [7] [4, 5, 6], .get none])).all
      (fun s => s.installed.all fun f => s.commits.any (·.bytes = f.bytes)) = false := by
    decide +kernel
  rcases hs : Run.exec Link.step Link.start (cutOnce ++ [.commit 0 [7] [4, 5, 6], .get none]) with _ | s
  · rw [hs] at hi
    cases hi
  · rw [hs, Option.all_some, List.all_eq_false] at hi
    obtain ⟨f, hf, hne⟩ := hi
    obtain ⟨c, hc, hbytes⟩ := h _ s hs f hf
    exact hne (List.any_eq_true.mpr ⟨c, hc, decide_eq_true hbytes⟩)

end Zeron.Chat
