import Zeron.Chat.Room

/-!
# Retried batches

A batch id is looked up among the stored rows; rows at or below the floor are gone.

* `RoomAct`, `Room.act`: a push on either transport or a checkpoint, and its acknowledgement;
* `Granted`, `granted_serve`: what the acknowledgements of a run and the stored rows have to do
  with each other;
* **`retry_exactly_once`**: a retry is acknowledged with its first seq and appends nothing iff its
  row is above the floor; two batches never share a seq.
-/

namespace Zeron.Chat

inductive RoomAct where
  | push (now : ℕ) (ready : Bool) (device batchId : String) (payload : Bytes)
  | post (now : ℕ) (device batchId : String) (declared : ℕ) (payload : Bytes)
  | checkpoint (seqCovered : Option ℕ) (frontier : Option Bytes) (body : Bytes)
  deriving DecidableEq

/-- The batch and the seq of an acknowledgement. -/
def Frame.ack? : Frame → Option (String × ℕ)
  | .ack batchId seq _ => some (batchId, seq)
  | _ => none

def PushResponse.ack? : PushResponse → Option (String × ℕ)
  | .ok batchId seq _ => some (batchId, seq)
  | .error _ _ => none

/-- The room after a request, and its acknowledgement. -/
def Room.act (room : Room) : RoomAct → Room × Option (String × ℕ)
  | .push now ready device batchId payload =>
    let out := room.handlePush now ready device batchId payload
    (out.1, out.2.1.ack?)
  | .post now device batchId declared payload =>
    let out := room.postRows now device batchId declared payload
    (out.1, out.2.1.ack?)
  | .checkpoint seqCovered frontier body => ((room.postCheckpoint seqCovered frontier body).1, none)

/-- One request, with the acknowledgements given so far. -/
def serve (s : Room × List (String × ℕ)) (a : RoomAct) : Room × List (String × ℕ) :=
  ((s.1.act a).1, s.2 ++ (s.1.act a).2.toList)

/-- The room after a list of requests, and the acknowledgements it gave, in order. -/
def serveAll (acts : List RoomAct) : Room × List (String × ℕ) := acts.foldl serve (.empty, [])

/-- The seq a batch was first given. -/
def firstGiven (given : List (String × ℕ)) (batchId : String) : Option ℕ :=
  (given.find? (·.1 = batchId)).map (·.2)

/-- What a request does to the log. -/
inductive Served (room : Room) : Room × Option (String × ℕ) → Prop where
  | idle (quotas) : Served room ({ room with quotas }, none)
  | acked (quotas) (device batchId : String) (bytes : Bytes) (seq : ℕ) (dup : Bool)
      (h : (room.log.appendRow device batchId bytes).2 = .ok seq dup) :
      Served room (⟨(room.log.appendRow device batchId bytes).1, quotas⟩, some (batchId, seq))
  | committed (seqCovered : ℕ) (frontier bytes : Bytes) :
      Served room ({ room with log := (room.log.commitCheckpoint seqCovered frontier bytes).1 },
        none)

/-- **Every outcome of a request.** -/
theorem act_spec (room : Room) (a : RoomAct) : Served room (room.act a) := by
  have hquota : ∀ now device bytes, (room.admitQuota now device bytes).1 =
      { room with quotas := (room.admitQuota now device bytes).1.quotas } := fun _ _ _ => rfl
  cases a with
  | push now ready device batchId payload =>
    rw [Room.act, Room.handlePush]
    split_ifs with hbad
    · exact .idle room.quotas
    · dsimp only
      split_ifs with hfull
      · exact .idle _
      · rw [Room.log_admitQuota]
        split
        · exact .idle _
        · rename_i log seq dup h
          rw [Prod.ext_iff] at h
          have hs := @Served.acked room (room.admitQuota now device payload.length).1.quotas
            device batchId payload seq dup h.2
          rwa [h.1] at hs
  | post now device batchId declared payload =>
    rw [Room.act, Room.postRows]
    split_ifs with hbad hdeclared
    · exact .idle room.quotas
    · exact .idle room.quotas
    · dsimp only
      split_ifs with hfull
      · exact .idle _
      · rw [Room.log_admitQuota]
        split
        · exact .idle _
        · rename_i log seq dup h
          rw [Prod.ext_iff] at h
          have hs := @Served.acked room (room.admitQuota now device payload.length).1.quotas
            device batchId payload seq dup h.2
          rwa [h.1] at hs
  | checkpoint seqCovered frontier body =>
    rw [Room.act]
    unfold Room.postCheckpoint
    split
    · exact .idle room.quotas
    · exact .idle room.quotas
    · rename_i seqCovered frontier
      split_ifs with hempty hlarge
      · exact .idle room.quotas
      · exact .idle room.quotas
      · have hs : Served room _ := Served.committed seqCovered frontier body
        split
        · exact .idle room.quotas
        · rename_i log _ _ h
          rwa [h] at hs

/-- The acknowledgements given and the stored rows. -/
structure Granted (room : Room) (given : List (String × ℕ)) : Prop where
  wf : room.log.Wf
  le_head : ∀ g ∈ given, g.2 ≤ room.log.headSeq
  stored : ∀ g ∈ given, room.log.seqFloor < g.2 →
    ∃ row ∈ room.log.rows, row.seq = g.2 ∧ row.batchId = g.1
  row_given : ∀ row ∈ room.log.rows, (row.batchId, row.seq) ∈ given
  distinct : ∀ g ∈ given, ∀ g' ∈ given, g.2 = g'.2 → g.1 = g'.1

theorem granted_empty : Granted .empty [] :=
  ⟨wf_empty, by simp, by simp, by simp [Room.empty, Log.empty], by simp⟩

theorem granted_serve {s : Room × List (String × ℕ)} (h : Granted s.1 s.2) (a : RoomAct) :
    Granted (serve s a).1 (serve s a).2 := by
  obtain ⟨room, given⟩ := s
  obtain ⟨hw, hle, hstored, hrow, hdistinct⟩ := h
  have hspec := act_spec room a
  simp only [serve]
  generalize room.act a = out at hspec
  rcases hspec with ⟨quotas⟩ | ⟨quotas, device, batchId, bytes, seq, dup, hok⟩ |
    ⟨seqCovered, frontier, bytes⟩
  · simpa using ⟨hw, hle, hstored, hrow, hdistinct⟩
  · have happ := appendRow_spec hw device batchId bytes
    have hw' := wf_appendRow hw device batchId bytes
    dsimp only
    generalize room.log.appendRow device batchId bytes = out at happ hok hw'
    rcases happ with _ | ⟨row, hr, hb, _, _⟩ | ⟨hnew, _, _⟩
    · cases hok
    · -- the row was acknowledged when it was appended
      cases hok
      have hmem : (batchId, row.seq) ∈ given := hb ▸ hrow row hr
      have hgiven : ∀ g, g ∈ given ++ (some (batchId, row.seq)).toList ↔ g ∈ given := by
        intro g
        simp only [Option.toList_some, List.mem_append, List.mem_singleton]
        exact ⟨fun hg => hg.elim id fun he => he ▸ hmem, Or.inl⟩
      simp only [← hgiven] at hle hstored hrow hdistinct
      exact ⟨hw, hle, hstored, hrow, hdistinct⟩
    · cases hok
      simp only [Option.toList_some]
      refine ⟨hw', ?_, ?_, ?_, ?_⟩
      · intro g hg
        rcases List.mem_append.mp hg with hg | hg
        · exact (hle g hg).trans (Nat.le_succ _)
        · rw [List.mem_singleton.mp hg]
      · intro g hg hfloor
        rcases List.mem_append.mp hg with hg | hg
        · obtain ⟨row, hr, he⟩ := hstored g hg hfloor
          exact ⟨row, List.mem_append_left _ hr, he⟩
        · rw [List.mem_singleton.mp hg]
          exact ⟨_, List.mem_append_right _ List.mem_cons_self, rfl, rfl⟩
      · intro row hr
        rcases List.mem_append.mp hr with hr | hr
        · exact List.mem_append_left _ (hrow row hr)
        · rw [List.mem_singleton.mp hr]
          exact List.mem_append_right _ List.mem_cons_self
      · -- the new seq is above every one given before
        intro g hg g' hg' he
        rcases List.mem_append.mp hg with hg | hg <;> rcases List.mem_append.mp hg' with hg' | hg'
        · exact hdistinct g hg g' hg' he
        · rw [List.mem_singleton.mp hg'] at he
          have hlt : g.2 ≤ room.log.headSeq := hle g hg
          dsimp only at he
          omega
        · rw [List.mem_singleton.mp hg] at he
          have hlt : g'.2 ≤ room.log.headSeq := hle g' hg'
          dsimp only at he
          omega
        · rw [List.mem_singleton.mp hg, List.mem_singleton.mp hg']
  · have hc := commitCheckpoint_spec hw seqCovered frontier bytes
    have hw' := wf_commitCheckpoint hw seqCovered frontier bytes
    simp only [Option.toList_none, List.append_nil]
    generalize room.log.commitCheckpoint seqCovered frontier bytes = out at hc hw'
    rcases hc with _ | ⟨_, hfloor, _⟩
    · exact ⟨hw, hle, hstored, hrow, hdistinct⟩
    · refine ⟨hw', hle, ?_, ?_, hdistinct⟩
      · intro g hg hlt
        obtain ⟨row, hr, hseq, hb⟩ := hstored g hg (hfloor.trans_lt hlt)
        refine ⟨row, List.mem_filter.mpr ⟨hr, ?_⟩, hseq, hb⟩
        rw [hseq]
        exact decide_eq_true hlt
      · exact fun row hr => hrow row (List.mem_of_mem_filter hr)

theorem granted_serveAll (acts : List RoomAct) :
    Granted (serveAll acts).1 (serveAll acts).2 := by
  induction acts using List.reverseRecOn with
  | nil => exact granted_empty
  | append_singleton acts a ih =>
    rw [serveAll, List.foldl_append]
    exact granted_serve ih a

theorem firstGiven_mem {given : List (String × ℕ)} {batchId : String} {n : ℕ}
    (h : firstGiven given batchId = some n) : (batchId, n) ∈ given := by
  obtain ⟨g, hg, rfl⟩ := Option.map_eq_some_iff.mp h
  have hb : g.1 = batchId := by simpa using List.find?_some hg
  rw [← hb]
  exact List.mem_of_find?_eq_some hg

/-- An acknowledged retry keeps its first seq, and the log as it was, iff that seq is above the
floor. -/
theorem retry_iff {room : Room} {given : List (String × ℕ)} (h : Granted room given) {a : RoomAct}
    {batchId : String} {n m : ℕ} (hn : (batchId, n) ∈ given)
    (ha : (room.act a).2 = some (batchId, m)) :
    (m = n ∧ (room.act a).1.log = room.log) ↔ room.log.seqFloor < n := by
  have hspec := act_spec room a
  generalize room.act a = out at hspec ha
  rcases hspec with _ | ⟨quotas, device, batchId', bytes, seq, dup, hok⟩ | _
  · cases ha
  · cases ha
    have happ := appendRow_spec h.wf device batchId bytes
    dsimp only
    generalize room.log.appendRow device batchId bytes = out at happ hok
    rcases happ with _ | ⟨row, hr, hb, _, _⟩ | ⟨hnew, _, _⟩
    · cases hok
    · cases hok
      constructor
      · rintro ⟨rfl, -⟩
        exact (h.wf.spans.ver_mem hr).1
      · intro hfloor
        obtain ⟨row', hr', hseq, hb'⟩ := h.stored _ hn hfloor
        -- one row for the batch id
        have he : row = row' := List.inj_on_of_nodup_map h.wf.batches hr hr' (hb.trans hb'.symm)
        exact ⟨by rw [he]; exact hseq, rfl⟩
    · cases hok
      constructor
      · rintro ⟨hseq, -⟩
        have hle := h.le_head _ hn
        simp only at hle
        omega
      · intro hfloor
        obtain ⟨row, hr, -, hb⟩ := h.stored _ hn hfloor
        exact absurd hb (hnew row hr)
  · cases ha

/-- **In any run, an acknowledged retry is given its first seq and appends nothing iff its row was
not pruned; two different batches are never given one seq.** -/
theorem retry_exactly_once (acts : List RoomAct) :
    (∀ pre a post batchId n m, acts = pre ++ a :: post →
      firstGiven (serveAll pre).2 batchId = some n →
      ((serveAll pre).1.act a).2 = some (batchId, m) →
        ((m = n ∧ ((serveAll pre).1.act a).1.log = (serveAll pre).1.log) ↔
          (serveAll pre).1.log.seqFloor < n)) ∧
    ∀ b n b' n', (b, n) ∈ (serveAll acts).2 → (b', n') ∈ (serveAll acts).2 → b ≠ b' → n ≠ n' := by
  refine ⟨fun pre a post batchId n m _ hn ha => ?_, fun b n b' n' h h' hne he => ?_⟩
  · exact retry_iff (granted_serveAll pre) (firstGiven_mem hn) ha
  · exact hne ((granted_serveAll acts).distinct _ h _ h' he)

/-- A push of one byte over HTTP. -/
def postByte (batchId : String) : RoomAct := .post 0 "d" batchId 1 [1]

/-- A retry whose row is stored. -/
theorem retry_exactly_once_stored :
    ((serveAll [postByte "b"]).1.act (postByte "b")).1.log = (serveAll [postByte "b"]).1.log :=
  (((retry_exactly_once [postByte "b", postByte "b"]).1 [postByte "b"] (postByte "b") [] "b" 1 1 rfl
    (by decide +kernel) (by decide +kernel)).mpr (by decide +kernel)).2

/-- A checkpoint that covers a batch's row makes its retry a new row. -/
theorem pruned_retry_appends :
    ¬ ∀ (acts pre : List RoomAct) (a : RoomAct) (post : List RoomAct) (batchId : String) (n m : ℕ),
      acts = pre ++ a :: post → firstGiven (serveAll pre).2 batchId = some n →
      ((serveAll pre).1.act a).2 = some (batchId, m) →
        m = n ∧ ((serveAll pre).1.act a).1.log = (serveAll pre).1.log := by
  intro h
  have := h [postByte "b", .checkpoint (some 1) (some [7]) [9], postByte "b"]
    [postByte "b", .checkpoint (some 1) (some [7]) [9]] (postByte "b") [] "b" 1 2 rfl
    (by decide +kernel) (by decide +kernel)
  exact absurd this.1 (by decide)

end Zeron.Chat
