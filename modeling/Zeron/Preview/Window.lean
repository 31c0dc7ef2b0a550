import Zeron.Preview.Mux

/-!
# One direction of a stream

Sender, frames on their way, receiver and credits on their way back (`preview/src/mux.rs`).

* `outstanding`: permits, and bytes that are in flight, queued or not yet credited;
* **`Dir`**: what holds of a direction; one lemma for each step of the sender, the receiver and the
  transport.
-/

namespace Zeron.Preview.Mux

/-! ## Frames of a direction -/

namespace Frame

variable (f : Frame)

def isData : Prop := f.kind = DATA ∨ f.kind = WS_DATA

def isEnd : Prop := f.kind = END ∨ f.kind = WS_CLOSE

instance : Decidable f.isData := by unfold isData; infer_instance

instance : Decidable f.isEnd := by unfold isEnd; infer_instance

/-- A frame that a task sends: a chunk, or the end. -/
def Sized : Prop := f.isData ∧ f.data ≠ [] ∧ f.data.length ≤ CHUNK ∨ f.isEnd ∧ f.data = []

end Frame

def payload (frames : List Frame) : Bytes := frames.flatMap (·.data)

@[simp] theorem payload_nil : payload [] = [] := rfl

@[simp] theorem payload_cons (f : Frame) (frames : List Frame) :
    payload (f :: frames) = f.data ++ payload frames := rfl

@[simp] theorem payload_append (frames frames' : List Frame) :
    payload (frames ++ frames') = payload frames ++ payload frames' :=
  List.flatMap_append

namespace Sending

def bytes : Sending → Bytes
  | acquiring bytes | holding bytes => bytes
  | _ => []

/-- Bytes whose permits are taken. -/
def held : Sending → ℕ
  | holding bytes => bytes.length
  | _ => 0

end Sending

namespace Receiving

def rest : Receiving → Bytes
  | writing rest _ => rest
  | _ => []

/-- The length of the frame that is written. -/
def written : Receiving → ℕ
  | writing _ length => length
  | _ => 0

/-- The length of the frame that is to be credited. -/
def credited : Receiving → ℕ
  | crediting length => length
  | _ => 0

end Receiving

/-- Permits, bytes in flight, queued or written, and credits that are owed or on their way. -/
def outstanding (t : Sender) (r : Receiver) (down : List Frame) (back : ℕ) : ℕ :=
  t.permits + t.sending.held + (payload down).length +
    ((payload r.queue).length + r.receiving.written + r.receiving.credited) + back

/-! ## The invariant -/

/-- `live`: the sender takes credits; `ok`: the receiver is not aborted. -/
structure Dir (t : Sender) (r : Receiver) (down : List Frame) (back : ℕ) (live ok : Prop) :
    Prop where
  budget : r.receiveCredit + ((payload r.queue).length + r.receiving.written) = WINDOW
  bound : outstanding t r down back ≤ WINDOW
  window : live → ok → outstanding t r down back = WINDOW
  /-- No byte is lost or turned round. -/
  flow : ok → r.read ++ r.pipe ++ r.receiving.rest ++ payload r.queue ++ payload down ++
    t.sending.bytes ++ t.pipe = t.written
  reads : r.read ++ r.pipe ++ r.receiving.rest ++ payload r.queue <+: t.written
  sized : ∀ f ∈ r.queue ++ down, f.Sized
  last : (r.queue ++ down).Pairwise fun f _ => ¬ f.isEnd
  ended : (∃ f ∈ r.queue ++ down, f.isEnd) ∨ r.receiving = .done → t.sending = .done
  done : r.receiving = .done → r.queue ++ down = [] ∧ r.read ++ r.pipe = t.written
  shut : r.shut = true ↔ r.receiving = .done
  closed : t.sending = .ending ∨ t.sending = .done → t.pipe = [] ∧ t.closed = true
  chunk : ∀ bytes, t.sending = .acquiring bytes ∨ t.sending = .holding bytes →
    bytes ≠ [] ∧ bytes.length ≤ CHUNK
  frame : ∀ length, (∃ rest, r.receiving = .writing rest length) ∨ r.receiving = .crediting length →
    0 < length ∧ length ≤ CHUNK

theorem Dir.new {live ok : Prop} : Dir Sender.new Receiver.new [] 0 live ok where
  budget := rfl
  bound := Nat.le_refl _
  window _ _ := rfl
  flow _ := rfl
  reads := List.prefix_rfl
  sized _ hf := by cases hf
  last := List.Pairwise.nil
  ended h := by simp [Receiver.new] at h
  done h := by cases h
  shut := ⟨(fun h => by cases h), (fun h => by cases h)⟩
  closed h := by simp [Sender.new] at h
  chunk _ h := by simp [Sender.new] at h
  frame _ h := by simp [Receiver.new] at h

namespace Dir

variable {t : Sender} {r : Receiver} {down : List Frame} {back : ℕ} {live ok : Prop}

theorem weaken (h : Dir t r down back live ok) {live' ok' : Prop} (hlive : live' → live)
    (hok : ok' → ok) : Dir t r down back live' ok' :=
  { h with
    window := fun hl ho => h.window (hlive hl) (hok ho)
    flow := fun ho => h.flow (hok ho) }

/-! ## The sender -/

theorem write (h : Dir t r down back live ok) (hclosed : t.closed = false) (bytes : Bytes) :
    Dir { t with written := t.written ++ bytes, pipe := t.pipe ++ bytes } r down back live ok where
  budget := h.budget
  bound := h.bound
  window := h.window
  flow ho := by rw [← h.flow ho]; simp only [List.append_assoc]
  reads := h.reads.trans (List.prefix_append _ _)
  sized := h.sized
  last := h.last
  ended := h.ended
  done hdone := by
    have hnot := (h.closed (Or.inr (h.ended (Or.inr hdone)))).2
    rw [hclosed] at hnot
    cases hnot
  shut := h.shut
  closed hend := by
    have hnot := (h.closed hend).2
    rw [hclosed] at hnot
    cases hnot
  chunk := h.chunk
  frame := h.frame

theorem close (h : Dir t r down back live ok) :
    Dir { t with closed := true } r down back live ok :=
  { h with closed := fun hend => ⟨(h.closed hend).1, rfl⟩ }

theorem not_ended (h : Dir t r down back live ok) (hs : t.sending ≠ .done) :
    (∀ f ∈ r.queue ++ down, ¬ f.isEnd) ∧ r.receiving ≠ .done :=
  ⟨fun f hf hend => hs (h.ended (Or.inl ⟨f, hf, hend⟩)), fun hdone => hs (h.ended (Or.inr hdone))⟩

theorem sendStep (h : Dir t r down back live ok) {sending : Sending} {pipe : Bytes} {permits : ℕ}
    (hs : t.sending ≠ .done) (hbytes : sending.bytes ++ pipe = t.sending.bytes ++ t.pipe)
    (hheld : permits + sending.held = t.permits + t.sending.held)
    (hclosed : sending = .ending ∨ sending = .done → pipe = [] ∧ t.closed = true)
    (hchunk : ∀ bytes, sending = .acquiring bytes ∨ sending = .holding bytes →
      bytes ≠ [] ∧ bytes.length ≤ CHUNK) :
    Dir { t with sending, pipe, permits } r down back live ok := by
  have htotal : outstanding { t with sending, pipe, permits } r down back =
      outstanding t r down back := by
    simp only [outstanding, hheld]
  obtain ⟨hno, hnot⟩ := h.not_ended hs
  refine ⟨h.budget, htotal ▸ h.bound, fun hl ho => htotal ▸ h.window hl ho, fun ho => ?_, h.reads,
    h.sized, h.last, ?_, fun hdone => absurd hdone hnot, h.shut, hclosed, hchunk, h.frame⟩
  · rw [← h.flow ho]
    simp only [List.append_assoc, hbytes]
  · rintro (⟨f, hf, hend⟩ | hdone)
    · exact absurd hend (hno f hf)
    · exact absurd hdone hnot

theorem take (h : Dir t r down back live ok) (hs : t.sending = .reading) (hpipe : t.pipe ≠ []) :
    Dir { t with sending := .acquiring (t.pipe.take CHUNK), pipe := t.pipe.drop CHUNK } r down back
      live ok := by
  refine h.sendStep (by simp [hs]) ?_ (by simp [hs, Sending.held]) ?_ ?_
  · simp [hs, Sending.bytes]
  · rintro (hend | hend) <;> cases hend
  · rintro bytes (he | he)
    · cases he
      refine ⟨fun hnil => hpipe ?_, List.length_take_le _ _⟩
      exact (List.take_eq_nil_iff.mp hnil).resolve_left (by decide)
    · cases he

theorem ending (h : Dir t r down back live ok) (hs : t.sending = .reading) (hpipe : t.pipe = [])
    (hclosed : t.closed = true) : Dir { t with sending := .ending } r down back live ok := by
  refine h.sendStep (by simp [hs]) ?_ (by simp [hs, Sending.held]) (fun _ => ⟨hpipe, hclosed⟩) ?_
  · simp [hs, Sending.bytes]
  · rintro bytes (he | he) <;> cases he

theorem acquire (h : Dir t r down back live ok) {bytes : Bytes}
    (hs : t.sending = .acquiring bytes) (hpermits : bytes.length ≤ t.permits) :
    Dir { t with sending := .holding bytes, permits := t.permits - bytes.length } r down back live
      ok := by
  refine h.sendStep (by simp [hs]) (by simp [hs, Sending.bytes]) ?_ ?_ ?_
  · simp only [hs, Sending.held]
    omega
  · rintro (hend | hend) <;> cases hend
  · rintro bytes' (he | he)
    · cases he
    · cases he
      exact h.chunk bytes (Or.inl hs)

theorem last_concat {frames : List Frame} (hno : ∀ f ∈ frames, ¬ f.isEnd) (f : Frame) :
    (frames ++ [f]).Pairwise fun f _ => ¬ f.isEnd := by
  refine List.pairwise_append.mpr ⟨?_, List.pairwise_singleton _ _, fun f' hf' _ _ => hno f' hf'⟩
  exact List.Pairwise.imp_of_mem (fun hf' _ _ => hno _ hf')
    (List.pairwise_of_forall (R := fun _ _ : Frame => True) fun _ _ => trivial)

theorem sendData (h : Dir t r down back live ok) {f : Frame} (hs : t.sending = .holding f.data)
    (hf : f.isData) (hend : ¬ f.isEnd) :
    Dir { t with sending := .reading } r (down ++ [f]) back live ok := by
  obtain ⟨hno, hnot⟩ := h.not_ended (by simp [hs])
  obtain ⟨hne, hlen⟩ := h.chunk f.data (Or.inr hs)
  have htotal : outstanding { t with sending := .reading } r (down ++ [f]) back =
      outstanding t r down back := by
    simp only [outstanding, hs, Sending.held, payload_append, payload_cons, payload_nil,
      List.append_nil, List.length_append]
    omega
  refine ⟨h.budget, htotal ▸ h.bound, fun hl ho => htotal ▸ h.window hl ho, fun ho => ?_, h.reads,
    fun f' hf' => ?_, ?_, ?_, fun hdone => absurd hdone hnot, h.shut, ?_, ?_, h.frame⟩
  · rw [← h.flow ho, hs]
    simp [Sending.bytes]
  · rw [← List.append_assoc] at hf'
    rcases List.mem_append.mp hf' with hf' | hf'
    · exact h.sized f' hf'
    · rw [List.mem_singleton.mp hf']
      exact Or.inl ⟨hf, hne, hlen⟩
  · rw [← List.append_assoc]
    exact last_concat hno f
  · rintro (⟨f', hf', hend'⟩ | hdone)
    · rw [← List.append_assoc] at hf'
      rcases List.mem_append.mp hf' with hf' | hf'
      · exact absurd hend' (hno f' hf')
      · rw [List.mem_singleton.mp hf'] at hend'
        exact absurd hend' hend
    · exact absurd hdone hnot
  · rintro (hend | hend) <;> cases hend
  · rintro bytes (he | he) <;> cases he

theorem sendEnd (h : Dir t r down back live ok) {f : Frame} (hs : t.sending = .ending)
    (hf : f.isEnd) (hdata : f.data = []) :
    Dir { t with sending := .done } r (down ++ [f]) back live ok := by
  obtain ⟨hno, hnot⟩ := h.not_ended (by simp [hs])
  have htotal : outstanding { t with sending := .done } r (down ++ [f]) back =
      outstanding t r down back := by
    simp [outstanding, hs, Sending.held, hdata]
  refine ⟨h.budget, htotal ▸ h.bound, fun hl ho => htotal ▸ h.window hl ho, fun ho => ?_, h.reads,
    fun f' hf' => ?_, ?_, fun _ => rfl, fun hdone => absurd hdone hnot, h.shut,
    fun _ => h.closed (Or.inl hs), ?_, h.frame⟩
  · rw [← h.flow ho, hs]
    simp [Sending.bytes, hdata]
  · rw [← List.append_assoc] at hf'
    rcases List.mem_append.mp hf' with hf' | hf'
    · exact h.sized f' hf'
    · rw [List.mem_singleton.mp hf']
      exact Or.inr ⟨hf, hdata⟩
  · rw [← List.append_assoc]
    exact last_concat hno f
  · rintro bytes (he | he) <;> cases he

/-! ## The receiver -/

theorem read (h : Dir t r down back live ok) {read pipe : Bytes} {readEof : Bool}
    (hread : read ++ pipe = r.read ++ r.pipe) :
    Dir t { r with read, pipe, readEof } down back live ok where
  budget := h.budget
  bound := h.bound
  window := h.window
  flow ho := by rw [← h.flow ho]; simp only [hread]
  reads := by simp only [hread]; exact h.reads
  sized := h.sized
  last := h.last
  ended := h.ended
  done hdone := by simp only [hread]; exact h.done hdone
  shut := h.shut
  closed := h.closed
  chunk := h.chunk
  frame := h.frame

/-- A step of the receiver that is not its end, with the bytes it has. -/
theorem receiveStep (h : Dir t r down back live ok) {queue : List Frame} {receiving : Receiving}
    {receiveCredit back' : ℕ} {pipe : Bytes} (hr : r.receiving ≠ .done) (hr' : receiving ≠ .done)
    (hbytes : pipe ++ receiving.rest ++ payload queue =
      r.pipe ++ r.receiving.rest ++ payload r.queue)
    (hbudget : receiveCredit + ((payload queue).length + receiving.written) = WINDOW)
    (hback : (payload queue).length + receiving.written + receiving.credited + back' =
      (payload r.queue).length + r.receiving.written + r.receiving.credited + back)
    (hqueue : queue <:+ r.queue)
    (hframe : ∀ length, (∃ rest, receiving = .writing rest length) ∨
      receiving = .crediting length → 0 < length ∧ length ≤ CHUNK) :
    Dir t { r with queue, receiving, receiveCredit, pipe } down back' live ok := by
  have htotal : outstanding t { r with queue, receiving, receiveCredit, pipe } down back' =
      outstanding t r down back := by
    simp only [outstanding]
    omega
  have hsub : (queue ++ down).Sublist (r.queue ++ down) :=
    hqueue.sublist.append (List.Sublist.refl _)
  refine ⟨hbudget, htotal ▸ h.bound, fun hl ho => htotal ▸ h.window hl ho, fun ho => ?_, ?_,
    fun f hf => h.sized f (hsub.subset hf), h.last.sublist hsub, ?_, fun hdone => absurd hdone hr',
    ?_, h.closed, h.chunk, hframe⟩
  · have htail : ∀ tail, pipe ++ (receiving.rest ++ (payload queue ++ tail)) =
        r.pipe ++ (r.receiving.rest ++ (payload r.queue ++ tail)) := fun tail => by
      have happ := congrArg (· ++ tail) hbytes
      simpa only [List.append_assoc] using happ
    rw [← h.flow ho]
    simp only [List.append_assoc, htail]
  · have hreads := h.reads
    simp only [List.append_assoc] at hbytes hreads ⊢
    rw [hbytes]
    exact hreads
  · rintro (⟨f, hf, hend⟩ | hdone)
    · exact h.ended (Or.inl ⟨f, hsub.subset hf, hend⟩)
    · exact absurd hdone hr'
  · exact ⟨fun hshut => absurd (h.shut.mp hshut) hr, fun hdone => absurd hdone hr'⟩

theorem push (h : Dir t r down back live ok) {rest : Bytes} {length n : ℕ}
    (hr : r.receiving = .writing rest length) :
    Dir t { r with pipe := r.pipe ++ rest.take n, receiving := .writing (rest.drop n) length } down
      back live ok := by
  have hbudget := h.budget
  refine h.receiveStep (by simp [hr]) (by simp) ?_ ?_ ?_ List.suffix_rfl ?_
  · simp [hr, Receiving.rest]
  · simpa [hr, Receiving.written] using hbudget
  · simp [hr, Receiving.written, Receiving.credited]
  · rintro length' (⟨rest', he⟩ | he)
    · cases he
      exact h.frame length (Or.inl ⟨rest, hr⟩)
    · cases he

theorem restore (h : Dir t r down back live ok) {length : ℕ}
    (hr : r.receiving = .writing [] length) :
    Dir t { r with receiveCredit := r.receiveCredit + length, receiving := .crediting length } down
      back live ok := by
  have hbudget := h.budget
  simp only [hr, Receiving.written] at hbudget
  refine h.receiveStep (by simp [hr]) (by simp) ?_ ?_ ?_ List.suffix_rfl ?_
  · simp [hr, Receiving.rest]
  · simp only [Receiving.written]
    omega
  · simp [hr, Receiving.written, Receiving.credited]
  · rintro length' (⟨rest', he⟩ | he)
    · cases he
    · cases he
      exact h.frame length (Or.inl ⟨[], hr⟩)

theorem credit (h : Dir t r down back live ok) {length : ℕ} (hr : r.receiving = .crediting length) :
    Dir t { r with receiving := .waiting } down (back + length) live ok := by
  have hbudget := h.budget
  refine h.receiveStep (by simp [hr]) (by simp) ?_ ?_ ?_ List.suffix_rfl ?_
  · simp [hr, Receiving.rest]
  · simpa [hr, Receiving.written] using hbudget
  · simp only [hr, Receiving.written, Receiving.credited]
    omega
  · rintro length' (⟨rest', he⟩ | he) <;> cases he

theorem popData (h : Dir t r down back live ok) {f : Frame} {queue : List Frame}
    (hr : r.receiving = .waiting) (hq : r.queue = f :: queue) (hf : ¬ f.isEnd) :
    Dir t { r with queue, receiving := .writing f.data f.data.length } down back live ok := by
  have hbudget := h.budget
  simp only [hr, hq, Receiving.written, payload_cons, List.length_append] at hbudget
  have hsized : f.data ≠ [] ∧ f.data.length ≤ CHUNK := by
    rcases h.sized f (List.mem_append_left _ (hq ▸ List.mem_cons_self)) with ⟨-, hs⟩ | ⟨hend, -⟩
    · exact hs
    · exact absurd hend hf
  refine h.receiveStep (by simp [hr]) (by simp) ?_ ?_ ?_ ?_ ?_
  · simp [hr, hq, Receiving.rest]
  · simp only [Receiving.written]
    omega
  · simp only [hr, hq, Receiving.written, Receiving.credited, payload_cons, List.length_append]
    omega
  · rw [hq]
    exact List.suffix_cons _ _
  · rintro length' (⟨rest', he⟩ | he)
    · cases he
      exact ⟨List.length_pos_iff.mpr hsized.1, hsized.2⟩
    · cases he

/-- **The end is taken from the queue**: it was the last frame, and all is in the pipe. -/
theorem popEnd (h : Dir t r down back live ok) (ho : ok) {f : Frame} {queue : List Frame}
    (hr : r.receiving = .waiting) (hq : r.queue = f :: queue) (hf : f.isEnd) :
    Dir t { r with queue, receiving := .done, shut := true } down back live ok := by
  have hmem : f ∈ r.queue ++ down := List.mem_append_left _ (hq ▸ List.mem_cons_self)
  have hnil : queue ++ down = [] := by
    have hlast := h.last
    rw [hq, List.cons_append] at hlast
    cases hcons : queue ++ down with
    | nil => rfl
    | cons f' fs =>
      rw [hcons] at hlast
      exact absurd hf ((List.pairwise_cons.mp hlast).1 f' List.mem_cons_self)
  obtain ⟨hqueue, hdown⟩ := List.append_eq_nil_iff.mp hnil
  have hdata : f.data = [] := by
    rcases h.sized f hmem with ⟨hd, -⟩ | ⟨-, hd⟩
    · exfalso
      rcases hd with hd | hd <;> rcases hf with hf | hf <;> rw [hd] at hf <;> cases hf
    · exact hd
  have hs := h.ended (Or.inl ⟨f, hmem, hf⟩)
  have hpipe := (h.closed (Or.inr hs)).1
  have hflow := h.flow ho
  have hbudget := h.budget
  simp only [hr, hq, hs, hdown, hqueue, hdata, hpipe, Receiving.rest, Sending.bytes, payload_cons,
    payload_nil, List.append_nil] at hflow
  simp only [hr, hq, hqueue, hdata, Receiving.written, payload_cons, payload_nil, List.append_nil,
    List.length_nil] at hbudget
  have htotal : outstanding t { r with queue, receiving := .done, shut := true } down back =
      outstanding t r down back := by
    simp [outstanding, hr, hq, hqueue, hdata, Receiving.written, Receiving.credited]
  refine ⟨?_, htotal ▸ h.bound, fun hl ho => htotal ▸ h.window hl ho, fun _ => ?_, ?_,
    fun f' hf' => ?_, ?_, fun _ => hs, fun _ => ⟨hnil, hflow⟩, ⟨fun _ => rfl, fun _ => rfl⟩,
    h.closed, h.chunk, ?_⟩
  · simpa [hqueue, Receiving.written] using hbudget
  · simpa [hs, hdown, hqueue, hpipe, Receiving.rest, Sending.bytes] using hflow
  · simp only [hqueue, Receiving.rest, payload_nil, List.append_nil]
    exact hflow ▸ List.prefix_rfl
  · rw [hnil] at hf'
    cases hf'
  · rw [hnil]
    exact List.Pairwise.nil
  · rintro length' (⟨rest', he⟩ | he) <;> cases he

/-! ## The transport -/

theorem deliver (h : Dir t r down back live ok) (ho : ok) {f : Frame} {rest : List Frame}
    (hd : down = f :: rest) (hf : f.data.length ≤ r.receiveCredit) :
    Dir t { r with
      queue := r.queue ++ [f], receiveCredit := r.receiveCredit - f.data.length } rest back live
        ok := by
  have hbudget := h.budget
  have hsame : r.queue ++ [f] ++ rest = r.queue ++ down := by rw [hd]; simp
  have htotal : outstanding t { r with
      queue := r.queue ++ [f], receiveCredit := r.receiveCredit - f.data.length } rest back =
        outstanding t r down back := by
    simp only [outstanding, hd, payload_append, payload_cons, payload_nil, List.append_nil,
      List.length_append]
    omega
  have hnot : r.receiving ≠ .done := fun hdone => by
    have hnil := (h.done hdone).1
    rw [hd] at hnil
    simp at hnil
  have hflow : r.read ++ r.pipe ++ r.receiving.rest ++ payload (r.queue ++ [f]) ++ payload rest ++
      t.sending.bytes ++ t.pipe = t.written := by
    rw [← h.flow ho, hd]
    simp
  refine ⟨?_, htotal ▸ h.bound, fun hl ho => htotal ▸ h.window hl ho, fun _ => hflow, ?_, ?_, ?_,
    ?_, fun hdone => absurd hdone hnot, h.shut, h.closed, h.chunk, h.frame⟩
  · simp only [payload_append, payload_cons, payload_nil, List.append_nil, List.length_append]
    omega
  · refine ⟨payload rest ++ t.sending.bytes ++ t.pipe, ?_⟩
    rw [← hflow]
    simp only [List.append_assoc]
  · rw [hsame]
    exact h.sized
  · rw [hsame]
    exact h.last
  · rw [hsame]
    exact h.ended

/-- **The budget of the receiver has room** for what is on its way. -/
theorem room (h : Dir t r down back live ok) {f : Frame} {rest : List Frame}
    (hd : down = f :: rest) : f.data.length ≤ r.receiveCredit := by
  have hbudget := h.budget
  have hbound := h.bound
  simp only [outstanding, hd, payload_cons, List.length_append] at hbound
  omega

theorem length_le_payload {frames : List Frame} (hsized : ∀ f ∈ frames, f.Sized)
    (hlast : frames.Pairwise fun f _ => ¬ f.isEnd) :
    frames.length ≤ (payload frames).length + 1 := by
  induction frames with
  | nil => exact Nat.zero_le _
  | cons f fs ih =>
    obtain ⟨hf, hlast⟩ := List.pairwise_cons.mp hlast
    obtain ⟨hsf, hsized⟩ := List.forall_mem_cons.mp hsized
    have hle := ih hsized hlast
    cases fs with
    | nil => exact Nat.le_add_left _ _
    | cons f' fs =>
      rcases hsf with ⟨-, hne, -⟩ | ⟨hend, -⟩
      · have hpos := List.length_pos_iff.mpr hne
        rw [payload_cons, List.length_append, List.length_cons]
        omega
      · exact absurd hend (hf f' List.mem_cons_self)

/-- **The queue is never full.** -/
theorem queue_short (h : Dir t r down back live ok) : r.queue.length < WINDOW + 2 := by
  have hle := length_le_payload (fun f hf => h.sized f (List.mem_append_left _ hf))
    (h.last.sublist (List.sublist_append_left _ _))
  have hbudget := h.budget
  omega

theorem lose (h : Dir t r down back live ok) (ho : ¬ ok) {f : Frame} {rest : List Frame}
    (hd : down = f :: rest) : Dir t r rest back live ok := by
  have hsub : (r.queue ++ rest).Sublist (r.queue ++ down) := by
    rw [hd]
    exact (List.Sublist.refl _).append (List.sublist_cons_self _ _)
  have hbound := h.bound
  simp only [outstanding, hd, payload_cons, List.length_append] at hbound
  refine ⟨h.budget, ?_, fun _ ho' => absurd ho' ho, fun ho' => absurd ho' ho, h.reads,
    fun f' hf' => h.sized f' (hsub.subset hf'), h.last.sublist hsub, ?_, fun hdone => ?_, h.shut,
    h.closed, h.chunk, h.frame⟩
  · simp only [outstanding]
    omega
  · rintro (⟨f', hf', hend⟩ | hdone)
    · exact h.ended (Or.inl ⟨f', hsub.subset hf', hend⟩)
    · exact h.ended (Or.inr hdone)
  · have hnil := (h.done hdone).1
    rw [hd] at hnil
    simp at hnil

theorem loseEnd (h : Dir t r down back live ok) {f : Frame} {rest : List Frame}
    (hd : down = f :: rest) (hdata : f.data = []) : Dir t r rest back live ok := by
  have hsub : (r.queue ++ rest).Sublist (r.queue ++ down) := by
    rw [hd]
    exact (List.Sublist.refl _).append (List.sublist_cons_self _ _)
  have hpay : payload down = payload rest := by rw [hd, payload_cons, hdata, List.nil_append]
  have htotal : outstanding t r rest back = outstanding t r down back := by
    simp only [outstanding, hpay]
  refine ⟨h.budget, htotal ▸ h.bound, fun hl ho => htotal ▸ h.window hl ho,
    fun ho => hpay ▸ h.flow ho, h.reads, fun f' hf' => h.sized f' (hsub.subset hf'),
    h.last.sublist hsub, ?_, fun hdone => ?_, h.shut, h.closed, h.chunk, h.frame⟩
  · rintro (⟨f', hf', hend⟩ | hdone)
    · exact h.ended (Or.inl ⟨f', hsub.subset hf', hend⟩)
    · exact h.ended (Or.inr hdone)
  · have hnil := (h.done hdone).1
    rw [hd] at hnil
    simp at hnil

/-- **A credit is taken**: the permits stay within the window. -/
theorem takeCredit {count : ℕ} (h : Dir t r down (count + back) live ok) :
    t.permits + count ≤ WINDOW ∧
      Dir { t with permits := t.permits + count } r down back live ok := by
  have hbound := h.bound
  have htotal : outstanding { t with permits := t.permits + count } r down back =
      outstanding t r down (count + back) := by
    simp only [outstanding]
    omega
  refine ⟨?_, { h with
    bound := htotal ▸ h.bound
    window := fun hl ho => htotal ▸ h.window hl ho }⟩
  simp only [outstanding] at hbound
  omega

theorem loseCredit {count : ℕ} (h : Dir t r down (count + back) live ok) (hl : ¬ live) :
    Dir t r down back live ok := by
  have hbound := h.bound
  simp only [outstanding] at hbound
  refine { h with bound := ?_, window := fun hl' => absurd hl' hl }
  simp only [outstanding]
  omega

end Dir

end Zeron.Preview.Mux
