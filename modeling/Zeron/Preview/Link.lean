import Zeron.Preview.Life

/-!
# Both ends of a stream

What holds of a stream, its two ends and the frames between them (`preview/src/mux.rs`).

* `Link`; **`Linked`**: both directions are in order, and so is the life of the stream;
* `Linked.change`: one end changes; one lemma for each step of an end, and `Linked.move`;
* `Frame.Wf`, `Linked.move_wf`: the frames that are sent are well formed.
-/

namespace Zeron.Preview.Mux

def senderOf (s : Option Stream) : Sender := (s.map (·.sender)).getD Sender.new

def receiverOf (s : Option Stream) : Receiver := (s.map (·.receiver)).getD Receiver.new

namespace Side

@[simp] theorem other_other (side : Side) : side.other.other = side := by cases side <;> rfl

theorem other_ne (side : Side) : side.other ≠ side := by cases side <;> decide

theorem eq_or_other (side o : Side) : side = o ∨ side = o.other := by
  cases side <;> cases o <;> simp [other]

end Side

@[ext] structure Link where
  st : Side → Option Stream
  wire : Side → List Frame
  refusing : Prop

/-- The sender is there to take credits, the receiver to take frames; an end that is not there yet
is as good as new. -/
def Live (st : Option Stream) : Prop := ∀ s ∈ st, s.task = .running

def Alive (st : Option Stream) : Prop := ∀ s ∈ st, s.task = .running ∨ s.task = .finished

structure Stream.Sane (s : Stream) : Prop where
  named : ∀ service, s.handle = .opening service →
    service.utf8ByteSize ≠ 0 ∧ service.utf8ByteSize ≤ 128
  finished : s.task = .finished → s.sender.sending = .done ∧ s.receiver.receiving = .done
  aborted : s.task = .cancelling ∨ s.task = .aborted → s.cancel = true

/-- `o` has opened the stream. -/
structure Linked (o : Side) (l : Link) : Prop where
  dir : ∀ side, Dir (senderOf (l.st side)) (receiverOf (l.st side.other)) (content (l.wire side))
    (credits (l.wire side.other)) (Live (l.st side)) (Alive (l.st side.other))
  life : Life ((l.st o).map Stream.control) ((l.st o.other).map Stream.control)
    (signals (l.wire o)) (signals (l.wire o.other)) l.refusing
  /-- Nothing is written before the other end is there. -/
  silent : l.st o.other = none → (senderOf (l.st o)).written = []
  sane : ∀ side, ∀ s ∈ l.st side, s.Sane
  eof : ∀ side, ∀ s ∈ l.st side, s.receiver.readEof = true →
    s.receiver.receiving = .done ∧ s.receiver.pipe = [] ∨
      ∃ s' ∈ l.st side.other, s'.handle = .dropped true

/-- One end takes a step. -/
def Link.put (l : Link) (side : Side) (s : Stream) (frames : List Frame) : Link where
  st := Function.update l.st side (some s)
  wire := Function.update l.wire side (l.wire side ++ frames)
  refusing := l.refusing

/-- The CANCEL of a stream that is refused. -/
def Link.refuse (l : Link) (side : Side) (f : Frame) : Link where
  st := l.st
  wire := Function.update l.wire side (l.wire side ++ [f])
  refusing := False

section Put

variable (l : Link) (side : Side) (s : Stream) (frames : List Frame)

@[simp] theorem put_st_self : (l.put side s frames).st side = some s := Function.update_self ..

@[simp] theorem put_st_other : (l.put side s frames).st side.other = l.st side.other :=
  Function.update_of_ne side.other_ne ..

@[simp] theorem put_wire_self : (l.put side s frames).wire side = l.wire side ++ frames :=
  Function.update_self ..

@[simp] theorem put_wire_other : (l.put side s frames).wire side.other = l.wire side.other :=
  Function.update_of_ne side.other_ne ..

end Put

namespace Linked

variable {o side : Side} {l : Link} {s s' : Stream} {frames : List Frame}

theorem sends (h : Linked o l) (hs : l.st side = some s) : Dir s.sender
    (receiverOf (l.st side.other)) (content (l.wire side)) (credits (l.wire side.other))
    (s.task = .running) (Alive (l.st side.other)) := by
  have hdir := h.dir side
  rw [hs] at hdir
  exact hdir.weaken (fun hl s' hs' => Option.some_inj.mp hs' ▸ hl) id

theorem receives (h : Linked o l) (hs : l.st side = some s) : Dir (senderOf (l.st side.other))
    s.receiver (content (l.wire side.other)) (credits (l.wire side)) (Live (l.st side.other))
    (s.task = .running ∨ s.task = .finished) := by
  have hdir := h.dir side.other
  rw [Side.other_other, hs] at hdir
  exact hdir.weaken id fun ho s' hs' => Option.some_inj.mp hs' ▸ ho

/-- **One end changes**: what is to be shown of it. -/
theorem change (h : Linked o l) (side : Side) {l' : Link} (hst : l'.st side.other = l.st side.other)
    (hsends : Dir (senderOf (l'.st side)) (receiverOf (l.st side.other)) (content (l'.wire side))
      (credits (l'.wire side.other)) (Live (l'.st side)) (Alive (l.st side.other)))
    (hreceives : Dir (senderOf (l.st side.other)) (receiverOf (l'.st side))
      (content (l'.wire side.other)) (credits (l'.wire side)) (Live (l.st side.other))
      (Alive (l'.st side)))
    (hopener : side = o → Life ((l'.st side).map Stream.control)
      ((l.st side.other).map Stream.control) (signals (l'.wire side))
      (signals (l'.wire side.other)) l'.refusing)
    (haccepter : side = o.other → Life ((l.st side.other).map Stream.control)
      ((l'.st side).map Stream.control) (signals (l'.wire side.other)) (signals (l'.wire side))
      l'.refusing)
    (hsilent : l'.st o.other = none → l.st o.other = none ∧
      (senderOf (l'.st o)).written = (senderOf (l.st o)).written)
    (hsane : ∀ s ∈ l'.st side, s.Sane)
    (heof : ∀ s ∈ l'.st side, s.receiver.readEof = true →
      s.receiver.receiving = .done ∧ s.receiver.pipe = [] ∨
        ∃ s₂ ∈ l.st side.other, s₂.handle = .dropped true)
    (htorn : (∃ s ∈ l.st side, s.handle = .dropped true) →
      ∃ s ∈ l'.st side, s.handle = .dropped true) : Linked o l' := by
  refine ⟨fun side' => ?_, ?_, fun hnone => ?_, fun side' s₁ hs₁ => ?_,
    fun side' s₁ hs₁ hread => ?_⟩
  · rcases side'.eq_or_other side with rfl | rfl
    · rw [hst]
      exact hsends
    · rw [Side.other_other, hst]
      exact hreceives
  · rcases side.eq_or_other o with rfl | rfl
    · rw [hst]
      exact hopener rfl
    · rw [Side.other_other] at hst
      have hlife := haccepter rfl
      rw [Side.other_other] at hlife
      rw [hst]
      exact hlife
  · obtain ⟨hold, hwritten⟩ := hsilent hnone
    exact hwritten.trans (h.silent hold)
  · rcases side'.eq_or_other side with rfl | rfl
    · exact hsane s₁ hs₁
    · rw [hst] at hs₁
      exact h.sane _ s₁ hs₁
  · rcases side'.eq_or_other side with rfl | rfl
    · rw [hst]
      exact heof s₁ hs₁ hread
    · rw [hst] at hs₁
      have hold := h.eof _ s₁ hs₁ hread
      rw [Side.other_other] at hold ⊢
      exact hold.imp_right htorn

/-- **One end takes a step**: what is to be shown of it. -/
theorem put (h : Linked o l) (hs : l.st side = some s)
    (hsends : Dir s'.sender (receiverOf (l.st side.other)) (content (l.wire side) ++ content frames)
      (credits (l.wire side.other)) (s'.task = .running) (Alive (l.st side.other)))
    (hreceives : Dir (senderOf (l.st side.other)) s'.receiver (content (l.wire side.other))
      (credits (l.wire side) + credits frames) (Live (l.st side.other))
      (s'.task = .running ∨ s'.task = .finished))
    (hopener : side = o → Life (some s'.control)
      ((l.st side.other).map Stream.control) (signals (l.wire side) ++ signals frames)
      (signals (l.wire side.other)) l.refusing)
    (haccepter : side = o.other → Life ((l.st side.other).map Stream.control) (some s'.control)
      (signals (l.wire side.other)) (signals (l.wire side) ++ signals frames) l.refusing)
    (hsilent : l.st side.other = none → s'.sender.written = s.sender.written)
    (hsane : s'.Sane)
    (heof : s'.receiver.readEof = true → s'.receiver.receiving = .done ∧ s'.receiver.pipe = [] ∨
      ∃ s₂ ∈ l.st side.other, s₂.handle = .dropped true)
    (htorn : s.handle = .dropped true → s'.handle = .dropped true) :
    Linked o (l.put side s' frames) := by
  have hself : ∀ {s₁ : Stream}, s₁ ∈ (l.put side s' frames).st side → s₁ = s' := by
    intro s₁ hs₁
    rw [put_st_self] at hs₁
    exact (Option.some_inj.mp hs₁).symm
  refine h.change side (put_st_other ..) ?_ ?_ (fun ho => ?_) (fun ho => ?_)
    (fun hnone => ?_) (fun s₁ hs₁ => hself hs₁ ▸ hsane) (fun s₁ hs₁ => hself hs₁ ▸ heof) ?_
  · rw [put_st_self, put_wire_self, put_wire_other, content_append]
    exact hsends.weaken (fun hl => hl s' rfl) id
  · rw [put_st_self, put_wire_self, put_wire_other, credits_append]
    exact hreceives.weaken id fun ha => ha s' rfl
  · rw [put_st_self, put_wire_self, put_wire_other, signals_append]
    exact hopener ho
  · rw [put_st_self, put_wire_self, put_wire_other, signals_append]
    exact haccepter ho
  · rcases side.eq_or_other o with rfl | rfl
    · rw [put_st_other] at hnone
      rw [put_st_self, hs]
      exact ⟨hnone, hsilent hnone⟩
    · rw [put_st_self] at hnone
      cases hnone
  · rintro ⟨s₁, hs₁, ht⟩
    rw [hs] at hs₁
    cases Option.some_inj.mp hs₁
    rw [put_st_self]
    exact ⟨s', rfl, htorn ht⟩

theorem life_at (h : Linked o l) (hs : l.st side = some s) :
    (side = o → Life (some s.control) ((l.st side.other).map Stream.control)
      (signals (l.wire side)) (signals (l.wire side.other)) l.refusing) ∧
    (side = o.other → Life ((l.st side.other).map Stream.control) (some s.control)
      (signals (l.wire side.other)) (signals (l.wire side)) l.refusing) := by
  have hlife := h.life
  constructor
  · rintro rfl
    rwa [hs] at hlife
  · rintro rfl
    rw [hs] at hlife
    rwa [Side.other_other]

theorem life_same (h : Linked o l) (hs : l.st side = some s) (s' : Stream) (frames : List Frame)
    (hcontrol : s'.control = s.control) (hsignals : signals frames = []) :
    (side = o → Life (some s'.control)
      ((l.st side.other).map Stream.control) (signals (l.wire side) ++ signals frames)
      (signals (l.wire side.other)) l.refusing) ∧
    (side = o.other → Life ((l.st side.other).map Stream.control) (some s'.control)
      (signals (l.wire side.other)) (signals (l.wire side) ++ signals frames) l.refusing) := by
  rw [hcontrol, hsignals, List.append_nil]
  exact h.life_at hs

theorem sender (h : Linked o l) (hs : l.st side = some s) {t : Sender}
    (hdir : Dir t (receiverOf (l.st side.other)) (content (l.wire side) ++ content frames)
      (credits (l.wire side.other)) (s.task = .running) (Alive (l.st side.other)))
    (hcredits : credits frames = 0) (hsignals : signals frames = [])
    (hsilent : l.st side.other = none → t.written = s.sender.written)
    (hsane : s.task = .finished → t.sending = .done) :
    Linked o (l.put side { s with sender := t } frames) := by
  have hold := h.sane side s hs
  have hreceives := h.receives hs
  obtain ⟨hopener, haccepter⟩ := h.life_same hs { s with sender := t } frames rfl hsignals
  refine h.put hs hdir ?_ hopener haccepter hsilent
    ⟨hold.named, fun hf => ⟨hsane hf, (hold.finished hf).2⟩, hold.aborted⟩ (h.eof side s hs) id
  rw [hcredits, Nat.add_zero]
  exact hreceives

theorem receiver (h : Linked o l) (hs : l.st side = some s) {r : Receiver}
    (hdir : Dir (senderOf (l.st side.other)) r (content (l.wire side.other))
      (credits (l.wire side) + credits frames) (Live (l.st side.other))
      (s.task = .running ∨ s.task = .finished))
    (hcontent : content frames = []) (hsignals : signals frames = [])
    (hsane : s.task = .finished → r.receiving = .done)
    (heof : r.readEof = true → r.receiving = .done ∧ r.pipe = [] ∨
      ∃ s₂ ∈ l.st side.other, s₂.handle = .dropped true) :
    Linked o (l.put side { s with receiver := r } frames) := by
  have hold := h.sane side s hs
  have hsends := h.sends hs
  obtain ⟨hopener, haccepter⟩ := h.life_same hs { s with receiver := r } frames rfl hsignals
  refine h.put hs ?_ hdir hopener haccepter (fun _ => rfl)
    ⟨hold.named, fun hf => ⟨(hold.finished hf).1, hsane hf⟩, hold.aborted⟩ heof id
  rw [hcontent, List.append_nil]
  exact hsends

/-! ## The task of a stream -/

theorem kind_data (websocket : Bool) {f : Frame}
    (hf : f.kind = if websocket then WS_DATA else DATA) :
    f.isData ∧ ¬ f.isEnd ∧ f.kind ≠ CREDIT := by
  unfold Frame.isData Frame.isEnd
  rw [hf]
  cases websocket <;> decide

theorem kind_end (websocket : Bool) {f : Frame}
    (hf : f.kind = if websocket then WS_CLOSE else END) : f.isEnd ∧ f.kind ≠ CREDIT := by
  unfold Frame.isEnd
  rw [hf]
  cases websocket <;> decide

theorem take (h : Linked o l) (hs : l.st side = some s) {id : ℕ}
    (hm : s.move id .take = some (s', frames)) : Linked o (l.put side s' frames) := by
  have hsends := h.sends hs
  unfold Stream.move at hm
  dsimp only at hm
  split_ifs at hm with hcase hpipe hclosed
  · cases Option.some_inj.mp hm
    refine h.sender hs ?_ rfl rfl (fun _ => rfl) (fun hf => by rw [hcase.1] at hf; cases hf)
    rw [content_nil, List.append_nil]
    exact hsends.take hcase.2 hpipe
  · cases Option.some_inj.mp hm
    refine h.sender hs ?_ rfl rfl (fun _ => rfl) (fun hf => by rw [hcase.1] at hf; cases hf)
    rw [content_nil, List.append_nil]
    exact hsends.ending hcase.2 (not_not.mp hpipe) hclosed

theorem acquire (h : Linked o l) (hs : l.st side = some s) {id : ℕ}
    (hm : s.move id .acquire = some (s', frames)) : Linked o (l.put side s' frames) := by
  have hsends := h.sends hs
  unfold Stream.move at hm
  dsimp only at hm
  split at hm
  · rename_i bytes htask hsending
    split_ifs at hm with hpermits
    cases Option.some_inj.mp hm
    refine h.sender hs ?_ rfl rfl (fun _ => rfl) (fun hf => by rw [htask] at hf; cases hf)
    rw [content_nil, List.append_nil]
    exact hsends.acquire hsending hpermits
  · cases hm

theorem send (h : Linked o l) (hs : l.st side = some s) {id : ℕ}
    (hm : s.move id .send = some (s', frames)) : Linked o (l.put side s' frames) := by
  have hsends := h.sends hs
  unfold Stream.move at hm
  dsimp only at hm
  split at hm
  · rename_i bytes htask hsending
    cases Option.some_inj.mp hm
    obtain ⟨f, hf⟩ : ∃ f : Frame,
      f = { kind := if s.websocket then WS_DATA else DATA, id, data := bytes } := ⟨_, rfl⟩
    rw [← hf]
    obtain ⟨hdata, hend, hcredit⟩ := kind_data s.websocket (f := f) (by rw [hf])
    refine h.sender hs ?_ (by simp [Frame.toCredits, hcredit]) (by simp [Frame.toSignals, hdata])
      (fun _ => rfl) (fun hf => by rw [htask] at hf; cases hf)
    have hcontent : content [f] = [f] := by simp [Frame.toContent, hdata]
    rw [hcontent]
    exact hsends.sendData (by rw [hsending, hf]) hdata hend
  · rename_i htask hsending
    cases Option.some_inj.mp hm
    obtain ⟨f, hf⟩ : ∃ f : Frame,
      f = { kind := if s.websocket then WS_CLOSE else END, id, data := [] } := ⟨_, rfl⟩
    rw [← hf]
    obtain ⟨hend, hcredit⟩ := kind_end s.websocket (f := f) (by rw [hf])
    refine h.sender hs ?_ (by simp [Frame.toCredits, hcredit]) (by simp [Frame.toSignals, hend])
      (fun _ => rfl) (fun _ => rfl)
    rw [show content [f] = [f] by simp [Frame.toContent, hend]]
    exact hsends.sendEnd hsending hend (congrArg Frame.data hf)
  · cases hm

theorem pop (h : Linked o l) (hs : l.st side = some s) {id : ℕ}
    (hm : s.move id .pop = some (s', frames)) : Linked o (l.put side s' frames) := by
  have hreceives := h.receives hs
  have heof := h.eof side s hs
  unfold Stream.move at hm
  dsimp only at hm
  split at hm
  · rename_i f queue htask hreceiving hqueue
    have heof' : s.receiver.readEof = true → ∃ s₂ ∈ l.st side.other, s₂.handle = .dropped true :=
      fun hread => (heof hread).resolve_left fun hd => by
        rw [hreceiving] at hd
        cases hd.1
    split_ifs at hm with hend
    · cases Option.some_inj.mp hm
      refine h.receiver hs ?_ rfl rfl (fun _ => rfl) fun hread => Or.inr (heof' hread)
      exact hreceives.popEnd (Or.inl htask) hreceiving hqueue hend
    · cases Option.some_inj.mp hm
      refine h.receiver hs ?_ rfl rfl (fun hf => by rw [htask] at hf; cases hf)
        fun hread => Or.inr (heof' hread)
      exact hreceives.popData hreceiving hqueue hend
  · cases hm

theorem push (h : Linked o l) (hs : l.st side = some s) {id n : ℕ}
    (hm : s.move id (.push n) = some (s', frames)) : Linked o (l.put side s' frames) := by
  have hreceives := h.receives hs
  have heof := h.eof side s hs
  unfold Stream.move at hm
  dsimp only at hm
  split at hm
  · rename_i rest length htask hreceiving
    split_ifs at hm
    cases Option.some_inj.mp hm
    refine h.receiver hs ?_ rfl rfl (fun hf => by rw [htask] at hf; cases hf)
      fun hread => Or.inr ((heof hread).resolve_left fun hd => ?_)
    · exact hreceives.push hreceiving
    · rw [hreceiving] at hd
      cases hd.1
  · cases hm

theorem restore (h : Linked o l) (hs : l.st side = some s) {id : ℕ}
    (hm : s.move id .restore = some (s', frames)) : Linked o (l.put side s' frames) := by
  have hreceives := h.receives hs
  have heof := h.eof side s hs
  unfold Stream.move at hm
  dsimp only at hm
  split at hm
  · rename_i length htask hreceiving
    cases Option.some_inj.mp hm
    refine h.receiver hs ?_ rfl rfl (fun hf => by rw [htask] at hf; cases hf)
      fun hread => Or.inr ((heof hread).resolve_left fun hd => ?_)
    · exact hreceives.restore hreceiving
    · rw [hreceiving] at hd
      cases hd.1
  · cases hm

theorem credit (h : Linked o l) (hs : l.st side = some s) {id : ℕ}
    (hm : s.move id .credit = some (s', frames)) : Linked o (l.put side s' frames) := by
  have hreceives := h.receives hs
  have heof := h.eof side s hs
  unfold Stream.move at hm
  dsimp only at hm
  split at hm
  · rename_i length htask hreceiving
    cases Option.some_inj.mp hm
    have hlength := hreceives.frame length (Or.inr hreceiving)
    have hsmall : length < 2 ^ 32 := Nat.lt_of_le_of_lt hlength.2 (by decide)
    have hcredits : credits [{ kind := CREDIT, id, data := toBeBytes length }] = length := by
      simp [Frame.toCredits, fromBeBytes_toBeBytes hsmall]
    refine h.receiver hs ?_ rfl rfl (fun hf => by rw [htask] at hf; cases hf)
      fun hread => Or.inr ((heof hread).resolve_left fun hd => ?_)
    · rw [hcredits]
      exact hreceives.credit hreceiving
    · rw [hreceiving] at hd
      cases hd.1
  · cases hm

theorem control (h : Linked o l) (hs : l.st side = some s)
    (hsends : Dir s'.sender (receiverOf (l.st side.other)) (content (l.wire side))
      (credits (l.wire side.other)) (s'.task = .running) (Alive (l.st side.other)))
    (hreceiver : s'.receiver = s.receiver)
    (htask : s'.task = .running ∨ s'.task = .finished → s.task = .running ∨ s.task = .finished)
    (hcontent : content frames = []) (hcredits : credits frames = 0)
    (hopener : side = o → Life (some s'.control)
      ((l.st side.other).map Stream.control) (signals (l.wire side) ++ signals frames)
      (signals (l.wire side.other)) l.refusing)
    (haccepter : side = o.other → Life ((l.st side.other).map Stream.control) (some s'.control)
      (signals (l.wire side.other)) (signals (l.wire side) ++ signals frames) l.refusing)
    (hwritten : s'.sender.written = s.sender.written) (hsane : s'.Sane)
    (htorn : s.handle = .dropped true → s'.handle = .dropped true) :
    Linked o (l.put side s' frames) := by
  have hreceives := h.receives hs
  have heof := h.eof side s hs
  rw [← hreceiver] at hreceives heof
  refine h.put hs ?_ ?_ hopener haccepter (fun _ => hwritten) hsane heof htorn
  · rw [hcontent, List.append_nil]
    exact hsends
  · rw [hcredits, Nat.add_zero]
    exact hreceives.weaken id htask

theorem finish (h : Linked o l) (hs : l.st side = some s) {id : ℕ}
    (hm : s.move id .finish = some (s', frames)) : Linked o (l.put side s' frames) := by
  have hsends := h.sends hs
  have hsane := h.sane side s hs
  unfold Stream.move at hm
  dsimp only at hm
  split_ifs at hm with hcase
  cases Option.some_inj.mp hm
  obtain ⟨hopener, haccepter⟩ :=
    h.life_same hs { s with task := .finished } [] rfl rfl
  refine h.control hs (hsends.weaken (fun hf => by cases hf) fun ho => ho) rfl
    (fun _ => Or.inl hcase.1) rfl rfl hopener haccepter rfl
    ⟨hsane.named, fun _ => hcase.2, fun ha => ?_⟩ fun ht => ht
  rcases ha with ha | ha <;> cases ha

theorem abort (h : Linked o l) (hs : l.st side = some s) {id : ℕ}
    (hm : s.move id .abort = some (s', frames)) : Linked o (l.put side s' frames) := by
  have hsends := h.sends hs
  have hsane := h.sane side s hs
  unfold Stream.move at hm
  dsimp only at hm
  split_ifs at hm with hcase
  cases Option.some_inj.mp hm
  obtain ⟨hopener, haccepter⟩ :=
    h.life_same hs { s with task := .cancelling } [] rfl rfl
  exact h.control hs (hsends.weaken (fun hf => by cases hf) fun ho => ho) rfl
    (fun _ => Or.inl hcase.1) rfl rfl hopener haccepter rfl
    ⟨hsane.named, (fun hf => by cases hf), fun _ => hcase.2⟩ fun ht => ht

theorem sendCancel (h : Linked o l) (hs : l.st side = some s) {id : ℕ}
    (hm : s.move id .sendCancel = some (s', frames)) : Linked o (l.put side s' frames) := by
  have hsends := h.sends hs
  have hsane := h.sane side s hs
  obtain ⟨hopener, haccepter⟩ := h.life_at hs
  unfold Stream.move at hm
  dsimp only at hm
  split_ifs at hm with hcase
  cases Option.some_inj.mp hm
  have hcancel := hsane.aborted (Or.inl hcase)
  refine h.control hs (hsends.weaken (fun hf => by cases hf) fun ho => ho) rfl ?_ rfl rfl
    (fun ho => ?_) (fun ho => ?_) rfl
    ⟨hsane.named, (fun hf => by cases hf), fun _ => hcancel⟩ fun ht => ht
  · rintro (hf | hf) <;> cases hf
  · exact (hopener ho).sendOut rfl (Or.inl ⟨_, rfl, Or.inl hcancel⟩)
  · exact (haccepter ho).sendBack (Or.inr ⟨rfl, Or.inr (Or.inl ⟨_, rfl, hcancel⟩)⟩)

/-! ## The application -/

theorem other_there (h : Linked o l) (hs : l.st side = some s) (hheld : s.handle = .held) :
    l.st side.other ≠ none := by
  obtain ⟨hopener, haccepter⟩ := h.life_at hs
  intro hnone
  rcases side.eq_or_other o with ho | ho
  · refine (hopener ho).met (Or.inl ⟨_, rfl, Or.inl hheld⟩) ?_
    rw [hnone]
    rfl
  · have hun := (haccepter ho).unopened (by rw [hnone]; rfl)
    cases hun.1

/-- **A stream that was cancelled in the hands of one end was torn at the other.** -/
theorem other_torn (h : Linked o l) (hs : l.st side = some s) (hheld : s.handle = .held)
    (hcancel : s.cancel = true) : ∃ s₂ ∈ l.st side.other, s₂.handle = .dropped true := by
  obtain ⟨hopener, haccepter⟩ := h.life_at hs
  have hnot : ¬ s.control.Torn := fun ht => by
    rw [Control.Torn, show s.control.handle = .held from hheld] at ht
    cases ht
  have hthere : ∀ {e : Control}, e ∈ (l.st side.other).map Stream.control → e.Torn →
      ∃ s₂ ∈ l.st side.other, s₂.handle = .dropped true := by
    intro e he ht
    obtain ⟨s₂, hs₂, rfl⟩ := Option.map_eq_some_iff.mp he
    exact ⟨s₂, hs₂, ht⟩
  have hmet := h.other_there hs hheld
  rcases side.eq_or_other o with ho | ho
  · rcases (hopener ho).torn (Or.inl ⟨_, rfl, Or.inl hcancel⟩) with (⟨e, he, ht⟩ | ⟨e, he, ht⟩) | hn
    · cases Option.some_inj.mp he
      exact absurd ht hnot
    · exact hthere he ht
    · exact absurd (Option.map_eq_none_iff.mp hn.1) hmet
  · rcases (haccepter ho).torn (Or.inr (Or.inl ⟨_, rfl, hcancel⟩)) with
      (⟨e, he, ht⟩ | ⟨e, he, ht⟩) | hn
    · exact hthere he ht
    · cases Option.some_inj.mp he
      exact absurd ht hnot
    · cases hn.1

theorem write (h : Linked o l) (hs : l.st side = some s) {id : ℕ} {bytes : Bytes}
    (hm : s.move id (.write bytes) = some (s', frames)) : Linked o (l.put side s' frames) := by
  have hsends := h.sends hs
  have hsane := h.sane side s hs
  unfold Stream.move at hm
  dsimp only at hm
  split_ifs at hm with hcase
  cases Option.some_inj.mp hm
  refine h.sender hs ?_ rfl rfl (fun hn => absurd hn (h.other_there hs hcase.1))
    fun hf => (hsane.finished hf).1
  rw [content_nil, List.append_nil]
  exact hsends.write hcase.2.2.1 bytes

theorem shutdown (h : Linked o l) (hs : l.st side = some s) {id : ℕ}
    (hm : s.move id .shutdown = some (s', frames)) : Linked o (l.put side s' frames) := by
  have hsends := h.sends hs
  have hsane := h.sane side s hs
  unfold Stream.move at hm
  dsimp only at hm
  split_ifs at hm
  cases Option.some_inj.mp hm
  refine h.sender hs ?_ rfl rfl (fun _ => rfl) fun hf => (hsane.finished hf).1
  rw [content_nil, List.append_nil]
  exact hsends.close

/-- **The application reads**: the end is seen where the sender's was taken from the queue, or
where the other end has torn the stream. -/
theorem readSome (h : Linked o l) (hs : l.st side = some s) {id n : ℕ}
    (hm : s.move id (.read n) = some (s', frames)) : Linked o (l.put side s' frames) := by
  have hreceives := h.receives hs
  have hsane := h.sane side s hs
  have heof := h.eof side s hs
  unfold Stream.move at hm
  dsimp only at hm
  by_cases hheld : s.handle = .held
  · rw [if_pos hheld] at hm
    obtain ⟨s₁, hread, he⟩ := Option.map_eq_some_iff.mp hm
    cases he
    unfold Stream.readSome at hread
    dsimp only at hread
    split_ifs at hread with hn hpipe hend
    · cases Option.some_inj.mp hread
      refine h.receiver hs ?_ rfl rfl (fun hf => (hsane.finished hf).2)
        fun hr => Or.inr ((heof hr).resolve_left fun hd => hpipe hd.2)
      refine hreceives.read ?_
      rw [List.append_assoc, List.take_append_drop]
    · cases Option.some_inj.mp hread
      refine h.receiver hs ?_ rfl rfl (fun hf => (hsane.finished hf).2) fun _ => ?_
      · exact hreceives.read rfl
      · have hnil : s.receiver.pipe = [] := not_not.mp hpipe
        rcases hend with hshut | hgone
        · exact Or.inl ⟨hreceives.shut.mp hshut, hnil⟩
        · cases htask : s.task with
          | running => simp [Stream.bridged, htask] at hgone
          | cancelling => simp [Stream.bridged, htask] at hgone
          | finished => exact Or.inl ⟨(hsane.finished htask).2, hnil⟩
          | aborted => exact Or.inr (h.other_torn hs hheld (hsane.aborted (Or.inr htask)))
  · rw [if_neg hheld] at hm
    cases hm

/-- **A stream is dropped.** -/
theorem drop (h : Linked o l) (hs : l.st side = some s) {id : ℕ}
    (hm : s.move id .drop = some (s', frames)) : Linked o (l.put side s' frames) := by
  have hsends := h.sends hs
  have hsane := h.sane side s hs
  obtain ⟨hopener, haccepter⟩ := h.life_at hs
  have hdrop : (∀ torn, s.handle ≠ .dropped torn) ∧ s' = s.drop ∧ frames = [] := by
    unfold Stream.move at hm
    dsimp only at hm
    split at hm
    · cases hm
    · rename_i hnot
      cases Option.some_inj.mp hm
      exact ⟨hnot, rfl, rfl⟩
  obtain ⟨hnot, rfl, rfl⟩ := hdrop
  have hcancel : s.drop.control.cancel = true → s.cancel = true ∨ s.drop.control.Torn := by
    intro hc
    rcases Bool.or_eq_true_iff.mp hc with hc | hc
    · exact Or.inl hc
    · refine Or.inr ?_
      show Handle.dropped _ = _
      rw [hc]
  have htorn : s.handle = .dropped true → s.drop.handle = .dropped true := fun ht =>
    absurd ht (hnot true)
  refine h.control hs hsends.close rfl (fun ht => ht) rfl rfl (fun ho => ?_) (fun ho => ?_) rfl
    ⟨(fun _ hn => by cases hn), hsane.finished, fun ha => ?_⟩ htorn
  · rw [signals_nil, List.append_nil]
    refine (hopener ho).openerStep ?_ ?_ ?_ ?_ htorn
    · rintro ⟨service, hservice⟩
      cases hservice
    · rintro (hheld | hready)
      · cases hheld
      · exact Or.inr (Or.inl hready)
    · exact fun hc => by cases hc
    · rintro (hc | hready)
      · exact (hcancel hc).imp_left fun hc => Or.inl ⟨_, rfl, Or.inl hc⟩
      · exact Or.inl (Or.inl ⟨_, rfl, Or.inr hready⟩)
  · rw [signals_nil, List.append_nil]
    refine (haccepter ho).accepterStep ⟨?_, fun hc => (by cases hc)⟩ (fun hc => ?_) htorn
    · rintro ⟨service, hservice⟩
      cases hservice
    · exact (hcancel hc).imp_left fun hc => Or.inr (Or.inl ⟨_, rfl, hc⟩)
  · show (s.cancel || _) = true
    rw [hsane.aborted ha, Bool.true_or]

theorem opened (h : Linked o l) (hs : l.st side = some s) {id : ℕ}
    (hm : s.move id .opened = some (s', frames)) : Linked o (l.put side s' frames) := by
  have hsends := h.sends hs
  have hsane := h.sane side s hs
  obtain ⟨hopener, haccepter⟩ := h.life_at hs
  unfold Stream.move at hm
  dsimp only at hm
  split_ifs at hm with hcase
  cases Option.some_inj.mp hm
  refine h.control hs hsends rfl (fun ht => ht) rfl rfl (fun ho => ?_) (fun ho => ?_) rfl
    ⟨(fun _ hn => by cases hn), hsane.finished, hsane.aborted⟩ fun ht => ?_
  · rw [signals_nil, List.append_nil]
    refine (hopener ho).openerStep ?_ (fun _ => Or.inr (Or.inl hcase.2)) ?_ (fun hc => ?_) ?_
    · rintro ⟨service, hservice⟩
      cases hservice
    · exact fun hc => by cases hc
    · exact Or.inl (Or.inl ⟨_, rfl, hc⟩)
    · intro ht
      rw [Control.Torn, show s.control.handle = .waiting from hcase.1] at ht
      cases ht
  · exact absurd hcase.1 ((haccepter ho).accepter _ rfl).2
  · rw [hcase.1] at ht
    cases ht

theorem connected (h : Linked o l) (hs : l.st side = some s) {id : ℕ}
    (hm : s.move id .connected = some (s', frames)) : Linked o (l.put side s' frames) := by
  have hsends := h.sends hs
  have hsane := h.sane side s hs
  obtain ⟨hopener, haccepter⟩ := h.life_at hs
  unfold Stream.move at hm
  dsimp only at hm
  split_ifs at hm with hcase
  cases Option.some_inj.mp hm
  refine h.control hs hsends rfl (fun ht => ht) rfl rfl (fun ho => ?_) (fun ho => ?_) rfl
    ⟨(fun _ hn => by cases hn), hsane.finished, hsane.aborted⟩ fun ht => ?_
  · exact absurd hcase ((hopener ho).opener _ rfl)
  · have hstep : Life ((l.st side.other).map Stream.control)
        (some ({ s with handle := .held } : Stream).control) (signals (l.wire side.other))
        (signals (l.wire side)) l.refusing := by
      refine (haccepter ho).accepterStep ⟨?_, fun hc => (by cases hc)⟩ (fun hc => ?_) ?_
      · rintro ⟨service, hservice⟩
        cases hservice
      · exact Or.inl (Or.inr (Or.inl ⟨_, rfl, hc⟩))
      · intro ht
        rw [Control.Torn, show s.control.handle = .connecting from hcase] at ht
        cases ht
    exact hstep.sendBack (Or.inl rfl)
  · rw [hcase] at ht
    cases ht

theorem sendOpen (h : Linked o l) (hs : l.st side = some s) {id : ℕ}
    (hm : s.move id .sendOpen = some (s', frames)) : Linked o (l.put side s' frames) := by
  have hsends := h.sends hs
  have hsane := h.sane side s hs
  obtain ⟨hopener, haccepter⟩ := h.life_at hs
  unfold Stream.move at hm
  dsimp only at hm
  split at hm
  · rename_i service hservice
    cases Option.some_inj.mp hm
    obtain ⟨f, hf⟩ : ∃ f : Frame, f =
      { kind := if s.websocket then WS_OPEN else OPEN, id
        data := service.toUTF8.data.toList } := ⟨_, rfl⟩
    rw [← hf]
    obtain ⟨hopen, hdata, hend, hcredit⟩ :
        f.isOpen ∧ ¬ f.isData ∧ ¬ f.isEnd ∧ f.kind ≠ CREDIT := by
      have hkind : f.kind = if s.websocket then WS_OPEN else OPEN := by rw [hf]
      unfold Frame.isOpen Frame.isData Frame.isEnd
      rw [hkind]
      cases s.websocket <;> decide
    refine h.control hs hsends rfl (fun ht => ht) (by simp [Frame.toContent, hdata, hend])
      (by simp [Frame.toCredits, hcredit]) (fun ho => ?_) (fun ho => ?_) rfl
      ⟨(fun _ hn => by cases hn), hsane.finished, hsane.aborted⟩ fun ht => ?_
    · rw [show signals [f] = [f] by simp [Frame.toSignals, hdata, hend, hcredit]]
      exact (hopener ho).sendOpen ⟨service, hservice⟩ rfl rfl rfl hopen
    · exact absurd ⟨service, hservice⟩ ((haccepter ho).accepter _ rfl).1
    · rw [hservice] at ht
      cases ht
  · cases hm

/-- **A step of an end.** -/
theorem move (h : Linked o l) (hs : l.st side = some s) {id : ℕ} {m : Move}
    (hm : s.move id m = some (s', frames)) : Linked o (l.put side s' frames) := by
  cases m with
  | sendOpen => exact h.sendOpen hs hm
  | opened => exact h.opened hs hm
  | connected => exact h.connected hs hm
  | write bytes => exact h.write hs hm
  | read n => exact h.readSome hs hm
  | shutdown => exact h.shutdown hs hm
  | drop => exact h.drop hs hm
  | take => exact h.take hs hm
  | acquire => exact h.acquire hs hm
  | send => exact h.send hs hm
  | pop => exact h.pop hs hm
  | push n => exact h.push hs hm
  | restore => exact h.restore hs hm
  | credit => exact h.credit hs hm
  | finish => exact h.finish hs hm
  | abort => exact h.abort hs hm
  | sendCancel => exact h.sendCancel hs hm

/-! ## Streams come -/

/-- **A stream is opened.** -/
theorem opening (h : Linked o l) (hnone : l.st o = none) {service : String} (websocket : Bool)
    (hnamed : service.utf8ByteSize ≠ 0 ∧ service.utf8ByteSize ≤ 128) :
    Linked o (l.put o (Stream.new websocket (.opening service)) []) := by
  have hlife := h.life
  have hsends := h.dir o
  have hreceives := h.dir o.other
  rw [Side.other_other] at hreceives
  rw [hnone] at hlife hsends hreceives
  refine h.change o (put_st_other ..) ?_ ?_ (fun _ => ?_)
    (fun ho => absurd ho o.other_ne.symm) (fun hn => ⟨by simpa using hn, ?_⟩) ?_ ?_ ?_
  · rw [put_st_self, put_wire_self, put_wire_other, List.append_nil]
    exact hsends.weaken (fun _ _ hs => by cases hs) fun ho => ho
  · rw [put_st_self, put_wire_self, put_wire_other, List.append_nil]
    exact hreceives.weaken (fun hl => hl) fun _ _ hs => by cases hs
  · rw [put_st_self, put_wire_self, put_wire_other, List.append_nil]
    exact hlife.opening ⟨service, rfl⟩ rfl rfl
  · rw [put_st_self, hnone]
    rfl
  · intro s₁ hs₁
    rw [put_st_self] at hs₁
    cases Option.some_inj.mp hs₁
    refine ⟨fun service' he => ?_, (fun hn => by cases hn), ?_⟩
    · cases he
      exact hnamed
    · rintro (ha | ha) <;> cases ha
  · intro s₁ hs₁ hread
    rw [put_st_self] at hs₁
    cases Option.some_inj.mp hs₁
    cases hread
  · rintro ⟨s₁, hs₁, -⟩
    rw [hnone] at hs₁
    cases hs₁

/-- **A stream is refused.** -/
theorem refuse (h : Linked o l) (hrefusing : l.refusing) {f : Frame} (hf : f.kind = CANCEL) :
    Linked o (l.refuse o.other f) := by
  have hlife := h.life
  have hsends := h.dir o.other
  have hreceives := h.dir o
  rw [Side.other_other] at hsends
  obtain ⟨hcontent, hcredits, hsignals⟩ :
      f.toContent = [] ∧ f.toCredits = 0 ∧ f.toSignals = [f] := by
    have hnot : ¬ f.isData ∧ ¬ f.isEnd ∧ f.kind ≠ CREDIT := by
      unfold Frame.isData Frame.isEnd
      rw [hf]
      decide
    simp [Frame.toContent, Frame.toCredits, Frame.toSignals, hnot]
  have hself : (l.refuse o.other f).wire o.other = l.wire o.other ++ [f] := Function.update_self ..
  have hother : (l.refuse o.other f).wire o = l.wire o := Function.update_of_ne o.other_ne.symm ..
  have hst : (l.refuse o.other f).st = l.st := rfl
  refine h.change o.other rfl ?_ ?_ (fun ho => absurd ho o.other_ne) (fun _ => ?_)
    (fun hn => ⟨hn, rfl⟩) (h.sane _) (h.eof _) fun ht => ht
  · rw [Side.other_other, hself, hother, hst]
    simpa [hcontent] using hsends
  · rw [Side.other_other, hself, hother, hst]
    simpa [hcredits] using hreceives
  · rw [Side.other_other, hself, hother, hst, signals_append, signals_cons, signals_nil, hsignals]
    exact hlife.sendRefusal hrefusing hf

end Linked

/-! ## Frames that are well formed -/

/-- A frame that an endpoint sends. -/
inductive Frame.Wf (f : Frame) : Prop
  | opens (hkind : f.isOpen) (hlen : 1 ≤ f.data.length ∧ f.data.length ≤ 128)
      (hvalid : ByteArray.validateUTF8 ⟨f.data.toArray⟩ = true)
  | data (hkind : f.isData) (hlen : f.data ≠ [] ∧ f.data.length ≤ CHUNK)
  | ends (hkind : f.isEnd) (hdata : f.data = [])
  | credit (hkind : f.kind = CREDIT) {count : ℕ} (hcount : 0 < count ∧ count ≤ CHUNK)
      (hdata : f.data = toBeBytes count)
  | signal (hkind : f.kind = READY ∨ f.kind = CANCEL) (hdata : f.data = [])

theorem Frame.Wf.length_le {f : Frame} (h : f.Wf) : f.data.length ≤ CHUNK := by
  cases h with
  | opens _ hlen => exact Nat.le_trans hlen.2 (by decide)
  | data _ hlen => exact hlen.2
  | ends _ hdata => rw [hdata]; exact Nat.zero_le _
  | credit _ _ hdata => rw [hdata]; exact (by decide : 4 ≤ CHUNK)
  | signal _ hdata => rw [hdata]; exact Nat.zero_le _

/-- **What an end sends is well formed.** -/
theorem Linked.move_wf {o side : Side} {l : Link} {s s' : Stream} {frames : List Frame}
    (h : Linked o l) (hs : l.st side = some s) {id : ℕ} {m : Move}
    (hm : s.move id m = some (s', frames)) : ∀ f ∈ frames, f.id = id ∧ f.Wf := by
  have hsends := h.sends hs
  have hreceives := h.receives hs
  have hsane := h.sane side s hs
  cases m with
  | sendOpen =>
    unfold Stream.move at hm
    dsimp only at hm
    split at hm
    · rename_i service hservice
      cases Option.some_inj.mp hm
      intro f hf
      cases List.mem_singleton.mp hf
      obtain ⟨hne, hle⟩ := hsane.named service hservice
      have hlen : service.toUTF8.data.toList.length = service.utf8ByteSize := rfl
      refine ⟨rfl, .opens ?_ ⟨?_, hlen ▸ hle⟩ ?_⟩
      · unfold Frame.isOpen
        dsimp only
        cases s.websocket <;> simp
      · rw [hlen]
        exact Nat.one_le_iff_ne_zero.mpr hne
      · exact ByteArray.validateUTF8_eq_true_iff.mpr service.isValidUTF8
    · cases hm
  | send =>
    unfold Stream.move at hm
    dsimp only at hm
    split at hm
    · rename_i bytes htask hsending
      cases Option.some_inj.mp hm
      intro f hf
      cases List.mem_singleton.mp hf
      exact ⟨rfl, .data (kind_data s.websocket rfl).1 (hsends.chunk bytes (Or.inr hsending))⟩
    · cases Option.some_inj.mp hm
      intro f hf
      cases List.mem_singleton.mp hf
      exact ⟨rfl, .ends (kind_end s.websocket rfl).1 rfl⟩
    · cases hm
  | credit =>
    unfold Stream.move at hm
    dsimp only at hm
    split at hm
    · rename_i length htask hreceiving
      cases Option.some_inj.mp hm
      intro f hf
      cases List.mem_singleton.mp hf
      exact ⟨rfl, .credit rfl (hreceives.frame length (Or.inr hreceiving)) rfl⟩
    · cases hm
  | connected =>
    unfold Stream.move at hm
    dsimp only at hm
    split_ifs at hm
    cases Option.some_inj.mp hm
    intro f hf
    cases List.mem_singleton.mp hf
    exact ⟨rfl, .signal (Or.inl rfl) rfl⟩
  | sendCancel =>
    unfold Stream.move at hm
    dsimp only at hm
    split_ifs at hm
    cases Option.some_inj.mp hm
    intro f hf
    cases List.mem_singleton.mp hf
    exact ⟨rfl, .signal (Or.inr rfl) rfl⟩
  | read n =>
    unfold Stream.move at hm
    dsimp only at hm
    split_ifs at hm
    obtain ⟨s₁, -, he⟩ := Option.map_eq_some_iff.mp hm
    cases he
    exact fun f hf => by cases hf
  | _ =>
    have hnil : frames = [] := by
      unfold Stream.move at hm
      dsimp only at hm
      clear hsends hreceives hsane h hs
      grind
    rw [hnil]
    exact fun f hf => by cases hf

end Zeron.Preview.Mux
