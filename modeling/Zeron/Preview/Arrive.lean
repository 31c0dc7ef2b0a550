import Zeron.Preview.Link

/-!
# Frames arrive

What `dispatch` does with a frame of a stream (`preview/src/mux.rs`).

* `Link.receive`: an end takes a frame from the transport; `Linked.receive`;
* one lemma for each kind of frame, and **`Linked.dispatch`**: it never fails.
-/

namespace Zeron.Preview.Mux

/-- An end takes a frame, and `rest` is left. -/
def Link.receive (l : Link) (side : Side) (st : Option Stream) (rest : List Frame)
    (refusing : Prop) : Link where
  st := Function.update l.st side st
  wire := Function.update l.wire side.other rest
  refusing := refusing

section Receive

variable (l : Link) (side : Side) (st : Option Stream) (rest : List Frame) (refusing : Prop)

@[simp] theorem receive_st_self : (l.receive side st rest refusing).st side = st :=
  Function.update_self ..

@[simp] theorem receive_st_other :
    (l.receive side st rest refusing).st side.other = l.st side.other :=
  Function.update_of_ne side.other_ne ..

@[simp] theorem receive_wire_other : (l.receive side st rest refusing).wire side.other = rest :=
  Function.update_self ..

@[simp] theorem receive_wire_self :
    (l.receive side st rest refusing).wire side = l.wire side :=
  Function.update_of_ne side.other_ne.symm ..

end Receive

namespace Linked

variable {o side : Side} {l : Link} {s s' : Stream} {f : Frame} {rest : List Frame}

theorem receive (h : Linked o l) {st : Option Stream} {refusing : Prop}
    (hsends : Dir (senderOf st) (receiverOf (l.st side.other)) (content (l.wire side))
      (credits rest) (Live st) (Alive (l.st side.other)))
    (hreceives : Dir (senderOf (l.st side.other)) (receiverOf st) (content rest)
      (credits (l.wire side)) (Live (l.st side.other)) (Alive st))
    (hopener : side = o → Life (st.map Stream.control) ((l.st side.other).map Stream.control)
      (signals (l.wire side)) (signals rest) refusing)
    (haccepter : side = o.other → Life ((l.st side.other).map Stream.control)
      (st.map Stream.control) (signals rest) (signals (l.wire side)) refusing)
    (hwritten : (senderOf st).written = (senderOf (l.st side)).written)
    (hthere : st = none → l.st side = none) (hsane : ∀ s ∈ st, s.Sane)
    (heof : ∀ s ∈ st, s.receiver.readEof = true →
      s.receiver.receiving = .done ∧ s.receiver.pipe = [] ∨
        ∃ s₂ ∈ l.st side.other, s₂.handle = .dropped true)
    (htorn : (∃ s ∈ l.st side, s.handle = .dropped true) → ∃ s ∈ st, s.handle = .dropped true) :
    Linked o (l.receive side st rest refusing) := by
  refine h.change side (receive_st_other ..) ?_ ?_ (fun ho => ?_) (fun ho => ?_)
    (fun hnone => ?_) ?_ ?_ ?_
  · simpa using hsends
  · simpa using hreceives
  · rw [receive_st_self, receive_wire_self, receive_wire_other]
    exact hopener ho
  · rw [receive_st_self, receive_wire_self, receive_wire_other]
    exact haccepter ho
  · rcases side.eq_or_other o with rfl | rfl
    · rw [receive_st_other] at hnone
      rw [receive_st_self]
      exact ⟨hnone, hwritten⟩
    · rw [receive_st_self] at hnone
      have hother := receive_st_other l o.other st rest refusing
      rw [Side.other_other] at hother
      rw [hother]
      exact ⟨hthere hnone, rfl⟩
  · simpa using hsane
  · simpa using heof
  · simpa using htorn

/-- The frame changes the directions at most. -/
theorem receive_same (h : Linked o l) (hwire : l.wire side.other = f :: rest) {st : Option Stream}
    (hsends : Dir (senderOf st) (receiverOf (l.st side.other)) (content (l.wire side))
      (credits rest) (Live st) (Alive (l.st side.other)))
    (hreceives : Dir (senderOf (l.st side.other)) (receiverOf st) (content rest)
      (credits (l.wire side)) (Live (l.st side.other)) (Alive st))
    (hcontrol : st.map Stream.control = (l.st side).map Stream.control)
    (hwritten : (senderOf st).written = (senderOf (l.st side)).written)
    (hsane : ∀ s ∈ st, s.Sane)
    (heof : ∀ s ∈ st, s.receiver.readEof = true →
      s.receiver.receiving = .done ∧ s.receiver.pipe = [] ∨
        ∃ s₂ ∈ l.st side.other, s₂.handle = .dropped true) :
    Linked o (l.receive side st rest l.refusing) := by
  have hlife := h.life
  have hsub : (signals rest).Sublist (signals (l.wire side.other)) := by
    rw [hwire, signals_cons]
    exact List.sublist_append_right _ _
  refine h.receive hsends hreceives ?_ ?_ hwritten (fun hn => ?_) hsane heof ?_
  · rintro rfl
    rw [hcontrol]
    exact hlife.lose (List.Sublist.refl _) hsub
  · rintro rfl
    rw [Side.other_other] at hsub ⊢
    rw [hcontrol]
    exact hlife.lose hsub (List.Sublist.refl _)
  · rw [hn] at hcontrol
    exact Option.map_eq_none_iff.mp hcontrol.symm
  · rintro ⟨s, hs, ht⟩
    have he : s.control ∈ st.map Stream.control := by
      rw [hcontrol]
      exact Option.mem_map_of_mem Stream.control hs
    obtain ⟨s', hs', hsame⟩ := Option.map_eq_some_iff.mp he
    exact ⟨s', hs', (congrArg Control.handle hsame).trans ht⟩

theorem ignore (h : Linked o l) (hwire : l.wire side.other = f :: rest)
    (hsends : Dir (senderOf (l.st side)) (receiverOf (l.st side.other)) (content (l.wire side))
      (credits rest) (Live (l.st side)) (Alive (l.st side.other)))
    (hreceives : Dir (senderOf (l.st side.other)) (receiverOf (l.st side)) (content rest)
      (credits (l.wire side)) (Live (l.st side.other)) (Alive (l.st side))) :
    Linked o (l.receive side (l.st side) rest l.refusing) :=
  h.receive_same hwire hsends hreceives rfl rfl (h.sane side) (h.eof side)

theorem silent_at (h : Linked o l) (hs : l.st side = none) :
    (senderOf (l.st side.other)).written = [] := by
  rcases side.eq_or_other o with rfl | rfl
  · have hun := h.life.unopened (Option.map_eq_none_iff.mpr hs)
    rw [Option.map_eq_none_iff.mp hun.1]
    rfl
  · rw [Side.other_other]
    exact h.silent hs

end Linked

/-! ## Dispatch -/

/-- What has become of an endpoint that took a frame, and of the stream. -/
inductive Arrived (o side : Side) (l : Link) (rest : List Frame) (p : Party) (id : ℕ) :
    Party → Prop
  | ignored (h : Linked o (l.receive side (l.st side) rest l.refusing)) :
    Arrived o side l rest p id p
  | taken (s : Stream) (hthere : side = o → l.st side ≠ none)
    (h : Linked o (l.receive side (some s) rest l.refusing)) :
    Arrived o side l rest p id (p.put id s)
  | refused (hside : side = o.other) (h : Linked o (l.receive side (l.st side) rest True)) :
    Arrived o side l rest p id { p with refusing := some id }

namespace Party

variable {p : Party} {id : ℕ} {s : Stream}

theorem slot_eq_some : p.slot id = some s ↔ p.streams.lookup id = some s ∧ s.task = .running := by
  simp [slot, Option.filter_eq_some_iff]

theorem slot_eq_none :
    p.slot id = none ↔ ∀ s, p.streams.lookup id = some s → s.task ≠ .running := by
  simp [slot, Option.filter_eq_none_iff]

theorem dispatch_some {side : Side} {f : Frame} (hopen : ¬ f.isOpen) (hs : p.slot f.id = some s) :
    p.dispatch side f = p.toSlot s f := by
  refine (if_neg hopen).trans ?_
  rw [hs]

theorem dispatch_none {side : Side} {f : Frame} (hopen : ¬ f.isOpen) (hs : p.slot f.id = none) :
    p.dispatch side f = p := by
  refine (if_neg hopen).trans ?_
  rw [hs]

end Party

namespace Linked

variable {o side : Side} {l : Link} {f : Frame} {rest : List Frame} {p : Party}

theorem kinds_of_content (hf : f.isData ∨ f.isEnd) :
    ¬ f.isOpen ∧ f.kind ≠ READY ∧ f.kind ≠ CANCEL ∧ f.kind ≠ CREDIT := by
  unfold Frame.isOpen
  rcases hf with (hf | hf) | (hf | hf) <;> rw [hf] <;> decide

theorem enqueue (h : Linked o l) (hwire : l.wire side.other = f :: rest) {s : Stream}
    (hs : l.st side = some s) (htask : s.task = .running) (hf : f.isData ∨ f.isEnd)
    (hroom : f.data.length ≤ s.receiver.receiveCredit) :
    Linked o (l.receive side (some { s with receiver := { s.receiver with
      queue := s.receiver.queue ++ [f]
      receiveCredit := s.receiver.receiveCredit - f.data.length } }) rest l.refusing) := by
  have hsends := h.sends hs
  have hreceives := h.receives hs
  have hsane := h.sane side s hs
  have heof := h.eof side s hs
  obtain ⟨-, -, -, hcredit⟩ := kinds_of_content hf
  have hcontent : content (l.wire side.other) = f :: content rest := by
    rw [hwire, content_cons, Frame.toContent, if_pos hf]
    rfl
  have hcredits : credits (l.wire side.other) = credits rest := by
    rw [hwire, credits_cons, Frame.toCredits, if_neg hcredit, Nat.zero_add]
  have hdeliver := hreceives.deliver (Or.inl htask) hcontent hroom
  rw [hcredits] at hsends
  refine h.receive_same hwire (hsends.weaken (fun hl => (hl _ rfl :)) fun ho => ho)
    (hdeliver.weaken (fun hl => hl) fun ho => (ho _ rfl :)) (by rw [hs]; rfl) (by rw [hs]; rfl)
    ?_ ?_
  · intro s₁ hs₁
    cases Option.some_inj.mp hs₁
    exact ⟨hsane.named, hsane.finished, hsane.aborted⟩
  · intro s₁ hs₁
    cases Option.some_inj.mp hs₁
    exact heof

/-- **DATA arrives**: the window has room for it. -/
theorem data (h : Linked o l) (hwire : l.wire side.other = f :: rest)
    (hst : p.streams.lookup f.id = l.st side) (hf : f.isData) (hne : f.data ≠ []) :
    Arrived o side l rest p f.id (p.dispatch side f) := by
  obtain ⟨hopen, hready, hcancel, hcredit⟩ := kinds_of_content (Or.inl hf)
  have hcontent : content (l.wire side.other) = f :: content rest := by
    rw [hwire, content_cons, Frame.toContent, if_pos (Or.inl hf), List.singleton_append]
  cases hslot : p.slot f.id with
  | some s =>
    obtain ⟨hlookup, htask⟩ := Party.slot_eq_some.mp hslot
    have hs : l.st side = some s := hst ▸ hlookup
    have hreceives := h.receives hs
    have hroom := hreceives.room hcontent
    have hshort := hreceives.queue_short
    have hput : p.dispatch side f = p.put f.id { s with receiver := { s.receiver with
        queue := s.receiver.queue ++ [f]
        receiveCredit := s.receiver.receiveCredit - f.data.length } } := by
      rw [Party.dispatch_some hopen hslot, Party.toSlot, if_neg hready, if_neg hcancel,
        if_neg hcredit]
      refine (if_pos hf).trans ((if_pos ⟨hne, hroom⟩).trans ?_)
      exact if_pos hshort
    rw [hput]
    exact .taken _ (fun _ => hs ▸ Option.some_ne_none _) (h.enqueue hwire hs htask (Or.inl hf) hroom)
  | none =>
    have hnot := Party.slot_eq_none.mp hslot
    rw [hst] at hnot
    have hsends := h.dir side
    have hreceives := h.dir side.other
    rw [Side.other_other] at hreceives
    have hcredits : credits (l.wire side.other) = credits rest := by
      rw [hwire, credits_cons, Frame.toCredits, if_neg hcredit, Nat.zero_add]
    have haborted : ¬ Alive (l.st side) := by
      intro halive
      cases hs : l.st side with
      | none =>
        rw [hs] at hreceives
        have hflow := hreceives.flow fun s' hs' => by cases hs'
        rw [h.silent_at hs, hcontent] at hflow
        simp [receiverOf, Receiver.new, hne] at hflow
      | some s =>
        rcases halive s hs with hrun | hfin
        · exact hnot s hs hrun
        · rw [hs] at hreceives
          have hnil := (hreceives.done ((h.sane side s hs).finished hfin).2).1
          rw [hcontent] at hnil
          simp at hnil
    rw [Party.dispatch_none hopen hslot]
    rw [hcredits] at hsends
    exact .ignored (h.ignore hwire hsends (hreceives.lose haborted hcontent))

/-- **The end arrives.** -/
theorem ends (h : Linked o l) (hwire : l.wire side.other = f :: rest)
    (hst : p.streams.lookup f.id = l.st side) (hf : f.isEnd) (hdata : f.data = []) :
    Arrived o side l rest p f.id (p.dispatch side f) := by
  obtain ⟨hopen, hready, hcancel, hcredit⟩ := kinds_of_content (Or.inr hf)
  have hnotData : ¬ f.isData := by
    rintro (hd | hd) <;> rcases hf with hf | hf <;> rw [hd] at hf <;> exact absurd hf (by decide)
  cases hslot : p.slot f.id with
  | some s =>
    obtain ⟨hlookup, htask⟩ := Party.slot_eq_some.mp hslot
    have hs : l.st side = some s := hst ▸ hlookup
    have hshort := (h.receives hs).queue_short
    have hlink := h.enqueue hwire hs htask (Or.inr hf) (by rw [hdata]; exact Nat.zero_le _)
    rw [hdata, List.length_nil, Nat.sub_zero] at hlink
    have hput : p.dispatch side f = p.put f.id { s with receiver := { s.receiver with
        queue := s.receiver.queue ++ [f] } } := by
      rw [Party.dispatch_some hopen hslot, Party.toSlot, if_neg hready, if_neg hcancel,
        if_neg hcredit]
      exact (if_neg hnotData).trans ((if_pos hf).trans (if_pos hshort))
    rw [hput]
    exact .taken _ (fun _ => hs ▸ Option.some_ne_none _) hlink
  | none =>
    have hsends := h.dir side
    have hreceives := h.dir side.other
    rw [Side.other_other] at hreceives
    have hcontent : content (l.wire side.other) = f :: content rest := by
      rw [hwire, content_cons, Frame.toContent, if_pos (Or.inr hf), List.singleton_append]
    have hcredits : credits (l.wire side.other) = credits rest := by
      rw [hwire, credits_cons, Frame.toCredits, if_neg hcredit, Nat.zero_add]
    rw [Party.dispatch_none hopen hslot]
    rw [hcredits] at hsends
    exact .ignored (h.ignore hwire hsends (hreceives.loseEnd hcontent hdata))

/-- **A credit arrives**: the permits stay within the window. -/
theorem credited (h : Linked o l) (hwire : l.wire side.other = f :: rest)
    (hst : p.streams.lookup f.id = l.st side) (hf : f.kind = CREDIT) {count : ℕ}
    (hcount : 0 < count ∧ count ≤ CHUNK) (hdata : f.data = toBeBytes count) :
    Arrived o side l rest p f.id (p.dispatch side f) := by
  have hopen : ¬ f.isOpen := by
    unfold Frame.isOpen
    rw [hf]
    decide
  have hnot : ¬ (f.isData ∨ f.isEnd) := by
    unfold Frame.isData Frame.isEnd
    rw [hf]
    decide
  have hbytes : fromBeBytes f.data = count := by
    rw [hdata]
    exact fromBeBytes_toBeBytes (Nat.lt_of_le_of_lt hcount.2 (by decide))
  have hcontent : content (l.wire side.other) = content rest := by
    rw [hwire, content_cons, Frame.toContent, if_neg hnot, List.nil_append]
  have hcredits : credits (l.wire side.other) = count + credits rest := by
    rw [hwire, credits_cons, Frame.toCredits, if_pos hf, hbytes]
  cases hslot : p.slot f.id with
  | some s =>
    obtain ⟨hlookup, htask⟩ := Party.slot_eq_some.mp hslot
    have hs : l.st side = some s := hst ▸ hlookup
    have hsends := h.sends hs
    have hreceives := h.receives hs
    have hsane := h.sane side s hs
    have heof := h.eof side s hs
    rw [hcredits] at hsends
    rw [hcontent] at hreceives
    obtain ⟨hpermits, hdir⟩ := hsends.takeCredit
    have hput : p.dispatch side f = p.put f.id { s with sender := { s.sender with
        permits := s.sender.permits + count } } := by
      have hwindow : f.data.length = 4 ∧ 0 < fromBeBytes f.data ∧ fromBeBytes f.data ≤ WINDOW ∧
          s.sender.permits + fromBeBytes f.data ≤ WINDOW := by
        rw [hbytes]
        exact ⟨by rw [hdata]; rfl, hcount.1, Nat.le_trans hcount.2 (by decide), hpermits⟩
      rw [Party.dispatch_some hopen hslot, Party.toSlot, if_neg (by rw [hf]; decide),
        if_neg (by rw [hf]; decide), if_pos hf]
      refine (if_pos hwindow).trans ?_
      rw [hbytes]
    rw [hput]
    refine .taken _ (fun _ => hs ▸ Option.some_ne_none _) (h.receive_same hwire
      (hdir.weaken (fun hl => (hl _ rfl :)) fun ho => ho)
      (hreceives.weaken (fun hl => hl) fun ho => (ho _ rfl :)) (by rw [hs]; rfl) (by rw [hs]; rfl)
      ?_ ?_)
    · intro s₁ hs₁
      cases Option.some_inj.mp hs₁
      exact ⟨hsane.named, hsane.finished, hsane.aborted⟩
    · intro s₁ hs₁
      cases Option.some_inj.mp hs₁
      exact heof
  | none =>
    have hgone := Party.slot_eq_none.mp hslot
    rw [hst] at hgone
    have hsends := h.dir side
    have hreceives := h.dir side.other
    rw [Side.other_other] at hreceives
    rw [hcredits] at hsends
    rw [hcontent] at hreceives
    have hdead : ¬ Live (l.st side) := by
      intro hlive
      cases hs : l.st side with
      | none =>
        rw [hs] at hsends
        have hpermits : WINDOW + count ≤ WINDOW := hsends.takeCredit.1
        omega
      | some s => exact hgone s hs (hlive s hs)
    rw [Party.dispatch_none hopen hslot]
    exact .ignored (h.ignore hwire (hsends.loseCredit hdead) hreceives)

theorem receives_signal (hwire : l.wire side.other = f :: rest)
    (hf : f.isOpen ∨ f.kind = READY ∨ f.kind = CANCEL) :
    content (l.wire side.other) = content rest ∧ credits (l.wire side.other) = credits rest ∧
      signals (l.wire side.other) = f :: signals rest := by
  have hnot : ¬ f.isData ∧ ¬ f.isEnd ∧ f.kind ≠ CREDIT := by
    unfold Frame.isData Frame.isEnd
    rcases hf with (hf | hf) | hf | hf <;> rw [hf] <;> decide
  rw [hwire]
  simp [Frame.toContent, Frame.toCredits, Frame.toSignals, hnot]

/-- What a READY or a CANCEL does to a slot. -/
def signalled (s : Stream) (f : Frame) : Stream :=
  if f.kind = READY then { s with ready := s.ready <|> some true }
  else { s with cancel := true, ready := s.ready <|> some false }

section Signalled

variable {s : Stream}

theorem signalled_same : (signalled s f).sender = s.sender ∧
    (signalled s f).receiver = s.receiver ∧ (signalled s f).handle = s.handle ∧
      (signalled s f).task = s.task := by
  unfold signalled
  split <;> exact ⟨rfl, rfl, rfl, rfl⟩

theorem signalled_ready (h : (signalled s f).ready = some true) :
    s.ready = some true ∨ f.kind = READY := by
  unfold signalled at h
  split at h
  · exact Or.inr ‹_›
  · cases hready : s.ready <;> simp_all

theorem signalled_cancel (h : (signalled s f).cancel = true) :
    s.cancel = true ∨ f.kind ≠ READY := by
  unfold signalled at h
  split at h
  · exact Or.inl h
  · exact Or.inr ‹_›

theorem signalled_refused (h : (signalled s f).ready = some false) :
    s.ready = some false ∨ f.kind ≠ READY := by
  unfold signalled at h
  split at h
  · cases hready : s.ready <;> simp_all
  · exact Or.inr ‹_›

end Signalled

/-- **READY and CANCEL arrive.** -/
theorem signal (h : Linked o l) (hwire : l.wire side.other = f :: rest)
    (hst : p.streams.lookup f.id = l.st side) (hf : f.kind = READY ∨ f.kind = CANCEL) :
    Arrived o side l rest p f.id (p.dispatch side f) := by
  obtain ⟨hcontent, hcredits, hsignals⟩ := receives_signal hwire (Or.inr hf)
  have hopen : ¬ f.isOpen := by
    unfold Frame.isOpen
    rcases hf with hf | hf <;> rw [hf] <;> decide
  cases hslot : p.slot f.id with
  | some s =>
    obtain ⟨hlookup, htask⟩ := Party.slot_eq_some.mp hslot
    have hs : l.st side = some s := hst ▸ hlookup
    have hsends := h.sends hs
    have hreceives := h.receives hs
    have hsane := h.sane side s hs
    obtain ⟨hopener, haccepter⟩ := h.life_at hs
    have hput : p.dispatch side f = p.put f.id (signalled s f) := by
      rw [Party.dispatch_some hopen hslot, signalled]
      rcases hf with hf | hf
      · rw [if_pos hf]
        exact if_pos hf
      · have hnot : f.kind ≠ READY := by
          rw [hf]
          decide
        rw [if_neg hnot]
        exact (if_neg hnot).trans (if_pos hf)
    obtain ⟨hsender, hreceiver, hhandle, hrun⟩ := signalled_same (s := s) (f := f)
    rw [hcredits] at hsends
    rw [hcontent] at hreceives
    rw [hput]
    refine .taken _ (fun _ => hs ▸ Option.some_ne_none _) (h.receive ?_ ?_ (fun ho => ?_) (fun ho => ?_) ?_
      (fun hn => by cases hn) ?_ ?_
      ?_)
    · rw [show senderOf (some (signalled s f)) = s.sender from hsender]
      exact hsends.weaken (fun _ => htask) fun ho => ho
    · rw [show receiverOf (some (signalled s f)) = s.receiver from hreceiver]
      exact hreceives.weaken (fun hl => hl) fun _ => Or.inl htask
    · have hlife := hopener ho
      rw [hsignals] at hlife
      have hstep : Life (some (signalled s f).control) ((l.st side.other).map Stream.control)
          (signals (l.wire side)) (f :: signals rest) l.refusing := by
        refine hlife.openerStep ?_ ?_ ?_ ?_ ?_
        · rintro ⟨service, hservice⟩
          exact ⟨service, hhandle.symm.trans hservice⟩
        · rintro (hheld | hready)
          · exact Or.inl (hhandle.symm.trans hheld)
          · rcases signalled_ready hready with hready | hkind
            · exact Or.inr (Or.inl hready)
            · exact Or.inr (Or.inr (hlife.met (Or.inr ⟨f, List.mem_cons_self, hkind⟩)))
        · exact fun hc => hlife.opener _ rfl (hhandle.symm.trans hc)
        · refine fun hc => Or.inl ?_
          have hold : s.cancel = true ∨ s.ready = some false ∨ f.kind ≠ READY :=
            hc.elim (fun hc => (signalled_cancel hc).imp_right Or.inr)
              fun hr => Or.inr (signalled_refused hr)
          rcases hold with hc | hr | hkind
          · exact Or.inl ⟨_, rfl, Or.inl hc⟩
          · exact Or.inl ⟨_, rfl, Or.inr hr⟩
          · exact Or.inr (Or.inr (Or.inl ⟨f, by simp, hf.resolve_left hkind⟩))
        · exact fun ht => hhandle.trans ht
      exact hstep.lose (List.Sublist.refl _) (List.sublist_cons_self _ _)
    · have hlife := haccepter ho
      rw [hsignals] at hlife
      have hstep : Life ((l.st side.other).map Stream.control) (some (signalled s f).control)
          (f :: signals rest) (signals (l.wire side)) l.refusing := by
        refine hlife.accepterStep ⟨?_, ?_⟩ ?_ ?_
        · rintro ⟨service, hservice⟩
          exact (hlife.accepter _ rfl).1 ⟨service, hhandle.symm.trans hservice⟩
        · exact fun hw => (hlife.accepter _ rfl).2 (hhandle.symm.trans hw)
        · intro hc
          rcases signalled_cancel hc with hc | hkind
          · exact Or.inl (Or.inr (Or.inl ⟨_, rfl, hc⟩))
          · exact Or.inl (Or.inr (Or.inr (Or.inl ⟨f, by simp, hf.resolve_left hkind⟩)))
        · exact fun ht => hhandle.trans ht
      exact hstep.lose (List.sublist_cons_self _ _) (List.Sublist.refl _)
    · rw [hs]
      exact congrArg Sender.written hsender
    · intro s₁ hs₁
      cases Option.some_inj.mp hs₁
      refine ⟨?_, ?_, ?_⟩
      · rw [hhandle]
        exact hsane.named
      · rw [hrun, hsender, hreceiver]
        exact hsane.finished
      · rw [hrun, htask]
        rintro (ha | ha) <;> cases ha
    · intro s₁ hs₁
      cases Option.some_inj.mp hs₁
      rw [hreceiver]
      exact h.eof side s hs
    · rintro ⟨s₁, hs₁, ht⟩
      rw [hs] at hs₁
      cases Option.some_inj.mp hs₁
      exact ⟨_, rfl, hhandle.trans ht⟩
  | none =>
    have hsends := h.dir side
    have hreceives := h.dir side.other
    rw [Side.other_other] at hreceives
    rw [hcredits] at hsends
    rw [hcontent] at hreceives
    rw [Party.dispatch_none hopen hslot]
    exact .ignored (h.ignore hwire hsends hreceives)

/-- **A stream is opened by the other end.** -/
theorem opens (h : Linked o l) (hwire : l.wire side.other = f :: rest)
    (hst : p.streams.lookup f.id = l.st side) (hf : f.isOpen)
    (hid : f.id ≠ 0 ∧ f.id % 2 = o.parity)
    (hlen : 1 ≤ f.data.length ∧ f.data.length ≤ 128)
    (hvalid : ByteArray.validateUTF8 ⟨f.data.toArray⟩ = true) :
    Arrived o side l rest p f.id (p.dispatch side f) := by
  obtain ⟨hcontent, hcredits, hsignals⟩ := receives_signal hwire (Or.inl hf)
  have hlife := h.life
  have hside : side = o.other := by
    rcases side.eq_or_other o with rfl | rfl
    · exact absurd hf (hlife.noOpen f (hsignals ▸ List.mem_cons_self))
    · rfl
  subst hside
  rw [Side.other_other] at hwire hcontent hcredits hsignals
  rw [hsignals] at hlife
  have hnone : l.st o.other = none := Option.map_eq_none_iff.mp (hlife.opened hf).1
  have hparity : f.id % 2 ≠ o.other.parity := by
    rw [hid.2]
    cases o <;> decide
  have hdispatch : p.dispatch o.other f =
      (p.stream f.id (Stream.new (f.kind = WS_OPEN) .connecting)).getD
        { p with refusing := some f.id } :=
    (if_pos hf).trans (if_pos ⟨hid.1, hparity, hlen.1, hlen.2, hvalid⟩)
  have hsends := h.dir o.other
  have hreceives := h.dir o
  rw [Side.other_other] at hsends
  rw [hcredits, hnone] at hsends
  rw [hcontent, hnone] at hreceives
  rw [hdispatch]
  unfold Party.stream
  split_ifs
  · refine .taken _ (fun ho => absurd ho o.other_ne) (h.receive ?_ ?_
      (fun ho => absurd ho o.other_ne) (fun _ => ?_) ?_
      (fun hn => by cases hn) ?_ ?_ ?_)
    · rw [Side.other_other]
      exact hsends.weaken (fun _ _ hs => by cases hs) fun ho => ho
    · rw [Side.other_other]
      exact hreceives.weaken (fun hl => hl) fun _ _ hs => by cases hs
    · rw [Side.other_other]
      exact hlife.accept hf rfl rfl
    · rw [hnone]
      rfl
    · intro s₁ hs₁
      cases Option.some_inj.mp hs₁
      refine ⟨(fun _ hn => by cases hn), (fun hn => by cases hn), ?_⟩
      rintro (ha | ha) <;> cases ha
    · intro s₁ hs₁ hread
      cases Option.some_inj.mp hs₁
      cases hread
    · rintro ⟨s₁, hs₁, -⟩
      rw [hnone] at hs₁
      cases hs₁
  · refine .refused rfl (h.receive ?_ ?_ (fun ho => absurd ho o.other_ne) (fun _ => ?_) rfl
      (fun hn => hn) (h.sane _) (h.eof _) fun ht => ht)
    · rw [hnone, Side.other_other]
      exact hsends
    · rw [hnone, Side.other_other]
      exact hreceives
    · rw [Side.other_other]
      exact hlife.refuse hf

/-- **A frame arrives: `dispatch` does not fail**, and both ends stay in order. -/
theorem dispatch (h : Linked o l) (hwire : l.wire side.other = f :: rest)
    (hst : p.streams.lookup f.id = l.st side) (hid : f.id ≠ 0 ∧ f.id % 2 = o.parity)
    (hwf : f.Wf) : Arrived o side l rest p f.id (p.dispatch side f) := by
  cases hwf with
  | opens hkind hlen hvalid => exact h.opens hwire hst hkind hid hlen hvalid
  | data hkind hlen => exact h.data hwire hst hkind hlen.1
  | ends hkind hdata => exact h.ends hwire hst hkind hdata
  | credit hkind hcount hdata => exact h.credited hwire hst hkind hcount hdata
  | signal hkind hdata => exact h.signal hwire hst hkind

end Linked

end Zeron.Preview.Mux
