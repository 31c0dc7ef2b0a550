import Zeron.Preview.Arrive

/-!
# Streams deliver bytes exactly

Every stream of two endpoints, over every interleaving (`preview/src/mux.rs`). An end that is
dropped early cancels the stream, and its peer sees the end of the stream there.

* `Exact`, `Delivered`: what is promised, and what holds where no id is drawn twice; `Fresh`;
* `Net.link`: the ends of a stream of the net, and the frames between them; `Net.Inv`;
* **`streams_delivered`**; `dropped_early`: the bytes of an end that is dropped are lost.
-/

namespace Zeron.Preview.Mux

open Run

/-! ## What is promised -/

namespace Net

variable (n : Net)

def stream (side : Side) (id : ℕ) : Option Stream := (n.party side).streams.lookup id

/-- The frames of a stream on their way from a side. -/
def frames (side : Side) (id : ℕ) : List Frame := (n.wire side).filter (·.id = id)

/-- Permits of a side, and bytes that are in flight, queued or not yet credited. -/
def outstanding (side : Side) (id : ℕ) : ℕ :=
  Mux.outstanding (senderOf (n.stream side id)) (receiverOf (n.stream side.other id))
    (content (n.frames side id)) (credits (n.frames side.other id))

structure Exact : Prop where
  /-- What is read at one end is a prefix of what is written at the other. -/
  reads : ∀ side id, (receiverOf (n.stream side id)).read <+:
    (senderOf (n.stream side.other id)).written
  eof : ∀ side id, (receiverOf (n.stream side id)).readEof = true →
    (receiverOf (n.stream side id)).read = (senderOf (n.stream side.other id)).written
  window : ∀ side id, n.outstanding side id = WINDOW
  dispatches : ∀ side, (n.party side).failed = false
  queues : ∀ side, (n.party side).overflowed = false

/-- The same, but for a stream that an end has dropped early: there the other end may see the end
of the stream before, and what is on its way to an end that was aborted is lost. -/
structure Delivered : Prop where
  reads : ∀ side id, (receiverOf (n.stream side id)).read <+:
    (senderOf (n.stream side.other id)).written
  eof : ∀ side id, (receiverOf (n.stream side id)).readEof = true →
    (receiverOf (n.stream side id)).read = (senderOf (n.stream side.other id)).written ∨
      ∃ s ∈ n.stream side.other id, s.handle = .dropped true
  window : ∀ side id, (∀ s ∈ n.stream side id, s.task = .running) →
    (∀ s ∈ n.stream side.other id, s.task = .running ∨ s.task = .finished) →
      n.outstanding side id = WINDOW
  bound : ∀ side id, n.outstanding side id ≤ WINDOW
  dispatches : ∀ side, (n.party side).failed = false
  queues : ∀ side, (n.party side).overflowed = false

/-- The ids do not wrap. -/
def Fresh : Act → Prop
  | .open side _ _ => (n.party side).opened < 2 ^ 31 - 1
  | _ => True

instance (a : Act) : Decidable (n.Fresh a) := by
  cases a <;> simp only [Fresh] <;> infer_instance

end Net

/-! ## The streams of a net -/

/-- Who draws an id. -/
def opener (id : ℕ) : Side := if id % 2 = 1 then .initiator else .acceptor

theorem parity_opener (id : ℕ) : id % 2 = (opener id).parity := by
  unfold opener
  split
  · exact ‹_›
  · exact Nat.mod_two_ne_one.mp ‹_›

theorem opener_eq {side : Side} {id : ℕ} (h : id % 2 = side.parity) : opener id = side := by
  unfold opener
  cases side
  · exact if_pos h
  · exact if_neg fun hone => absurd (hone.symm.trans h) (by decide)

namespace Net

variable {n : Net} {side : Side} {id : ℕ}

def link (n : Net) (id : ℕ) : Link where
  st side := n.stream side id
  wire side := n.frames side id
  refusing := (n.party (opener id).other).refusing = some id

theorem link_eq {n' : Net} (hst : ∀ side, n'.stream side id = n.stream side id)
    (hwire : ∀ side, n'.frames side id = n.frames side id)
    (hrefusing : ∀ side, (n'.party side).refusing = some id ↔ (n.party side).refusing = some id) :
    n'.link id = n.link id := by
  unfold link
  simp only [hst, hwire, hrefusing]

@[simp] theorem lookup_put (p : Party) (s : Stream) (id' : ℕ) :
    (p.put id s).streams.lookup id' = if id' = id then some s else p.streams.lookup id' := by
  unfold Party.put
  split
  · rename_i he
    rw [he]
    exact AList.lookup_insert _
  · exact AList.lookup_insert_ne ‹_›

theorem forall_update {α : Type} {f : Side → α} {v : α} {P : Side → α → Prop} (hv : P side v)
    (hf : ∀ side', P side' (f side')) (side' : Side) : P side' (Function.update f side v side') :=
  (Function.forall_update_iff f P).mpr ⟨hv, fun side' _ => hf side'⟩ side'

theorem link_update {p : Party} {way : Side} {sent : List Frame} {l : Link}
    (hst : l.st = Function.update (n.link id).st side (p.streams.lookup id))
    (hwire : l.wire = Function.update (n.link id).wire way (sent.filter (·.id = id)))
    (hrefusing : (Function.update n.party side p (opener id).other).refusing = some id ↔
      l.refusing) :
    link { party := Function.update n.party side p, wire := Function.update n.wire way sent } id =
      l := by
  refine Link.ext ?_ ?_ (propext hrefusing)
  · rw [hst]
    funext side'
    exact (Function.apply_update (fun _ (p : Party) => p.streams.lookup id) n.party side p side')
  · rw [hwire]
    funext way'
    exact (Function.apply_update (fun _ (sent : List Frame) => sent.filter (·.id = id)) n.wire way
      sent way')

/-- What holds of every run. -/
structure Inv (n : Net) : Prop where
  linked : ∀ id, Linked (opener id) (n.link id)
  wf : ∀ side, ∀ f ∈ n.wire side, f.Wf ∧ 0 < f.id ∧ f.id < 2 ^ 32
  drawn : ∀ id, n.stream (opener id) id ≠ none →
    0 < id ∧ id < (opener id).firstId + 2 * (n.party (opener id)).opened
  small : ∀ side, (n.party side).opened ≤ 2 ^ 31 - 1
  refused : ∀ side id, (n.party side).refusing = some id →
    opener id = side.other ∧ 0 < id ∧ id < 2 ^ 32
  dispatches : ∀ side, (n.party side).failed = false
  queues : ∀ side, (n.party side).overflowed = false

theorem inv_start : start.Inv where
  linked id :=
    { dir := fun _ => Dir.new
      life := by simpa [link, stream, frames, start] using Life.start
      silent := fun _ => rfl
      sane := fun _ _ hs => by cases hs
      eof := fun _ _ hs => by cases hs }
  wf _ _ hf := by cases hf
  drawn _ hs := absurd rfl hs
  small _ := Nat.zero_le _
  refused _ _ h := by cases h
  dispatches _ := rfl
  queues _ := rfl

namespace Inv

theorem id_lt (h : n.Inv) (hs : n.stream side id ≠ none) : 0 < id ∧ id < 2 ^ 32 := by
  have hopener : n.stream (opener id) id ≠ none := by
    rcases side.eq_or_other (opener id) with rfl | rfl
    · exact hs
    · intro hnone
      have hun := (h.linked id).life.unopened (Option.map_eq_none_iff.mpr hnone)
      exact hs (Option.map_eq_none_iff.mp hun.1)
  obtain ⟨hpos, hlt⟩ := h.drawn id hopener
  have hsmall := h.small (opener id)
  have hfirst : (opener id).firstId ≤ 2 := by
    cases opener id <;> decide
  omega

/-- **A step changes one stream**: what is to be shown of it. -/
theorem change (h : n.Inv) (id : ℕ) {p : Party} {way : Side} (sent : List Frame)
    (hlookup : ∀ id', id' ≠ id → p.streams.lookup id' = n.stream side id')
    (hframes : ∀ id', id' ≠ id → sent.filter (·.id = id') = n.frames way id')
    (hrefusing : ∀ id', id' ≠ id →
      (p.refusing = some id' ↔ (n.party side).refusing = some id'))
    (hlinked : Linked (opener id) (link
      { party := Function.update n.party side p, wire := Function.update n.wire way sent } id))
    (hwf : ∀ f ∈ sent, f.Wf ∧ 0 < f.id ∧ f.id < 2 ^ 32)
    (hopened : (n.party side).opened ≤ p.opened) (hsmall : p.opened ≤ 2 ^ 31 - 1)
    (hdrawn : opener id = side → p.streams.lookup id ≠ none →
      0 < id ∧ id < side.firstId + 2 * p.opened)
    (hrefused : ∀ id', p.refusing = some id' → opener id' = side.other ∧ 0 < id' ∧ id' < 2 ^ 32)
    (hfailed : p.failed = false) (hoverflowed : p.overflowed = false) :
    Inv { party := Function.update n.party side p, wire := Function.update n.wire way sent } := by
  refine ⟨fun id' => ?_, ?_, fun id' => ?_, ?_, ?_, ?_, ?_⟩
  · by_cases he : id' = id
    · rw [he]
      exact hlinked
    · rw [link_eq (n := n) ?_ ?_ ?_]
      · exact h.linked id'
      · exact forall_update
          (P := fun side' (p : Party) => p.streams.lookup id' = n.stream side' id')
          (hlookup id' he) fun _ => rfl
      · exact forall_update
          (P := fun way' (sent : List Frame) => sent.filter (·.id = id') = n.frames way' id')
          (hframes id' he) fun _ => rfl
      · exact forall_update (P := fun side' (p : Party) => p.refusing = some id' ↔
          (n.party side').refusing = some id') (hrefusing id' he) fun _ => Iff.rfl
  · exact forall_update
      (P := fun _ (sent : List Frame) => ∀ f ∈ sent, f.Wf ∧ 0 < f.id ∧ f.id < 2 ^ 32) hwf h.wf
  · have hold := h.drawn id'
    refine forall_update
      (P := fun side' (p : Party) => opener id' = side' → p.streams.lookup id' ≠ none →
        0 < id' ∧ id' < side'.firstId + 2 * p.opened)
      (fun ho hs => ?_) (fun side' ho hs => ?_) _ rfl
    · by_cases he : id' = id
      · subst he
        exact hdrawn ho hs
      · rw [hlookup id' he] at hs
        rw [ho] at hold
        obtain ⟨hpos, hlt⟩ := hold hs
        exact ⟨hpos, by omega⟩
    · rw [ho] at hold
      exact hold hs
  · exact forall_update (P := fun _ (p : Party) => p.opened ≤ 2 ^ 31 - 1) hsmall h.small
  · exact forall_update (P := fun side' (p : Party) => ∀ id', p.refusing = some id' →
      opener id' = side'.other ∧ 0 < id' ∧ id' < 2 ^ 32) hrefused h.refused
  · exact forall_update (P := fun _ (p : Party) => p.failed = false) hfailed h.dispatches
  · exact forall_update (P := fun _ (p : Party) => p.overflowed = false) hoverflowed h.queues

theorem filter_of_id {frames : List Frame} (hf : ∀ f ∈ frames, f.id = id) (id' : ℕ) :
    frames.filter (·.id = id') = if id' = id then frames else [] := by
  split
  · rename_i he
    exact List.filter_eq_self.mpr fun f hfm => decide_eq_true ((hf f hfm).trans he.symm)
  · rename_i he
    exact List.filter_eq_nil_iff.mpr fun f hfm => by simpa [hf f hfm] using Ne.symm he

theorem move (h : n.Inv) {s s' : Stream} {m : Move} {frames : List Frame}
    (hs : n.stream side id = some s) (hm : s.move id m = some (s', frames)) :
    ((n.setParty side ((n.party side).put id s')).send side frames).Inv := by
  have hlinked := h.linked id
  have hframes := hlinked.move_wf hs hm
  have hfilter := filter_of_id fun f hf => (hframes f hf).1
  have hthere : n.stream side id ≠ none := by
    rw [hs]
    exact Option.some_ne_none _
  obtain ⟨hpos, hlt⟩ := h.id_lt hthere
  refine h.change id (p := (n.party side).put id s') (n.wire side ++ frames)
    (fun id' hne => ?_) (fun id' hne => ?_) (fun _ _ => Iff.rfl) ?_ (fun f hf => ?_) (Nat.le_refl _)
    (h.small side) (fun ho _ => ?_) (h.refused side) (h.dispatches side) (h.queues side)
  · rw [lookup_put, if_neg hne]
    rfl
  · rw [List.filter_append, hfilter id', if_neg hne, List.append_nil]
    rfl
  · rw [link_update (l := (n.link id).put side s' frames)]
    · exact hlinked.move hs hm
    · rw [lookup_put, if_pos rfl]
      rfl
    · rw [List.filter_append, hfilter id, if_pos rfl]
      rfl
    · exact forall_update (v := (n.party side).put id s')
        (P := fun side' (p : Party) => p.refusing = some id ↔ (n.party side').refusing = some id)
        Iff.rfl (fun _ => Iff.rfl) _
  · rcases List.mem_append.mp hf with hf | hf
    · exact h.wf side f hf
    · obtain ⟨hid, hwf⟩ := hframes f hf
      rw [hid]
      exact ⟨hwf, hpos, hlt⟩
  · subst ho
    exact h.drawn id hthere

/-- An endpoint takes a frame. -/
theorem arrive (h : n.Inv) {f : Frame} {rest : List Frame} (hwire : n.wire side.other = f :: rest)
    (hnone : (n.party side).refusing = none) :
    Inv { party := Function.update n.party side ((n.party side).dispatch side f)
          wire := Function.update n.wire side.other rest } := by
  have hlinked := h.linked f.id
  obtain ⟨hwf, hpos, hlt⟩ := h.wf side.other f (hwire ▸ List.mem_cons_self)
  have hframes : (n.link f.id).wire side.other = f :: rest.filter (·.id = f.id) := by
    show (n.wire side.other).filter _ = _
    rw [hwire]
    exact List.filter_cons_of_pos (decide_eq_true rfl)
  have hleft : ∀ id', id' ≠ f.id → rest.filter (·.id = id') = n.frames side.other id' := by
    intro id' hne
    rw [frames, hwire, List.filter_cons_of_neg (by simpa using hne.symm)]
  have hrest : ∀ f' ∈ rest, f'.Wf ∧ 0 < f'.id ∧ f'.id < 2 ^ 32 := fun f' hf' =>
    h.wf side.other f' (hwire ▸ List.mem_cons_of_mem _ hf')
  have harrived := hlinked.dispatch (p := n.party side) hframes rfl
    ⟨Nat.pos_iff_ne_zero.mp hpos, parity_opener f.id⟩ hwf
  generalize (n.party side).dispatch side f = p' at harrived ⊢
  cases harrived with
  | ignored hl =>
    refine h.change f.id rest (fun _ _ => rfl) hleft (fun _ _ => Iff.rfl) ?_ hrest
      (Nat.le_refl _) (h.small side) (fun ho hs => ?_) (h.refused side) (h.dispatches side)
      (h.queues side)
    · rw [link_update (l := (n.link f.id).receive side ((n.link f.id).st side) _ _)]
      · exact hl
      · rfl
      · rfl
      · rw [Function.update_eq_self]
        rfl
    · subst ho
      exact h.drawn f.id hs
  | taken s hthere hl =>
    refine h.change f.id rest (fun id' hne => ?_) hleft (fun _ _ => Iff.rfl) ?_ hrest
      (Nat.le_refl _) (h.small side) (fun ho _ => ?_) (h.refused side) (h.dispatches side)
      (h.queues side)
    · rw [lookup_put, if_neg hne]
      rfl
    · rw [link_update (l := (n.link f.id).receive side (some s) _ _)]
      · exact hl
      · rw [lookup_put, if_pos rfl]
        rfl
      · rfl
      · exact forall_update (v := (n.party side).put f.id s)
          (P := fun side' (p : Party) => p.refusing = some f.id ↔
            (n.party side').refusing = some f.id) Iff.rfl (fun _ => Iff.rfl) _
    · subst ho
      exact h.drawn f.id (hthere rfl)
  | refused hside hl =>
    refine h.change f.id rest (fun _ _ => rfl) hleft (fun id' hne => ?_) ?_ hrest
      (Nat.le_refl _) (h.small side) (fun ho hs => ?_) (fun id' hid => ?_) (h.dispatches side)
      (h.queues side)
    · rw [hnone]
      exact ⟨fun he => absurd (Option.some_inj.mp he).symm hne, fun he => (by cases he)⟩
    · rw [link_update (l := (n.link f.id).receive side ((n.link f.id).st side) _ True)]
      · exact hl
      · rfl
      · rfl
      · rw [hside, Function.update_self]
        exact ⟨fun _ => trivial, fun _ => rfl⟩
    · subst ho
      exact h.drawn f.id hs
    · cases Option.some_inj.mp hid
      rw [hside, Side.other_other]
      exact ⟨rfl, hpos, hlt⟩

/-- A CANCEL is sent of a stream that was refused. -/
theorem refuse (h : n.Inv) (hid : (n.party side).refusing = some id) :
    ((n.setParty side { n.party side with refusing := none }).send side
      [{ kind := CANCEL, id, data := [] }]).Inv := by
  obtain ⟨ho, hpos, hlt⟩ := h.refused side id hid
  have hside : side = (opener id).other := by rw [ho, Side.other_other]
  have hlinked := h.linked id
  have hrefusing : (n.link id).refusing := by
    show (n.party (opener id).other).refusing = some id
    rw [← hside]
    exact hid
  have hids : ∀ f ∈ [({ kind := CANCEL, id, data := [] } : Frame)], f.id = id := fun f hf => by
    rw [List.mem_singleton.mp hf]
  have hfilter := filter_of_id hids
  refine h.change id (p := { n.party side with refusing := none })
    (n.wire side ++ [{ kind := CANCEL, id, data := [] }]) (fun _ _ => rfl)
    (fun id' hne => ?_) (fun id' hne => ?_) ?_ (fun f hf => ?_) (Nat.le_refl _) (h.small side)
    (fun hs _ => ?_) (fun _ hn => by cases hn) (h.dispatches side) (h.queues side)
  · rw [List.filter_append, hfilter id', if_neg hne, List.append_nil]
    rfl
  · rw [hid]
    exact ⟨(fun he => by cases he), fun he => absurd (Option.some_inj.mp he).symm hne⟩
  · rw [link_update (l := (n.link id).refuse side { kind := CANCEL, id, data := [] })]
    · rw [hside]
      exact hlinked.refuse hrefusing rfl
    · exact (Function.update_eq_self side (n.link id).st).symm
    · rw [List.filter_append, hfilter id, if_pos rfl]
      rfl
    · rw [hside, Function.update_self]
      exact ⟨(fun he => by cases he), False.elim⟩
  · rcases List.mem_append.mp hf with hf | hf
    · exact h.wf side f hf
    · cases List.mem_singleton.mp hf
      exact ⟨.signal (Or.inr rfl) rfl, hpos, hlt⟩
  · exact absurd (hs.symm.trans ho) side.other_ne.symm

/-- An id is drawn, and the stream is there unless there are too many. -/
theorem openStream (h : n.Inv) {service : String} {websocket : Bool} {p : Party}
    (hfresh : (n.party side).opened < 2 ^ 31 - 1)
    (hp : (n.party side).openStream side service websocket = some p) :
    (n.setParty side p).Inv := by
  obtain ⟨id, hid⟩ : ∃ id, id = side.firstId + 2 * (n.party side).opened := ⟨_, rfl⟩
  have hfirst : 0 < side.firstId ∧ side.firstId ≤ 2 ∧ side.firstId % 2 = side.parity := by
    cases side <;> decide
  have hnext : (n.party side).nextId side = id := by
    rw [Party.nextId, ← hid]
    exact Nat.mod_eq_of_lt (by omega)
  have hopener : opener id = side := opener_eq (by omega)
  have habsent : n.stream side id = none := by
    by_contra hs
    have hdrawn := h.drawn id (hopener ▸ hs)
    rw [hopener] at hdrawn
    omega
  have hwire : (n.setParty side p) =
      { party := Function.update n.party side p
        wire := Function.update n.wire side (n.wire side) } := by
    rw [Function.update_eq_self]
    rfl
  rw [hwire]
  unfold Party.openStream at hp
  rw [hnext] at hp
  dsimp only at hp
  by_cases hnamed : service.utf8ByteSize = 0 ∨ 128 < service.utf8ByteSize
  · rw [if_pos hnamed] at hp
    cases hp
  · rw [if_neg hnamed] at hp
    obtain ⟨hne, hle⟩ := not_or.mp hnamed
    have hcase : p = { n.party side with opened := (n.party side).opened + 1 } ∨
        p = Party.put { n.party side with opened := (n.party side).opened + 1 } id
          (Stream.new websocket (.opening service)) := by
      unfold Party.stream at hp
      split_ifs at hp
      · exact Or.inr (Option.some_inj.mp hp).symm
      · exact Or.inl (Option.some_inj.mp hp).symm
      · exact Or.inl (Option.some_inj.mp hp).symm
    rcases hcase with rfl | rfl
    · refine h.change id (n.wire side) (fun _ _ => rfl) (fun _ _ => rfl) (fun _ _ => Iff.rfl) ?_
        (h.wf side) (Nat.le_succ _) hfresh (fun _ hs => absurd habsent hs) (h.refused side)
        (h.dispatches side) (h.queues side)
      rw [link_update (l := n.link id)]
      · exact h.linked id
      · exact (Function.update_eq_self side (n.link id).st).symm
      · exact (Function.update_eq_self side (n.link id).wire).symm
      · exact forall_update (v := { n.party side with opened := (n.party side).opened + 1 })
          (P := fun side' (p : Party) => p.refusing = some id ↔ (n.party side').refusing = some id)
          Iff.rfl (fun _ => Iff.rfl) _
    · refine h.change id (n.wire side) (fun id' hne => ?_) (fun _ _ => rfl) (fun _ _ => Iff.rfl) ?_
        (h.wf side) (Nat.le_succ _) hfresh (fun _ _ => ?_) (h.refused side) (h.dispatches side)
        (h.queues side)
      · rw [lookup_put, if_neg hne]
        rfl
      · rw [link_update (l := (n.link id).put side (Stream.new websocket (.opening service)) [])]
        · have hlinked := h.linked id
          rw [hopener] at hlinked ⊢
          exact hlinked.opening habsent websocket ⟨hne, not_lt.mp hle⟩
        · rw [lookup_put, if_pos rfl]
          rfl
        · rw [Link.put, List.append_nil]
          rfl
        · exact forall_update
            (v := Party.put { n.party side with opened := (n.party side).opened + 1 } id
              (Stream.new websocket (.opening service)))
            (P := fun side' (p : Party) => p.refusing = some id ↔
              (n.party side').refusing = some id) Iff.rfl (fun _ => Iff.rfl) _
      · show 0 < id ∧ id < side.firstId + 2 * ((n.party side).opened + 1)
        omega

/-- **A step of the net.** -/
theorem step (h : n.Inv) {a : Act} {n' : Net} (hfresh : n.Fresh a) (hn : n.step a = some n') :
    n'.Inv := by
  cases a with
  | «open» side service websocket =>
    obtain ⟨p, hp, rfl⟩ := Option.map_eq_some_iff.mp hn
    exact h.openStream hfresh hp
  | move side id m =>
    obtain ⟨s, hs, hn⟩ := Option.bind_eq_some_iff.mp hn
    obtain ⟨⟨s', frames⟩, hm, hn⟩ := Option.bind_eq_some_iff.mp hn
    cases Option.some_inj.mp hn
    exact h.move hs hm
  | deliver side =>
    unfold Net.step Net.deliver at hn
    dsimp only at hn
    split_ifs at hn with hblocked
    obtain ⟨hrefusing, hfailed⟩ := not_or.mp hblocked
    split at hn
    · cases hn
    · rename_i f rest hwire
      obtain ⟨hwf, -, hlt⟩ := h.wf side.other f (hwire ▸ List.mem_cons_self)
      rw [Frame.decode_encode f hlt hwf.length_le] at hn
      cases Option.some_inj.mp hn
      exact h.arrive hwire (Option.not_isSome_iff_eq_none.mp hrefusing)
  | refuse side =>
    obtain ⟨id, hid, rfl⟩ := Option.map_eq_some_iff.mp hn
    exact h.refuse hid

theorem delivered (h : n.Inv) : n.Delivered := by
  have hdir : ∀ side id, Dir (senderOf (n.stream side.other id)) (receiverOf (n.stream side id))
      (content (n.frames side.other id)) (credits (n.frames side id))
      (Live (n.stream side.other id)) (Alive (n.stream side id)) := by
    intro side id
    have hd := (h.linked id).dir side.other
    rw [Side.other_other] at hd
    exact hd
  refine ⟨fun side id => ?_, fun side id heof => ?_, fun side id hlive halive => ?_,
    fun side id => ?_, h.dispatches, h.queues⟩
  · have hreads := (hdir side id).reads
    simp only [List.append_assoc] at hreads
    exact (List.prefix_append _ _).trans hreads
  · cases hs : n.stream side id with
    | none =>
      rw [hs] at heof
      cases heof
    | some s =>
      rw [hs] at heof
      refine ((h.linked id).eof side s hs heof).imp_left fun ⟨hdone, hpipe⟩ => ?_
      have hd := hdir side id
      rw [hs] at hd
      have hall := (hd.done hdone).2
      rw [show (receiverOf (some s)).pipe = [] from hpipe, List.append_nil] at hall
      exact hall
  · exact ((h.linked id).dir side).window hlive halive
  · exact ((h.linked id).dir side).bound

end Inv

end Net

/-- **Streams deliver bytes exactly** while no id is drawn twice: what is read is a prefix of what
is written, and the end is seen after all of it unless the other end was dropped before. -/
theorem streams_delivered {acts : List Act} {n : Net}
    (hg : Guarded Net.step Net.Fresh Net.start acts)
    (he : exec Net.step Net.start acts = some n) : n.Delivered := by
  have hinv : n.Inv :=
    exec_invariant (fun _ _ _ hi hfresh hn => hi.step hfresh hn) Net.inv_start hg he
  exact hinv.delivered

/-- A stream is opened and accepted. -/
def connecting : List Act :=
  [.open .initiator "a" false, .move .initiator 1 .sendOpen, .deliver .acceptor,
    .move .acceptor 1 .connected, .deliver .initiator, .move .initiator 1 .opened]

/-- A byte goes over, its credit comes back, and the end is seen. -/
def sendingOne : List Act :=
  connecting ++ [Act.move .initiator 1 (.write [7]), .move .initiator 1 .take,
    .move .initiator 1 .acquire, .move .initiator 1 .send, .deliver .acceptor,
    .move .acceptor 1 .pop, .move .acceptor 1 (.push 1), .move .acceptor 1 .restore,
    .move .acceptor 1 .credit, .deliver .initiator, .move .acceptor 1 (.read 8),
    .move .initiator 1 .shutdown, .move .initiator 1 .take, .move .initiator 1 .send,
    .deliver .acceptor, .move .acceptor 1 .pop, .move .acceptor 1 (.read 8)]

theorem streams_delivered_one : ∃ n, exec Net.step Net.start sendingOne = some n ∧
    (receiverOf (n.stream .acceptor 1)).read = [7] ∧
    (receiverOf (n.stream .acceptor 1)).readEof = true ∧ n.Delivered := by
  have hg : Guarded Net.step Net.Fresh Net.start sendingOne :=
    guarded_of_checks (by decide +kernel)
  have hread : (exec Net.step Net.start sendingOne).map (fun n =>
      ((receiverOf (n.stream .acceptor 1)).read, (receiverOf (n.stream .acceptor 1)).readEof)) =
      some ([7], true) := by decide +kernel
  obtain ⟨n, he, hn⟩ := Option.map_eq_some_iff.mp hread
  exact ⟨n, he, congrArg Prod.fst hn, congrArg Prod.snd hn, streams_delivered hg he⟩

/-! ## An end that is dropped -/

/-- The accepter writes a byte, and its socket fails. -/
def failing : List Act :=
  connecting ++ [Act.move .acceptor 1 (.write [7]), .move .acceptor 1 .drop, .move .acceptor 1 .abort,
    .move .acceptor 1 .sendCancel, .deliver .initiator, .move .initiator 1 .abort,
    .move .initiator 1 .sendCancel, .move .initiator 1 (.read 8)]

/-- **The end of the stream is seen before what was written**: the opener reads nothing, and then
the end. -/
theorem dropped_early : ∃ n, exec Net.step Net.start failing = some n ∧
    (receiverOf (n.stream .initiator 1)).readEof = true ∧
    (receiverOf (n.stream .initiator 1)).read = [] ∧
    (senderOf (n.stream .acceptor 1)).written = [7] ∧ ¬ n.Exact := by
  have hread : (exec Net.step Net.start failing).map (fun n =>
      ((receiverOf (n.stream .initiator 1)).readEof, (receiverOf (n.stream .initiator 1)).read,
        (senderOf (n.stream .acceptor 1)).written)) = some (true, [], [7]) := by decide +kernel
  obtain ⟨n, he, hn⟩ := Option.map_eq_some_iff.mp hread
  obtain ⟨heof, hn⟩ := Prod.mk.inj hn
  obtain ⟨hread, hwritten⟩ := Prod.mk.inj hn
  refine ⟨n, he, heof, hread, hwritten, fun hexact => ?_⟩
  have hall := hexact.eof .initiator 1 heof
  rw [hread, show (senderOf (n.stream Side.initiator.other 1)).written = [7] from hwritten] at hall
  cases hall

end Zeron.Preview.Mux
