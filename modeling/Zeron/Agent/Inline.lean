import Zeron.Agent.Answers

/-!
# A session loop that awaits its calls inline

The loop of a session takes messages from the channel or makes a call; while it awaits the answer it
takes none (`run_session`, `steer_as_new_turn`). The reader passes everything on in order, so a
response behind more messages than the channel holds is not read.

* `Session`, `Act`, `step`: the child's output, the reader and the loop;
* `Moves`: some step brings the response closer;
* `Roomy`: a response has no more messages ahead of it than the channel holds;
* **`inline_moves`**; **`stuck_of_overfull`**: where it has more, the reader blocks for good.
-/

namespace Zeron.Agent

open Run

/-! ## The session -/

/-- A session: the output that is not read yet, and the call that the loop is in. -/
structure Session where
  rpc : Rpc
  pipe : List Line
  busy : Option ℕ

namespace Session

inductive Act where
  /-- The child writes a line. -/
  | write (line : Line)
  | read
  /-- The loop takes a message. -/
  | take
  /-- The loop makes a call. -/
  | call (i : ℕ) (method : String)
  /-- The loop's call goes on: it enters the table, is written, or returns. -/
  | enter
  | send
  | answer
  /-- Another step of the reader, or of a call of another task. -/
  | other (act : Agent.Act)
  deriving DecidableEq

def start : Session := { rpc := .start, pipe := [], busy := none }

variable (toText : Json → String) (w : Session)

/-- The steps of others: the loop keeps the receiver, and reads none of the output. -/
def Others : Agent.Act → Prop
  | .read _ | .receive | .lose => False
  | .mint i _ | .enter i | .send i | .finish i | .cancel i => w.busy ≠ some i
  | .close | .clear | .forward | .signal | .writerStops => True

instance (a : Agent.Act) : Decidable (w.Others a) :=
  match a with
  | .read _ | .receive | .lose => isFalse id
  | .mint i _ | .enter i | .send i | .finish i | .cancel i =>
    inferInstanceAs (Decidable (w.busy ≠ some i))
  | .close | .clear | .forward | .signal | .writerStops => isTrue trivial

/-- The loop goes on with its call. -/
def goOn (f : ℕ → Option Rpc) : Option Session :=
  w.busy.bind fun i => (f i).map fun rpc =>
    { w with rpc, busy := match (rpc.calls i).stage with
      | .ended _ => none
      | _ => some i }

def step : Act → Option Session
  | .write line => some { w with pipe := w.pipe ++ [line] }
  | .read =>
    match w.pipe with
    | [] => none
    | line :: pipe => (w.rpc.step toText (.read line)).map fun rpc => { w with rpc, pipe }
  | .take =>
    if w.busy = none then (w.rpc.step toText .receive).map fun rpc => { w with rpc } else none
  | .call i method =>
    if w.busy = none then
      (w.rpc.step toText (.mint i method)).map fun rpc => { w with rpc, busy := some i }
    else none
  | .enter => w.goOn w.rpc.enter
  | .send => w.goOn w.rpc.send
  | .answer => w.goOn w.rpc.finish
  | .other act =>
    if w.Others act then (w.rpc.step toText act).map fun rpc => { w with rpc } else none

/-! ## What is promised -/

/-- A line is a response to a call. -/
def Names (line : Line) (id : ℤ) : Prop := ∃ outcome, hear toText line = .response id outcome

/-- A line is passed on. -/
def forwards (line : Line) : Bool :=
  match hear toText line with
  | .forward _ => true
  | _ => false

/-- The loop awaits a response, and the child has written it. -/
def Awaits (i : ℕ) : Prop := w.busy = some i ∧ (w.rpc.calls i).stage = .awaiting ∧
  ((w.rpc.calls i).answer ≠ none ∨ ∃ line ∈ w.pipe, Names toText line (w.rpc.calls i).id)

/-- The reader reads, passes a message on or fails the calls, or the loop has its answer. -/
def Moves : Prop := (w.step toText .read).isSome ∨ (w.step toText (.other .forward)).isSome ∨
  (w.step toText (.other .clear)).isSome ∨ (w.step toText .answer).isSome

/-- The message in the reader's hands. -/
def held : ℕ :=
  match w.rpc.reader with
  | .forwarding _ => 1
  | _ => 0

/-- The messages before the next line of the output. -/
def ahead (lines : List Line) : ℕ :=
  w.rpc.channel.length + w.held + lines.countP (forwards toText)

/-- The child answers the loop's call once it is made, and then with no more messages on the way to
the loop than the channel holds. -/
def Roomy : Act → Prop
  | .write line => ∀ i, w.busy = some i → Names toText line (w.rpc.calls i).id →
    (w.rpc.calls i).stage ≠ .minted ∧ ((w.rpc.calls i).answer ≠ none ∨
      (∃ l ∈ w.pipe, Names toText l (w.rpc.calls i).id) ∨ w.ahead toText w.pipe ≤ capacity)
  | .call _ _ => ∀ line ∈ w.pipe, ¬ Names toText line (w.rpc.nextId + 1)
  | _ => True

/-! ## The invariant -/

/-- The reader is at its work. -/
def Open : Prop := w.rpc.reader = .reading ∨ ∃ incoming, w.rpc.reader = .forwarding incoming

structure Inv : Prop where
  rpc : w.rpc.Inv
  listening : w.rpc.listening = true
  busy : ∀ i, w.busy = some i → (w.rpc.calls i).stage = .minted ∨
    (w.rpc.calls i).stage = .entered ∨ (w.rpc.calls i).stage = .awaiting
  early : ∀ i, w.busy = some i → (w.rpc.calls i).stage = .minted →
    ∀ line ∈ w.pipe, ¬ Names toText line (w.rpc.calls i).id
  /-- The first response to the loop's call is not too far. -/
  room : ∀ i, w.busy = some i → (w.rpc.calls i).answer = none → w.Open →
    ∀ pre line post, w.pipe = pre ++ line :: post → Names toText line (w.rpc.calls i).id →
      (∀ l ∈ pre, ¬ Names toText l (w.rpc.calls i).id) → w.ahead toText pre ≤ capacity

theorem inv_start : start.Inv toText where
  rpc := Rpc.inv_start
  listening := rfl
  busy _ h := by cases h
  early _ h := by cases h
  room _ h := by cases h

variable {toText} {w} {w' : Session}

/-- What the others leave as it is. -/
structure Frame (w : Session) (s s' : Rpc) : Prop where
  calls : ∀ i, w.busy = some i → s'.calls i = s.calls i
  listening : s'.listening = s.listening
  reader : s'.reader = s.reader ∧ s'.channel = s.channel ∨
    (∃ incoming, s.reader = .forwarding incoming ∧ s'.reader = .reading ∧
      s'.channel.length = s.channel.length + 1) ∨
    s'.reader = .closing ∨ s'.Cleared

theorem frame_setCall {s : Rpc} {j : ℕ} {c : Call} (hne : w.busy ≠ some j) {nextId : ℤ}
    {table : ℤ → Option ℕ} : Frame w s ({ s with nextId, table }.setCall j c) := by
  refine ⟨fun i hi => Function.update_of_ne ?_ _ _, rfl, Or.inl ⟨rfl, rfl⟩⟩
  rintro rfl
  exact hne hi

theorem frame_other {s s' : Rpc} {a : Agent.Act} (hlistening : s.listening = true)
    (ho : w.Others a) (hs : s.step toText a = some s') : Frame w s s' := by
  cases a with
  | mint j method =>
    simp only [Rpc.step] at hs
    split_ifs at hs
    cases hs
    exact frame_setCall ho
  | enter j =>
    simp only [Rpc.step, Rpc.enter] at hs
    split_ifs at hs <;> cases hs <;> exact frame_setCall ho
  | send j =>
    simp only [Rpc.step, Rpc.send] at hs
    split_ifs at hs <;> cases hs <;> exact frame_setCall ho
  | finish j =>
    simp only [Rpc.step, Rpc.finish] at hs
    split at hs
    · cases hs
    · split at hs
      · cases hs
        exact frame_setCall ho
      · split_ifs at hs
        cases hs
        exact frame_setCall ho
  | cancel j =>
    simp only [Rpc.step] at hs
    split_ifs at hs
    cases hs
    exact frame_setCall ho
  | close =>
    simp only [Rpc.step] at hs
    split_ifs at hs
    cases hs
    exact ⟨fun _ _ => rfl, rfl, Or.inr (Or.inr (Or.inl rfl))⟩
  | clear =>
    simp only [Rpc.step] at hs
    split_ifs at hs
    cases hs
    exact ⟨fun _ _ => rfl, rfl, Or.inr (Or.inr (Or.inr (Or.inl rfl)))⟩
  | forward =>
    simp only [Rpc.step, Rpc.forward, hlistening] at hs
    split at hs
    · rename_i incoming hreader
      split_ifs at hs with hlost
      · exact absurd hlost (by simp)
      · cases hs
        exact ⟨fun _ _ => rfl, hlistening.symm,
          Or.inr (Or.inl ⟨incoming, hreader, rfl, by simp⟩)⟩
    · cases hs
  | signal =>
    simp only [Rpc.step, Rpc.signal, hlistening] at hs
    split at hs
    · split_ifs at hs with hlost
      · exact absurd hlost (by simp)
      · cases hs
        exact ⟨fun _ _ => rfl, hlistening.symm, Or.inr (Or.inr (Or.inr (Or.inr rfl)))⟩
    · cases hs
  | writerStops =>
    cases hs
    exact ⟨fun _ _ => rfl, rfl, Or.inl ⟨rfl, rfl⟩⟩
  | read line => exact absurd ho id
  | receive => exact absurd ho id
  | lose => exact absurd ho id

theorem Inv.other (h : w.Inv toText) {rpc : Rpc} (hrpc : rpc.Inv) (hf : Frame w w.rpc rpc) :
    ({ w with rpc } : Session).Inv toText where
  rpc := hrpc
  listening := hf.listening.trans h.listening
  busy i hi := by
    simp only [hf.calls i hi]
    exact h.busy i hi
  early i hi hst := by
    simp only [hf.calls i hi] at hst ⊢
    exact h.early i hi hst
  room i hi hnone hopen pre line post hpipe hnames hpre := by
    simp only [hf.calls i hi] at hnone hnames hpre
    rcases hf.reader with ⟨hreader, hchannel⟩ | ⟨incoming, hreader, hreader', hchannel⟩ | hclosed
    · have hopen' : w.Open := by simpa only [Open, hreader] using hopen
      have hroom := h.room i hi hnone hopen' pre line post hpipe hnames hpre
      simpa only [ahead, held, hreader, hchannel] using hroom
    · -- the message in the reader's hands is in the channel now
      have hroom := h.room i hi hnone (Or.inr ⟨incoming, hreader⟩) pre line post hpipe hnames hpre
      simp only [ahead, held, hreader, hreader', hchannel] at hroom ⊢
      omega
    · rcases hopen with hopen | ⟨_, hopen⟩ <;> rcases hclosed with hc | hc | hc <;>
        rw [hopen] at hc <;> cases hc

theorem Inv.goOn (h : w.Inv toText) {f : ℕ → Option Rpc} {i : ℕ} (hbusy : w.busy = some i)
    {c : Call} {table : ℤ → Option ℕ} (hf : f i = some ({ w.rpc with table }.setCall i c))
    (hrpc : ({ w.rpc with table }.setCall i c).Inv) (hid : c.id = (w.rpc.calls i).id)
    (hanswer : c.answer = (w.rpc.calls i).answer)
    (hstage : c.stage = .entered ∨ c.stage = .awaiting ∨ ∃ how, c.stage = .ended how)
    (hs : w.goOn f = some w') : w'.Inv toText := by
  have hself : ({ w.rpc with table }.setCall i c).calls i = c := Function.update_self _ _ _
  simp only [Session.goOn, hbusy, Option.bind_some, hf, Option.map_some, hself,
    Option.some_inj] at hs
  subst hs
  rcases hstage with hst | hst | ⟨how, hst⟩
  · simp only [hst]
    refine ⟨hrpc, h.listening, fun j hj => ?_, fun j hj hm => ?_, fun j hj hnone hopen => ?_⟩ <;>
      cases hj <;> simp only [hself] at *
    · exact Or.inr (Or.inl hst)
    · rw [hst] at hm
      cases hm
    · rw [hid]
      exact h.room i hbusy (hanswer.symm.trans hnone) hopen
  · simp only [hst]
    refine ⟨hrpc, h.listening, fun j hj => ?_, fun j hj hm => ?_, fun j hj hnone hopen => ?_⟩ <;>
      cases hj <;> simp only [hself] at *
    · exact Or.inr (Or.inr hst)
    · rw [hst] at hm
      cases hm
    · rw [hid]
      exact h.room i hbusy (hanswer.symm.trans hnone) hopen
  · simp only [hst]
    exact ⟨hrpc, h.listening, fun _ hj => (by cases hj), fun _ hj => (by cases hj),
      fun _ hj => (by cases hj)⟩

/-! ## Reading -/

section Resolve

variable {s : Rpc} {id : ℤ} {outcome : Outcome}

theorem resolve_frame (s : Rpc) (id : ℤ) (outcome : Outcome) :
    ((s.note id outcome).resolve id outcome).reader = s.reader ∧
      ((s.note id outcome).resolve id outcome).channel = s.channel ∧
        ((s.note id outcome).resolve id outcome).listening = s.listening := by
  unfold Rpc.resolve
  split <;> exact ⟨rfl, rfl, rfl⟩

theorem resolve_calls_of_ne (h : s.Inv) {i : ℕ} (hid : (s.calls i).id ≠ id) :
    ((s.note id outcome).resolve id outcome).calls i = s.calls i := by
  have hnote : (s.note id outcome).calls i = s.calls i := by
    rw [Rpc.note_calls, if_neg fun hn => hid hn.2]
  unfold Rpc.resolve
  split
  · exact hnote
  · rename_i j hj
    have hne : i ≠ j := by
      rintro rfl
      exact hid (h.table id i hj).1
    exact (Function.update_of_ne hne _ _).trans hnote

theorem answer_resolve (h : s.Inv) (hreader : s.reader = .reading) {i : ℕ}
    (hstage : (s.calls i).stage = .entered ∨ (s.calls i).stage = .awaiting) :
    (((s.note (s.calls i).id outcome).resolve (s.calls i).id outcome).calls i).answer ≠ none := by
  have hnote : ((s.note (s.calls i).id outcome).calls i).answer = (s.calls i).answer := by
    rw [Rpc.note_calls]
    split_ifs <;> rfl
  obtain ⟨-, hin | hsome | hc⟩ := h.waiting i hstage
  · have htable : (s.note (s.calls i).id outcome).table (s.calls i).id = some i := hin
    rw [Rpc.resolve, htable]
    simp [Rpc.setCall]
  · unfold Rpc.resolve
    split
    · rw [hnote]
      exact hsome
    · rename_i j hj
      simp only [Rpc.setCall, Function.update_apply]
      split_ifs
      · simp
      · rw [hnote]
        exact hsome
  · exact absurd hc (Rpc.not_cleared_of_reading hreader)

theorem stage_resolve (i : ℕ) :
    (((s.note id outcome).resolve id outcome).calls i).stage = (s.calls i).stage ∧
      (((s.note id outcome).resolve id outcome).calls i).id = (s.calls i).id := by
  have hnote : ((s.note id outcome).calls i).stage = (s.calls i).stage ∧
      ((s.note id outcome).calls i).id = (s.calls i).id := by
    rw [Rpc.note_calls]
    split_ifs <;> exact ⟨rfl, rfl⟩
  unfold Rpc.resolve
  split
  · exact hnote
  · rename_i j hj
    simp only [Rpc.setCall, Function.update_apply]
    split_ifs with hij
    · subst hij
      exact hnote
    · exact hnote

end Resolve

theorem Inv.room_cons (h : w.Inv toText) {line : Line} {pipe : List Line}
    (hpipe : w.pipe = line :: pipe) {i : ℕ} (hi : w.busy = some i)
    (hnone : (w.rpc.calls i).answer = none) (hopen : w.Open)
    (hnot : ¬ Names toText line (w.rpc.calls i).id) {pre : List Line} {l : Line} {post : List Line}
    (hsplit : pipe = pre ++ l :: post) (hl : Names toText l (w.rpc.calls i).id)
    (hpre : ∀ l ∈ pre, ¬ Names toText l (w.rpc.calls i).id) :
    w.ahead toText (line :: pre) ≤ capacity := by
  refine h.room i hi hnone hopen (line :: pre) l post ?_ hl fun l' hl' => ?_
  · rw [hpipe, hsplit]
    rfl
  · rcases List.mem_cons.mp hl' with rfl | hl'
    · exact hnot
    · exact hpre l' hl'

/-- **Reading a line keeps the way of the response.** -/
theorem Inv.read (h : w.Inv toText) (hs : w.step toText .read = some w') : w'.Inv toText := by
  simp only [step, Rpc.step] at hs
  split at hs
  · cases hs
  · rename_i line pipe hpipe
    rw [Option.map_eq_some_iff] at hs
    obtain ⟨rpc, hread, rfl⟩ := hs
    have hrpc : rpc.Inv := Rpc.inv_step (a := .read line) h.rpc trivial hread
    have hearly : ∀ i, w.busy = some i → (w.rpc.calls i).stage = .minted →
        ∀ l ∈ pipe, ¬ Names toText l (w.rpc.calls i).id := fun i hi hst l hl =>
      h.early i hi hst l (by rw [hpipe]; exact List.mem_cons_of_mem _ hl)
    simp only [Rpc.read] at hread
    split at hread
    · -- the line is noise
      rename_i hreader hhear
      cases hread
      refine ⟨hrpc, h.listening, h.busy, hearly,
        fun i hi hnone hopen pre l post hsplit hl hpre => ?_⟩
      have hnot : ¬ Names toText line (w.rpc.calls i).id := by
        rintro ⟨outcome, hn⟩
        rw [hhear] at hn
        cases hn
      have hroom := h.room_cons hpipe hi hnone hopen hnot hsplit hl hpre
      have hskip : forwards toText line = false := by simp only [forwards, hhear]
      simpa [ahead, held, hskip] using hroom
    · rename_i id outcome hreader hhear
      cases hread
      obtain ⟨hreader', hchannel, hlistening⟩ := resolve_frame w.rpc id outcome
      refine ⟨hrpc, hlistening.trans h.listening, fun i hi => ?_, fun i hi hst => ?_,
        fun i hi hnone hopen pre l post hsplit hl hpre => ?_⟩
      · rw [(stage_resolve i).1]
        exact h.busy i hi
      · rw [(stage_resolve i).1] at hst
        rw [(stage_resolve i).2]
        exact hearly i hi hst
      · by_cases hid : (w.rpc.calls i).id = id
        · -- it was the response
          subst hid
          have hnames : Names toText line (w.rpc.calls i).id := ⟨outcome, hhear⟩
          have hstage : (w.rpc.calls i).stage = .entered ∨ (w.rpc.calls i).stage = .awaiting := by
            rcases h.busy i hi with hst | hst
            · exact absurd hnames (h.early i hi hst line (by rw [hpipe]; exact List.mem_cons_self))
            · exact hst
          exact absurd hnone (answer_resolve h.rpc hreader hstage)
        · rw [resolve_calls_of_ne h.rpc hid] at hnone hl hpre
          have hnot : ¬ Names toText line (w.rpc.calls i).id := by
            rintro ⟨outcome', hn⟩
            rw [hhear, Heard.response.injEq] at hn
            exact hid hn.1.symm
          have hroom := h.room_cons hpipe hi hnone (Or.inl hreader) hnot hsplit hl hpre
          have hskip : forwards toText line = false := by simp only [forwards, hhear]
          simpa [ahead, held, hskip, hreader', hchannel] using hroom
    · rename_i incoming hreader hhear
      cases hread
      refine ⟨hrpc, h.listening, h.busy, hearly,
        fun i hi hnone hopen pre l post hsplit hl hpre => ?_⟩
      have hnot : ¬ Names toText line (w.rpc.calls i).id := by
        rintro ⟨outcome, hn⟩
        rw [hhear] at hn
        cases hn
      have hroom := h.room_cons hpipe hi hnone (Or.inl hreader) hnot hsplit hl hpre
      have hone : forwards toText line = true := by simp only [forwards, hhear]
      -- from the output into the reader's hands
      simp only [ahead, held, hreader, List.countP_cons, hone] at hroom ⊢
      simp only [if_true] at hroom
      omega
    · cases hread

/-! ## Runs -/

/-- **One step.** -/
theorem inv_step {a : Act} (h : w.Inv toText) (hg : w.Roomy toText a)
    (hs : w.step toText a = some w') : w'.Inv toText := by
  cases a with
  | write line =>
    cases hs
    refine ⟨h.rpc, h.listening, h.busy, fun i hi hst l hl => ?_,
      fun i hi hnone hopen pre l post hsplit hl hpre => ?_⟩
    · rcases List.mem_append.mp hl with hl | hl
      · exact h.early i hi hst l hl
      · rw [List.mem_singleton.mp hl]
        exact fun hn => (hg i hi hn).1 hst
    · rcases List.eq_nil_or_concat post with rfl | ⟨post', last, rfl⟩
      · -- the new line is the first response
        obtain ⟨rfl, hlast⟩ := List.append_inj' hsplit (rfl : [line].length = _)
        cases hlast
        rcases (hg i hi hl).2 with hsome | ⟨l', hl', hn⟩ | hroom
        · exact absurd hnone hsome
        · exact absurd hn (hpre l' hl')
        · exact hroom
      · rw [List.concat_eq_append, ← List.cons_append, ← List.append_assoc] at hsplit
        obtain ⟨hpipe, -⟩ := List.append_inj' hsplit rfl
        exact h.room i hi hnone hopen pre l post' hpipe hl hpre
  | read => exact h.read hs
  | take =>
    simp only [step] at hs
    split_ifs at hs with hidle
    rw [Option.map_eq_some_iff] at hs
    obtain ⟨rpc, hrpc, rfl⟩ := hs
    have hlistening : rpc.listening = w.rpc.listening := by
      simp only [Rpc.step] at hrpc
      split at hrpc
      · cases hrpc
        rfl
      · cases hrpc
    exact {
      rpc := Rpc.inv_step (a := .receive) h.rpc trivial hrpc
      listening := hlistening.trans h.listening
      busy := fun i hi => absurd hi (by simp [hidle])
      early := fun i hi => absurd hi (by simp [hidle])
      room := fun i hi => absurd hi (by simp [hidle]) }
  | call i method =>
    simp only [step] at hs
    split_ifs at hs with hidle
    rw [Option.map_eq_some_iff] at hs
    obtain ⟨rpc, hrpc, rfl⟩ := hs
    have hinv := Rpc.inv_step (a := .mint i method) h.rpc trivial hrpc
    simp only [Rpc.step] at hrpc
    split_ifs at hrpc
    cases hrpc
    have hself : ∀ c, ({ w.rpc with nextId := w.rpc.nextId + 1 }.setCall i c).calls i = c :=
      fun c => Function.update_self _ _ _
    refine ⟨hinv, h.listening, fun j hj => ?_, fun j hj _ => ?_,
      fun j hj _ _ pre l post hsplit hl => ?_⟩ <;> cases hj
    · rw [hself]
      exact Or.inl rfl
    · rw [hself]
      exact hg
    · rw [hself] at hl
      exact absurd hl (hg l (by
        change w.pipe = _ at hsplit
        rw [hsplit]
        exact List.mem_append_right _ List.mem_cons_self))
  | enter =>
    have hs' := hs
    simp only [step, Session.goOn, Option.bind_eq_some_iff] at hs
    obtain ⟨i, hi, hs⟩ := hs
    rw [Option.map_eq_some_iff] at hs
    obtain ⟨rpc, hf, -⟩ := hs
    have hstep : w.rpc.step toText (.enter i) = some rpc := hf
    have hinv := Rpc.inv_step (a := .enter i) h.rpc trivial hstep
    have hf' := hf
    simp only [Rpc.enter] at hf'
    split_ifs at hf'
    · cases hf'
      exact h.goOn hi hf hinv rfl rfl (Or.inr (Or.inr ⟨_, rfl⟩)) hs'
    · cases hf'
      exact h.goOn hi hf hinv rfl rfl (Or.inl rfl) hs'
  | send =>
    have hs' := hs
    simp only [step, Session.goOn, Option.bind_eq_some_iff] at hs
    obtain ⟨i, hi, hs⟩ := hs
    rw [Option.map_eq_some_iff] at hs
    obtain ⟨rpc, hf, -⟩ := hs
    have hstep : w.rpc.step toText (.send i) = some rpc := hf
    have hinv := Rpc.inv_step (a := .send i) h.rpc trivial hstep
    have hf' := hf
    simp only [Rpc.send] at hf'
    split_ifs at hf'
    · cases hf'
      exact h.goOn hi hf hinv rfl rfl (Or.inr (Or.inl rfl)) hs'
    · cases hf'
      exact h.goOn hi hf hinv rfl rfl (Or.inr (Or.inr ⟨_, rfl⟩)) hs'
  | answer =>
    have hs' := hs
    simp only [step, Session.goOn, Option.bind_eq_some_iff] at hs
    obtain ⟨i, hi, hs⟩ := hs
    rw [Option.map_eq_some_iff] at hs
    obtain ⟨rpc, hf, -⟩ := hs
    have hstep : w.rpc.step toText (.finish i) = some rpc := hf
    have hinv := Rpc.inv_step (a := .finish i) h.rpc trivial hstep
    have hf' := hf
    simp only [Rpc.finish] at hf'
    split at hf'
    · cases hf'
    · split at hf'
      · cases hf'
        exact h.goOn hi hf hinv rfl rfl (Or.inr (Or.inr ⟨_, rfl⟩)) hs'
      · split_ifs at hf'
        cases hf'
        exact h.goOn hi hf hinv rfl rfl (Or.inr (Or.inr ⟨_, rfl⟩)) hs'
  | other act =>
    simp only [step] at hs
    split_ifs at hs with ho
    rw [Option.map_eq_some_iff] at hs
    obtain ⟨rpc, hrpc, rfl⟩ := hs
    have hg' : w.rpc.Received act := by
      cases act <;> first | trivial | exact h.listening
    exact h.other (Rpc.inv_step h.rpc hg' hrpc) (frame_other h.listening ho hrpc)

theorem exists_first_response {id : ℤ} {lines : List Line}
    (h : ∃ line ∈ lines, Names toText line id) : ∃ pre line post, lines = pre ++ line :: post ∧
      Names toText line id ∧ ∀ l ∈ pre, ¬ Names toText l id := by
  classical
  obtain ⟨line, hline, hn⟩ := h
  have hsome : (lines.find? fun l => decide (Names toText l id)).isSome :=
    List.find?_isSome.mpr ⟨line, hline, by simpa using hn⟩
  obtain ⟨first, hfirst⟩ := Option.isSome_iff_exists.mp hsome
  obtain ⟨hp, pre, post, rfl, hpre⟩ := List.find?_eq_some_iff_append.mp hfirst
  exact ⟨pre, first, post, rfl, by simpa using hp, by simpa using hpre⟩

/-- **While the response is on its way, something brings it closer.** -/
theorem Inv.moves (h : w.Inv toText) {i : ℕ} (ha : w.Awaits toText i) : w.Moves toText := by
  obtain ⟨hi, hstage, hwritten⟩ := ha
  have hanswer : (w.rpc.finish i).isSome → (w.step toText .answer).isSome := by
    intro hsome
    simp only [step, Session.goOn, hi, Option.bind_some, Option.isSome_map, hsome]
  have hreturns := h.rpc.returns i hstage
  have hright := (h.rpc.waiting i (Or.inr hstage)).1
  by_cases hnone : (w.rpc.calls i).answer = none
  · have hline := hwritten.resolve_left (not_not_intro hnone)
    cases hreader : w.rpc.reader with
    | reading =>
      refine Or.inl ?_
      obtain ⟨line, hline, -⟩ := hline
      cases hpipe : w.pipe with
      | nil => rw [hpipe] at hline; cases hline
      | cons l pipe =>
        simp only [step, hpipe, Rpc.step, Rpc.read, hreader, Option.isSome_map]
        cases hear toText l <;> rfl
    | forwarding incoming =>
      refine Or.inr (Or.inl ?_)
      -- the first response has room for all that is before it
      obtain ⟨pre, line, post, hpipe, hl, hpre⟩ := exists_first_response hline
      have hroom := h.room i hi hnone (Or.inr ⟨incoming, hreader⟩) pre line post hpipe hl hpre
      have hlt : w.rpc.channel.length < capacity := by
        simp only [ahead, held, hreader] at hroom
        omega
      simp [step, Others, Rpc.step, Rpc.forward, hreader, h.listening, hlt]
    | closing =>
      refine Or.inr (Or.inr (Or.inl ?_))
      simp [step, Others, Rpc.step, hreader]
    | signalling =>
      have hgone := h.rpc.cleared (Or.inl hreader) (w.rpc.calls i).id
      exact Or.inr (Or.inr (Or.inr (hanswer (by simp [Rpc.finish, hstage, hnone, hgone]))))
    | stopped => exact Or.inr (Or.inr (Or.inr (hanswer (hreturns (Or.inr hreader)))))
  · refine Or.inr (Or.inr (Or.inr (hanswer (hreturns (Or.inl fun hnil => hnone ?_)))))
    rw [hright, hnil]
    rfl

/-- **The loop and its reader do not block each other**, in every run in which a response has no
more messages ahead of it than the channel holds. -/
theorem inline_moves (toText : Json → String) {acts : List Act}
    (hg : Guarded (step toText) (Roomy toText) start acts) {w : Session}
    (he : exec (step toText) start acts = some w) {i : ℕ} (ha : w.Awaits toText i) :
    w.Moves toText :=
  (exec_invariant (fun _ _ _ h hg hs => inv_step h hg hs) (inv_start toText) hg he).moves ha

/-! ## A response behind a burst -/

/-- The loop waits for a response that is behind the message the reader cannot pass on. -/
def Stuck (toText : Json → String) (w : Session) : Prop :=
  (∃ i, w.Awaits toText i) ∧ ¬ w.Moves toText

/-- The loop's call is in the table. -/
structure Waits (toText : Json → String) (w : Session) (i : ℕ) : Prop where
  inv : w.rpc.Inv
  busy : w.busy = some i
  stage : (w.rpc.calls i).stage = .awaiting
  answer : (w.rpc.calls i).answer = none
  table : w.rpc.table (w.rpc.calls i).id = some i
  listening : w.rpc.listening = true
  written : ∃ line ∈ w.pipe, Names toText line (w.rpc.calls i).id

theorem Waits.stuck {i : ℕ} (h : w.Waits toText i) {incoming : Incoming}
    (hreader : w.rpc.reader = .forwarding incoming) (hfull : capacity ≤ w.rpc.channel.length) :
    w.Stuck toText := by
  refine ⟨⟨i, h.busy, h.stage, Or.inr h.written⟩, ?_⟩
  rintro (hm | hm | hm | hm)
  · cases hpipe : w.pipe with
    | nil => simp [step, hpipe] at hm
    | cons l pipe => simp [step, hpipe, Rpc.step, Rpc.read, hreader] at hm
  · simp [step, Others, Rpc.step, Rpc.forward, hreader, h.listening, not_lt.mpr hfull] at hm
  · simp [step, Others, Rpc.step, hreader] at hm
  · simp [step, Session.goOn, h.busy, Rpc.finish, h.stage, h.answer, h.table] at hm

/-- The reader takes a line that is not the response. -/
theorem Waits.read {i : ℕ} (h : w.Waits toText i) (hreader : w.rpc.reader = .reading) {line : Line}
    {pipe : List Line} (hpipe : w.pipe = line :: pipe)
    (hnot : ¬ Names toText line (w.rpc.calls i).id) :
    ∃ w', w.step toText .read = some w' ∧ w'.Waits toText i ∧ w'.pipe = pipe ∧
      w'.rpc.calls i = w.rpc.calls i ∧ w'.rpc.channel = w.rpc.channel ∧
      ((forwards toText line = true ∧ ∃ incoming, w'.rpc.reader = .forwarding incoming) ∨
        forwards toText line = false ∧ w'.rpc.reader = .reading) := by
  have hwritten : ∃ l ∈ pipe, Names toText l (w.rpc.calls i).id := by
    obtain ⟨l, hl, hn⟩ := h.written
    rw [hpipe] at hl
    rcases List.mem_cons.mp hl with rfl | hl
    · exact absurd hn hnot
    · exact ⟨l, hl, hn⟩
  have hinv : ∀ rpc, w.rpc.read toText line = some rpc → rpc.Inv := fun rpc hrpc =>
    Rpc.inv_step (a := .read line) h.inv trivial hrpc
  simp only [step, hpipe, Rpc.step]
  cases hhear : hear toText line with
  | skip =>
    have hread : w.rpc.read toText line = some w.rpc := by simp only [Rpc.read, hreader, hhear]
    rw [hread]
    exact ⟨_, rfl, ⟨h.inv, h.busy, h.stage, h.answer, h.table, h.listening, hwritten⟩, rfl, rfl,
      rfl, Or.inr ⟨by simp only [forwards, hhear], hreader⟩⟩
  | response id outcome =>
    have hread : w.rpc.read toText line = some ((w.rpc.note id outcome).resolve id outcome) := by
      simp only [Rpc.read, hreader, hhear]
    have hid : (w.rpc.calls i).id ≠ id := by
      rintro rfl
      exact hnot ⟨outcome, hhear⟩
    have hcalls : ((w.rpc.note id outcome).resolve id outcome).calls i = w.rpc.calls i :=
      resolve_calls_of_ne h.inv hid
    obtain ⟨hreader', hchannel, hlistening⟩ :=
      resolve_frame w.rpc id outcome
    have htable : ((w.rpc.note id outcome).resolve id outcome).table (w.rpc.calls i).id =
        some i := by
      unfold Rpc.resolve
      split
      · exact h.table
      · exact (Function.update_of_ne hid _ _).trans h.table
    have hsame := hinv _ hread
    rw [hread]
    refine ⟨_, rfl, ⟨hsame, h.busy, ?_, ?_, ?_, hlistening.trans h.listening, ?_⟩, rfl, hcalls,
      hchannel, Or.inr ⟨by simp only [forwards, hhear], hreader'.trans hreader⟩⟩
    · rw [hcalls]
      exact h.stage
    · rw [hcalls]
      exact h.answer
    · rw [hcalls]
      exact htable
    · rw [hcalls]
      exact hwritten
  | forward incoming =>
    have hread : w.rpc.read toText line = some { w.rpc with reader := .forwarding incoming } := by
      simp only [Rpc.read, hreader, hhear]
    have hsame := hinv _ hread
    rw [hread]
    exact ⟨_, rfl, ⟨hsame, h.busy, h.stage, h.answer, h.table, h.listening, hwritten⟩, rfl, rfl,
      rfl, Or.inl ⟨by simp only [forwards, hhear], incoming, rfl⟩⟩

theorem Waits.forward {i : ℕ} (h : w.Waits toText i) {incoming : Incoming}
    (hreader : w.rpc.reader = .forwarding incoming) (hroom : w.rpc.channel.length < capacity) :
    ∃ w', w.step toText (.other .forward) = some w' ∧ w'.Waits toText i ∧ w'.pipe = w.pipe ∧
      w'.rpc.calls i = w.rpc.calls i ∧
      w'.rpc.channel.length = w.rpc.channel.length + 1 ∧ w'.rpc.reader = .reading := by
  have hforward : w.rpc.forward =
      some { w.rpc with reader := .reading, channel := w.rpc.channel ++ [incoming] } := by
    simp [Rpc.forward, hreader, h.listening, hroom]
  have hstep : w.rpc.step toText .forward = some _ := hforward
  have hinv := Rpc.inv_step (a := .forward) h.inv h.listening hstep
  simp only [step, Others, Rpc.step, hforward, if_true, Option.map_some]
  exact ⟨_, rfl, ⟨hinv, h.busy, h.stage, h.answer, h.table, h.listening, h.written⟩, rfl, rfl,
    by simp, rfl⟩

/-- **Where a response has more messages ahead of it than the channel holds, the reader gets to
where it blocks for good**, and by itself. -/
theorem stuck_of_overfull {i : ℕ} {pre : List Line} {line : Line} {post : List Line}
    (h : w.Waits toText i) (hreader : w.rpc.reader = .reading)
    (hfull : w.rpc.channel.length ≤ capacity) (hpipe : w.pipe = pre ++ line :: post)
    (hpre : ∀ l ∈ pre, ¬ Names toText l (w.rpc.calls i).id)
    (hover : capacity < w.ahead toText pre) :
    ∃ acts w', exec (step toText) w acts = some w' ∧ w'.Stuck toText := by
  induction pre generalizing w with
  | nil =>
    simp only [ahead, held, hreader, List.countP_nil] at hover
    omega
  | cons l pre ih =>
    obtain ⟨w₁, hread, h₁, hpipe₁, hcalls, hchannel, hcase⟩ :=
      h.read hreader hpipe (hpre l List.mem_cons_self)
    have hpre₁ : ∀ l ∈ pre, ¬ Names toText l (w₁.rpc.calls i).id := by
      rw [hcalls]
      exact fun l' hl' => hpre l' (List.mem_cons_of_mem _ hl')
    rcases hcase with ⟨hone, incoming, hreader₁⟩ | ⟨hskip, hreader₁⟩
    · by_cases hroom : w₁.rpc.channel.length < capacity
      · obtain ⟨w₂, hforward, h₂, hpipe₂, hcalls₂, hchannel₂, hreader₂⟩ := h₁.forward hreader₁ hroom
        have hover₂ : capacity < w₂.ahead toText pre := by
          simp only [ahead, held, hreader, List.countP_cons, hone, if_true] at hover
          simp only [ahead, held, hreader₂, hchannel₂, hchannel]
          omega
        obtain ⟨acts, w', hrun, hstuck⟩ := ih h₂ hreader₂ (by omega) (hpipe₂.trans hpipe₁)
          (by rw [hcalls₂]; exact hpre₁) hover₂
        refine ⟨.read :: .other .forward :: acts, w', ?_, hstuck⟩
        simp only [exec, hread, hforward, Option.bind_some, hrun]
      · refine ⟨[.read], w₁, ?_, h₁.stuck hreader₁ (not_lt.mp hroom)⟩
        simp only [exec, hread, Option.bind_some]
    · have hover₁ : capacity < w₁.ahead toText pre := by
        simp only [ahead, held, hreader, List.countP_cons, hskip] at hover
        simp only [ahead, held, hreader₁, hchannel]
        simpa using hover
      obtain ⟨acts, w', hrun, hstuck⟩ := ih h₁ hreader₁ (by rw [hchannel]; exact hfull) hpipe₁ hpre₁
        hover₁
      refine ⟨.read :: acts, w', ?_, hstuck⟩
      simp only [exec, hread, Option.bind_some, hrun]

/-- More notifications than the channel holds. -/
def burst : List Line := List.replicate (capacity + 1) Rpc.started

theorem exec_burst (n : ℕ) (w : Session) :
    exec (step toText) w (List.replicate n (.write Rpc.started)) =
      some { w with pipe := w.pipe ++ List.replicate n Rpc.started } := by
  induction n generalizing w with
  | zero => simp
  | succ n ih =>
    rw [List.replicate_succ, exec, step, Option.bind_some, ih]
    simp [List.replicate_succ]

/-- The agent sends a burst, the loop steers instead of reading, and the agent answers. -/
def steered : List Act :=
  List.replicate (capacity + 1) (.write Rpc.started) ++
    [Act.call 0 "turn/steer", .enter, .send, .write (Rpc.reply (.int 1) "ok")]

/-- **The loop waits for a response that its own unread messages hold back.** -/
theorem steer_deadlocks : ∃ acts w, exec (step fun _ => "") start (steered ++ acts) = some w ∧
    w.Stuck fun _ => "" := by
  obtain ⟨rpc, hrpc⟩ : ∃ rpc, exec (Rpc.step fun _ => "") .start
      [.mint 0 "turn/steer", .enter 0, .send 0] = some rpc := ⟨_, rfl⟩
  have hinv : rpc.Inv := exec_invariant (fun _ _ _ h hg hs => Rpc.inv_step h hg hs) Rpc.inv_start
    (guarded_of_checks (by decide)) hrpc
  have hrun : exec (step fun _ => "") start steered = some
      { rpc, pipe := burst ++ [Rpc.reply (.int 1) "ok"], busy := some 0 } := by
    cases hrpc
    rw [steered, exec_append, exec_burst]
    rfl
  obtain ⟨hid, hstage, hnone, htable⟩ : (rpc.calls 0).id = 1 ∧ (rpc.calls 0).stage = .awaiting ∧
      (rpc.calls 0).answer = none ∧ rpc.table 1 = some 0 := by
    cases hrpc
    exact ⟨rfl, rfl, rfl, rfl⟩
  obtain ⟨hreader, hchannel, hlistening⟩ : rpc.reader = .reading ∧ rpc.channel = [] ∧
      rpc.listening = true := by
    cases hrpc
    exact ⟨rfl, rfl, rfl⟩
  have hnames : Names (fun _ => "") (Rpc.reply (.int 1) "ok") (rpc.calls 0).id := by
    rw [hid]
    exact ⟨.ok (.str "ok"), rfl⟩
  have hwaits : Waits (fun _ => "")
      { rpc, pipe := burst ++ [Rpc.reply (.int 1) "ok"], busy := some 0 } 0 :=
    ⟨hinv, rfl, hstage, hnone, by rw [hid]; exact htable, hlistening, _,
      List.mem_append_right _ List.mem_cons_self, hnames⟩
  have hburst : ∀ l ∈ burst, l = Rpc.started := fun l hl => List.eq_of_mem_replicate hl
  obtain ⟨acts, w, hacts, hstuck⟩ := stuck_of_overfull hwaits hreader
    (by simp [hchannel]) rfl
    (fun l hl => by
      rw [hburst l hl]
      rintro ⟨_, hn⟩
      cases hn)
    (by
      have hcount : burst.countP (forwards fun _ => "") = capacity + 1 := by
        rw [burst, List.countP_replicate]
        rfl
      simp only [ahead, hcount]
      omega)
  refine ⟨acts, w, ?_, hstuck⟩
  rw [exec_append, hrun]
  exact hacts

/-- A message is on its way before the answer: the loop has its answer first. -/
def answered : List Act :=
  [.write Rpc.started, .call 0 "turn/steer", .enter, .send, .write (Rpc.reply (.int 1) "ok"), .read]

theorem inline_moves_answered : ∃ w, exec (step fun _ => "") start answered = some w ∧
    w.Awaits (fun _ => "") 0 ∧ w.Moves fun _ => "" := by
  have hg : Guarded (step fun _ => "") (Roomy fun _ => "") start answered := by
    refine guarded_cons (fun _ hi => by cases hi) fun _ h => ?_; cases h
    refine guarded_cons (fun l hl => ?_) fun _ h => ?_
    · rw [List.mem_singleton.mp hl]
      rintro ⟨_, hn⟩
      cases hn
    cases h
    refine guarded_cons trivial fun _ h => ?_; cases h
    refine guarded_cons trivial fun _ h => ?_; cases h
    refine guarded_cons (fun i hi _ => ?_) fun _ h => ?_
    · cases hi
      exact ⟨by decide, Or.inr (Or.inr (by decide))⟩
    cases h
    exact guarded_cons trivial fun w _ => guarded_nil w
  have ha : ∀ w, exec (step fun _ => "") start answered = some w → w.Awaits (fun _ => "") 0 := by
    intro w hw
    cases hw
    exact ⟨rfl, rfl, Or.inr ⟨_, List.mem_cons_self, .ok (.str "ok"), rfl⟩⟩
  exact ⟨_, rfl, ha _ rfl, inline_moves _ hg rfl (ha _ rfl)⟩

end Session

end Zeron.Agent
