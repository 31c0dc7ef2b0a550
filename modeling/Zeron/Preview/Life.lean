import Zeron.Preview.Window

/-!
# The life of a stream

How the two ends of a stream come and go: OPEN, READY, CANCEL, and who drops it
(`preview/src/mux.rs`).

* `Control`: handle, cancellation and answer of one end; `signals`: the frames about them;
* **`Life`**: what holds of the end that opened the stream and of the one that accepts it; one lemma
  for each step that changes a control or a signal.
-/

namespace Zeron.Preview.Mux

structure Control where
  handle : Handle
  cancel : Bool
  ready : Option Bool

def Stream.control (s : Stream) : Control where
  handle := s.handle
  cancel := s.cancel
  ready := s.ready

namespace Control

variable (e : Control)

def Opening : Prop := ∃ service, e.handle = .opening service

def Torn : Prop := e.handle = .dropped true

end Control

/-! ## Frames -/

namespace Frame

variable (f : Frame)

def isOpen : Prop := f.kind = OPEN ∨ f.kind = WS_OPEN

def toContent : List Frame := if f.isData ∨ f.isEnd then [f] else []

def toCredits : ℕ := if f.kind = CREDIT then fromBeBytes f.data else 0

def toSignals : List Frame := if f.isData ∨ f.isEnd ∨ f.kind = CREDIT then [] else [f]

end Frame

def content (frames : List Frame) : List Frame := frames.flatMap Frame.toContent

def credits (frames : List Frame) : ℕ := (frames.map Frame.toCredits).sum

def signals (frames : List Frame) : List Frame := frames.flatMap Frame.toSignals

section Simp

variable (f : Frame) (frames frames' : List Frame)

@[simp] theorem content_nil : content [] = [] := rfl

@[simp] theorem content_cons : content (f :: frames) = f.toContent ++ content frames := rfl

@[simp] theorem content_append : content (frames ++ frames') = content frames ++ content frames' :=
  List.flatMap_append

@[simp] theorem credits_nil : credits [] = 0 := rfl

@[simp] theorem credits_cons : credits (f :: frames) = f.toCredits + credits frames := by
  simp [credits]

@[simp] theorem credits_append :
    credits (frames ++ frames') = credits frames + credits frames' := by
  simp [credits]

@[simp] theorem signals_nil : signals [] = [] := rfl

@[simp] theorem signals_cons : signals (f :: frames) = f.toSignals ++ signals frames := rfl

@[simp] theorem signals_append : signals (frames ++ frames') = signals frames ++ signals frames' :=
  List.flatMap_append

end Simp

/-! ## The two ends -/

/-- One of the ends was dropped before both ways were at their end. -/
def Torn (a c : Option Control) : Prop := (∃ e ∈ a, e.Torn) ∨ ∃ e ∈ c, e.Torn

/-- The stream is cancelled, or is about to be. -/
def Cancelled (a c : Option Control) (out back : List Frame) (refusing : Prop) : Prop :=
  (∃ e ∈ a, e.cancel = true ∨ e.ready = some false) ∨ (∃ e ∈ c, e.cancel = true) ∨
    (∃ f ∈ out ++ back, f.kind = CANCEL) ∨ refusing

/-- `a` has opened the stream and sends `out`, `c` accepts it and sends `back`. -/
structure Life (a c : Option Control) (out back : List Frame) (refusing : Prop) : Prop where
  unopened : a = none → c = none ∧ out = [] ∧ back = [] ∧ ¬ refusing
  early : (∃ e ∈ a, e.Opening) ∨ (∃ f ∈ out, f.isOpen) → c = none ∧ back = [] ∧ ¬ refusing
  once : (∃ e ∈ a, e.Opening) → ∀ f ∈ out, ¬ f.isOpen
  single : out.Pairwise fun f f' => f.isOpen → ¬ f'.isOpen
  noReady : ∀ f ∈ out, f.kind ≠ READY
  noOpen : ∀ f ∈ back, ¬ f.isOpen
  absent : c = none → ∀ f ∈ back, f.kind = CANCEL
  /-- Who has the stream has met the other end. -/
  met : (∃ e ∈ a, e.handle = .held ∨ e.ready = some true) ∨ (∃ f ∈ back, f.kind = READY) →
    c ≠ none
  opener : ∀ e ∈ a, e.handle ≠ .connecting
  accepter : ∀ e ∈ c, ¬ e.Opening ∧ e.handle ≠ .waiting
  /-- A stream is cancelled because an end is torn, or because it was refused. -/
  torn : Cancelled a c out back refusing → Torn a c ∨
    c = none ∧ (∀ f ∈ out, ¬ f.isOpen) ∧ ∀ e ∈ a, ¬ e.Opening

namespace Life

variable {a c : Option Control} {out back : List Frame} {refusing : Prop}

theorem start : Life none none [] [] False where
  unopened _ := ⟨rfl, rfl, rfl, id⟩
  early h := by simp at h
  once h := by simp at h
  single := List.Pairwise.nil
  noReady _ hf := by cases hf
  noOpen _ hf := by cases hf
  absent _ _ hf := by cases hf
  met h := by simp at h
  opener _ he := by cases he
  accepter _ he := by cases he
  torn h := by simp [Cancelled] at h

theorem opening (h : Life none c out back refusing) {e : Control} (hopening : e.Opening)
    (hcancel : e.cancel = false) (hready : e.ready = none) :
    Life (some e) c out back refusing := by
  obtain ⟨rfl, rfl, rfl, hno⟩ := h.unopened rfl
  obtain ⟨service, hservice⟩ := hopening
  refine ⟨(fun he => by cases he), fun _ => ⟨rfl, rfl, hno⟩, (fun _ _ hf => by cases hf),
    List.Pairwise.nil, (fun _ hf => by cases hf), (fun _ hf => by cases hf),
    (fun _ _ hf => by cases hf), ?_, ?_, (fun _ he => by cases he), ?_⟩
  · rintro (⟨e', he', hheld | hready'⟩ | ⟨f, hf, -⟩)
    · cases Option.some_inj.mp he'
      rw [hservice] at hheld
      cases hheld
    · cases Option.some_inj.mp he'
      rw [hready] at hready'
      cases hready'
    · cases hf
  · intro e' he' hconnecting
    cases Option.some_inj.mp he'
    rw [hservice] at hconnecting
    cases hconnecting
  · rintro (⟨e', he', hc | hr⟩ | ⟨e', he', -⟩ | ⟨f, hf, -⟩ | hrefusing)
    · cases Option.some_inj.mp he'
      rw [hcancel] at hc
      cases hc
    · cases Option.some_inj.mp he'
      rw [hready] at hr
      cases hr
    · cases he'
    · cases hf
    · exact absurd hrefusing hno

theorem not_cancelled {e : Control} (h : Life (some e) c out back refusing) (he : e.Opening) :
    ¬ Cancelled (some e) c out back refusing := by
  intro hcancelled
  obtain ⟨rfl, -, -⟩ := h.early (Or.inl ⟨e, rfl, he⟩)
  rcases h.torn hcancelled with (⟨e', he', htorn⟩ | ⟨e', he', -⟩) | ⟨-, -, hno⟩
  · cases Option.some_inj.mp he'
    obtain ⟨service, hservice⟩ := he
    rw [Control.Torn, hservice] at htorn
    cases htorn
  · cases he'
  · exact hno e rfl he

/-- **OPEN is sent.** -/
theorem sendOpen {e e' : Control} {f : Frame} (h : Life (some e) c out back refusing)
    (he : e.Opening) (hhandle : e'.handle = .waiting) (hcancel : e'.cancel = e.cancel)
    (hready : e'.ready = e.ready) (hf : f.isOpen) :
    Life (some e') c (out ++ [f]) back refusing := by
  have hearly := h.early (Or.inl ⟨e, rfl, he⟩)
  have honce := h.once ⟨e, rfl, he⟩
  have hkind : f.kind ≠ READY ∧ f.kind ≠ CANCEL := by
    rcases hf with hf | hf <;> rw [hf] <;> decide
  refine ⟨(fun hn => by cases hn), fun _ => hearly, ?_, ?_, fun f' hf' => ?_, h.noOpen, h.absent, ?_,
    ?_, h.accepter, fun hcancelled => ?_⟩
  · rintro ⟨e₁, he₁, service, hservice⟩
    cases Option.some_inj.mp he₁
    rw [hhandle] at hservice
    cases hservice
  · refine List.pairwise_append.mpr
      ⟨h.single, List.pairwise_singleton _ _, fun f' hf' _ _ hopen => ?_⟩
    exact absurd hopen (honce f' hf')
  · rcases List.mem_append.mp hf' with hf' | hf'
    · exact h.noReady f' hf'
    · rw [List.mem_singleton.mp hf']
      exact hkind.1
  · rintro (⟨e₁, he₁, hheld | hr⟩ | hback)
    · cases Option.some_inj.mp he₁
      rw [hhandle] at hheld
      cases hheld
    · cases Option.some_inj.mp he₁
      exact h.met (Or.inl ⟨e, rfl, Or.inr (hready ▸ hr)⟩)
    · exact h.met (Or.inr hback)
  · intro e₁ he₁ hconnecting
    cases Option.some_inj.mp he₁
    rw [hhandle] at hconnecting
    cases hconnecting
  · refine absurd ?_ (h.not_cancelled he)
    rcases hcancelled with ⟨e₁, he₁, hc⟩ | hc | ⟨f', hf', hkind'⟩ | hrefusing
    · cases Option.some_inj.mp he₁
      rw [hcancel, hready] at hc
      exact Or.inl ⟨e, rfl, hc⟩
    · exact Or.inr (Or.inl hc)
    · rw [List.append_assoc] at hf'
      rcases List.mem_append.mp hf' with hf' | hf'
      · exact Or.inr (Or.inr (Or.inl ⟨f', List.mem_append_left _ hf', hkind'⟩))
      · rcases List.mem_cons.mp hf' with rfl | hf'
        · exact absurd hkind' hkind.2
        · exact Or.inr (Or.inr (Or.inl ⟨f', List.mem_append_right _ hf', hkind'⟩))
    · exact Or.inr (Or.inr (Or.inr hrefusing))

/-- A step of the opener that sends nothing: what it cancels was cancelled, or is torn. -/
theorem openerStep {e e' : Control} (h : Life (some e) c out back refusing)
    (hopening : e'.Opening → e.Opening)
    (hmet : e'.handle = .held ∨ e'.ready = some true → e.handle = .held ∨ e.ready = some true ∨
      c ≠ none)
    (hrole : e'.handle ≠ .connecting)
    (hcancel : e'.cancel = true ∨ e'.ready = some false →
      Cancelled (some e) c out back refusing ∨ e'.Torn)
    (htorn : e.Torn → e'.Torn) : Life (some e') c out back refusing := by
  have hopening' : (∃ e₁ ∈ some e', e₁.Opening) → ∃ e₁ ∈ some e, e₁.Opening := by
    rintro ⟨e₁, he₁, ho⟩
    cases Option.some_inj.mp he₁
    exact ⟨e, rfl, hopening ho⟩
  refine ⟨(fun hn => by cases hn), fun hearly => h.early (hearly.imp_left hopening'),
    fun ho => h.once (hopening' ho), h.single, h.noReady, h.noOpen, h.absent, ?_, ?_, h.accepter,
    fun hcancelled => ?_⟩
  · rintro (⟨e₁, he₁, hm⟩ | hback)
    · cases Option.some_inj.mp he₁
      rcases hmet hm with hheld | hready | hc
      · exact h.met (Or.inl ⟨e, rfl, Or.inl hheld⟩)
      · exact h.met (Or.inl ⟨e, rfl, Or.inr hready⟩)
      · exact hc
    · exact h.met (Or.inr hback)
  · intro e₁ he₁
    cases Option.some_inj.mp he₁
    exact hrole
  · have hold : Cancelled (some e) c out back refusing ∨ e'.Torn := by
      rcases hcancelled with ⟨e₁, he₁, hc⟩ | hc
      · cases Option.some_inj.mp he₁
        exact hcancel hc
      · exact Or.inl (Or.inr hc)
    rcases hold with hold | htorn'
    · rcases h.torn hold with (⟨e₁, he₁, ht⟩ | ht) | ⟨hc, hout, hno⟩
      · cases Option.some_inj.mp he₁
        exact Or.inl (Or.inl ⟨e', rfl, htorn ht⟩)
      · exact Or.inl (Or.inr ht)
      · refine Or.inr ⟨hc, hout, fun e₁ he₁ ho => ?_⟩
        cases Option.some_inj.mp he₁
        exact hno e rfl (hopening ho)
    · exact Or.inl (Or.inl ⟨e', rfl, htorn'⟩)

theorem accepterStep {e e' : Control} (h : Life a (some e) out back refusing)
    (hrole : ¬ e'.Opening ∧ e'.handle ≠ .waiting)
    (hcancel : e'.cancel = true → Cancelled a (some e) out back refusing ∨ e'.Torn)
    (htorn : e.Torn → e'.Torn) : Life a (some e') out back refusing := by
  have hnone : ∀ {P : Prop}, (some e = none ∧ P) → False := fun hn => by cases hn.1
  refine ⟨fun hn => ?_, fun hearly => ?_, h.once, h.single, h.noReady, h.noOpen,
    (fun hn => by cases hn), (fun _ hn => by cases hn), h.opener, fun e₁ he₁ => ?_,
    fun hcancelled => ?_⟩
  · exact (hnone (h.unopened hn)).elim
  · exact (hnone (h.early hearly)).elim
  · cases Option.some_inj.mp he₁
    exact hrole
  · have hold : Cancelled a (some e) out back refusing ∨ e'.Torn := by
      rcases hcancelled with hc | ⟨e₁, he₁, hc⟩ | hc
      · exact Or.inl (Or.inl hc)
      · cases Option.some_inj.mp he₁
        exact hcancel hc
      · exact Or.inl (Or.inr (Or.inr hc))
    rcases hold with hold | htorn'
    · rcases h.torn hold with (ht | ⟨e₁, he₁, ht⟩) | hn
      · exact Or.inl (Or.inl ht)
      · cases Option.some_inj.mp he₁
        exact Or.inl (Or.inr ⟨e', rfl, htorn ht⟩)
      · exact (hnone hn).elim
    · exact Or.inl (Or.inr ⟨e', rfl, htorn'⟩)

theorem cancelled_of_concat {out' back' : List Frame} {f : Frame}
    (hsub : ∀ f' ∈ out' ++ back', f' ∈ out ++ back ∨ f' = f)
    (hf : f.kind = CANCEL → Cancelled a c out back refusing)
    (h : Cancelled a c out' back' refusing) : Cancelled a c out back refusing := by
  rcases h with ha | hc | ⟨f', hf', hkind⟩ | hrefusing
  · exact Or.inl ha
  · exact Or.inr (Or.inl hc)
  · rcases hsub f' hf' with hf' | rfl
    · exact Or.inr (Or.inr (Or.inl ⟨f', hf', hkind⟩))
    · exact hf hkind
  · exact Or.inr (Or.inr (Or.inr hrefusing))

/-- **The opener cancels.** -/
theorem sendOut {e : Control} (h : Life (some e) c out back refusing) {f : Frame}
    (hf : f.kind = CANCEL) (hcancelled : Cancelled (some e) c out back refusing) :
    Life (some e) c (out ++ [f]) back refusing := by
  have hopen : ¬ f.isOpen := by
    rintro (ho | ho) <;> rw [hf] at ho <;> exact absurd ho (by decide)
  have hmem : ∀ {P : Frame → Prop}, (∀ f' ∈ out, P f') → P f → ∀ f' ∈ out ++ [f], P f' := by
    intro P hout hPf f' hf'
    rcases List.mem_append.mp hf' with hf' | hf'
    · exact hout f' hf'
    · rw [List.mem_singleton.mp hf']
      exact hPf
  refine ⟨(fun hn => by cases hn), ?_, fun ho => hmem (h.once ho) hopen, ?_,
    hmem h.noReady (by rw [hf]; decide), h.noOpen, h.absent, h.met, h.opener, h.accepter,
    fun hc => ?_⟩
  · rintro (ho | ⟨f', hf', ho⟩)
    · exact h.early (Or.inl ho)
    · rcases List.mem_append.mp hf' with hf' | hf'
      · exact h.early (Or.inr ⟨f', hf', ho⟩)
      · rw [List.mem_singleton.mp hf'] at ho
        exact absurd ho hopen
  · refine List.pairwise_append.mpr
      ⟨h.single, List.pairwise_singleton _ _, fun f' hf' f'' hf'' _ => ?_⟩
    rw [List.mem_singleton.mp hf'']
    exact hopen
  · exact (h.torn hcancelled).imp_right fun ⟨hnone, hout, hno⟩ => ⟨hnone, hmem hout hopen, hno⟩

/-- **The accepter is ready, or cancels.** -/
theorem sendBack {e : Control} (h : Life a (some e) out back refusing) {f : Frame}
    (hf : f.kind = READY ∨ f.kind = CANCEL ∧ Cancelled a (some e) out back refusing) :
    Life a (some e) out (back ++ [f]) refusing := by
  have hopen : ¬ f.isOpen := by
    rcases hf with hf | ⟨hf, -⟩ <;> rintro (ho | ho) <;> rw [hf] at ho <;>
      exact absurd ho (by decide)
  have hnone : ∀ {P : Prop}, (some e = none ∧ P) → False := fun hn => by cases hn.1
  refine ⟨fun hn => (hnone (h.unopened hn)).elim, fun hearly => (hnone (h.early hearly)).elim,
    h.once, h.single, h.noReady, fun f' hf' => ?_, (fun hn => by cases hn), (fun _ hn => by cases hn),
    h.opener, h.accepter,
    fun hc => h.torn (cancelled_of_concat (f := f) (fun f' hf' => ?_) ?_ hc)⟩
  · rcases List.mem_append.mp hf' with hf' | hf'
    · exact h.noOpen f' hf'
    · rw [List.mem_singleton.mp hf']
      exact hopen
  · rw [← List.append_assoc] at hf'
    exact (List.mem_append.mp hf').imp_right List.mem_singleton.mp
  · intro hkind
    rcases hf with hready | ⟨-, hcancelled⟩
    · rw [hready] at hkind
      exact absurd hkind (by decide)
    · exact hcancelled

/-- **A refusal is sent.** -/
theorem sendRefusal (h : Life a c out back refusing) (hrefusing : refusing) {f : Frame}
    (hf : f.kind = CANCEL) : Life a c out (back ++ [f]) False := by
  have hopen : ¬ f.isOpen := by
    rintro (ho | ho) <;> rw [hf] at ho <;> exact absurd ho (by decide)
  have hmem : ∀ {P : Frame → Prop}, (∀ f' ∈ back, P f') → P f → ∀ f' ∈ back ++ [f], P f' := by
    intro P hback hPf f' hf'
    rcases List.mem_append.mp hf' with hf' | hf'
    · exact hback f' hf'
    · rw [List.mem_singleton.mp hf']
      exact hPf
  refine ⟨fun hn => absurd hrefusing (h.unopened hn).2.2.2,
    fun hearly => absurd hrefusing (h.early hearly).2.2, h.once, h.single, h.noReady,
    hmem h.noOpen hopen, fun hn => hmem (h.absent hn) hf, ?_, h.opener, h.accepter,
    fun _ => h.torn (Or.inr (Or.inr (Or.inr hrefusing)))⟩
  rintro (hm | ⟨f', hf', hready⟩)
  · exact h.met (Or.inl hm)
  · rcases List.mem_append.mp hf' with hf' | hf'
    · exact h.met (Or.inr ⟨f', hf', hready⟩)
    · rw [List.mem_singleton.mp hf', hf] at hready
      exact absurd hready (by decide)

theorem lose (h : Life a c out back refusing) {out' back' : List Frame} (hout : out'.Sublist out)
    (hback : back'.Sublist back) : Life a c out' back' refusing := by
  refine ⟨fun hn => ?_, fun hearly => ?_, fun ho f hf => h.once ho f (hout.subset hf),
    h.single.sublist hout, fun f hf => h.noReady f (hout.subset hf),
    fun f hf => h.noOpen f (hback.subset hf), fun hn f hf => h.absent hn f (hback.subset hf), ?_,
    h.opener, h.accepter, fun hc => ?_⟩
  · obtain ⟨hc, ho, hb, hno⟩ := h.unopened hn
    exact ⟨hc, List.sublist_nil.mp (ho ▸ hout), List.sublist_nil.mp (hb ▸ hback), hno⟩
  · obtain ⟨hc, hb, hno⟩ := h.early (hearly.imp_right fun ⟨f, hf, ho⟩ => ⟨f, hout.subset hf, ho⟩)
    exact ⟨hc, List.sublist_nil.mp (hb ▸ hback), hno⟩
  · exact fun hm => h.met (hm.imp_right fun ⟨f, hf, hr⟩ => ⟨f, hback.subset hf, hr⟩)
  · have hold : Cancelled a c out back refusing := by
      rcases hc with ha | hc | ⟨f, hf, hkind⟩ | hrefusing
      · exact Or.inl ha
      · exact Or.inr (Or.inl hc)
      · exact Or.inr (Or.inr (Or.inl ⟨f, (hout.append hback).subset hf, hkind⟩))
      · exact Or.inr (Or.inr (Or.inr hrefusing))
    exact (h.torn hold).imp_right fun ⟨hn, ho, hno⟩ => ⟨hn, fun f hf => ho f (hout.subset hf), hno⟩

theorem opened {f : Frame} {rest : List Frame} (h : Life a c (f :: rest) back refusing)
    (hf : f.isOpen) : c = none ∧ back = [] ∧ ¬ refusing ∧ (∀ f' ∈ rest, ¬ f'.isOpen) ∧
      (∀ e ∈ a, ¬ e.Opening) ∧ a ≠ none ∧
      (Cancelled a c (f :: rest) back refusing → Torn a none) := by
  obtain ⟨rfl, hback, hno⟩ := h.early (Or.inr ⟨f, List.mem_cons_self, hf⟩)
  refine ⟨rfl, hback, hno, fun f' hf' => ?_, fun e he ho => ?_, fun hn => ?_, fun hc => ?_⟩
  · exact (List.pairwise_cons.mp h.single).1 f' hf' hf
  · exact h.once ⟨e, he, ho⟩ f List.mem_cons_self hf
  · cases (h.unopened hn).2.1
  · rcases h.torn hc with htorn | ⟨-, hout, -⟩
    · exact htorn
    · exact absurd hf (hout f List.mem_cons_self)

/-- **A stream is accepted.** -/
theorem accept {f : Frame} {rest : List Frame} (h : Life a c (f :: rest) back refusing)
    (hf : f.isOpen) {e : Control} (hconnecting : e.handle = .connecting)
    (hcancel : e.cancel = false) : Life a (some e) rest back refusing := by
  obtain ⟨rfl, rfl, hno, hrest, hopening, ha, htorn⟩ := h.opened hf
  refine ⟨fun hn => absurd hn ha, ?_, fun ⟨e', he', ho⟩ => absurd ho (hopening e' he'),
    (List.pairwise_cons.mp h.single).2, fun f' hf' => h.noReady f' (List.mem_cons_of_mem _ hf'),
    (fun _ hf' => by cases hf'), (fun hn => by cases hn), (fun _ hn => by cases hn), h.opener,
    fun e' he' => ?_, fun hc => Or.inl ?_⟩
  · rintro (⟨e', he', ho⟩ | ⟨f', hf', ho⟩)
    · exact absurd ho (hopening e' he')
    · exact absurd ho (hrest f' hf')
  · cases Option.some_inj.mp he'
    refine ⟨fun ⟨service, hs⟩ => ?_, fun hw => ?_⟩
    · rw [hconnecting] at hs
      cases hs
    · rw [hconnecting] at hw
      cases hw
  · have hold : Cancelled a none (f :: rest) [] refusing := by
      rcases hc with ha' | ⟨e', he', hc⟩ | ⟨f', hf', hkind⟩ | hrefusing
      · exact Or.inl ha'
      · cases Option.some_inj.mp he'
        rw [hcancel] at hc
        cases hc
      · refine Or.inr (Or.inr (Or.inl ⟨f', ?_, hkind⟩))
        rw [List.append_nil] at hf' ⊢
        exact List.mem_cons_of_mem _ hf'
      · exact absurd hrefusing hno
    rcases htorn hold with ht | ⟨e', he', -⟩
    · exact Or.inl ht
    · cases he'

/-- **A stream is refused.** -/
theorem refuse {f : Frame} {rest : List Frame} (h : Life a c (f :: rest) back refusing)
    (hf : f.isOpen) : Life a c rest back True := by
  obtain ⟨rfl, rfl, hno, hrest, hopening, ha, -⟩ := h.opened hf
  refine ⟨fun hn => absurd hn ha, ?_, fun ⟨e', he', ho⟩ => absurd ho (hopening e' he'),
    (List.pairwise_cons.mp h.single).2, fun f' hf' => h.noReady f' (List.mem_cons_of_mem _ hf'),
    h.noOpen, h.absent, h.met, h.opener, h.accepter, fun _ => Or.inr ⟨rfl, hrest, hopening⟩⟩
  rintro (⟨e', he', ho⟩ | ⟨f', hf', ho⟩)
  · exact absurd ho (hopening e' he')
  · exact absurd ho (hrest f' hf')

end Life

end Zeron.Preview.Mux
