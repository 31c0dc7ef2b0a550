import Mathlib

/-!
# Transcripts of children in one stream

A stream has events of several children, each under the owner that shows the child. A transcript is
told once: its texts as they come, or one summary at the end, and then the end.

* `Entry`, `kinds`: an event of the stream; what the events of one child are;
* `Running`, `Settled`, `Unfinished`: a transcript before its end, at its end, and a part of one;
* `Told`, **`Told.frames`**, **`Told.settle`**, `Told.settleAll`: how all of them go on;
* `Owned`: every event is under the owner of its child.
-/

namespace Zeron.Story

variable {κ ω ε : Type*}

/-- What an event is for its transcript. -/
inductive Kind where
  | text
  | summary
  | done
  | other
  deriving DecidableEq

structure Entry (κ ω ε : Type*) where
  child : κ
  owner : ω
  kind : Kind
  event : ε

/-- No end, and no summary. -/
def Running (l : List Kind) : Prop := ∀ k ∈ l, k = .text ∨ k = .other

/-- One end, with nothing behind it and at most a summary before it, which then is the only text. -/
def Settled (l : List Kind) : Prop :=
  ∃ l', l = l' ++ [Kind.done] ∧ (Running l' ∨ ∃ l₁, l' = l₁ ++ [Kind.summary] ∧ ∀ k ∈ l₁, k = .other)

theorem running_nil : Running [] := by simp [Running]

theorem Running.append {l l' : List Kind} (h : Running l) (h' : Running l') :
    Running (l ++ l') := by
  intro k hk
  exact (List.mem_append.mp hk).elim (h k) (h' k)

theorem Running.done {l : List Kind} (h : Running l) : Settled (l ++ [Kind.done]) :=
  ⟨l, rfl, Or.inl h⟩

theorem Running.summary {l : List Kind} (h : Running l) (hno : Kind.text ∉ l) :
    Settled (l ++ [Kind.summary, .done]) := by
  refine ⟨l ++ [Kind.summary], by simp, Or.inr ⟨l, rfl, fun k hk => ?_⟩⟩
  rcases h k hk with rfl | rfl
  · exact absurd hk hno
  · rfl

theorem Settled.count_done {l : List Kind} (h : Settled l) : l.count .done = 1 := by
  obtain ⟨l', rfl, h | ⟨l₁, rfl, h⟩⟩ := h
  · have hno : Kind.done ∉ l' := fun hk => by simpa using h _ hk
    simpa using List.count_eq_zero.mpr hno
  · have hno : Kind.done ∉ l₁ := fun hk => by simpa using h _ hk
    simpa using List.count_eq_zero.mpr hno

theorem Settled.summary_only {l : List Kind} (h : Settled l) (hs : Kind.summary ∈ l) :
    Kind.text ∉ l ∧ l.count .summary = 1 := by
  obtain ⟨l', rfl, h | ⟨l₁, rfl, h⟩⟩ := h
  · rcases List.mem_append.mp hs with hs | hs
    · simpa using h _ hs
    · simp at hs
  · have ht : Kind.text ∉ l₁ := fun hk => by simpa using h _ hk
    have hno : Kind.summary ∉ l₁ := fun hk => by simpa using h _ hk
    exact ⟨by simpa using ht, by simpa using List.count_eq_zero.mpr hno⟩

/-- A transcript that has not come to its end. -/
def Unfinished (l : List Kind) : Prop := ∃ rest, rest ≠ [] ∧ Settled (l ++ rest)

theorem Running.unfinished {l : List Kind} (h : Running l) : Unfinished l :=
  ⟨[.done], by simp, h.done⟩

theorem Unfinished.not_mem_done {l : List Kind} (h : Unfinished l) : Kind.done ∉ l := by
  obtain ⟨rest, hne, h⟩ := h
  have hone := h.count_done
  obtain ⟨l', he, -⟩ := h
  have hlast : (l ++ rest).getLast? = some .done := by rw [he]; simp
  rw [List.getLast?_append_of_ne_nil l hne] at hlast
  have hmem := List.count_pos_iff.mpr (List.mem_of_getLast? hlast)
  intro hd
  have hpos := List.count_pos_iff.mpr hd
  rw [List.count_append] at hone
  omega

/-! ## The stream -/

section Stream

variable [DecidableEq κ] {s t : List (Entry κ ω ε)} {c : κ}

def kinds (c : κ) (s : List (Entry κ ω ε)) : List Kind :=
  (s.filter (·.child = c)).map (·.kind)

@[simp] theorem kinds_nil (c : κ) : kinds c ([] : List (Entry κ ω ε)) = [] := rfl

@[simp] theorem kinds_append (c : κ) (s t : List (Entry κ ω ε)) :
    kinds c (s ++ t) = kinds c s ++ kinds c t := by simp [kinds]

theorem kinds_of_all (h : ∀ e ∈ t, e.child = c) : kinds c t = t.map (·.kind) := by
  rw [kinds, List.filter_eq_self.mpr fun e he => decide_eq_true (h e he)]

theorem kinds_of_none (h : ∀ e ∈ t, e.child ≠ c) : kinds c t = [] := by
  rw [kinds, List.filter_eq_nil_iff.mpr fun e he hd => h e he (of_decide_eq_true hd)]
  rfl

/-- The transcripts of the children that have `ended` are settled, the others run. -/
def Told (ended : κ → Prop) (s : List (Entry κ ω ε)) : Prop :=
  ∀ c, (ended c → Settled (kinds c s)) ∧ (¬ ended c → Running (kinds c s))

variable {ended ended' : κ → Prop}

theorem told_nil : Told (fun _ : κ => False) ([] : List (Entry κ ω ε)) :=
  fun _ => ⟨False.elim, fun _ => running_nil⟩

theorem Told.congr (h : Told ended s) (he : ∀ c, ended' c ↔ ended c) : Told ended' s := fun c =>
  ⟨fun ho => (h c).1 ((he c).mp ho), fun ho => (h c).2 fun hn => ho ((he c).mpr hn)⟩

/-- **A child that has not ended goes on.** -/
theorem Told.frames (h : Told ended s) (hc : ¬ ended c) (ht : ∀ e ∈ t, e.child = c)
    (hk : Running (t.map (·.kind))) : Told ended (s ++ t) := by
  intro c'
  rw [kinds_append]
  by_cases he : c' = c
  · subst he
    rw [kinds_of_all ht]
    exact ⟨fun ho => absurd ho hc, fun ho => ((h c').2 ho).append hk⟩
  · rw [kinds_of_none fun e hm hn => he (hn.symm.trans (ht e hm)), List.append_nil]
    exact h c'

/-- **It ends**, with a summary only if it told no text. -/
theorem Told.settle (h : Told ended s) (hc : ¬ ended c) (ht : ∀ e ∈ t, e.child = c)
    (hk : t.map (·.kind) = [.done] ∨
      t.map (·.kind) = [.summary, .done] ∧ Kind.text ∉ kinds c s)
    (hended : ∀ c', ended' c' ↔ c' = c ∨ ended c') : Told ended' (s ++ t) := by
  intro c'
  rw [kinds_append]
  by_cases he : c' = c
  · subst he
    rw [kinds_of_all ht]
    refine ⟨fun _ => ?_, fun ho => absurd ((hended c').mpr (Or.inl rfl)) ho⟩
    rcases hk with hk | ⟨hk, hno⟩
    · rw [hk]
      exact ((h c').2 hc).done
    · rw [hk]
      exact ((h c').2 hc).summary hno
  · rw [kinds_of_none fun e hm hn => he (hn.symm.trans (ht e hm)), List.append_nil]
    refine ⟨fun ho => (h c').1 (((hended c').mp ho).resolve_left he), fun ho => (h c').2 ?_⟩
    exact fun hn => ho ((hended c').mpr (Or.inr hn))

/-- **Several children end**, with nothing else. -/
theorem Told.settleAll (h : Told ended s) {l : List (κ × ω)} (event : ε)
    (hl : (l.map (·.1)).Nodup) (hopen : ∀ x ∈ l, ¬ ended x.1) :
    Told (fun c => c ∈ l.map (·.1) ∨ ended c)
      (s ++ l.map fun x => ⟨x.1, x.2, .done, event⟩) := by
  induction l generalizing s ended with
  | nil => simpa using h
  | cons x l ih =>
    rw [List.map_cons, List.nodup_cons] at hl
    have hx := h.settle (t := [⟨x.1, x.2, .done, event⟩]) (hopen x List.mem_cons_self)
      (fun e he => by rw [List.mem_singleton.mp he]) (Or.inl rfl) fun c => Iff.rfl
    have hrest := ih hx hl.2 fun y hy => by
      rintro (he | hn)
      · exact hl.1 (he ▸ List.mem_map_of_mem hy)
      · exact hopen y (List.mem_cons_of_mem _ hy) hn
    rw [List.append_assoc, List.singleton_append] at hrest
    exact hrest.congr fun c => by rw [List.map_cons, List.mem_cons]; tauto

end Stream

/-- Every event is under the owner of its child. -/
def Owned (owner : κ → ω) (s : List (Entry κ ω ε)) : Prop := ∀ e ∈ s, e.owner = owner e.child

theorem Owned.append {owner : κ → ω} {s t : List (Entry κ ω ε)} (h : Owned owner s)
    (h' : Owned owner t) : Owned owner (s ++ t) := fun e he =>
  (List.mem_append.mp he).elim (h e) (h' e)

end Zeron.Story
