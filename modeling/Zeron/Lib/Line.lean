import Mathlib

/-!
# A queue served from its head

In every round a queue is served from its head, at most `cap` items, up to the first one that
stops the round; newcomers join at its end.

* `Verdict`, `round`: what an item meets, and one round;
* `split_of_stuck`: as long as an item stops every round, all that is behind it stays behind it;
* **`offered_iff`**: where the items before it leave again and again, an item is offered exactly
  when none of them stops every round.
-/

namespace Zeron.Line

variable {α : Type}

/-- What an item at the head meets. -/
inductive Verdict where
  /-- It is offered and taken. -/
  | leaves
  /-- It is offered, and kept; the round goes on. -/
  | stays
  /-- It is offered, and the round ends. -/
  | stops
  /-- The round ends before it is offered. -/
  | waits
  deriving DecidableEq

/-- What a round offers and what it leaves. -/
def round (v : α → Verdict) : ℕ → List α → List α × List α
  | 0, q => ([], q)
  | _ + 1, [] => ([], [])
  | cap + 1, a :: q =>
    match v a with
    | .leaves => (a :: (round v cap q).1, (round v cap q).2)
    | .stays => (a :: (round v cap q).1, a :: (round v cap q).2)
    | .stops => ([a], a :: q)
    | .waits => ([], a :: q)

attribute [local simp] round in
theorem round_sublist (v : α → Verdict) (cap : ℕ) (q : List α) :
    (round v cap q).2.Sublist q := by
  induction q generalizing cap with
  | nil => cases cap <;> exact List.Sublist.refl _
  | cons a q ih =>
    cases cap with
    | zero => exact List.Sublist.refl _
    | succ cap =>
      rw [round]
      cases v a with
      | leaves => exact (ih cap).cons a
      | stays => exact (ih cap).cons_cons a
      | stops => exact List.Sublist.refl _
      | waits => exact List.Sublist.refl _

/-- A round goes no further than an item that ends it. -/
theorem round_split {v : α → Verdict} {r : α} (hr : v r = .stops ∨ v r = .waits) (cap : ℕ)
    (pre post : List α) :
    ∃ pre', (round v cap (pre ++ r :: post)).2 = pre' ++ r :: post ∧ (∀ x ∈ pre', x ∈ pre) ∧
      ∀ x ∈ (round v cap (pre ++ r :: post)).1, x ∈ pre ∨ x = r := by
  induction pre generalizing cap with
  | nil =>
    cases cap with
    | zero => exact ⟨[], rfl, by simp, by simp [round]⟩
    | succ cap => rcases hr with hr | hr <;> exact ⟨[], by simp [round, hr], by simp [round, hr]⟩
  | cons a pre ih =>
    cases cap with
    | zero => exact ⟨a :: pre, rfl, fun x hx => hx, by simp [round]⟩
    | succ cap =>
      obtain ⟨pre', hrest, hsub, hoffered⟩ := ih cap
      rw [List.cons_append, round]
      cases v a with
      | leaves =>
        refine ⟨pre', hrest, fun x hx => List.mem_cons_of_mem _ (hsub x hx), fun x hx => ?_⟩
        rcases List.mem_cons.mp hx with rfl | hx
        · exact .inl List.mem_cons_self
        · exact (hoffered x hx).imp_left (List.mem_cons_of_mem _)
      | stays =>
        refine ⟨a :: pre', by rw [hrest, List.cons_append], fun x hx => ?_, fun x hx => ?_⟩
        · rcases List.mem_cons.mp hx with rfl | hx
          · exact List.mem_cons_self
          · exact List.mem_cons_of_mem _ (hsub x hx)
        · rcases List.mem_cons.mp hx with rfl | hx
          · exact .inl List.mem_cons_self
          · exact (hoffered x hx).imp_left (List.mem_cons_of_mem _)
      | stops => exact ⟨a :: pre, rfl, fun x hx => hx, by simp⟩
      | waits => exact ⟨a :: pre, rfl, fun x hx => hx, by simp⟩

theorem round_keeps {v : α → Verdict} {cap : ℕ} {pre : List α} {b : α} {post : List α}
    (hb : b ∉ (round v cap (pre ++ b :: post)).1) :
    ∃ pre', (round v cap (pre ++ b :: post)).2 = pre' ++ b :: post ∧ pre'.Sublist pre := by
  induction pre generalizing cap with
  | nil =>
    cases cap with
    | zero => exact ⟨[], rfl, List.Sublist.refl _⟩
    | succ cap =>
      rw [List.nil_append, round] at hb ⊢
      cases hv : v b with
      | waits => exact ⟨[], by simp, List.Sublist.refl _⟩
      | leaves | stays | stops => simp [hv] at hb
  | cons a pre ih =>
    cases cap with
    | zero => exact ⟨a :: pre, rfl, List.Sublist.refl _⟩
    | succ cap =>
      rw [List.cons_append, round] at hb ⊢
      cases hv : v a with
      | leaves =>
        rw [hv] at hb
        obtain ⟨pre', hrest, hsub⟩ := ih fun h => hb (List.mem_cons_of_mem _ h)
        exact ⟨pre', hrest, hsub.cons a⟩
      | stays =>
        rw [hv] at hb
        obtain ⟨pre', hrest, hsub⟩ := ih fun h => hb (List.mem_cons_of_mem _ h)
        exact ⟨a :: pre', by simp [hrest], hsub.cons_cons a⟩
      | stops => exact ⟨a :: pre, rfl, List.Sublist.refl _⟩
      | waits => exact ⟨a :: pre, rfl, List.Sublist.refl _⟩

theorem round_leaves {v : α → Verdict} {a : α} (ha : v a = .leaves) {cap : ℕ} (hcap : 0 < cap)
    {pre : List α} {b : α} {post : List α}
    (hb : b ∉ (round v cap (a :: pre ++ b :: post)).1) :
    ∃ pre', (round v cap (a :: pre ++ b :: post)).2 = pre' ++ b :: post ∧ pre'.Sublist pre := by
  obtain ⟨cap, rfl⟩ := Nat.exists_eq_succ_of_ne_zero (Nat.pos_iff_ne_zero.mp hcap)
  rw [List.cons_append, round, ha] at hb ⊢
  exact round_keeps fun h => hb (List.mem_cons_of_mem _ h)

section Run

-- What the items meet in each round, how many it may offer, and the queue before each round.
variable {v : ℕ → α → Verdict} {cap : ℕ → ℕ} {line : ℕ → List α}

/-- Each round's queue is what the last one left, and newcomers. -/
def Steps (v : ℕ → α → Verdict) (cap : ℕ → ℕ) (line : ℕ → List α) : Prop :=
  ∀ k, ∃ fresh, line (k + 1) = (round (v k) (cap k) (line k)).2 ++ fresh

/-- What each round offers. -/
def offered (v : ℕ → α → Verdict) (cap : ℕ → ℕ) (line : ℕ → List α) (k : ℕ) : List α :=
  (round (v k) (cap k) (line k)).1

theorem split_of_stuck (hsteps : Steps v cap line) {r : α}
    (hr : ∀ k, v k r = .stops ∨ v k r = .waits) {pre post : List α}
    (hq : line 0 = pre ++ r :: post) (k : ℕ) :
    ∃ pre' post', line k = pre' ++ r :: post' ∧ ∀ x ∈ pre', x ∈ pre := by
  induction k with
  | zero => exact ⟨pre, post, hq, fun x hx => hx⟩
  | succ k ih =>
    obtain ⟨pre', post', hline, hsub⟩ := ih
    obtain ⟨fresh, hnext⟩ := hsteps k
    obtain ⟨pre'', hround, hsub', -⟩ := round_split (hr k) (cap k) pre' post'
    refine ⟨pre'', post' ++ fresh, ?_, fun x hx => hsub x (hsub' x hx)⟩
    rw [hnext, hline, hround, List.append_assoc, List.cons_append]

theorem offered_of_stuck (hsteps : Steps v cap line) {r b : α}
    (hr : ∀ k, v k r = .stops ∨ v k r = .waits) {pre post : List α}
    (hq : line 0 = pre ++ r :: post) {k : ℕ} (hb : b ∈ offered v cap line k) :
    b ∈ pre ∨ b = r := by
  obtain ⟨pre', post', hline, hsub⟩ := split_of_stuck hsteps hr hq k
  obtain ⟨-, -, -, hoffered⟩ := round_split (hr k) (cap k) pre' post'
  rw [offered, hline] at hb
  exact (hoffered b hb).imp_left (hsub b)

theorem split_of_not_offered (hsteps : Steps v cap line) {b : α}
    (hb : ∀ k, b ∉ offered v cap line k) {k : ℕ} {pre post : List α}
    (hk : line k = pre ++ b :: post) {i : ℕ} (hki : k ≤ i) :
    ∃ pre' post', line i = pre' ++ b :: post' ∧ pre'.Sublist pre := by
  induction i, hki using Nat.le_induction with
  | base => exact ⟨pre, post, hk, List.Sublist.refl _⟩
  | succ i _ ih =>
    obtain ⟨pre', post', hline, hsub⟩ := ih
    obtain ⟨fresh, hnext⟩ := hsteps i
    have hi := hb i
    rw [offered, hline] at hi
    obtain ⟨pre'', hround, hsub'⟩ := round_keeps hi
    refine ⟨pre'', post' ++ fresh, ?_, hsub'.trans hsub⟩
    rw [hnext, hline, hround, List.append_assoc, List.cons_append]

/-- **Progress**: where each item before `b` leaves, when at the head, again and again, and `b`
does not wait there forever, `b` is offered. -/
theorem exists_offered (hsteps : Steps v cap line) (hcap : ∀ k, line k ≠ [] → 0 < cap k) {b : α}
    {k : ℕ} {pre post : List α} (hk : line k = pre ++ b :: post)
    (hleaves : ∀ a ∈ pre, ∀ j, ∃ i ≥ j, (line i).head? = some a → v i a = .leaves)
    (hwaits : ∀ j, ∃ i ≥ j, (line i).head? = some b → v i b ≠ .waits) :
    ∃ i, b ∈ offered v cap line i := by
  by_contra hnever
  simp only [not_exists] at hnever
  -- Induction on how many items stand before `b`.
  generalize hn : pre.length = n
  induction n using Nat.strong_induction_on generalizing k pre post with
  | h n ih =>
    cases pre with
    | nil =>
      obtain ⟨i, hki, hi⟩ := hwaits k
      obtain ⟨pre', post', hline, hsub⟩ := split_of_not_offered hsteps hnever hk hki
      rw [List.sublist_nil.mp hsub, List.nil_append] at hline
      have hne : v i b ≠ .waits := hi (by rw [hline]; rfl)
      obtain ⟨c, hc⟩ := Nat.exists_eq_succ_of_ne_zero
        (Nat.pos_iff_ne_zero.mp (hcap i (by rw [hline]; exact List.cons_ne_nil _ _)))
      apply hnever i
      rw [offered, hline, hc, round]
      cases hv : v i b with
      | waits => exact absurd hv hne
      | leaves | stays | stops => exact List.mem_cons_self
    | cons a pre =>
      obtain ⟨i, hki, hi⟩ := hleaves a List.mem_cons_self k
      obtain ⟨pre', post', hline, hsub⟩ := split_of_not_offered hsteps hnever hk hki
      rcases Nat.lt_or_eq_of_le hsub.length_le with hlt | heq
      · exact ih pre'.length (hn ▸ hlt) hline (fun x hx => hleaves x (hsub.subset hx)) rfl
      · rw [hsub.eq_of_length heq] at hline
        have hleave : v i a = .leaves := hi (by rw [hline]; rfl)
        have hcap' := hcap i (by rw [hline]; exact List.cons_ne_nil _ _)
        have hni := hnever i
        rw [offered, hline] at hni
        obtain ⟨fresh, hnext⟩ := hsteps i
        obtain ⟨pre'', hround, hsub'⟩ := round_leaves hleave hcap' hni
        have hlt : pre''.length < n := by
          have := hsub'.length_le
          rw [List.length_cons] at hn
          omega
        have hline' : line (i + 1) = pre'' ++ b :: (post' ++ fresh) := by
          rw [hnext, hline, hround, List.append_assoc, List.cons_append]
        exact ih pre''.length hlt hline'
          (fun x hx => hleaves x (List.mem_cons_of_mem _ (hsub'.subset hx))) rfl

/-- **An item is offered exactly when no item before it ends every round.** -/
theorem offered_iff (hsteps : Steps v cap line) (hcap : ∀ k, line k ≠ [] → 0 < cap k)
    {pre post : List α} {b : α} (hq : line 0 = pre ++ b :: post) (hb : b ∉ pre)
    {refused : α → Prop} (hrefused : ∀ a, refused a → ∀ k, v k a = .stops ∨ v k a = .waits)
    (hleaves : ∀ a ∈ pre, ¬ refused a →
      ∀ j, ∃ i ≥ j, (line i).head? = some a → v i a = .leaves)
    (hwaits : ∀ j, ∃ i ≥ j, (line i).head? = some b → v i b ≠ .waits) :
    (∃ k, b ∈ offered v cap line k) ↔ ∀ r ∈ pre, ¬ refused r := by
  constructor
  · rintro ⟨k, hk⟩ r hr hstuck
    obtain ⟨before, after, rfl⟩ := List.append_of_mem hr
    have hsplit : line 0 = before ++ r :: (after ++ b :: post) := by simp [hq]
    rcases offered_of_stuck hsteps (hrefused r hstuck) hsplit hk with hmem | rfl
    · exact hb (List.mem_append_left _ hmem)
    · exact hb hr
  · intro h
    exact exists_offered hsteps hcap hq (fun a ha => hleaves a ha (h a ha)) hwaits

end Run

end Zeron.Line
