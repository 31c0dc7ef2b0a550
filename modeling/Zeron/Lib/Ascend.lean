import Mathlib

/-!
# Ascending lists and cursors

Entries whose numbers increase along a list, and a reader that keeps the last number it took.

* `Ascends`; `filter_le_append`, `filter_le_concat`, `filter_le_prefix`: what lies at or below a
  number;
* `take`: the entries that a reader takes, each above the last one; `cursor`: where it stands;
* **`take_filter`**: a reader takes all that is above a bound, if that ascends.
-/

namespace Zeron.Ascend

variable {ρ : Type*} (num : ρ → ℕ)

/-- The numbers increase along the list. -/
def Ascends (l : List ρ) : Prop := l.Pairwise fun a b => num a < num b

/-- What a reader at `c` takes: the entries numbered above the last one that it took. -/
def take (c : ℕ) : List ρ → List ρ
  | [] => []
  | x :: l => if num x ≤ c then take c l else x :: take (num x) l

/-- The last number that a reader at `c` has taken after the list. -/
def cursor (c : ℕ) : List ρ → ℕ
  | [] => c
  | x :: l => if num x ≤ c then cursor c l else cursor (num x) l

/-- The last number of a list. -/
def last (l : List ρ) : ℕ := (l.getLast?.map num).getD 0

variable {num} {l l' : List ρ} {x : ρ} {c m s : ℕ}

section Ascends

theorem ascends_nil : Ascends num ([] : List ρ) := List.Pairwise.nil

theorem Ascends.head (h : Ascends num (x :: l)) : ∀ y ∈ l, num x < num y :=
  (List.pairwise_cons.mp h).1

theorem Ascends.tail (h : Ascends num (x :: l)) : Ascends num l := (List.pairwise_cons.mp h).2

theorem Ascends.filter (h : Ascends num l) (p : ρ → Bool) : Ascends num (l.filter p) :=
  List.Pairwise.filter p h

theorem ascends_concat : Ascends num (l ++ [x]) ↔ Ascends num l ∧ ∀ y ∈ l, num y < num x := by
  unfold Ascends
  rw [List.pairwise_append]
  simp

@[simp] theorem last_concat : last num (l ++ [x]) = num x := by
  unfold last; simp

theorem exists_last (h : l ≠ []) : ∃ y ∈ l, num y = last num l := by
  refine ⟨l.getLast h, List.getLast_mem h, ?_⟩
  unfold last
  rw [List.getLast?_eq_some_getLast h]
  rfl

theorem Ascends.le_last (h : Ascends num l) (hx : x ∈ l) : num x ≤ last num l := by
  induction l using List.reverseRecOn with
  | nil => exact absurd hx List.not_mem_nil
  | append_singleton l y _ =>
    rw [last_concat]
    rw [List.mem_append, List.mem_singleton] at hx
    rcases hx with hx | rfl
    · exact ((ascends_concat.mp h).2 x hx).le
    · exact le_rfl

theorem Ascends.concat (h : Ascends num l) (hx : last num l < num x) : Ascends num (l ++ [x]) :=
  ascends_concat.mpr ⟨h, fun _ hy => (h.le_last hy).trans_lt hx⟩

theorem Ascends.nodup (h : Ascends num l) : (l.map num).Nodup :=
  List.pairwise_map.mpr (h.imp Nat.ne_of_lt)

theorem Ascends.eq_of_num (h : Ascends num l) {y : ρ} (hx : x ∈ l) (hy : y ∈ l)
    (heq : num x = num y) : x = y :=
  List.inj_on_of_nodup_map h.nodup hx hy heq

theorem filter_le_append (h : Ascends num l) (p : ρ → Bool) (s : ℕ) :
    l.filter (fun y => p y && decide (num y ≤ s)) ++ l.filter (fun y => p y && decide (s < num y)) =
      l.filter p := by
  induction l with
  | nil => rfl
  | cons y l ih =>
    have ih := ih h.tail
    have hy : ∀ z ∈ l, num y < num z := h.head
    by_cases hp : p y
    · by_cases hs : num y ≤ s
      · rw [List.filter_cons_of_pos (by simp [hp, hs]), List.filter_cons_of_neg (by simp [hs]),
          List.filter_cons_of_pos hp, List.cons_append, ih]
      · have hnone : l.filter (fun z => p z && decide (num z ≤ s)) = [] := by
          rw [List.filter_eq_nil_iff]
          intro z hz
          have := hy z hz
          simp only [Bool.and_eq_true, decide_eq_true_eq]
          omega
        rw [hnone, List.nil_append] at ih
        rw [List.filter_cons_of_neg (by simp [hs]), hnone, List.nil_append,
          List.filter_cons_of_pos (by simp [hp]; omega), ih, List.filter_cons_of_pos hp]
    · rw [List.filter_cons_of_neg (by simp [hp]), List.filter_cons_of_neg (by simp [hp]),
        List.filter_cons_of_neg hp, ih]

theorem filter_le_prefix (h : Ascends num l) (p : ρ → Bool) (s : ℕ) :
    l.filter (fun y => p y && decide (num y ≤ s)) <+: l.filter p :=
  ⟨_, filter_le_append h p s⟩

theorem filter_le_concat (h : Ascends num l) {p : ρ → Bool} (hx : x ∈ l) (hp : p x)
    (hlt : s < num x) (hgap : ∀ y ∈ l, p y → s < num y → num x ≤ num y) :
    l.filter (fun y => p y && decide (num y ≤ num x)) =
      l.filter (fun y => p y && decide (num y ≤ s)) ++ [x] := by
  obtain ⟨pre, post, rfl⟩ := List.append_of_mem hx
  obtain ⟨-, hpost, hcross⟩ := List.pairwise_append.mp h
  have hpost : ∀ y ∈ post, num x < num y := (List.pairwise_cons.mp hpost).1
  have hpre : ∀ y ∈ pre, num y < num x := fun y hy => hcross y hy x List.mem_cons_self
  have hbelow : pre.filter (fun y => p y && decide (num y ≤ num x)) =
      pre.filter (fun y => p y && decide (num y ≤ s)) := by
    refine List.filter_congr fun y hy => ?_
    have hle := hpre y hy
    by_cases hpy : p y
    · have := hgap y (List.mem_append_left _ hy) hpy
      simp only [hpy, Bool.true_and, decide_eq_decide]
      omega
    · simp [hpy]
  have hafter : ∀ t ≤ num x, post.filter (fun y => p y && decide (num y ≤ t)) = [] := by
    intro t ht
    rw [List.filter_eq_nil_iff]
    intro y hy
    have := hpost y hy
    simp only [Bool.and_eq_true, decide_eq_true_eq]
    omega
  rw [List.filter_append, List.filter_append, hbelow, List.filter_cons_of_pos (by simp [hp]),
    List.filter_cons_of_neg (by simp; omega), hafter _ le_rfl, hafter _ hlt.le, List.append_nil]

end Ascends

section Take

theorem take_cons (c : ℕ) (x : ρ) (l : List ρ) :
    take num c (x :: l) = if num x ≤ c then take num c l else x :: take num (num x) l := rfl

theorem cursor_cons (c : ℕ) (x : ρ) (l : List ρ) :
    cursor num c (x :: l) = if num x ≤ c then cursor num c l else cursor num (num x) l := rfl

theorem take_append (c : ℕ) (l l' : List ρ) :
    take num c (l ++ l') = take num c l ++ take num (cursor num c l) l' := by
  induction l generalizing c with
  | nil => rfl
  | cons y l ih =>
    rw [List.cons_append, take_cons, take_cons, cursor_cons]
    split_ifs
    · exact ih c
    · rw [ih, List.cons_append]

theorem lt_of_mem_take (h : x ∈ take num c l) : c < num x := by
  induction l generalizing c with
  | nil => exact absurd h List.not_mem_nil
  | cons y l ih =>
    rw [take_cons] at h
    split_ifs at h with hy
    · exact ih h
    · rcases List.mem_cons.mp h with rfl | h
      · omega
      · have := ih h
        omega

theorem take_of_ascends (h : Ascends num l) (hc : ∀ y ∈ l, c < num y) : take num c l = l := by
  induction l generalizing c with
  | nil => rfl
  | cons y l ih =>
    have hy := hc y List.mem_cons_self
    rw [take_cons, if_neg (by omega), ih h.tail h.head]

theorem cursor_of_ascends (h : Ascends num l) (hc : ∀ y ∈ l, c < num y) :
    cursor num c l = if l = [] then c else last num l := by
  induction l generalizing c with
  | nil => rfl
  | cons y l ih =>
    have hy := hc y List.mem_cons_self
    rw [cursor_cons, if_neg (by omega), ih h.tail h.head, if_neg (List.cons_ne_nil _ _)]
    unfold last
    split_ifs with hl
    · simp [hl]
    · rw [List.getLast?_cons_of_ne_nil hl]

/-- **A reader takes all that is above a bound**, if that ascends and the bound is not below it. -/
theorem take_filter (hc : c ≤ m) (h : Ascends num (l.filter fun y => decide (m < num y))) :
    (take num c l).filter (fun y => decide (m < num y)) =
      l.filter fun y => decide (m < num y) := by
  induction l generalizing c m with
  | nil => rfl
  | cons y l ih =>
    rw [take_cons]
    by_cases hm : m < num y
    · rw [List.filter_cons_of_pos (by simpa using hm)] at h
      have hy : ∀ z ∈ l, m < num z → num y < num z := fun z hz hmz =>
        (List.pairwise_cons.mp h).1 z (List.mem_filter.mpr ⟨hz, by simpa using hmz⟩)
      have hraise : l.filter (fun z => decide (num y < num z)) =
          l.filter fun z => decide (m < num z) := by
        refine List.filter_congr fun z hz => ?_
        have := hy z hz
        rw [decide_eq_decide]
        omega
      have hrest := ih (c := num y) le_rfl (by rw [hraise]; exact h.tail)
      have htake : (take num (num y) l).filter (fun z => decide (m < num z)) =
          (take num (num y) l).filter fun z => decide (num y < num z) := by
        refine List.filter_congr fun z hz => ?_
        have := lt_of_mem_take hz
        rw [decide_eq_decide]
        omega
      rw [if_neg (by omega), List.filter_cons_of_pos (by simpa using hm),
        List.filter_cons_of_pos (by simpa using hm), htake, hrest, hraise]
    · rw [List.filter_cons_of_neg (by simpa using hm)] at h
      rw [List.filter_cons_of_neg (by simpa using hm)]
      split_ifs with hy
      · exact ih hc h
      · rw [List.filter_cons_of_neg (by simpa using hm)]
        exact ih (by omega) h

end Take

end Zeron.Ascend
