import Mathlib

/-!
# Sorted lists as views of a set

A list without repetitions in the order of an antisymmetric relation is determined by its members.

* **`eq_of_mem_iff`**: one set, one list;
* `pairwise_insertIdx`, `mem_insertIdx_iff`: a new member at its place.
-/

namespace Zeron.Sorted

variable {α : Type*} {r : α → α → Prop}

/-- **The members determine the list.** -/
theorem eq_of_mem_iff [Std.Antisymm r] {l l' : List α} (hl : l.Pairwise r) (hl' : l'.Pairwise r)
    (hn : l.Nodup) (hn' : l'.Nodup) (h : ∀ a, a ∈ l ↔ a ∈ l') : l = l' :=
  ((List.perm_ext_iff_of_nodup hn hn').mpr h).eq_of_pairwise' hl hl'

theorem insertIdx_eq_append {l : List α} {i : ℕ} (hi : i ≤ l.length) (a : α) :
    l.insertIdx i a = l.take i ++ a :: l.drop i := by
  induction l generalizing i with
  | nil =>
    obtain rfl : i = 0 := Nat.le_zero.mp hi
    rfl
  | cons b l ih =>
    cases i with
    | zero => rfl
    | succ i =>
      rw [List.insertIdx_succ_cons, ih (Nat.le_of_succ_le_succ hi)]
      rfl

theorem pairwise_insertIdx {l : List α} {i : ℕ} {a : α} (hi : i ≤ l.length) (hl : l.Pairwise r)
    (hlow : ∀ b ∈ l.take i, r b a) (hup : ∀ b ∈ l.drop i, r a b) :
    (l.insertIdx i a).Pairwise r := by
  have hsplit := List.take_append_drop i l
  rw [← hsplit, List.pairwise_append] at hl
  obtain ⟨htake, hdrop, hcross⟩ := hl
  rw [insertIdx_eq_append hi, List.pairwise_append, List.pairwise_cons]
  refine ⟨htake, ⟨hup, hdrop⟩, fun b hb c hc => ?_⟩
  rcases List.mem_cons.mp hc with rfl | hc
  · exact hlow b hb
  · exact hcross b hb c hc

theorem nodup_insertIdx {l : List α} {i : ℕ} {a : α} (hi : i ≤ l.length) (hn : l.Nodup)
    (ha : a ∉ l) : (l.insertIdx i a).Nodup :=
  (List.perm_insertIdx a l hi).nodup_iff.mpr (List.nodup_cons.mpr ⟨ha, hn⟩)

theorem mem_insertIdx_iff {l : List α} {i : ℕ} {a b : α} (hi : i ≤ l.length) :
    b ∈ l.insertIdx i a ↔ b = a ∨ b ∈ l := List.mem_insertIdx hi

theorem idxOf_insertIdx [DecidableEq α] {l : List α} {i : ℕ} {a : α} (hi : i ≤ l.length)
    (ha : a ∉ l) : (l.insertIdx i a).idxOf a = i := by
  rw [insertIdx_eq_append hi, List.idxOf_append_of_notMem fun hm => ha (List.mem_of_mem_take hm),
    List.idxOf_cons_self, List.length_take]
  omega

end Zeron.Sorted
