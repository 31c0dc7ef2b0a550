import Mathlib

/-!
# The first entries of a list, kept while it grows

A list that is sorted and cut whenever it outgrows a limit, and sorted at the end.

* `top`: the first `k` of the sorted list;
* `push`: one more entry;
* **`mergeSort_foldl_push`**: the entries kept are the first ones of all;
* `top_perm`: the order in which the entries come does not matter.
-/

namespace Zeron.Top

variable {α : Type*} (le : α → α → Bool)

/-- The first `k` of the sorted list. -/
def top (k : ℕ) (l : List α) : List α := (l.mergeSort le).take k

/-- An entry behind those that are kept. -/
def push (k : ℕ) (kept : List α) (x : α) : List α :=
  if k < (kept ++ [x]).length then top le k (kept ++ [x]) else kept ++ [x]

variable {le} {k : ℕ} {l l' kept : List α} {x : α}

theorem take_orderedInsert (r : α → α → Prop) [DecidableRel r] (k : ℕ) (x : α) (s : List α) :
    ((s.take k).orderedInsert r x).take k = (s.orderedInsert r x).take k := by
  induction s generalizing k with
  | nil => simp
  | cons a s ih =>
    cases k with
    | zero => simp
    | succ k =>
      rw [List.take_succ_cons, List.orderedInsert, List.orderedInsert]
      split_ifs
      · rw [List.take_succ_cons, List.take_succ_cons, List.cons_inj_right]
        cases k with
        | zero => rfl
        | succ k => simp [List.take_take]
      · rw [List.take_succ_cons, List.take_succ_cons, ih]

section Order

variable (htrans : ∀ a b c, le a b → le b c → le a c) (htotal : ∀ a b, le a b || le b a)

include htrans htotal

theorem mergeSort_perm (hanti : ∀ a ∈ l, ∀ b ∈ l, le a b → le b a → a = b) (h : l.Perm l') :
    l.mergeSort le = l'.mergeSort le := by
  refine @List.Perm.eq_of_pairwise α (fun a b => le a b = true) _ _ (fun a b ha hb hab hba => ?_)
    (List.pairwise_mergeSort htrans htotal l) (List.pairwise_mergeSort htrans htotal l')
    (((List.mergeSort_perm l le).trans h).trans (List.mergeSort_perm l' le).symm)
  exact hanti a (List.mem_mergeSort.mp ha) b (h.mem_iff.mpr (List.mem_mergeSort.mp hb)) hab hba

theorem top_perm (hanti : ∀ a ∈ l, ∀ b ∈ l, le a b → le b a → a = b) (h : l.Perm l') :
    top le k l = top le k l' := by
  rw [top, top, mergeSort_perm htrans htotal hanti h]

theorem mergeSort_append_singleton
    (hanti : ∀ a ∈ l ++ [x], ∀ b ∈ l ++ [x], le a b → le b a → a = b) :
    (l ++ [x]).mergeSort le = (l.mergeSort le).orderedInsert (fun a b => le a b) x := by
  have : IsTrans α fun a b => le a b = true := ⟨htrans⟩
  have : Std.Total fun a b => le a b = true := ⟨fun a b => by simpa using htotal a b⟩
  have hperm : ((l ++ [x]).mergeSort le).Perm
      ((l.mergeSort le).orderedInsert (fun a b => le a b) x) :=
    ((List.mergeSort_perm _ le).trans (List.perm_append_singleton x l)).trans
      (((List.mergeSort_perm l le).symm.cons x).trans (List.perm_orderedInsert _ x _).symm)
  refine @List.Perm.eq_of_pairwise α (fun a b => le a b = true) _ _ (fun a b ha hb hab hba => ?_)
    (List.pairwise_mergeSort htrans htotal _)
    ((List.pairwise_mergeSort htrans htotal l).orderedInsert x _) hperm
  exact hanti a (List.mem_mergeSort.mp ha) b (List.mem_mergeSort.mp (hperm.mem_iff.mpr hb)) hab hba

theorem mergeSort_push (hkept : kept.mergeSort le = top le k l)
    (hanti : ∀ a ∈ l ++ [x], ∀ b ∈ l ++ [x], le a b → le b a → a = b) :
    (push le k kept x).mergeSort le = top le k (l ++ [x]) := by
  have hmem : ∀ a ∈ kept, a ∈ l := fun a ha => by
    have ha := hkept ▸ List.mem_mergeSort.mpr ha
    exact List.mem_mergeSort.mp (List.mem_of_mem_take ha)
  have hanti' : ∀ a ∈ kept ++ [x], ∀ b ∈ kept ++ [x], le a b → le b a → a = b := by
    have hsub : kept ++ [x] ⊆ l ++ [x] :=
      List.append_subset.mpr ⟨fun a ha => List.mem_append_left _ (hmem a ha),
        List.subset_append_right _ _⟩
    exact fun a ha b hb => hanti a (hsub ha) b (hsub hb)
  have htop : top le k (kept ++ [x]) = top le k (l ++ [x]) := by
    rw [top, top, mergeSort_append_singleton htrans htotal hanti',
      mergeSort_append_singleton htrans htotal hanti, hkept, top, take_orderedInsert]
  rw [push]
  split_ifs with hfull
  · rw [htop]
    exact List.mergeSort_of_pairwise
      ((List.pairwise_mergeSort htrans htotal _).sublist (List.take_sublist _ _))
  · rw [← htop, top, List.take_of_length_le]
    rw [List.length_mergeSort]
    exact not_lt.mp hfull

/-- **What is kept are the first entries of all.** -/
theorem mergeSort_foldl_push (hanti : ∀ a ∈ l, ∀ b ∈ l, le a b → le b a → a = b) :
    (l.foldl (push le k) []).mergeSort le = top le k l := by
  induction l using List.reverseRecOn with
  | nil => simp [top]
  | append_singleton l x ih =>
    have hkept := ih fun a ha b hb =>
      hanti a (List.mem_append_left _ ha) b (List.mem_append_left _ hb)
    rw [List.foldl_append, List.foldl_cons, List.foldl_nil]
    exact mergeSort_push htrans htotal hkept hanti

end Order

end Zeron.Top
