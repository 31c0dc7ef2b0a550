import Mathlib

/-!
# Parts between separators

* `not_mem_of_mem_splitOn`, `length_splitOn`: no part has a separator, and how many there are;
* `splitOn_getLast?`: when the last part is empty;
* **`splitOn_ended`**: fields with a separator behind each.
-/

namespace Zeron

variable {α : Type*} [DecidableEq α] (a : α)

theorem not_mem_of_mem_splitOn (xs : List α) : ∀ part ∈ xs.splitOn a, a ∉ part := by
  induction xs with
  | nil => simp
  | cons x xs ih =>
    rw [List.splitOn_cons_eq_if_modifyHead]
    cases hs : xs.splitOn a with
    | nil => exact absurd hs (List.splitOn_ne_nil _ _)
    | cons part parts =>
      rw [hs, List.forall_mem_cons] at ih
      by_cases hx : x = a
      · simpa [hx, ih.1] using ih.2
      · simpa [hx, ih.1, Ne.symm hx] using ih.2

theorem length_splitOn (xs : List α) : (xs.splitOn a).length = xs.count a + 1 := by
  induction xs with
  | nil => simp
  | cons x xs ih =>
    rw [List.splitOn_cons_eq_if_modifyHead, List.count_cons]
    split_ifs <;> simp [ih]

theorem splitOn_getLast? (xs : List α) :
    (xs.splitOn a).getLast? = some [] ↔ xs = [] ∨ xs.getLast? = some a := by
  induction xs with
  | nil => simp
  | cons x xs ih =>
    have hparts := not_mem_of_mem_splitOn a xs
    have hjoin : [a].intercalate (xs.splitOn a) = xs := List.intercalate_splitOn a
    rw [List.splitOn_cons_eq_if_modifyHead]
    cases hs : xs.splitOn a with
    | nil => exact absurd hs (List.splitOn_ne_nil _ _)
    | cons part parts =>
      rw [hs] at ih hparts hjoin
      cases parts with
      | nil =>
        -- no separator is left
        have he : part = xs := by simpa using hjoin
        have hlast : xs.getLast? ≠ some a := fun h =>
          hparts part List.mem_cons_self (he ▸ List.mem_of_getLast? h)
        cases xs with
        | nil => by_cases hx : x = a <;> simp [hx, he]
        | cons y xs => by_cases hx : x = a <;> simpa [hx, he] using hlast
      | cons next parts =>
        have hne : xs ≠ [] := by
          rintro rfl
          simp at hs
        obtain ⟨y, ys, rfl⟩ := List.exists_cons_of_ne_nil hne
        by_cases hx : x = a <;> simpa [hx] using ih

/-- **Fields with a separator behind each.** -/
theorem splitOn_ended {fields : List (List α)} (h : ∀ field ∈ fields, a ∉ field) (xs : List α) :
    ((fields.flatMap fun field => field ++ [a]) ++ xs).splitOn a = fields ++ xs.splitOn a := by
  induction fields with
  | nil => rfl
  | cons field fields ih =>
    rw [List.forall_mem_cons] at h
    rw [List.flatMap_cons, List.append_assoc, List.append_assoc, List.singleton_append,
      List.splitOn_append_cons_self_of_not_mem h.1, ih h.2, List.cons_append]

end Zeron
