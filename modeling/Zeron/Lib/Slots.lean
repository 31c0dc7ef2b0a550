import Mathlib

/-!
# Tasks in slots, and what they hold

Any number of tasks run beside each other, one in each slot.

* `Exclusive`: no two slots hold the same thing;
* `Exclusive.keep`, `Exclusive.take`: a task that takes nothing new, or what no other slot holds;
* `Held`: a shared set is what the slots hold; `Held.keep`, `Held.take`, `Held.drop`.
-/

namespace Zeron.Slots

variable {τ κ : Type*} {holds : τ → Option κ} {slots : ℕ → τ} {set : Finset κ} {i : ℕ} {t : τ}
  {k : κ}

/-- No two slots hold the same thing. -/
def Exclusive (holds : τ → Option κ) (slots : ℕ → τ) : Prop :=
  ∀ i j k, holds (slots i) = some k → holds (slots j) = some k → i = j

/-- The shared set has what a slot holds, and no more. -/
def Held (holds : τ → Option κ) (slots : ℕ → τ) (set : Finset κ) : Prop :=
  ∀ k, k ∈ set ↔ ∃ i, holds (slots i) = some k

theorem exclusive_of_none (h : ∀ i, holds (slots i) = none) : Exclusive holds slots := by
  intro i j k hi
  rw [h] at hi
  cases hi

theorem forall_update (P : τ → Prop) (ht : P t) (h : ∀ j, j ≠ i → P (slots j)) :
    ∀ j, P (Function.update slots i t j) :=
  (Function.forall_update_iff slots fun _ t => P t).mpr ⟨ht, h⟩

theorem held_cases {j : ℕ} (h : holds (Function.update slots i t j) = some k) :
    (j = i ∧ holds t = some k) ∨ (j ≠ i ∧ holds (slots j) = some k) := by
  by_cases hj : j = i
  · rw [hj, Function.update_self] at h
    exact .inl ⟨hj, h⟩
  · rw [Function.update_of_ne hj] at h
    exact .inr ⟨hj, h⟩

theorem Exclusive.keep (h : Exclusive holds slots)
    (ht : ∀ k, holds t = some k → holds (slots i) = some k) :
    Exclusive holds (Function.update slots i t) := by
  intro a b k ha hb
  have hold : ∀ j, holds (Function.update slots i t j) = some k → holds (slots j) = some k := by
    intro j hj
    rcases held_cases hj with ⟨rfl, hk⟩ | ⟨-, hk⟩
    · exact ht k hk
    · exact hk
  exact h a b k (hold a ha) (hold b hb)

theorem Exclusive.take (h : Exclusive holds slots) (ht : holds t = some k)
    (hfree : ∀ j, holds (slots j) ≠ some k) : Exclusive holds (Function.update slots i t) := by
  intro a b l ha hb
  rcases held_cases ha with ⟨hai, hal⟩ | ⟨-, hal⟩ <;>
    rcases held_cases hb with ⟨hbi, hbl⟩ | ⟨-, hbl⟩
  · exact hai.trans hbi.symm
  · rw [ht] at hal
    exact absurd (hal ▸ hbl) (hfree b)
  · rw [ht] at hbl
    exact absurd (hbl ▸ hal) (hfree a)
  · exact h a b l hal hbl

theorem held_empty (h : ∀ i, holds (slots i) = none) : Held holds slots ∅ := by
  intro k
  simp [h]

theorem Held.keep (h : Held holds slots set) (ht : holds t = holds (slots i)) :
    Held holds (Function.update slots i t) set := by
  intro k
  rw [h k]
  refine exists_congr fun j => ?_
  by_cases hj : j = i
  · subst hj
    rw [Function.update_self, ht]
  · rw [Function.update_of_ne hj]

section Set

variable [DecidableEq κ]

theorem Held.take (h : Held holds slots set) (ht : holds t = some k)
    (hnone : holds (slots i) = none) : Held holds (Function.update slots i t) (insert k set) := by
  intro l
  rw [Finset.mem_insert, h l]
  constructor
  · rintro (rfl | ⟨j, hj⟩)
    · exact ⟨i, by rwa [Function.update_self]⟩
    · have hji : j ≠ i := by
        rintro rfl
        rw [hnone] at hj
        cases hj
      exact ⟨j, by rwa [Function.update_of_ne hji]⟩
  · rintro ⟨j, hj⟩
    rcases held_cases hj with ⟨-, hl⟩ | ⟨-, hl⟩
    · rw [ht, Option.some_inj] at hl
      exact .inl hl.symm
    · exact .inr ⟨j, hl⟩

theorem Held.drop (h : Held holds slots set) (hx : Exclusive holds slots) (ht : holds t = none)
    (hi : holds (slots i) = some k) : Held holds (Function.update slots i t) (set.erase k) := by
  intro l
  rw [Finset.mem_erase, h l]
  constructor
  · rintro ⟨hl, j, hj⟩
    have hji : j ≠ i := by
      rintro rfl
      rw [hi, Option.some_inj] at hj
      exact hl hj.symm
    exact ⟨j, by rwa [Function.update_of_ne hji]⟩
  · rintro ⟨j, hj⟩
    rcases held_cases hj with ⟨-, hl⟩ | ⟨hji, hl⟩
    · rw [ht] at hl
      cases hl
    · refine ⟨?_, j, hl⟩
      rintro rfl
      exact hji (hx j i l hl hi)

end Set

end Zeron.Slots
