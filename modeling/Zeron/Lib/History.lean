import Mathlib

/-!
# Histories

What a log of events says, event by event.

* `Each`: every event meets a condition on what came before it; `each_concat`;
* `latest`: the last verdict a history gives; `latest_concat`.
-/

namespace Zeron.History

variable {α β : Type*}

/-- Every event meets `P` after what came before it. -/
def Each (P : List α → α → Prop) (l : List α) : Prop :=
  ∀ pre e post, l = pre ++ e :: post → P pre e

theorem each_nil (P : List α → α → Prop) : Each P [] := by
  intro pre e post h
  simp at h

theorem each_concat {P : List α → α → Prop} {l : List α} {x : α} :
    Each P (l ++ [x]) ↔ Each P l ∧ P l x := by
  constructor
  · intro h
    exact ⟨fun pre e post he => h pre e (post ++ [x]) (by rw [he]; simp), h l x [] rfl⟩
  · rintro ⟨hl, hx⟩ pre e post he
    induction post using List.reverseRecOn with
    | nil =>
      obtain ⟨rfl, rfl⟩ := List.append_singleton_inj.mp he
      exact hx
    | append_singleton post y _ =>
      have hsplit : l ++ [x] = (pre ++ e :: post) ++ [y] := by rw [he]; simp
      exact hl pre e post (List.append_singleton_inj.mp hsplit).1

/-- The last verdict that `f` gives along a history. -/
def latest (f : α → Option β) (l : List α) : Option β := (l.filterMap f).getLast?

@[simp] theorem latest_concat (f : α → Option β) (l : List α) (x : α) :
    latest f (l ++ [x]) = (f x).or (latest f l) := by
  rw [latest, List.filterMap_append]
  cases h : f x with
  | none => simp [latest, h]
  | some b => simp [h]

end Zeron.History
