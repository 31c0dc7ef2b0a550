import Mathlib

/-!
# Inputs that a machine does not see

A machine `σ → ι → σ × List ω` answers every input with outputs. An input is hidden if the machine
keeps its state on it and puts out nothing that an observer sees.

* `run`: the state after a list of inputs, and all their outputs;
* `Hides`: the inputs of a class are hidden;
* **`run_drop`**: hidden inputs may be left out;
* **`run_agree`**: two lists of inputs with the same visible inputs look the same.
-/

namespace Zeron.Hidden

variable {σ ι ω : Type*} (step : σ → ι → σ × List ω)

def run (s : σ) : List ι → σ × List ω
  | [] => (s, [])
  | i :: is => ((run (step s i).1 is).1, (step s i).2 ++ (run (step s i).1 is).2)

@[simp] theorem run_cons_fst (s : σ) (i : ι) (is : List ι) :
    (run step s (i :: is)).1 = (run step (step s i).1 is).1 := rfl

@[simp] theorem run_cons_snd (s : σ) (i : ι) (is : List ι) :
    (run step s (i :: is)).2 = (step s i).2 ++ (run step (step s i).1 is).2 := rfl

/-- What the observer sees of the outputs. -/
def view (seen : ω → Bool) (s : σ) (is : List ι) : List ω := (run step s is).2.filter seen

/-- The inputs that `visible` leaves out do nothing to the state, and show the observer nothing. -/
structure Hides (visible : ι → Bool) (seen : ω → Bool) : Prop where
  state : ∀ s i, visible i = false → (step s i).1 = s
  outputs : ∀ s i, visible i = false → ∀ o ∈ (step s i).2, seen o = false

variable {step} {visible : ι → Bool} {seen : ω → Bool}

/-- **Hidden inputs may be left out.** -/
theorem Hides.run_drop (h : Hides step visible seen) (s : σ) (is : List ι) :
    (run step s is).1 = (run step s (is.filter visible)).1 ∧
      view step seen s is = view step seen s (is.filter visible) := by
  induction is generalizing s with
  | nil => exact ⟨rfl, rfl⟩
  | cons i is ih =>
    cases hi : visible i with
    | true =>
      obtain ⟨hstate, hview⟩ := ih (step s i).1
      rw [List.filter_cons_of_pos hi]
      refine ⟨hstate, ?_⟩
      unfold view at hview ⊢
      rw [run_cons_snd, run_cons_snd, List.filter_append, List.filter_append, hview]
    | false =>
      obtain ⟨hstate, hview⟩ := ih s
      rw [List.filter_cons_of_neg (by simp [hi])]
      have hnone : (step s i).2.filter seen = [] :=
        List.filter_eq_nil_iff.mpr fun o ho => by simp [h.outputs s i hi o ho]
      refine ⟨?_, ?_⟩
      · rw [run_cons_fst, h.state s i hi]
        exact hstate
      · unfold view at hview ⊢
        rw [run_cons_snd, List.filter_append, hnone, List.nil_append, h.state s i hi, hview]

/-- **Two lists of inputs with the same visible inputs look the same.** -/
theorem Hides.run_agree (h : Hides step visible seen) (s : σ) {is js : List ι}
    (he : is.filter visible = js.filter visible) :
    (run step s is).1 = (run step s js).1 ∧ view step seen s is = view step seen s js := by
  obtain ⟨hi, hiv⟩ := h.run_drop s is
  obtain ⟨hj, hjv⟩ := h.run_drop s js
  rw [hi, hj, hiv, hjv, he]
  exact ⟨rfl, rfl⟩

end Zeron.Hidden
