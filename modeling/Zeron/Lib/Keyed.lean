import Mathlib

/-!
# Folding over a map, one key at a time

A loop over the entries of an ordered map whose body only touches the entry's own key: what is
observed at a key after the loop is the body's effect there (`foldl_keyed`), and an attribute that
no pass touches is unchanged (`foldl_frame`).
-/

namespace Zeron.Keyed

open Std

variable {κ β σ ρ : Type*}

theorem foldl_list_keyed {step : σ → κ → β → σ} {obs : σ → κ → ρ} {eff : κ → β → ρ → ρ} :
    ∀ (l : List (κ × β)), (∀ e ∈ l, ∀ s, obs (step s e.1 e.2) e.1 = eff e.1 e.2 (obs s e.1)) →
      (∀ e ∈ l, ∀ s k', k' ≠ e.1 → obs (step s e.1 e.2) k' = obs s k') →
      l.Pairwise (fun a b => a.1 ≠ b.1) → ∀ s k,
      (∀ v, (k, v) ∈ l → obs (l.foldl (fun s e => step s e.1 e.2) s) k = eff k v (obs s k)) ∧
      ((∀ v, (k, v) ∉ l) → obs (l.foldl (fun s e => step s e.1 e.2) s) k = obs s k)
  | [], _, _, _, s, k => ⟨fun v h => absurd h List.not_mem_nil, fun _ => rfl⟩
  | (k₀, v₀) :: l, hself, hother, hd, s, k => by
    obtain ⟨hfst, hd⟩ := List.pairwise_cons.mp hd
    obtain ⟨hself₀, hself⟩ := List.forall_mem_cons.mp hself
    obtain ⟨hother₀, hother⟩ := List.forall_mem_cons.mp hother
    have ih := foldl_list_keyed l hself hother hd (step s k₀ v₀) k
    rw [List.foldl_cons]
    refine ⟨fun v hv => ?_, fun hk => ?_⟩
    · rcases List.mem_cons.mp hv with h | h
      · -- the listed key is the first one: no later pass returns to it
        cases h
        rw [ih.2 fun v hv => hfst _ hv rfl]
        exact hself₀ _
      · rw [ih.1 v h, hother₀ _ _ (Ne.symm (hfst _ h))]
    · have hne : k ≠ k₀ := fun h => hk v₀ (by rw [h]; exact List.mem_cons_self)
      rw [ih.2 fun v hv => hk v (List.mem_cons_of_mem _ hv), hother₀ _ _ hne]

variable [Ord κ] [TransOrd κ] [LawfulEqOrd κ]

theorem pairwise_toList (m : ExtTreeMap κ β compare) :
    m.toList.Pairwise fun a b => a.1 ≠ b.1 :=
  m.distinct_keys_toList.imp fun h he => h (by rw [he]; exact ReflCmp.compare_self)

/-- The effect of a loop over a map at one key, where the passes keep to their own keys on the
entries of this map. -/
theorem foldl_keyed_mem (step : σ → κ → β → σ) (obs : σ → κ → ρ) (eff : κ → β → ρ → ρ)
    (m : ExtTreeMap κ β compare)
    (hself : ∀ k v, m[k]? = some v → ∀ s, obs (step s k v) k = eff k v (obs s k))
    (hother : ∀ k v, m[k]? = some v → ∀ s k', k' ≠ k → obs (step s k v) k' = obs s k')
    (s : σ) (k : κ) :
    obs (m.foldl step s) k = match m[k]? with
      | none => obs s k
      | some v => eff k v (obs s k) := by
  rw [ExtTreeMap.foldl_eq_foldl_toList]
  have h := foldl_list_keyed m.toList
    (fun e he => hself e.1 e.2 (ExtTreeMap.mem_toList_iff_getElem?_eq_some.mp he))
    (fun e he => hother e.1 e.2 (ExtTreeMap.mem_toList_iff_getElem?_eq_some.mp he))
    (pairwise_toList m) s k
  cases hk : m[k]? with
  | none =>
    refine h.2 fun v hv => ?_
    rw [ExtTreeMap.mem_toList_iff_getElem?_eq_some, hk] at hv
    exact absurd hv (by simp)
  | some v => exact h.1 v (ExtTreeMap.mem_toList_iff_getElem?_eq_some.mpr hk)

/-- **The effect of a loop over a map, at one key.** -/
theorem foldl_keyed (step : σ → κ → β → σ) (obs : σ → κ → ρ) (eff : κ → β → ρ → ρ)
    (hself : ∀ s k v, obs (step s k v) k = eff k v (obs s k))
    (hother : ∀ s k v k', k' ≠ k → obs (step s k v) k' = obs s k')
    (m : ExtTreeMap κ β compare) (s : σ) (k : κ) :
    obs (m.foldl step s) k = match m[k]? with
      | none => obs s k
      | some v => eff k v (obs s k) :=
  foldl_keyed_mem step obs eff m (fun k v _ s => hself s k v) (fun k v _ s => hother s k v) s k

omit [LawfulEqOrd κ] in
theorem foldl_frame {step : σ → κ → β → σ} {f : σ → ρ} (hf : ∀ s k v, f (step s k v) = f s)
    (m : ExtTreeMap κ β compare) (s : σ) : f (m.foldl step s) = f s := by
  rw [ExtTreeMap.foldl_eq_foldl_toList]
  induction m.toList generalizing s with
  | nil => rfl
  | cons e l ih => rw [List.foldl_cons, ih, hf]

end Zeron.Keyed
