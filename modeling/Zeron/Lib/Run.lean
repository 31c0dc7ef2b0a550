import Mathlib

/-!
# Runs of a partial step function

A system is a step function `σ → α → Option σ`: an action is refused, or leads to one next state.

* `exec`: the state after a list of actions; `of_guard`: an action that is taken;
* `Guarded`: every action of a run meets a condition at the state it finds; `checks` computes it;
* **`exec_invariant`**: what every guarded step keeps holds at the end of every guarded run;
* **`foldl_filter_noop`**: actions that change nothing where they stand may be dropped;
* `mem_eraseIdx`: the entries of a list of calls that stay when one of them is taken out.
-/

namespace Zeron.Run

variable {σ α : Type*}

theorem of_guard {p : Prop} [Decidable p] {s s' : σ}
    (h : (if p then some s else none) = some s') : p ∧ s = s' := by
  simpa using h

section Exec

variable (step : σ → α → Option σ)

/-- The state after the actions; `none` if one was refused. -/
def exec (s : σ) : List α → Option σ
  | [] => some s
  | a :: as => (step s a).bind fun s' => exec s' as

@[simp] theorem exec_nil (s : σ) : exec step s [] = some s := rfl

theorem exec_append (s : σ) (as bs : List α) :
    exec step s (as ++ bs) = (exec step s as).bind fun s' => exec step s' bs := by
  induction as generalizing s with
  | nil => rfl
  | cons a as ih =>
    rw [List.cons_append, exec, exec, Option.bind_assoc]
    exact congrArg _ (funext fun s' => ih s')

theorem exec_concat (s : σ) (as : List α) (a : α) :
    exec step s (as ++ [a]) = (exec step s as).bind fun s' => step s' a := by
  rw [exec_append]
  simp only [exec, Option.bind_fun_some]

/-- Every action meets `G` at the state it finds. -/
def Guarded (G : σ → α → Prop) (s : σ) (as : List α) : Prop :=
  ∀ pre a post s', as = pre ++ a :: post → exec step s pre = some s' → G s' a

variable {step} {G : σ → α → Prop}

theorem guarded_nil (s : σ) : Guarded step G s [] := by
  intro pre a post s' he
  simp at he

theorem guarded_cons {s : σ} {a : α} {as : List α} (h : G s a)
    (hrest : ∀ s', step s a = some s' → Guarded step G s' as) : Guarded step G s (a :: as) := by
  rintro (_ | ⟨b, pre⟩) c post s' he hpre
  · rw [List.nil_append, List.cons.injEq] at he
    rw [exec_nil, Option.some_inj] at hpre
    rw [← he.1, ← hpre]
    exact h
  · rw [List.cons_append, List.cons.injEq] at he
    rw [← he.1, exec, Option.bind_eq_some_iff] at hpre
    obtain ⟨s₁, h₁, hpre⟩ := hpre
    exact hrest s₁ h₁ pre c post s' he.2 hpre

/-- The guard along a run, computed. -/
def checks (step : σ → α → Option σ) (G : σ → α → Prop) [∀ s a, Decidable (G s a)] (s : σ) :
    List α → Bool
  | [] => true
  | a :: as => decide (G s a) && (step s a).all fun s' => checks step G s' as

theorem guarded_of_checks [∀ s a, Decidable (G s a)] {s : σ} {as : List α}
    (h : checks step G s as = true) : Guarded step G s as := by
  induction as generalizing s with
  | nil => exact guarded_nil s
  | cons a as ih =>
    rw [checks, Bool.and_eq_true, decide_eq_true_iff] at h
    refine guarded_cons h.1 fun s' hs' => ih ?_
    have hall := h.2
    rwa [hs', Option.all_some] at hall

theorem Guarded.left {s : σ} {as bs : List α} (h : Guarded step G s (as ++ bs)) :
    Guarded step G s as := by
  intro pre b post s' he hpre
  exact h pre b (post ++ bs) s' (by rw [he]; simp) hpre

theorem Guarded.right {s s₁ : σ} {as bs : List α} (h : Guarded step G s (as ++ bs))
    (hs : exec step s as = some s₁) : Guarded step G s₁ bs := by
  intro pre b post s' he hpre
  refine h (as ++ pre) b post s' (by rw [he, List.append_assoc]) ?_
  rw [exec_append, hs]
  exact hpre

theorem Guarded.append {s s₁ : σ} {as bs : List α} (h : Guarded step G s as)
    (hs : exec step s as = some s₁) (h' : Guarded step G s₁ bs) :
    Guarded step G s (as ++ bs) := by
  induction as generalizing s with
  | nil =>
    rw [exec_nil, Option.some_inj] at hs
    exact hs ▸ h'
  | cons a as ih =>
    refine guarded_cons (h [] a as s rfl rfl) fun s' hs' => ?_
    have htail : Guarded step G s' as := by
      refine @Guarded.right _ _ _ _ _ s' [a] _ h ?_
      rw [exec, hs']
      rfl
    rw [exec, hs'] at hs
    exact ih htail hs

/-- **What every guarded step keeps holds after every guarded run.** -/
theorem exec_invariant {I : σ → Prop}
    (hstep : ∀ s a s', I s → G s a → step s a = some s' → I s') {s : σ} (h : I s) {as : List α}
    (hg : Guarded step G s as) {s' : σ} (he : exec step s as = some s') : I s' := by
  induction as using List.reverseRecOn generalizing s' with
  | nil => cases he; exact h
  | append_singleton as a ih =>
    rw [exec_concat, Option.bind_eq_some_iff] at he
    obtain ⟨s₁, h₁, ha⟩ := he
    exact hstep s₁ a s' (ih hg.left h₁) (hg as a [] s₁ rfl h₁) ha

theorem exec_invariant_at {I : σ → Prop}
    (hstep : ∀ s a s', I s → G s a → step s a = some s' → I s') {s : σ} (h : I s) {as : List α}
    (hg : Guarded step G s as) {pre : List α} {a : α} {post : List α} (he : as = pre ++ a :: post)
    {s' : σ} (hpre : exec step s pre = some s') : I s' ∧ G s' a := by
  refine ⟨exec_invariant hstep h ?_ hpre, hg pre a post s' he hpre⟩
  rw [he] at hg
  exact hg.left

end Exec

/-- **Actions that change nothing where they stand may be dropped.** -/
theorem foldl_filter_noop {f : σ → α → σ} {p : α → Bool} {s : σ} (l : List α)
    (h : ∀ (pre : List α) (a : α) (post : List α), l = pre ++ a :: post → p a = false →
      f (pre.foldl f s) a = pre.foldl f s) :
    l.foldl f s = (l.filter p).foldl f s := by
  induction l using List.reverseRecOn with
  | nil => rfl
  | append_singleton l a ih =>
    have ih := ih fun pre b post he => h pre b (post ++ [a]) (by rw [he]; simp)
    rw [List.foldl_append, List.filter_append, List.foldl_append, ← ih]
    by_cases hp : p a = true
    · rw [List.filter_cons_of_pos hp, List.filter_nil]
    · rw [List.filter_cons_of_neg hp, List.filter_nil]
      exact h l a [] rfl (by simpa using hp)

theorem mem_eraseIdx {l : List α} {i : ℕ} {a b : α} (ha : l[i]? = some a) (hb : b ∈ l) :
    b = a ∨ b ∈ l.eraseIdx i := by
  by_cases he : b = a
  · exact Or.inl he
  · refine Or.inr (List.mem_eraseIdx_iff_getElem?.mpr ?_)
    obtain ⟨j, hj⟩ := List.getElem?_of_mem hb
    refine ⟨j, fun hji => he ?_, hj⟩
    rw [hji, ha] at hj
    exact (Option.some_inj.mp hj).symm

end Zeron.Run
