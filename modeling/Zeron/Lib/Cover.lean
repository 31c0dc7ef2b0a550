import Mathlib

/-!
# Replicas of a versioned store

A store maps keys to values, each with the version of its last change; a replica holds a view of
it, filled from lists of values, and a cursor. Nothing here says how lists travel.

* `Covers`: the view has the store's current value wherever its version is at or below a bound;
* `Snapshot`, `Complete`: what a list of values read from the store keeps, however late it comes;
* `Advances`: how a store evolves, under which the three persist;
* **`covers_put`**: a complete snapshot moves the bound to its version;
* **`covers_put_stale`**: when a late list leaves the bound where it is.
-/

namespace Zeron.Cover

variable {κ ρ : Type*} (key : ρ → κ) (ver : ρ → ℕ)

/-- The view has the current value of everything last changed at or below `c`. -/
def Covers (store view : κ → Option ρ) (c : ℕ) : Prop :=
  ∀ k r, store k = some r → ver r ≤ c → view k = some r

/-- A value of the list that is still current as of version `n` is the current value. -/
def Snapshot (store : κ → Option ρ) (n : ℕ) (rows : List ρ) : Prop :=
  ∀ r ∈ rows, ∀ r', store (key r) = some r' → ver r' ≤ n → r' = r

/-- The list has every value last changed in `(since, n]`. -/
def Complete (store : κ → Option ρ) (since n : ℕ) (rows : List ρ) : Prop :=
  ∀ k r, store k = some r → since < ver r → ver r ≤ n → r ∈ rows

/-- The store moves on: values change only to versions above `n`, and may go. -/
def Advances (store store' : κ → Option ρ) (n : ℕ) : Prop :=
  ∀ k r, store' k = some r → store k = some r ∨ n < ver r

section Advance

variable {key ver} {store store' view : κ → Option ρ} {rows : List ρ} {n c since : ℕ}

theorem Covers.advance (h : Covers ver store view c) (ha : Advances ver store store' n)
    (hc : c ≤ n) : Covers ver store' view c := by
  intro k r hr hle
  apply h k r _ hle
  exact (ha k r hr).resolve_right (by omega)

theorem Snapshot.advance (h : Snapshot key ver store c rows) (ha : Advances ver store store' n)
    (hc : c ≤ n) : Snapshot key ver store' c rows := by
  intro r hr r' hr' hle
  apply h r hr r' _ hle
  exact (ha _ r' hr').resolve_right (by omega)

theorem Complete.advance (h : Complete ver store since c rows) (ha : Advances ver store store' n)
    (hc : c ≤ n) : Complete ver store' since c rows := by
  intro k r hr hlt hle
  apply h k r _ hlt hle
  exact (ha k r hr).resolve_right (by omega)

theorem Covers.mono (h : Covers ver store view c) (hle : n ≤ c) : Covers ver store view n :=
  fun k r hr hn => h k r hr (hn.trans hle)

theorem covers_zero (hpos : ∀ k r, store k = some r → 0 < ver r) (view : κ → Option ρ) :
    Covers ver store view 0 := by
  intro k r hr hle
  have := hpos k r hr
  omega

end Advance

/-! ## Filling a view -/

variable [DecidableEq κ]

/-- The values of a list put over a view, the last one under each key. -/
def put (view : κ → Option ρ) (rows : List ρ) : κ → Option ρ :=
  rows.foldl (fun view r => Function.update view (key r) (some r)) view

section Put

variable {key ver} {store view : κ → Option ρ} {rows : List ρ} {n c since : ℕ}

theorem put_cases (view : κ → Option ρ) (rows : List ρ) (k : κ) :
    (put key view rows k = view k ∧ ∀ r ∈ rows, key r ≠ k) ∨
      ∃ r ∈ rows, key r = k ∧ put key view rows k = some r := by
  induction rows using List.reverseRecOn with
  | nil => exact Or.inl ⟨rfl, by simp⟩
  | append_singleton rows r ih =>
    rw [put, List.foldl_append, List.foldl_cons, List.foldl_nil]
    by_cases hk : key r = k
    · subst hk
      exact Or.inr ⟨r, by simp, rfl, Function.update_self _ _ _⟩
    · rw [Function.update_of_ne (Ne.symm hk)]
      rcases ih with ⟨he, hne⟩ | ⟨r', hr', hkey, he⟩
      · refine Or.inl ⟨he, fun r' hr' => ?_⟩
        rcases List.mem_append.mp hr' with h | h
        · exact hne r' h
        · rw [List.mem_singleton.mp h]
          exact hk
      · exact Or.inr ⟨r', List.mem_append_left _ hr', hkey, he⟩

/-- **A complete snapshot moves the bound to its version.** -/
theorem covers_put (hkey : ∀ k r, store k = some r → key r = k)
    (hcov : Covers ver store view since) (hsnap : Snapshot key ver store n rows)
    (hcomp : Complete ver store since n rows) : Covers ver store (put key view rows) n := by
  intro k r hr hle
  rcases put_cases view rows k with ⟨he, hne⟩ | ⟨r', hr', hk, he⟩
  · rw [he]
    apply hcov k r hr
    -- a later change would be in the list
    by_contra hlt
    exact hne r (hcomp k r hr (not_le.mp hlt) hle) (hkey k r hr)
  · rw [he, ← hsnap r' hr' r (by rw [hk]; exact hr) hle]

/-- **A late list keeps the bound** where it has no value that the bound has passed. -/
theorem covers_put_stale (hcov : Covers ver store view c) (hsnap : Snapshot key ver store n rows)
    (hlate : ∀ r ∈ rows, ∀ r', store (key r) = some r' → ver r' ≤ c → ver r' ≤ n) :
    Covers ver store (put key view rows) c := by
  intro k r hr hle
  rcases put_cases view rows k with ⟨he, -⟩ | ⟨r', hr', hk, he⟩
  · rw [he]
    exact hcov k r hr hle
  · have hr : store (key r') = some r := by rw [hk]; exact hr
    rw [he, ← hsnap r' hr' r hr (hlate r' hr' r hr hle)]

end Put

end Zeron.Cover
