import Mathlib

/-!
# Reordering a list by moving items behind their predecessors

The items of a target list are visited in order; an item that is not kept is taken out and put
right behind the one before it in the target. The kept items stay where they are.

* `insertAfter`, `place`, `settle`: the moves;
* `mem_settle`, `nodup_settle`: what is in the result;
* `filter_settle`: the kept items keep their order;
* **`settle_eq_iff`**: the target is reached exactly if the kept items stand in its order.
-/

namespace Zeron.Relink

variable {κ : Type*} [DecidableEq κ]

/-- `x` right behind `a`. -/
def insertAfter (x a : κ) : List κ → List κ
  | [] => []
  | b :: l => if b = a then b :: x :: l else b :: insertAfter x a l

/-- `x` taken out and put behind `a`, or at the head. -/
def place (x : κ) (a : Option κ) (l : List κ) : List κ :=
  match a with
  | none => x :: l.erase x
  | some a => insertAfter x a (l.erase x)

/-- The moves for the items to come, `a` being the last one visited. -/
def settle (keep : κ → Bool) : Option κ → List κ → List κ → List κ
  | _, [], l => l
  | a, x :: xs, l => settle keep (some x) xs (if keep x then l else place x a l)

section InsertAfter

variable {x a : κ} {l : List κ}

theorem insertAfter_cons_self : insertAfter x a (a :: l) = a :: x :: l := if_pos rfl

theorem insertAfter_cons_of_ne {b : κ} (hb : b ≠ a) :
    insertAfter x a (b :: l) = b :: insertAfter x a l := if_neg hb

theorem perm_insertAfter (h : a ∈ l) : (insertAfter x a l).Perm (x :: l) := by
  induction l with
  | nil => cases h
  | cons b l ih =>
    unfold insertAfter
    split_ifs with hb
    · exact List.Perm.swap x b l
    · have h : a ∈ l := (List.mem_cons.mp h).resolve_left (Ne.symm hb)
      exact ((ih h).cons b).trans (List.Perm.swap x b l)

theorem filter_insertAfter {p : κ → Bool} (hx : p x = true) (ha : p a = true) :
    (insertAfter x a l).filter p = insertAfter x a (l.filter p) := by
  induction l with
  | nil => rfl
  | cons b l ih =>
    by_cases hb : b = a
    · subst hb
      simp [ha, hx, insertAfter_cons_self]
    · rw [insertAfter_cons_of_ne hb]
      by_cases hp : p b = true
      · rw [List.filter_cons_of_pos hp, List.filter_cons_of_pos hp, ih, insertAfter_cons_of_ne hb]
      · rw [List.filter_cons_of_neg hp, List.filter_cons_of_neg hp, ih]

theorem filter_insertAfter_of_neg {p : κ → Bool} (hx : p x = false) :
    (insertAfter x a l).filter p = l.filter p := by
  induction l with
  | nil => rfl
  | cons b l ih =>
    unfold insertAfter
    split_ifs with hb
    · simp [List.filter_cons, hx]
    · simp [List.filter_cons, ih]

theorem insertAfter_append (h : a ∉ l) (rest : List κ) :
    insertAfter x a (l ++ a :: rest) = l ++ a :: x :: rest := by
  induction l with
  | nil => exact insertAfter_cons_self
  | cons b l ih =>
    rw [List.mem_cons, not_or] at h
    rw [List.cons_append, insertAfter_cons_of_ne (Ne.symm h.1), ih h.2, List.cons_append]

end InsertAfter

section Place

variable {x : κ} {a : Option κ} {l : List κ}

/-- The predecessor is there, and is another item. -/
def Anchored (x : κ) (a : Option κ) (l : List κ) : Prop := ∀ b, a = some b → b ∈ l ∧ b ≠ x

theorem perm_place (h : Anchored x a l) : (place x a l).Perm (x :: l.erase x) := by
  cases a with
  | none => exact List.Perm.refl _
  | some b =>
    obtain ⟨hb, hne⟩ := h b rfl
    exact perm_insertAfter ((List.mem_erase_of_ne hne).mpr hb)

theorem mem_place (h : Anchored x a l) {y : κ} : y ∈ place x a l ↔ y = x ∨ y ∈ l := by
  rw [(perm_place h).mem_iff, List.mem_cons]
  by_cases hy : y = x
  · simp [hy]
  · rw [List.mem_erase_of_ne hy]

theorem nodup_place (h : Anchored x a l) (hl : l.Nodup) : (place x a l).Nodup := by
  rw [(perm_place h).nodup_iff, List.nodup_cons]
  exact ⟨hl.not_mem_erase, hl.erase x⟩

theorem filter_erase {p : κ → Bool} (hx : p x = false) : (l.erase x).filter p = l.filter p := by
  induction l with
  | nil => rfl
  | cons b l ih =>
    by_cases hb : b = x
    · subst hb
      rw [List.erase_cons_head, List.filter_cons_of_neg (by simp [hx])]
    · rw [List.erase_cons_tail (by simpa using hb), List.filter_cons, List.filter_cons, ih]

theorem filter_place {p : κ → Bool} (hx : p x = false) : (place x a l).filter p = l.filter p := by
  cases a with
  | none => rw [place, List.filter_cons_of_neg (by simp [hx]), filter_erase hx]
  | some b => rw [place, filter_insertAfter_of_neg hx, filter_erase hx]

end Place

/-! ## All the moves -/

section Settle

variable {keep : κ → Bool} {a : Option κ} {xs l : List κ}

/-- What the moves need: the predecessor is there, and so are the kept items to come. -/
structure Ready (keep : κ → Bool) (a : Option κ) (xs l : List κ) : Prop where
  anchored : ∀ b, a = some b → b ∈ l ∧ b ∉ xs
  kept : ∀ y ∈ xs, keep y = true → y ∈ l
  nodup : xs.Nodup

omit [DecidableEq κ] in
theorem Ready.anchor {x : κ} (h : Ready keep a (x :: xs) l) : Anchored x a l := by
  intro b hb
  obtain ⟨hmem, hnot⟩ := h.anchored b hb
  exact ⟨hmem, fun he => hnot (he ▸ List.mem_cons_self)⟩

theorem Ready.tail {x : κ} (h : Ready keep a (x :: xs) l) :
    Ready keep (some x) xs (if keep x then l else place x a l) := by
  obtain ⟨hx, hxs⟩ := List.nodup_cons.mp h.nodup
  refine ⟨?_, ?_, hxs⟩
  · intro b hb
    obtain rfl := Option.some_inj.mp hb
    refine ⟨?_, hx⟩
    split_ifs with hk
    · exact h.kept x List.mem_cons_self hk
    · exact (mem_place h.anchor).mpr (Or.inl rfl)
  · intro y hy hk
    have hmem := h.kept y (List.mem_cons_of_mem _ hy) hk
    split_ifs
    · exact hmem
    · exact (mem_place h.anchor).mpr (Or.inr hmem)

theorem mem_settle (h : Ready keep a xs l) {y : κ} :
    y ∈ settle keep a xs l ↔ y ∈ l ∨ y ∈ xs := by
  induction xs generalizing a l with
  | nil => simp [settle]
  | cons x xs ih =>
    rw [settle, ih h.tail, List.mem_cons]
    split_ifs with hk
    · have hx := h.kept x List.mem_cons_self hk
      constructor
      · tauto
      · rintro (hy | rfl | hy)
        · exact Or.inl hy
        · exact Or.inl hx
        · exact Or.inr hy
    · rw [mem_place h.anchor]
      tauto

theorem nodup_settle (h : Ready keep a xs l) (hl : l.Nodup) : (settle keep a xs l).Nodup := by
  induction xs generalizing a l with
  | nil => exact hl
  | cons x xs ih =>
    apply ih h.tail
    split_ifs
    · exact hl
    · exact nodup_place h.anchor hl

theorem filter_settle (keep : κ → Bool) (a : Option κ) (xs l : List κ) :
    (settle keep a xs l).filter keep = l.filter keep := by
  induction xs generalizing a l with
  | nil => rfl
  | cons x xs ih =>
    rw [settle, ih]
    split_ifs with hk
    · rfl
    · exact filter_place (by simpa using hk)

/-- No move is still to come for the item. -/
def settled (keep : κ → Bool) (xs : List κ) (y : κ) : Bool := keep y || decide (y ∉ xs)

/-- The items that are settled are those visited and the kept ones to come, in this order. -/
theorem settle_eq_append {done : List κ} (hnodup : (done ++ xs).Nodup) (hl : l.Nodup)
    (h : l.filter (settled keep xs) = done ++ xs.filter keep) :
    settle keep done.getLast? xs l = done ++ xs := by
  induction xs generalizing done l with
  | nil =>
    rw [List.filter_eq_self.mpr (by simp [settled])] at h
    exact h
  | cons x xs ih =>
    have hlast : (some x) = (done ++ [x]).getLast? := by simp
    have hx : x ∉ xs := (List.nodup_cons.mp (List.nodup_append.mp hnodup).2.1).1
    have hdone : ∀ y ∈ done, y ≠ x ∧ y ∉ xs := by
      intro y hy
      have hne := (List.nodup_append.mp hnodup).2.2 y hy
      exact ⟨hne x List.mem_cons_self, fun h => hne y (List.mem_cons_of_mem _ h) rfl⟩
    rw [settle, hlast, List.append_cons done x xs]
    have hnodup' : ((done ++ [x]) ++ xs).Nodup := by simpa using hnodup
    split_ifs with hk
    · apply ih hnodup' hl
      have hsame : settled keep (x :: xs) = settled keep xs := by
        funext y
        by_cases hy : y = x <;> simp [settled, hy, hk]
      rw [← hsame, h, List.filter_cons_of_pos hk, List.append_cons]
    · -- the item is put behind the last one visited
      have hk : keep x = false := by simpa using hk
      have herase : (l.erase x).filter (settled keep xs) = done ++ xs.filter keep := by
        rw [← List.filter_cons_of_neg (p := keep) (a := x) (by simp [hk]), ← h, hl.erase_eq_filter,
          List.filter_filter]
        apply List.filter_congr
        intro y _
        by_cases hy : y = x <;> simp [settled, hy, hk, bne]
      have hxp : settled keep xs x = true := by simp [settled, hx]
      have hanchored : Anchored x done.getLast? l := by
        intro b hb
        have hmem := List.mem_of_getLast? hb
        refine ⟨?_, (hdone b hmem).1⟩
        exact List.mem_of_mem_filter (h ▸ List.mem_append_left _ hmem)
      apply ih hnodup' (nodup_place hanchored hl)
      rcases List.eq_nil_or_concat' done with rfl | ⟨init, b, rfl⟩
      · rw [List.getLast?_nil, place, List.filter_cons_of_pos hxp, herase]
        rfl
      · have hb := (hdone b (by simp)).2
        have hbp : settled keep xs b = true := by simp [settled, hb]
        have hinit : b ∉ init := by
          have := (List.nodup_append.mp hnodup).1
          rw [List.nodup_append] at this
          exact fun h => this.2.2 b h b (by simp) rfl
        rw [List.getLast?_concat, place, filter_insertAfter hxp hbp, herase, List.append_assoc,
          List.singleton_append, insertAfter_append hinit]
        simp

/-- **The target is reached exactly if the kept items stand in its order.** -/
theorem settle_eq_iff (hxs : xs.Nodup) (hl : l.Nodup) (hsub : ∀ y ∈ l, y ∈ xs) :
    settle keep none xs l = xs ↔ l.filter keep = xs.filter keep := by
  constructor
  · intro h
    rw [← filter_settle keep none xs l, h]
  · intro h
    apply @settle_eq_append _ _ _ _ _ [] hxs hl
    rw [List.nil_append, ← h]
    apply List.filter_congr
    intro y hy
    simp [settled, hsub y hy]

end Settle

end Zeron.Relink
