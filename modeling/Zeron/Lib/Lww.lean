import Mathlib

/-!
# Last-writer-wins registers

A register holds the stamp of the write it took and the value that write left. A write is taken
iff its stamp is strictly above the held one, over any linear order of stamps.

* `Reg.write`, `Reg.writes`: one write, a list of writes;
* **`Reg.writes_perm`**: writes with distinct stamps may be reordered;
* **`Reg.writes_winner`**: what a list of writes leaves is its first greatest write.
-/

namespace Zeron.Lww

variable {τ ν : Type*} [LinearOrder τ]

/-- A register: the stamp of the write it holds (`⊥`: never written) and the value that write
left (`none`: cleared). -/
@[ext] structure Reg (τ ν : Type*) where
  stamp : WithBot τ
  value : Option ν

namespace Reg

/-- One write: taken iff its stamp is strictly newer. -/
def write (r : Reg τ ν) (w : τ × Option ν) : Reg τ ν :=
  if r.stamp < (w.1 : WithBot τ) then ⟨w.1, w.2⟩ else r

/-- A list of writes, in order. -/
def writes (r : Reg τ ν) (l : List (τ × Option ν)) : Reg τ ν := l.foldl write r

variable {r : Reg τ ν} {w u : τ × Option ν} {l l' : List (τ × Option ν)}

theorem write_of_lt (h : r.stamp < w.1) : r.write w = ⟨w.1, w.2⟩ := if_pos h

theorem write_of_le (h : (w.1 : WithBot τ) ≤ r.stamp) : r.write w = r := if_neg (not_lt.mpr h)

@[simp] theorem writes_nil (r : Reg τ ν) : r.writes [] = r := rfl

@[simp] theorem writes_cons (r : Reg τ ν) (w : τ × Option ν) (l : List (τ × Option ν)) :
    r.writes (w :: l) = (r.write w).writes l := rfl

theorem writes_append (r : Reg τ ν) (l l' : List (τ × Option ν)) :
    r.writes (l ++ l') = (r.writes l).writes l' := by
  simp [writes, List.foldl_append]

theorem stamp_write (r : Reg τ ν) (w : τ × Option ν) :
    (r.write w).stamp = max r.stamp (w.1 : WithBot τ) := by
  rcases lt_or_ge r.stamp (w.1 : WithBot τ) with h | h
  · rw [write_of_lt h, max_eq_right h.le]
  · rw [write_of_le h, max_eq_left h]

theorem stamp_le_write (r : Reg τ ν) (w : τ × Option ν) : r.stamp ≤ (r.write w).stamp := by
  rw [stamp_write]; exact le_max_left _ _

theorem le_stamp_write (r : Reg τ ν) (w : τ × Option ν) :
    (w.1 : WithBot τ) ≤ (r.write w).stamp := by
  rw [stamp_write]; exact le_max_right _ _

theorem stamp_le_writes (r : Reg τ ν) (l : List (τ × Option ν)) :
    r.stamp ≤ (r.writes l).stamp := by
  induction l generalizing r with
  | nil => exact le_rfl
  | cons w l ih => exact (stamp_le_write r w).trans (ih _)

theorem le_stamp_writes (r : Reg τ ν) (h : w ∈ l) :
    (w.1 : WithBot τ) ≤ (r.writes l).stamp := by
  induction l generalizing r with
  | nil => exact absurd h List.not_mem_nil
  | cons u l ih =>
    rcases List.mem_cons.mp h with rfl | h
    · exact (le_stamp_write r w).trans (stamp_le_writes _ l)
    · exact ih _ h

/-! ## Order of writes -/

theorem write_comm (r : Reg τ ν) (h : w.1 ≠ u.1) :
    (r.write w).write u = (r.write u).write w := by
  rcases lt_or_gt_of_ne h with h | h
  · -- `u` is the newer one: after it, `w` is never taken
    have hwu : (w.1 : WithBot τ) < u.1 := WithBot.coe_lt_coe.mpr h
    have hr : (r.write u).write w = r.write u :=
      write_of_le (hwu.le.trans (le_stamp_write r u))
    rw [hr]
    rcases lt_or_ge r.stamp (u.1 : WithBot τ) with hu | hu
    · rw [write_of_lt hu, write_of_lt]
      rw [stamp_write]; exact max_lt hu hwu
    · rw [write_of_le (hwu.le.trans hu)]
  · have huw : (u.1 : WithBot τ) < w.1 := WithBot.coe_lt_coe.mpr h
    have hr : (r.write w).write u = r.write w :=
      write_of_le (huw.le.trans (le_stamp_write r w))
    rw [hr]
    rcases lt_or_ge r.stamp (w.1 : WithBot τ) with hw | hw
    · rw [write_of_lt hw, write_of_lt]
      rw [stamp_write]; exact max_lt hw huw
    · rw [write_of_le (huw.le.trans hw)]

/-- **Writes with distinct stamps may be reordered.** -/
theorem writes_perm (h : l.Perm l') (hd : l.Pairwise fun a b => a.1 ≠ b.1) (r : Reg τ ν) :
    r.writes l = r.writes l' := by
  induction h generalizing r with
  | nil => rfl
  | cons w _ ih => exact ih (List.pairwise_cons.mp hd).2 _
  | swap w u l =>
    have hwu := (List.pairwise_cons.mp hd).1 w List.mem_cons_self
    simp only [writes_cons]
    rw [write_comm r hwu]
  | trans hp _ ih ih' =>
    exact (ih hd r).trans (ih' (hp.pairwise hd fun h => h.symm) r)

/-! ## The winning write -/

/-- **What a list of writes leaves**: nothing new, or its first greatest write. -/
theorem writes_winner (r : Reg τ ν) (l : List (τ × Option ν)) :
    (r.writes l = r ∧ ∀ w ∈ l, (w.1 : WithBot τ) ≤ r.stamp) ∨
    ∃ pre w post, l = pre ++ w :: post ∧ r.writes l = ⟨w.1, w.2⟩ ∧ r.stamp < w.1 ∧
      (∀ u ∈ pre, u.1 < w.1) ∧ ∀ u ∈ post, u.1 ≤ w.1 := by
  induction l using List.reverseRecOn with
  | nil => exact Or.inl ⟨rfl, by simp⟩
  | append_singleton l v ih =>
    rw [writes_append, writes_cons, writes_nil]
    rcases lt_or_ge (r.writes l).stamp (v.1 : WithBot τ) with hv | hv
    · -- the last write is the newest so far
      refine Or.inr ⟨l, v, [], rfl, write_of_lt hv, (stamp_le_writes r l).trans_lt hv, ?_, by simp⟩
      exact fun u hu => WithBot.coe_lt_coe.mp ((le_stamp_writes r hu).trans_lt hv)
    · rw [write_of_le hv]
      rcases ih with ⟨he, hle⟩ | ⟨pre, w, post, hl, he, hw, hpre, hpost⟩
      · refine Or.inl ⟨he, fun u hu => ?_⟩
        rcases List.mem_append.mp hu with hu | hu
        · exact hle u hu
        · rw [List.mem_singleton.mp hu, ← he]; exact hv
      · refine Or.inr ⟨pre, w, post ++ [v], by simp [hl], he, hw, hpre, fun u hu => ?_⟩
        rcases List.mem_append.mp hu with hu | hu
        · exact hpost u hu
        · rw [List.mem_singleton.mp hu]
          rw [he] at hv
          exact WithBot.coe_le_coe.mp hv

end Reg

end Zeron.Lww
