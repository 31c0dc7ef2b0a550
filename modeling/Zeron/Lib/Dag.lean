import Mathlib

/-!
# Walks of a directed acyclic graph

A node of the graph is a leaf, or has a list of next nodes.

* `extend`, `firsts`: a list joined to another without what is there already;
* `Graph`, `walk`: the leaves in the order of a depth-first walk; **`mem_walk`**: they are the ones
  that can be reached.
-/

namespace Zeron.Dag

variable {α : Type*}

/-! ## First occurrences -/

section Firsts

variable [DecidableEq α]

/-- `list` behind `acc`, without what is there already. -/
def extend (acc : List α) : List α → List α
  | [] => acc
  | a :: list => extend (if a ∈ acc then acc else acc ++ [a]) list

/-- The list, each member where it comes first. -/
def firsts (list : List α) : List α := extend [] list

variable {acc list list' : List α}

theorem extend_append : extend acc (list ++ list') = extend (extend acc list) list' := by
  induction list generalizing acc with
  | nil => rfl
  | cons a list ih => exact ih

@[simp] theorem mem_extend {a : α} : a ∈ extend acc list ↔ a ∈ acc ∨ a ∈ list := by
  induction list generalizing acc with
  | nil => simp [extend]
  | cons b list ih =>
    rw [extend, ih]
    split_ifs with hb
    · rw [List.mem_cons]
      constructor
      · exact Or.imp_right Or.inr
      · rintro (ha | rfl | ha)
        · exact Or.inl ha
        · exact Or.inl hb
        · exact Or.inr ha
    · rw [List.mem_append, List.mem_singleton, List.mem_cons, or_assoc]

theorem mem_firsts {a : α} : a ∈ firsts list ↔ a ∈ list := by simp [firsts]

theorem nodup_extend (h : acc.Nodup) : (extend acc list).Nodup := by
  induction list generalizing acc with
  | nil => exact h
  | cons a list ih =>
    rw [extend]
    split_ifs with ha
    · exact ih h
    · refine ih ?_
      rw [← List.concat_eq_append]
      exact h.concat ha

theorem nodup_firsts (list : List α) : (firsts list).Nodup := nodup_extend List.nodup_nil

theorem extend_extend (acc' : List α) :
    extend acc (extend acc' list) = extend (extend acc acc') list := by
  induction list generalizing acc' with
  | nil => rfl
  | cons a list ih =>
    rw [extend, ih, extend]
    congr 1
    by_cases ha : a ∈ acc'
    · rw [if_pos ha, if_pos (mem_extend.mpr (Or.inr ha))]
    · rw [if_neg ha, extend_append]
      rfl

theorem extend_firsts : extend acc (firsts list) = extend acc list := extend_extend []

end Firsts

/-! ## Walks -/

/-- A directed acyclic graph; `next` is `none` at a leaf. -/
structure Graph (α : Type*) where
  next : α → Option (List α)
  rank : α → ℕ
  descends : ∀ {a bs}, next a = some bs → ∀ b ∈ bs, rank b < rank a

namespace Graph

variable (g : Graph α)

/-- The leaves below a node, in the order of a depth-first walk. -/
def walk (a : α) : List α :=
  match _h : g.next a with
  | none => [a]
  | some bs => bs.attach.flatMap fun b => walk b.1
termination_by g.rank a
decreasing_by exact g.descends _h b.1 b.2

def Next (a b : α) : Prop := ∃ bs, g.next a = some bs ∧ b ∈ bs

variable {g} {a b : α} {bs : List α}

theorem walk_leaf (h : g.next a = none) : g.walk a = [a] := by
  rw [walk]
  split
  · rfl
  · rename_i hs
    rw [h] at hs
    cases hs

theorem walk_node (h : g.next a = some bs) : g.walk a = bs.flatMap g.walk := by
  rw [walk]
  split
  · rename_i hn
    rw [h] at hn
    cases hn
  · rename_i bs' hs
    rw [h] at hs
    cases hs
    rw [List.flatMap_def, List.flatMap_def, List.attach_map_val]

/-- **The walk meets the leaves that can be reached.** -/
theorem mem_walk : b ∈ g.walk a ↔ Relation.ReflTransGen g.Next a b ∧ g.next b = none := by
  induction hr : g.rank a using Nat.strong_induction_on generalizing a with
  | _ n ih =>
    cases h : g.next a with
    | none =>
      rw [walk_leaf h, List.mem_singleton]
      constructor
      · rintro rfl
        exact ⟨.refl, h⟩
      · rintro ⟨hab, -⟩
        rcases hab.cases_head with rfl | ⟨c, ⟨bs, hbs, -⟩, -⟩
        · rfl
        · rw [h] at hbs
          cases hbs
    | some bs =>
      rw [walk_node h, List.mem_flatMap]
      constructor
      · rintro ⟨c, hc, hb⟩
        obtain ⟨hcb, hleaf⟩ := (ih _ (hr ▸ g.descends h c hc) rfl).mp hb
        exact ⟨.head ⟨bs, h, hc⟩ hcb, hleaf⟩
      · rintro ⟨hab, hleaf⟩
        rcases hab.cases_head with rfl | ⟨c, ⟨bs', hbs, hc⟩, hcb⟩
        · rw [h] at hleaf
          cases hleaf
        · rw [h] at hbs
          cases hbs
          exact ⟨c, hc, (ih _ (hr ▸ g.descends h c hc) rfl).mpr ⟨hcb, hleaf⟩⟩

end Graph

end Zeron.Dag
