import Mathlib

/-!
# Packing a sequence into bins

Items go into the last bin in order; a new bin is opened for an item that does not fit, unless the
last bin has taken up no room.

* `Bins`, `push`: the bins that are closed, the open one and its size;
* **`flatten_pushAll`**: nothing is lost or moved;
* `Bounded`, **`bounded_pushAll`**: a bin is within the capacity, or all its room is one item's;
* `ne_nil_pushAll`: no bin is empty once there is an item.
-/

namespace Zeron.Pack

variable {α : Type*}

/-- Bins in the making. -/
structure Bins (α : Type*) where
  closed : List (List α)
  last : List α
  /-- The room taken up in the open bin. -/
  current : ℕ

namespace Bins

/-- One open bin. -/
def empty : Bins α := ⟨[], [], 0⟩

def all (b : Bins α) : List (List α) := b.closed ++ [b.last]

variable (size : α → ℕ) (cap : ℕ)

def push (b : Bins α) (a : α) : Bins α :=
  if 0 < b.current ∧ cap < b.current + size a then ⟨b.all, [a], size a⟩
  else ⟨b.closed, b.last ++ [a], b.current + size a⟩

/-- The room a bin takes up. -/
def room (bin : List α) : ℕ := (bin.map size).sum

/-- Within the capacity, but for an item that is alone in taking up room. -/
def Bounded (bin : List α) : Prop :=
  room size bin ≤ cap ∨ ∃ pre a, bin = pre ++ [a] ∧ room size pre = 0 ∧ cap < size a

/-- What pushing keeps. -/
structure Good (b : Bins α) : Prop where
  current : b.current = room size b.last
  bounded : ∀ bin ∈ b.all, Bounded size cap bin
  closed : ∀ bin ∈ b.closed, bin ≠ []

variable {size cap} {b : Bins α}

@[simp] theorem room_append (bin bin' : List α) :
    room size (bin ++ bin') = room size bin + room size bin' := by
  simp [room]

@[simp] theorem room_singleton (a : α) : room size [a] = size a := by simp [room]

@[simp] theorem room_nil : room size [] = 0 := rfl

theorem good_empty : Good size cap (empty : Bins α) :=
  ⟨rfl, by simp [empty, all, Bounded], by simp [empty]⟩

theorem bounded_push (h : Good size cap b) (a : α) :
    ∀ bin ∈ (b.push size cap a).all, Bounded size cap bin := by
  have hone : Bounded size cap [a] := by
    by_cases hcap : size a ≤ cap
    · exact Or.inl (by simpa using hcap)
    · exact Or.inr ⟨[], a, rfl, rfl, by omega⟩
  have hclosed : ∀ bin ∈ b.closed, Bounded size cap bin :=
    fun bin hbin => h.bounded bin (List.mem_append_left _ hbin)
  unfold push
  split_ifs with hfull
  · intro bin hbin
    rw [all, List.mem_append, List.mem_singleton] at hbin
    obtain hbin | rfl := hbin
    · exact h.bounded bin hbin
    · exact hone
  · intro bin hbin
    rw [all, List.mem_append, List.mem_singleton] at hbin
    obtain hbin | rfl := hbin
    · exact hclosed bin hbin
    · have hcurrent := h.current
      by_cases hcap : room size (b.last ++ [a]) ≤ cap
      · exact Or.inl hcap
      · -- the open bin took up no room, so the item is too large alone
        rw [room_append, room_singleton] at hcap
        exact Or.inr ⟨b.last, a, rfl, by omega, by omega⟩

theorem good_push (h : Good size cap b) (a : α) : Good size cap (b.push size cap a) := by
  refine ⟨?_, bounded_push h a, ?_⟩
  · unfold push
    split_ifs with hfull
    · simp
    · simp [h.current]
  · have hcurrent := h.current
    unfold push
    split_ifs with hfull
    · intro bin hbin
      rw [all, List.mem_append, List.mem_singleton] at hbin
      obtain hbin | rfl := hbin
      · exact h.closed bin hbin
      · intro hnil
        rw [hnil, room_nil] at hcurrent
        omega
    · exact h.closed

theorem last_push (b : Bins α) (a : α) : (b.push size cap a).last ≠ [] := by
  unfold push
  split_ifs with hfull
  · exact List.cons_ne_nil _ _
  · exact List.append_ne_nil_of_right_ne_nil _ (List.cons_ne_nil _ _)

theorem flatten_push (b : Bins α) (a : α) :
    (b.push size cap a).all.flatten = b.all.flatten ++ [a] := by
  unfold push
  split_ifs with hfull <;> simp [all]

/-! ## Many items -/

variable (size cap) in
def pushAll (b : Bins α) (items : List α) : Bins α := items.foldl (push size cap) b

theorem pushAll_append (b : Bins α) (items items' : List α) :
    pushAll size cap b (items ++ items') = pushAll size cap (pushAll size cap b items) items' :=
  List.foldl_append

/-- **Nothing is lost or moved.** -/
theorem flatten_pushAll (b : Bins α) (items : List α) :
    (pushAll size cap b items).all.flatten = b.all.flatten ++ items := by
  induction items generalizing b with
  | nil => simp [pushAll]
  | cons a items ih =>
    have := ih (push size cap b a)
    rw [pushAll] at this ⊢
    rw [List.foldl_cons, this, flatten_push, List.append_assoc, List.singleton_append]

theorem good_pushAll (h : Good size cap b) (items : List α) :
    Good size cap (pushAll size cap b items) := by
  induction items generalizing b with
  | nil => exact h
  | cons a items ih => exact ih (good_push h a)

/-- **A bin is within the capacity, or all its room is one item's.** -/
theorem bounded_pushAll (items : List α) :
    ∀ bin ∈ (pushAll size cap empty items).all, Bounded size cap bin :=
  (good_pushAll good_empty items).bounded

theorem ne_nil_pushAll {items : List α} (hne : items ≠ []) :
    ∀ bin ∈ (pushAll size cap empty items).all, bin ≠ [] := by
  intro bin hbin
  rw [all, List.mem_append, List.mem_singleton] at hbin
  obtain hbin | rfl := hbin
  · exact (good_pushAll good_empty items).closed bin hbin
  · obtain ⟨init, a, rfl⟩ := (List.eq_nil_or_concat' items).resolve_left hne
    rw [pushAll_append]
    exact last_push _ a

end Bins

end Zeron.Pack
