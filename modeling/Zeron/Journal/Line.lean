import Zeron.Lib.Ascend

/-!
# The lines of a run journal

* `JournaledEvent`: an event with its number;
* `nextSeq`, `replayAfter`: what `append` and `replay` make of the lines of a file;
* `Numbered`: the numbers start above zero and increase.
-/

namespace Zeron.Journal

open Ascend

variable {ε : Type*}

/-- `JournaledEvent`. -/
structure JournaledEvent (ε : Type*) where
  seq : ℕ
  event : ε
  deriving DecidableEq, Repr

/-- The number of the last line, 0 if there is none. -/
def lastSeq (lines : List (JournaledEvent ε)) : ℕ := last (·.seq) lines

/-- The number of the next event. -/
def nextSeq (lines : List (JournaledEvent ε)) : ℕ := lastSeq lines + 1

/-- The lines after a cursor; all of them if the cursor is ahead of the last one. -/
def replayAfter (lines : List (JournaledEvent ε)) (after : ℕ) : List (JournaledEvent ε) :=
  let start := if after > lastSeq lines then 0 else after
  lines.filter fun x => decide (start < x.seq)

/-- The numbers of a journal. -/
structure Numbered (lines : List (JournaledEvent ε)) : Prop where
  ascends : Ascends (·.seq) lines
  pos : ∀ x ∈ lines, 0 < x.seq

section Numbered

variable {lines : List (JournaledEvent ε)} {x : JournaledEvent ε}

theorem numbered_nil : Numbered ([] : List (JournaledEvent ε)) :=
  ⟨ascends_nil, fun _ h => absurd h List.not_mem_nil⟩

theorem Numbered.le_lastSeq (h : Numbered lines) (hx : x ∈ lines) : x.seq ≤ lastSeq lines :=
  h.ascends.le_last hx

theorem exists_lastSeq (h : lines ≠ []) : ∃ x ∈ lines, x.seq = lastSeq lines := exists_last h

theorem lastSeq_concat : lastSeq (lines ++ [x]) = x.seq := last_concat

theorem Numbered.concat (h : Numbered lines) (hx : lastSeq lines < x.seq) :
    Numbered (lines ++ [x]) := by
  refine ⟨h.ascends.concat hx, fun y hy => ?_⟩
  rw [List.mem_append, List.mem_singleton] at hy
  rcases hy with hy | rfl
  · exact h.pos y hy
  · omega

theorem Numbered.left {new : List (JournaledEvent ε)} (h : Numbered (lines ++ new)) :
    Numbered lines :=
  ⟨(List.pairwise_append.mp h.ascends).1, fun y hy => h.pos y (List.mem_append_left _ hy)⟩

theorem Numbered.lastSeq_lt {new : List (JournaledEvent ε)} (h : Numbered (lines ++ new))
    (hx : x ∈ new) : lastSeq lines < x.seq := by
  by_cases hnil : lines = []
  · subst hnil
    exact h.pos x (List.mem_append_right _ hx)
  · obtain ⟨y, hy, hlast⟩ := exists_lastSeq hnil
    rw [← hlast]
    exact (List.pairwise_append.mp h.ascends).2.2 y hy x hx

end Numbered

section Replay

variable {lines : List (JournaledEvent ε)} {after : ℕ}

theorem mem_replayAfter {x : JournaledEvent ε} :
    x ∈ replayAfter lines after ↔
      x ∈ lines ∧ (if after > lastSeq lines then 0 else after) < x.seq := by
  simp [replayAfter]

theorem replayAfter_of_le (h : after ≤ lastSeq lines) :
    replayAfter lines after = lines.filter fun x => decide (after < x.seq) := by
  unfold replayAfter
  simp [Nat.not_lt.mpr h]

theorem replayAfter_of_lt (h : Numbered lines) (hlt : lastSeq lines < after) :
    replayAfter lines after = lines := by
  unfold replayAfter
  rw [List.filter_eq_self]
  intro x hx
  have := h.pos x hx
  simp [hlt, this]

theorem numbered_replayAfter (h : Numbered lines) (after : ℕ) :
    Numbered (replayAfter lines after) :=
  ⟨h.ascends.filter _, fun x hx => h.pos x (mem_replayAfter.mp hx).1⟩

theorem lastSeq_replayAfter (h : Numbered lines) (hne : replayAfter lines after ≠ []) :
    lastSeq (replayAfter lines after) = lastSeq lines := by
  obtain ⟨x, hx, hxlast⟩ := exists_lastSeq hne
  obtain ⟨hmem, hlt⟩ := mem_replayAfter.mp hx
  obtain ⟨y, hy, hylast⟩ := exists_lastSeq (List.ne_nil_of_mem hmem)
  have hle := h.le_lastSeq hmem
  have hyreplay : y ∈ replayAfter lines after := mem_replayAfter.mpr ⟨hy, by omega⟩
  have := (numbered_replayAfter h after).le_lastSeq hyreplay
  omega

theorem filter_replayAfter (lines : List (JournaledEvent ε)) (after : ℕ) :
    (replayAfter lines after).filter (fun x => decide (after < x.seq)) =
      lines.filter fun x => decide (after < x.seq) := by
  unfold replayAfter
  rw [List.filter_filter]
  refine List.filter_congr fun x _ => ?_
  split_ifs with h
  · simp only [Bool.and_eq_left_iff_imp, decide_eq_true_eq]
    omega
  · simp

end Replay

end Zeron.Journal
