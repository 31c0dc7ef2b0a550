import Mathlib

/-!
# Looking for a tag in a text that is still growing

* `find`: where a tag is first, and `find_append_left`, `find_append`: what more text changes;
* `partialSuffix`: how much of the tag the text may already end with;
* **`not_prefix_before`**: before that part no tag starts, whatever follows.
-/

namespace Zeron.Tag

variable {α : Type*}

section

variable {tag text rest : List α}

theorem prefix_of_append (h : tag.length ≤ text.length) (hp : tag <+: text ++ rest) :
    tag <+: text :=
  List.prefix_of_prefix_length_le hp (List.prefix_append text rest) h

end

variable [DecidableEq α]

/-- Where `tag` is found first. -/
def find (tag : List α) : List α → Option ℕ
  | [] => if tag = [] then some 0 else none
  | c :: text => if tag <+: c :: text then some 0 else (find tag text).map (· + 1)

/-- The length of the longest proper prefix of `tag` that `text` ends with. -/
def partialSuffix (tag text : List α) : ℕ :=
  ((List.range' 1 (tag.length - 1)).reverse.find? fun len => tag.take len <:+ text).getD 0

variable {tag text rest : List α} {i : ℕ}

/-! ## Finding -/

attribute [local simp] find in
theorem prefix_of_find (h : find tag text = some i) : tag <+: text.drop i := by
  induction text generalizing i with
  | nil =>
    rw [find] at h
    split_ifs at h with hn
    rw [hn]
    exact List.nil_prefix
  | cons c text ih =>
    rw [find] at h
    split_ifs at h with hp
    · cases h
      exact hp
    · obtain ⟨j, hj, rfl⟩ := Option.map_eq_some_iff.mp h
      exact ih hj

theorem length_of_find (h : find tag text = some i) : i + tag.length ≤ text.length := by
  have hlen := (prefix_of_find h).length_le
  rw [List.length_drop] at hlen
  induction text generalizing i with
  | nil =>
    rw [find] at h
    split_ifs at h with hn
    cases h
    simp [hn]
  | cons c text ih =>
    rw [find] at h
    split_ifs at h with hp
    · cases h
      simpa using hp.length_le
    · obtain ⟨j, hj, rfl⟩ := Option.map_eq_some_iff.mp h
      have := ih hj (by simpa using (prefix_of_find hj).length_le)
      simp only [List.length_cons]
      omega

theorem not_prefix_of_lt (h : find tag text = some i) {j : ℕ} (hj : j < i) :
    ¬ tag <+: text.drop j := by
  induction text generalizing i j with
  | nil =>
    rw [find] at h
    split_ifs at h with hn
    cases h
    exact absurd hj (Nat.not_lt_zero j)
  | cons c text ih =>
    rw [find] at h
    split_ifs at h with hp
    · cases h
      exact absurd hj (Nat.not_lt_zero j)
    · obtain ⟨k, hk, rfl⟩ := Option.map_eq_some_iff.mp h
      cases j with
      | zero => exact hp
      | succ j => exact ih hk (Nat.lt_of_succ_lt_succ hj)

theorem find_eq_none (hn : tag ≠ []) :
    find tag text = none ↔ ∀ j, ¬ tag <+: text.drop j := by
  induction text with
  | nil => simp [find, hn]
  | cons c text ih =>
    rw [find]
    by_cases hp : tag <+: c :: text
    · rw [if_pos hp]
      exact ⟨fun h => (Option.some_ne_none _ h).elim, fun h => absurd hp (h 0)⟩
    · rw [if_neg hp, Option.map_eq_none_iff, ih]
      refine ⟨fun h j => ?_, fun h j => h (j + 1)⟩
      cases j with
      | zero => exact hp
      | succ j => exact h j

/-- **What is found stays found when the text grows.** -/
theorem find_append_left (h : find tag text = some i) (rest : List α) :
    find tag (text ++ rest) = some i := by
  induction text generalizing i with
  | nil =>
    rw [find] at h
    split_ifs at h with hn
    cases h
    cases rest with
    | nil => simp [find, hn]
    | cons c rest => simp [find, hn]
  | cons c text ih =>
    rw [find] at h
    rw [List.cons_append, find]
    by_cases hp : tag <+: c :: text
    · rw [if_pos hp] at h
      have hlong : tag <+: c :: (text ++ rest) := hp.trans (List.prefix_append (c :: text) rest)
      rw [if_pos hlong, h]
    · rw [if_neg hp] at h
      obtain ⟨j, hj, rfl⟩ := Option.map_eq_some_iff.mp h
      have hlen := length_of_find hj
      have hnot : ¬ tag <+: c :: (text ++ rest) := by
        intro h'
        have hle : tag.length ≤ (c :: text).length := by
          rw [List.length_cons]
          omega
        exact hp (prefix_of_append hle h')
      rw [if_neg hnot, ih hj]
      rfl

theorem find_append {pre : List α}
    (h : ∀ j < pre.length, ¬ tag <+: (pre ++ text).drop j) :
    find tag (pre ++ text) = (find tag text).map (pre.length + ·) := by
  induction pre with
  | nil => simp
  | cons c pre ih =>
    have h0 : ¬ tag <+: c :: (pre ++ text) := h 0 (Nat.succ_pos _)
    have htail : ∀ j < pre.length, ¬ tag <+: (pre ++ text).drop j := fun j hj =>
      h (j + 1) (Nat.succ_lt_succ hj)
    rw [List.cons_append, find, if_neg h0, ih htail, Option.map_map]
    congr 1
    funext k
    simp only [Function.comp_apply, List.length_cons]
    omega

/-! ## What the text may already end with -/

theorem partialSuffix_spec :
    partialSuffix tag text ≤ text.length ∧
      ∀ j, partialSuffix tag text < j → j < tag.length → ¬ tag.take j <:+ text := by
  unfold partialSuffix
  cases h : (List.range' 1 (tag.length - 1)).reverse.find? fun len => tag.take len <:+ text with
  | none =>
    refine ⟨Nat.zero_le _, fun j hj hlt hs => ?_⟩
    have hmem : j ∈ (List.range' 1 (tag.length - 1)).reverse := by
      rw [List.mem_reverse, List.mem_range'_1]
      have : 0 < j := hj
      omega
    exact List.find?_eq_none.mp h j hmem (decide_eq_true hs)
  | some len =>
    obtain ⟨hs, as, bs, hsplit, has⟩ := List.find?_eq_some_iff_append.mp h
    have hlen : len ∈ (List.range' 1 (tag.length - 1)).reverse := by
      rw [hsplit]
      exact List.mem_append_right _ List.mem_cons_self
    rw [List.mem_reverse, List.mem_range'_1] at hlen
    refine ⟨?_, fun j hj hlt hsuf => ?_⟩
    · have := (of_decide_eq_true hs).length_le
      rw [List.length_take] at this
      simp only [Option.getD_some]
      omega
    · -- longer prefixes were looked at first
      have hmem : j ∈ (List.range' 1 (tag.length - 1)).reverse := by
        rw [List.mem_reverse, List.mem_range'_1]
        simp only [Option.getD_some] at hj
        omega
      have hdesc : (List.range' 1 (tag.length - 1)).reverse.Pairwise (· > ·) :=
        List.pairwise_reverse.mpr List.pairwise_lt_range'
      rw [hsplit] at hmem hdesc
      simp only [Option.getD_some] at hj
      rcases List.mem_append.mp hmem with hbefore | hafter
      · have := has j hbefore
        simp [hsuf] at this
      · rcases List.mem_cons.mp hafter with rfl | hafter
        · exact lt_irrefl _ hj
        · have := List.rel_of_pairwise_cons (List.pairwise_append.mp hdesc).2.1 hafter
          omega

/-- **Before what may be a part of the tag, none starts, whatever follows.** -/
theorem not_prefix_before (hn : tag ≠ []) (h : find tag text = none) {j : ℕ}
    (hj : j < text.length - partialSuffix tag text) (rest : List α) :
    ¬ tag <+: text.drop j ++ rest := by
  intro hp
  have hnone := (find_eq_none hn).mp h
  by_cases hlen : tag.length ≤ (text.drop j).length
  · exact hnone j (prefix_of_append hlen hp)
  · -- the tag would start with all the text from there
    have hpre : text.drop j <+: tag :=
      List.prefix_of_prefix_length_le (List.prefix_append _ rest) hp (by omega)
    have htake : text.drop j = tag.take (text.drop j).length :=
      List.prefix_iff_eq_take.mp hpre
    have hlong : partialSuffix tag text < (text.drop j).length := by
      rw [List.length_drop]
      omega
    refine partialSuffix_spec.2 _ hlong (by omega) ?_
    rw [← htake]
    exact List.drop_suffix j text

end Zeron.Tag
