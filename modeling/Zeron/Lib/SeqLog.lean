import Mathlib

/-!
# Logs of consecutively numbered entries

A log holds one entry for each number of an interval: entries are appended with the next number
and dropped from the front.

* `Spans`: the entries are numbered `lo + 1, ..., hi`, once each, in order;
* `Spans.concat`, `spans_above`: appending, and dropping a prefix;
* `readPages`, **`readPages_eq`**: reading on from the last entry read loses and repeats nothing;
* `within`, **`pull_eq`**: pages cut by a budget, until one is not cut.
-/

namespace Zeron.SeqLog

variable {ρ : Type*} (ver : ρ → ℕ)

/-- The entries are those numbered in `(lo, hi]`, once each and in order. -/
def Spans (rows : List ρ) (lo hi : ℕ) : Prop := rows.map ver = List.range' (lo + 1) (hi - lo)

/-- The entries numbered above `c`. -/
def above (c : ℕ) (rows : List ρ) : List ρ := rows.filter (c < ver ·)

section Spans

variable {ver} {rows : List ρ} {lo hi : ℕ}

theorem spans_nil (n : ℕ) : Spans ver [] n n := by
  simp [Spans]

theorem Spans.length_eq (h : Spans ver rows lo hi) : rows.length = hi - lo := by
  rw [← List.length_map (f := ver), h, List.length_range']

theorem Spans.mem_iff (h : Spans ver rows lo hi) {n : ℕ} :
    (∃ r ∈ rows, ver r = n) ↔ lo < n ∧ n ≤ hi := by
  rw [← List.mem_map, h, List.mem_range'_1]
  omega

theorem Spans.ver_mem (h : Spans ver rows lo hi) {r : ρ} (hr : r ∈ rows) :
    lo < ver r ∧ ver r ≤ hi :=
  h.mem_iff.mp ⟨r, hr, rfl⟩

theorem Spans.pairwise (h : Spans ver rows lo hi) : rows.Pairwise fun a b => ver a < ver b := by
  rw [← List.pairwise_map (f := ver), h]
  exact List.pairwise_lt_range'

theorem Spans.concat (h : Spans ver rows lo hi) (hle : lo ≤ hi) {r : ρ} (hr : ver r = hi + 1) :
    Spans ver (rows ++ [r]) lo (hi + 1) := by
  rw [Spans, List.map_append, h, List.map_singleton, hr,
    show hi + 1 - lo = hi - lo + 1 by omega, List.range'_concat]
  congr 2
  omega

theorem spans_above (h : Spans ver rows lo hi) {c : ℕ} (hc : lo ≤ c) :
    Spans ver (above ver c rows) c hi := by
  have hf : (above ver c rows).map ver = (rows.map ver).filter (c < ·) := by
    rw [above, List.filter_map]
    rfl
  rw [Spans, hf, h]
  -- both sides are increasing and have the same members
  refine List.Perm.eq_of_pairwise' (r := (· < ·)) ?_ List.pairwise_lt_range' ?_
  · exact List.Pairwise.filter _ List.pairwise_lt_range'
  · rw [List.perm_ext_iff_of_nodup (List.Nodup.filter _ List.nodup_range') List.nodup_range']
    intro n
    rw [List.mem_filter, List.mem_range'_1, List.mem_range'_1, decide_eq_true_iff]
    omega

theorem above_above {c d : ℕ} (h : c ≤ d) : above ver d (above ver c rows) = above ver d rows := by
  rw [above, above, List.filter_filter]
  apply List.filter_congr
  intro r _
  rw [← Bool.decide_and, decide_eq_decide]
  omega

end Spans

/-! ## Pages -/

/-- The cursor after a page: its last entry's number, or where it was. -/
def advance (c : ℕ) (page : List ρ) : ℕ := page.getLast?.elim c ver

/-- Reading in pages of the given sizes, each from the last entry read. -/
def readPages (rows : List ρ) : ℕ → List ℕ → List ρ
  | _, [] => []
  | c, n :: sizes =>
    let page := (above ver c rows).take n
    page ++ readPages rows (advance ver c page) sizes

variable {ver} {rows : List ρ}

theorem above_of_sorted {pre post : List ρ} (h : (pre ++ post).Pairwise fun a b => ver a < ver b)
    {c : ℕ} (hpre : ∀ a ∈ pre, c < ver a) (hc : pre = [] → ∀ a ∈ post, c < ver a) :
    above ver (advance ver c pre) (pre ++ post) = post := by
  rcases List.eq_nil_or_concat pre with rfl | ⟨init, r, he⟩
  · rw [List.nil_append, above, List.filter_eq_self]
    intro a ha
    exact decide_eq_true (hc rfl a ha)
  · rw [List.concat_eq_append] at he
    subst he
    have hr : advance ver c (init ++ [r]) = ver r := by
      simp [advance]
    rw [hr, above, List.filter_append, List.filter_eq_nil_iff.mpr, List.nil_append,
      List.filter_eq_self]
    · intro a ha
      exact decide_eq_true ((List.pairwise_append.mp h).2.2 r (by simp) a ha)
    · intro a ha
      rw [decide_eq_true_iff, not_lt]
      rcases List.mem_append.mp ha with ha | ha
      · exact ((List.pairwise_append.mp (List.pairwise_append.mp h).1).2.2 a ha r (by simp)).le
      · rw [List.mem_singleton.mp ha]

theorem above_advance (h : rows.Pairwise fun a b => ver a < ver b) (c n : ℕ) :
    above ver (advance ver c ((above ver c rows).take n)) rows = (above ver c rows).drop n := by
  have hmem : ∀ a ∈ above ver c rows, c < ver a := by
    intro a ha
    simpa using (List.mem_filter.mp ha).2
  have hsorted := h.filter (c < ver ·)
  change (above ver c rows).Pairwise _ at hsorted
  have hle : c ≤ advance ver c ((above ver c rows).take n) := by
    rw [advance]
    rcases hl : ((above ver c rows).take n).getLast? with _ | r
    · exact le_rfl
    · exact (hmem r (List.mem_of_mem_take (List.mem_of_getLast? hl))).le
  rw [← above_above hle]
  have hsplit := List.take_append_drop n (above ver c rows)
  have key := above_of_sorted (c := c) (hsplit.symm ▸ hsorted)
    (fun a ha => hmem a (List.mem_of_mem_take ha)) fun _ a ha => hmem a (List.mem_of_mem_drop ha)
  rwa [hsplit] at key

/-- **Pages read one after the other are the entries above the cursor, from the first on.** -/
theorem readPages_eq (h : rows.Pairwise fun a b => ver a < ver b) (c : ℕ) (sizes : List ℕ) :
    readPages ver rows c sizes = (above ver c rows).take sizes.sum := by
  induction sizes generalizing c with
  | nil => simp [readPages]
  | cons n sizes ih =>
    rw [readPages, ih, above_advance h, List.sum_cons, List.take_add]

/-! ## Pages within a budget -/

section Within

variable (size : ρ → ℕ)

/-- The entries taken while their sizes, with what was `used` before, stay within `cap`. -/
def within (cap : ℕ) : ℕ → List ρ → List ρ
  | _, [] => []
  | used, r :: rows => if cap < used + size r then [] else r :: within cap (used + size r) rows

/-- Pulling until a page is not cut, at most `fuel` pages; whether that happened. -/
def pull (ver : ρ → ℕ) (cap : ℕ) (rows : List ρ) : ℕ → ℕ → List ρ × Bool
  | 0, _ => ([], false)
  | fuel + 1, c =>
    let page := within size cap 0 (above ver c rows)
    if page.length < (above ver c rows).length then
      let rest := pull ver cap rows fuel (advance ver c page)
      (page ++ rest.1, rest.2)
    else (page, true)

variable {size} {cap : ℕ}

variable (size cap) in
theorem within_prefix (used : ℕ) (rows : List ρ) : within size cap used rows <+: rows := by
  induction rows generalizing used with
  | nil => exact List.prefix_rfl
  | cons r rows ih =>
    rw [within]
    split_ifs
    · exact List.nil_prefix
    · exact List.cons_prefix_cons.mpr ⟨rfl, ih _⟩

theorem within_ne_nil (hfit : ∀ r ∈ rows, size r ≤ cap) (hne : rows ≠ []) :
    within size cap 0 rows ≠ [] := by
  obtain ⟨r, rest, rfl⟩ := List.exists_cons_of_ne_nil hne
  rw [within, if_neg]
  · exact List.cons_ne_nil _ _
  · have := hfit r List.mem_cons_self
    omega

/-- **Pulls end, with every entry above the cursor once and in order.** -/
theorem pull_eq (h : rows.Pairwise fun a b => ver a < ver b) (hfit : ∀ r ∈ rows, size r ≤ cap)
    (fuel c : ℕ) (hfuel : (above ver c rows).length < fuel) :
    pull size ver cap rows fuel c = (above ver c rows, true) := by
  induction fuel generalizing c with
  | zero => omega
  | succ fuel ih =>
    obtain ⟨rest, hrest⟩ := within_prefix size cap 0 (above ver c rows)
    rw [pull]
    generalize hpage : within size cap 0 (above ver c rows) = page at hrest
    have htake : page = (above ver c rows).take page.length := by
      rw [← hrest, List.take_left']
      rfl
    split_ifs with hcut
    · have hne : page ≠ [] := by
        rw [← hpage]
        apply within_ne_nil
        · exact fun r hr => hfit r (List.mem_of_mem_filter hr)
        · exact List.ne_nil_of_length_pos (by omega)
      have hadv : above ver (advance ver c page) rows = rest := by
        rw [htake, above_advance h, ← hrest, List.drop_left']
        rfl
      have hpos := List.length_pos_iff.mpr hne
      have hlen := congrArg List.length hrest
      rw [List.length_append] at hlen
      rw [ih _ (by rw [hadv]; omega), hadv]
      exact Prod.ext hrest rfl
    · have hlen := congrArg List.length hrest
      rw [List.length_append] at hlen
      have hnil : rest = [] := List.eq_nil_of_length_eq_zero (by omega)
      rw [hnil, List.append_nil] at hrest
      rw [hrest]

end Within

end Zeron.SeqLog
