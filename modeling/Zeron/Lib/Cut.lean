import Mathlib

/-!
# Cutting a text at byte offsets

A text addressed by the bytes of its UTF-8 form, which may be cut at character boundaries only.

* `size`: the bytes of a text; `splitAtByte`, `isCharBoundary`, `slice`;
* **`splitAtByte_eq_some`**: the boundaries are the sizes of the prefixes;
* `lastBoundary`: walking down to a boundary; **`lt_lastBoundary`**: it is past any place that has
  a whole character below the start of the walk;
* `dropBytes`: the text from the first boundary at or above an offset.
-/

namespace Zeron.Cut

/-- The bytes of a text. -/
def size (text : List Char) : ℕ := (text.map Char.utf8Size).sum

attribute [local simp] size in
@[simp] theorem size_nil : size [] = 0 := rfl

@[simp] theorem size_cons (c : Char) (text : List Char) :
    size (c :: text) = c.utf8Size + size text := by
  simp [size]

@[simp] theorem size_append (text text' : List Char) :
    size (text ++ text') = size text + size text' := by
  simp [size]

theorem size_eq_zero {text : List Char} : size text = 0 ↔ text = [] := by
  cases text with
  | nil => simp
  | cons c text =>
    have := c.utf8Size_pos
    simp only [size_cons, reduceCtorEq, iff_false]
    omega

/-- The text before and after a byte offset, if no character crosses it. -/
def splitAtByte : List Char → ℕ → Option (List Char × List Char)
  | text, 0 => some ([], text)
  | [], _ + 1 => none
  | c :: text, i + 1 =>
    if i + 1 < c.utf8Size then none
    else (splitAtByte text (i + 1 - c.utf8Size)).map fun p => (c :: p.1, p.2)

/-- `is_char_boundary`. -/
def isCharBoundary (text : List Char) (i : ℕ) : Bool := (splitAtByte text i).isSome

/-- `text[start..stop]`, which panics off a boundary. -/
def slice (text : List Char) (start stop : ℕ) : Option (List Char) :=
  (splitAtByte text start).bind fun p => (splitAtByte p.2 (stop - start)).map Prod.fst

/-- The first boundary at or below `i`. -/
def lastBoundary (text : List Char) : ℕ → ℕ
  | 0 => 0
  | i + 1 =>
    if i + 1 < size text ∧ isCharBoundary text (i + 1) = false then lastBoundary text i else i + 1

theorem splitAtByte_zero (text : List Char) : splitAtByte text 0 = some ([], text) := by
  cases text <;> rfl

theorem splitAtByte_succ (c : Char) (text : List Char) (i : ℕ) :
    splitAtByte (c :: text) (i + 1) =
      if i + 1 < c.utf8Size then none
      else (splitAtByte text (i + 1 - c.utf8Size)).map fun p => (c :: p.1, p.2) := rfl

theorem lastBoundary_succ (text : List Char) (i : ℕ) : lastBoundary text (i + 1) =
    if i + 1 < size text ∧ isCharBoundary text (i + 1) = false then lastBoundary text i
    else i + 1 := rfl

/-- **A split is at the size of its first part.** -/
theorem splitAtByte_eq_some {text a b : List Char} {i : ℕ} :
    splitAtByte text i = some (a, b) ↔ text = a ++ b ∧ size a = i := by
  induction text generalizing a i with
  | nil =>
    cases i with
    | zero =>
      simp only [splitAtByte_zero, Option.some_inj, Prod.mk.injEq, size_eq_zero]
      constructor
      · rintro ⟨rfl, rfl⟩
        exact ⟨rfl, rfl⟩
      · rintro ⟨h, rfl⟩
        exact ⟨rfl, h⟩
    | succ i =>
      rw [show splitAtByte [] (i + 1) = none from rfl]
      simp only [reduceCtorEq, false_iff, not_and]
      intro h
      simp [(List.append_eq_nil_iff.mp h.symm).1]
  | cons c text ih =>
    have hpos := c.utf8Size_pos
    cases i with
    | zero =>
      simp only [splitAtByte_zero, Option.some_inj, Prod.mk.injEq, size_eq_zero]
      constructor
      · rintro ⟨rfl, rfl⟩
        exact ⟨rfl, rfl⟩
      · rintro ⟨h, rfl⟩
        exact ⟨rfl, h⟩
    | succ i =>
      cases a with
      | nil =>
        simp only [splitAtByte_succ, size_nil, List.nil_append]
        constructor
        · intro h
          split_ifs at h
          simp at h
        · intro h
          omega
      | cons d a =>
        rw [List.cons_append, List.cons.injEq, size_cons, splitAtByte_succ]
        constructor
        · intro h
          split_ifs at h with hlt
          obtain ⟨p, hp, he⟩ := Option.map_eq_some_iff.mp h
          rw [Prod.mk.injEq, List.cons.injEq] at he
          obtain ⟨⟨rfl, rfl⟩, rfl⟩ := he
          obtain ⟨rfl, hsize⟩ := ih.mp hp
          exact ⟨⟨rfl, rfl⟩, by omega⟩
        · rintro ⟨⟨rfl, rfl⟩, hsize⟩
          rw [if_neg (by omega), ih.mpr ⟨rfl, show size a = i + 1 - c.utf8Size by omega⟩]
          rfl

theorem isCharBoundary_iff {text : List Char} {i : ℕ} :
    isCharBoundary text i = true ↔ ∃ a b, text = a ++ b ∧ size a = i := by
  rw [isCharBoundary, Option.isSome_iff_exists]
  simp only [Prod.exists, splitAtByte_eq_some]

theorem splitAtByte_append (a b : List Char) : splitAtByte (a ++ b) (size a) = some (a, b) := by
  rw [splitAtByte_eq_some]
  exact ⟨rfl, rfl⟩

theorem slice_eq (a b c : List Char) :
    slice (a ++ (b ++ c)) (size a) (size a + size b) = some b := by
  rw [slice, splitAtByte_append, Option.bind_some, Nat.add_sub_cancel_left, splitAtByte_append]
  rfl

section LastBoundary

variable {text : List Char}

theorem lastBoundary_le (i : ℕ) : lastBoundary text i ≤ i := by
  induction i with
  | zero => exact le_rfl
  | succ i ih =>
    rw [lastBoundary_succ]
    split_ifs <;> omega

theorem isCharBoundary_lastBoundary {i : ℕ} (h : i ≤ size text) :
    isCharBoundary text (lastBoundary text i) = true := by
  induction i with
  | zero =>
    rw [isCharBoundary_iff]
    exact ⟨[], text, rfl, rfl⟩
  | succ i ih =>
    rw [lastBoundary_succ]
    split_ifs with hoff
    · exact ih (by omega)
    · by_cases hend : i + 1 < size text
      · simpa [hend] using hoff
      · rw [isCharBoundary_iff]
        exact ⟨text, [], by simp, by omega⟩

theorem le_lastBoundary {b i : ℕ} (hb : isCharBoundary text b = true) (hle : b ≤ i) :
    b ≤ lastBoundary text i := by
  induction i with
  | zero => exact hle
  | succ i ih =>
    rw [lastBoundary_succ]
    split_ifs with hoff
    · apply ih
      by_contra hlt
      have : b = i + 1 := by omega
      rw [this, hoff.2] at hb
      cases hb
    · exact hle

/-- **The walk stays above a place with a whole character below its start.** -/
theorem lt_lastBoundary {done rest : List Char} {c : Char} {i : ℕ}
    (hle : size done + c.utf8Size ≤ i) :
    size done < lastBoundary (done ++ c :: rest) i := by
  have hnext : isCharBoundary (done ++ c :: rest) (size done + c.utf8Size) = true := by
    rw [isCharBoundary_iff]
    exact ⟨done ++ [c], rest, by simp, by simp⟩
  have := le_lastBoundary hnext hle
  have := c.utf8Size_pos
  omega

end LastBoundary

/-! ## Dropping bytes in front -/

/-- The text from the first boundary at or above an offset. -/
def dropBytes : ℕ → List Char → List Char
  | 0, text => text
  | _ + 1, [] => []
  | n + 1, c :: text => dropBytes (n + 1 - c.utf8Size) text

@[simp] theorem dropBytes_zero (text : List Char) : dropBytes 0 text = text := by
  cases text <;> rfl

@[simp] theorem dropBytes_nil (n : ℕ) : dropBytes n [] = [] := by
  cases n <;> rfl

theorem dropBytes_cons (n : ℕ) (c : Char) (text : List Char) :
    dropBytes (n + 1) (c :: text) = dropBytes (n + 1 - c.utf8Size) text := rfl

theorem dropBytes_append (n : ℕ) (text more : List Char) :
    dropBytes n (text ++ more) = dropBytes n text ++ dropBytes (n - size text) more := by
  induction text generalizing n with
  | nil => simp
  | cons c text ih =>
    cases n with
    | zero => simp
    | succ n => rw [List.cons_append, dropBytes_cons, dropBytes_cons, ih, size_cons, Nat.sub_sub]

theorem dropBytes_of_size_le {n : ℕ} {text : List Char} (h : size text ≤ n) :
    dropBytes n text = [] := by
  induction text generalizing n with
  | nil => simp
  | cons c text ih =>
    have hc := c.utf8Size_pos
    rw [size_cons] at h
    obtain ⟨n, rfl⟩ : ∃ k, n = k + 1 := ⟨n - 1, by omega⟩
    exact ih (by omega)

theorem dropBytes_suffix (n : ℕ) (text : List Char) : dropBytes n text <:+ text := by
  induction text generalizing n with
  | nil => simp
  | cons c text ih =>
    cases n with
    | zero => simp
    | succ n => exact (ih _).trans (List.suffix_cons c text)

theorem dropBytes_succ (n : ℕ) (text : List Char) :
    dropBytes (n + 1) text = dropBytes n text ∨
      ∃ c, dropBytes n text = c :: dropBytes (n + 1) text := by
  induction text generalizing n with
  | nil => simp
  | cons c text ih =>
    have hc := c.utf8Size_pos
    cases n with
    | zero =>
      refine .inr ⟨c, ?_⟩
      rw [dropBytes_zero, dropBytes_cons, Nat.sub_eq_zero_of_le (by omega), dropBytes_zero]
    | succ n =>
      rw [dropBytes_cons, dropBytes_cons]
      rcases Nat.lt_or_ge (n + 1) c.utf8Size with hlt | hge
      · exact .inl (by rw [Nat.sub_eq_zero_of_le (by omega), Nat.sub_eq_zero_of_le (by omega)])
      · rw [Nat.succ_sub hge]
        exact ih _

theorem dropBytes_mono {n n' : ℕ} (h : n ≤ n') (text : List Char) :
    dropBytes n' text <:+ dropBytes n text := by
  induction n', h using Nat.le_induction with
  | base => exact List.suffix_refl _
  | succ n' _ ih =>
    refine List.IsSuffix.trans ?_ ih
    rcases dropBytes_succ n' text with he | ⟨c, he⟩
    · rw [he]
    · rw [he]
      exact List.suffix_cons _ _

theorem length_dropBytes {text text' : List Char}
    (h : text.map Char.utf8Size = text'.map Char.utf8Size) (n : ℕ) :
    (dropBytes n text).length = (dropBytes n text').length := by
  induction text generalizing text' n with
  | nil =>
    rw [List.map_nil, eq_comm, List.map_eq_nil_iff] at h
    rw [h]
  | cons c text ih =>
    cases text' with
    | nil => simp at h
    | cons c' text' =>
      rw [List.map_cons, List.map_cons, List.cons.injEq] at h
      cases n with
      | zero =>
        have hlen := congrArg List.length h.2
        simpa using hlen
      | succ n =>
        rw [dropBytes_cons, dropBytes_cons, h.1]
        exact ih h.2 _

theorem length_le_size (text : List Char) : text.length ≤ size text := by
  induction text with
  | nil => simp
  | cons c text ih =>
    have := c.utf8Size_pos
    rw [List.length_cons, size_cons]
    omega

theorem size_le (text : List Char) : size text ≤ 4 * text.length := by
  induction text with
  | nil => simp
  | cons c text ih =>
    have := c.utf8Size_le_four
    rw [List.length_cons, size_cons]
    omega

theorem dropBytes_of_narrow {text : List Char} (h : ∀ c ∈ text, c.utf8Size = 1) (n : ℕ) :
    dropBytes n text = text.drop n := by
  induction text generalizing n with
  | nil => simp
  | cons c text ih =>
    cases n with
    | zero => simp
    | succ n =>
      rw [dropBytes_cons, h c List.mem_cons_self, Nat.add_sub_cancel, List.drop_succ_cons]
      exact ih (fun d hd => h d (List.mem_cons_of_mem _ hd)) n

end Zeron.Cut
