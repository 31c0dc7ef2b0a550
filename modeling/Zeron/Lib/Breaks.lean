import Mathlib

/-!
# Paragraphs of a stream that comes in pieces

A text arrives in pieces, each of some part. Where the part changes, newlines are put in, so many
that two stand at the border.

* `leading`, `trailing`, `after`: the newlines at the ends of a text;
* `emit`: the stream, from what each item starts with;
* `group`, `parts`: the items of one part as one;
* **`separated_emit`**: two newlines stand between the texts of the parts;
* **`emit_eq_iff`**: the cut does not show exactly if no part starts with two newlines behind one
  that ends with none.
-/

namespace Zeron.Breaks

def leading (x : List Char) : ℕ := (x.takeWhile (· = '\n')).length

def trailing (x : List Char) : ℕ := leading x.reverse

/-- The newlines at the end of a text that had `t` of them before `x`. -/
def after (t : ℕ) (x : List Char) : ℕ :=
  if trailing x = x.length then t + trailing x else trailing x

/-- The newlines that are missing before `first`. -/
def gap (t : ℕ) (first : List Char) : ℕ := 2 - (t + leading first)

/-- What arrives of a part: the first piece, and the text of all pieces. -/
structure Item (π : Type*) where
  part : π
  first : List Char
  text : List Char
  deriving DecidableEq

variable {π : Type*} [DecidableEq π]

/-- What is put in before an item. -/
def missing (last : Option π) (t : ℕ) (i : Item π) : ℕ :=
  if ∃ q ∈ last, q ≠ i.part then gap t i.first else 0

/-- The stream, behind the part `last` and `t` newlines. -/
def emit : Option π → ℕ → List (Item π) → List Char
  | _, _, [] => []
  | last, t, i :: l =>
    List.replicate (missing last t i) '\n' ++ i.text ++
      emit (some i.part) (after (t + missing last t i) i.text) l

/-- A piece on its own. -/
def piece (d : π × List Char) : Item π := ⟨d.1, d.2, d.2⟩

/-- An item before others joins the first of them if it is of the same part. -/
def join (i : Item π) : List (Item π) → List (Item π)
  | [] => [i]
  | k :: l => if i.part = k.part then { i with text := i.text ++ k.text } :: l else i :: k :: l

/-- The items of a list of pieces. -/
def group (l : List (π × List Char)) : List (Item π) := l.foldr (fun d => join (piece d)) []

/-- The parts of a list of pieces, with their texts. -/
def parts (l : List (π × List Char)) : List (π × List Char) :=
  (group l).map fun i => (i.part, i.text)

/-- `out` is `before` and the texts, two newlines or more standing before each. -/
def Separated : List Char → List (List Char) → List Char → Prop
  | before, [], out => out = before
  | before, x :: xs, out =>
    ∃ n, 2 ≤ trailing (before ++ List.replicate n '\n') + leading x ∧
      Separated (before ++ List.replicate n '\n' ++ x) xs out

/-- A text that ends with no newline, and one that starts with two. -/
def Torn (x y : List Char) : Prop := trailing x = 0 ∧ 2 ≤ leading y

instance (x y : List Char) : Decidable (Torn x y) := inferInstanceAs (Decidable (_ ∧ _))

/-! ## Newlines at the ends -/

section

variable {t t' : ℕ} {x y f : List Char}

theorem leading_append (x y : List Char) :
    leading (x ++ y) = if leading x = x.length then x.length + leading y else leading x := by
  rw [leading, leading, List.takeWhile_append]
  split_ifs <;> simp [leading]

theorem leading_le (x : List Char) : leading x ≤ x.length := (List.takeWhile_sublist _).length_le

theorem leading_replicate (n : ℕ) : leading (List.replicate n '\n') = n := by
  simp [leading]

theorem trailing_append (x y : List Char) : trailing (x ++ y) = after (trailing x) y := by
  rw [trailing, List.reverse_append, leading_append, after, List.length_reverse, ← trailing]
  split_ifs with h
  · rw [h, ← trailing]
    omega
  · rfl

theorem trailing_replicate (n : ℕ) : trailing (List.replicate n '\n') = n := by
  rw [trailing, List.reverse_replicate, leading_replicate]

theorem after_replicate (t n : ℕ) : after t (List.replicate n '\n') = t + n := by
  rw [after, trailing_replicate, if_pos List.length_replicate.symm]

theorem after_append (t : ℕ) (x y : List Char) : after t (x ++ y) = after (after t x) y := by
  have h := trailing_append (List.replicate t '\n' ++ x) y
  rw [List.append_assoc, trailing_append, trailing_append, trailing_replicate] at h
  exact h

theorem after_eq_zero (hx : x ≠ []) : after t x = 0 ↔ trailing x = 0 := by
  have hpos := List.length_pos_iff.mpr hx
  rw [after]
  split_ifs with h
  · omega
  · rfl

theorem after_rel (h : t = t' ∨ 2 ≤ t ∧ 2 ≤ t') (x : List Char) :
    after t x = after t' x ∨ 2 ≤ after t x ∧ 2 ≤ after t' x := by
  rw [after, after]
  split_ifs <;> omega

theorem gap_eq (hf : f ≠ []) (hx : f <+: x) (h : ¬ (t = 0 ∧ 2 ≤ leading x)) :
    gap t f = gap t x := by
  obtain ⟨r, rfl⟩ := hx
  have hpos := List.length_pos_iff.mpr hf
  rw [leading_append] at h
  rw [gap, gap, leading_append]
  split_ifs at h ⊢ with hall
  · omega
  · rfl

end

/-! ## Pieces of one part -/

section

variable {t t' : ℕ} {last : Option π} {i k : Item π} {l : List (Item π)}

theorem emit_join (last : Option π) (t : ℕ) (i : Item π) (l : List (Item π)) :
    emit last t (join i l) = emit last t (i :: l) := by
  cases l with
  | nil => rfl
  | cons k l =>
    rw [join]
    split_ifs with h
    · have hnone : missing (some i.part) (after (t + missing last t i) i.text) k = 0 := by
        simp [missing, h]
      rw [emit, emit, emit, hnone, ← h, after_append]
      simp [missing]
    · rfl

theorem emit_group (last : Option π) (t : ℕ) (l : List (π × List Char)) :
    emit last t (group l) = emit last t (l.map piece) := by
  induction l generalizing last t with
  | nil => rfl
  | cons d l ih =>
    show emit last t (join (piece d) (group l)) = _
    rw [emit_join, List.map_cons, emit, emit, ih]

theorem isChain_join (h : l.IsChain (·.part ≠ ·.part)) (i : Item π) :
    (join i l).IsChain (·.part ≠ ·.part) := by
  cases l with
  | nil => exact List.isChain_singleton i
  | cons k l =>
    rw [join]
    split_ifs with heq
    · simp only [List.isChain_cons, heq] at h ⊢
      exact h
    · exact List.isChain_cons_cons.mpr ⟨heq, h⟩

theorem isChain_group (l : List (π × List Char)) : (group l).IsChain (·.part ≠ ·.part) := by
  induction l with
  | nil => exact List.isChain_nil
  | cons d l ih => exact isChain_join ih (piece d)

/-- An item is made of pieces that are not empty. -/
def Item.Whole (i : Item π) : Prop := i.first ≠ [] ∧ i.first <+: i.text

theorem whole_join (hi : i.Whole) (hl : ∀ k ∈ l, k.Whole) : ∀ k ∈ join i l, k.Whole := by
  cases l with
  | nil => simpa [join] using hi
  | cons k l =>
    rw [List.forall_mem_cons] at hl
    rw [join]
    split_ifs
    · exact List.forall_mem_cons.mpr ⟨⟨hi.1, hi.2.trans (List.prefix_append _ _)⟩, hl.2⟩
    · exact List.forall_mem_cons.mpr ⟨hi, List.forall_mem_cons.mpr hl⟩

theorem whole_group {l : List (π × List Char)} (h : ∀ d ∈ l, d.2 ≠ []) :
    ∀ k ∈ group l, k.Whole := by
  induction l with
  | nil => simp [group]
  | cons d l ih =>
    rw [List.forall_mem_cons] at h
    exact whole_join ⟨h.1, List.prefix_refl _⟩ (ih h.2)

end

/-! ## What stands between the parts -/

section

variable {t t' : ℕ} {last : Option π} {i : Item π} {l : List (Item π)} {before : List Char}

theorem missing_none (t : ℕ) (i : Item π) : missing none t i = 0 := if_neg (by simp)

theorem missing_of_ne {q : π} (h : q ≠ i.part) : missing (some q) t i = gap t i.first :=
  if_pos ⟨q, rfl, h⟩

theorem leading_mono {f x : List Char} (h : f <+: x) : leading f ≤ leading x := by
  obtain ⟨r, rfl⟩ := h
  rw [leading_append]
  split_ifs with hall
  · omega
  · rfl

theorem separated_emit_some {q : π} (hl : ∀ k ∈ l, k.Whole) (ht : t = trailing before)
    (hq : ∀ k ∈ l.head?, q ≠ k.part) (hchain : l.IsChain (·.part ≠ ·.part)) :
    Separated before (l.map (·.text)) (before ++ emit (some q) t l) := by
  induction l generalizing q t before with
  | nil => exact List.append_nil before
  | cons i l ih =>
    rw [List.forall_mem_cons] at hl
    have hgap := leading_mono hl.1.2
    have hne : q ≠ i.part := hq i rfl
    have hbefore : trailing (before ++ List.replicate (gap t i.first) '\n') =
        t + gap t i.first := by
      rw [trailing_append, after_replicate, ht]
    refine ⟨gap t i.first, ?_, ?_⟩
    · have htwo : 2 ≤ t + gap t i.first + leading i.first := by
        rw [gap]
        omega
      rw [hbefore]
      exact htwo.trans (Nat.add_le_add_left hgap _)
    · rw [emit, missing_of_ne hne, ← List.append_assoc, ← List.append_assoc]
      refine ih hl.2 ?_ (fun k hk => ?_) hchain.tail
      · rw [trailing_append, hbefore]
      · exact (List.isChain_cons.mp hchain).1 k hk

/-- **Two newlines stand between the texts of different parts.** -/
theorem separated_emit {ds : List (π × List Char)} (h : ∀ d ∈ ds, d.2 ≠ []) :
    ∀ x xs, (parts ds).map (·.2) = x :: xs → Separated x xs (emit none 0 (ds.map piece)) := by
  intro x xs hx
  have hwhole := whole_group h
  have hchain := isChain_group ds
  rw [parts, List.map_map] at hx
  rw [← emit_group]
  obtain ⟨i, l, hgroup, rfl, rfl⟩ := List.map_eq_cons_iff.mp hx
  rw [hgroup] at hwhole hchain ⊢
  rw [emit, missing_none, List.replicate_zero, List.nil_append]
  refine separated_emit_some (List.forall_mem_cons.mp hwhole).2 ?_ (fun k hk => ?_) hchain.tail
  · exact (trailing_append [] i.text).symm
  · exact (List.isChain_cons.mp hchain).1 k hk

/-! ## The cut -/

theorem emit_rel (h : t = t' ∨ 2 ≤ t ∧ 2 ≤ t') (last : Option π) (l : List (Item π)) :
    emit last t l = emit last t' l := by
  induction l generalizing last t t' with
  | nil => rfl
  | cons i l ih =>
    have hmissing : missing last t i = missing last t' i := by
      rw [missing, missing, gap, gap]
      split_ifs <;> omega
    have hafter : t + missing last t' i = t' + missing last t' i ∨
        2 ≤ t + missing last t' i ∧ 2 ≤ t' + missing last t' i := by omega
    rw [emit, emit, hmissing, ih (after_rel hafter i.text)]

/-- The item as it is in one piece. -/
def Item.uncut (i : Item π) : Item π := { i with first := i.text }

theorem emit_uncut {x : List Char} (hl : ∀ k ∈ l, k.Whole) (ht : t = 0 ↔ trailing x = 0)
    (hx : ∀ k ∈ l.head?, last ≠ none → ¬ Torn x k.text)
    (hchain : l.IsChain fun a b => ¬ Torn a.text b.text) :
    emit last t l = emit last t (l.map Item.uncut) := by
  induction l generalizing last t x with
  | nil => rfl
  | cons i l ih =>
    rw [List.forall_mem_cons] at hl
    have hmissing : missing last t i = missing last t i.uncut := by
      rw [missing, missing]
      refine ite_congr rfl (fun hq => ?_) fun _ => rfl
      refine gap_eq hl.1.1 hl.1.2 ?_
      rw [ht]
      refine hx i rfl ?_
      rintro rfl
      simp at hq
    have hne : i.text ≠ [] := fun hnil => hl.1.1 (List.prefix_nil.mp (hnil ▸ hl.1.2))
    rw [List.map_cons, emit, emit, ← hmissing]
    refine congrArg _ (ih hl.2 (after_eq_zero hne) (fun k hk _ => ?_) hchain.tail)
    exact (List.isChain_cons.mp hchain).1 k hk

end

/-! ## The cut that shows -/

section

variable {t : ℕ} {q : π} {l : List (π × List Char)} {x : List Char}

theorem group_of_isChain (h : l.IsChain (·.1 ≠ ·.1)) : group l = l.map piece := by
  induction l with
  | nil => rfl
  | cons d l ih =>
    show join (piece d) (group l) = _
    rw [ih h.tail]
    cases l with
    | nil => rfl
    | cons e l =>
      rw [List.map_cons, join, if_neg]
      · rfl
      · exact (List.isChain_cons_cons.mp h).1

theorem parts_of_isChain (h : l.IsChain (·.1 ≠ ·.1)) : parts l = l := by
  rw [parts, group_of_isChain h, List.map_map]
  exact List.map_id l

theorem isChain_parts (l : List (π × List Char)) : (parts l).IsChain (·.1 ≠ ·.1) := by
  rw [parts, List.isChain_map]
  exact isChain_group l

theorem parts_cons {d : π × List Char} (h : ∀ e ∈ (parts l).head?, d.1 ≠ e.1) :
    parts (d :: l) = d :: parts l := by
  show (join (piece d) (group l)).map _ = d :: (group l).map _
  rw [parts] at h
  cases hl : group l with
  | nil => rfl
  | cons k l' =>
    rw [hl] at h
    have hne : (piece d).part ≠ k.part := h (k.part, k.text) rfl
    rw [join, if_neg hne]
    rfl

theorem mem_join {i : Item π} {l : List (Item π)} {p : π} :
    p ∈ (join i l).map (·.part) ↔ p ∈ (i :: l).map (·.part) := by
  cases l with
  | nil => rfl
  | cons k l =>
    rw [join]
    split_ifs with h
    · simp [h]
    · rfl

theorem mem_parts {p : π} : p ∈ (parts l).map (·.1) ↔ p ∈ l.map (·.1) := by
  rw [parts, List.map_map]
  show p ∈ (group l).map (·.part) ↔ _
  induction l with
  | nil => rfl
  | cons d l ih =>
    show p ∈ (join (piece d) (group l)).map (·.part) ↔ _
    rw [mem_join, List.map_cons, List.map_cons, List.mem_cons, List.mem_cons, ih]
    rfl

theorem two_le_leading (h : 2 ≤ leading x) : ∃ r, x = '\n' :: '\n' :: r := by
  cases x with
  | nil => simp [leading] at h
  | cons a x =>
    have ha : a = '\n' := by
      by_contra ha
      simp [leading, ha] at h
    cases x with
    | nil => simp [leading, ha] at h
    | cons b r =>
      have hb : b = '\n' := by
        by_contra hb
        simp [leading, ha, hb] at h
      exact ⟨r, by rw [ha, hb]⟩

/-- If some border is torn, some cut puts in one newline more. -/
theorem exists_cut (hl : ∀ d ∈ l, d.2 ≠ []) (hparts : l.IsChain (·.1 ≠ ·.1))
    (hq : ∀ d ∈ l.head?, q ≠ d.1) (ht : t = 0 ↔ trailing x = 0)
    (h : ¬ ((q, x) :: l).IsChain fun a b => ¬ Torn a.2 b.2) :
    ∃ ds : List (π × List Char), (∀ d ∈ ds, d.2 ≠ []) ∧ parts ds = l ∧
      (emit (some q) t (l.map piece)).length < (emit (some q) t (ds.map piece)).length := by
  induction l generalizing q t x with
  | nil => exact absurd (List.isChain_singleton _) h
  | cons d l ih =>
    rw [List.forall_mem_cons] at hl
    have hne : q ≠ d.1 := hq d rfl
    have hhead := (List.isChain_cons.mp hparts).1
    by_cases htorn : Torn x d.2
    · -- The first newline of the part comes alone.
      obtain ⟨r, hr⟩ := two_le_leading htorn.2
      have hparts' : group ((d.1, ['\n']) :: (d.1, '\n' :: r) :: l) =
          ⟨d.1, ['\n'], d.2⟩ :: l.map piece := by
        show join _ (join _ (group l)) = _
        have htail : l.IsChain (·.1 ≠ ·.1) := hparts.tail
        rw [group_of_isChain htail]
        cases l with
        | nil => simp [join, piece, hr]
        | cons e l => simp [join, piece, hr, hhead e rfl]
      refine ⟨(d.1, ['\n']) :: (d.1, '\n' :: r) :: l, ?_, ?_, ?_⟩
      · simpa using hl.2
      · rw [parts, hparts', List.map_cons, List.map_map]
        exact congrArg _ (List.map_id l)
      · have hzero : t = 0 := ht.mpr htorn.1
        have hcut : gap 0 ['\n'] = 1 := by decide
        have hone : gap 0 d.2 = 0 := by
          have := htorn.2
          rw [gap]
          omega
        have hrel : after 0 d.2 = after 1 d.2 ∨ 2 ≤ after 0 d.2 ∧ 2 ≤ after 1 d.2 := by
          have hlen := leading_le d.2
          have htwo := htorn.2
          rw [after, after]
          split_ifs <;> omega
        have hwhole : emit (some q) t ((d :: l).map piece) =
            d.2 ++ emit (some d.1) (after 1 d.2) (l.map piece) := by
          rw [List.map_cons, emit, missing_of_ne hne]
          show List.replicate (gap t d.2) '\n' ++ d.2 ++
            emit (some d.1) (after (t + gap t d.2) d.2) (l.map piece) = _
          rw [hzero, hone, emit_rel hrel]
          rfl
        rw [hwhole, ← emit_group _ _ (_ :: _), hparts', emit, missing_of_ne hne, hzero, hcut]
        simp
    · have hchain : ¬ (d :: l).IsChain fun a b => ¬ Torn a.2 b.2 := fun hd =>
        h (List.isChain_cons_cons.mpr ⟨htorn, hd⟩)
      obtain ⟨ds, hds, rfl, hlt⟩ := ih hl.2 hparts.tail hhead
        (after_eq_zero (t := t + missing (some q) t (piece d)) hl.1) hchain
      refine ⟨d :: ds, List.forall_mem_cons.mpr ⟨hl.1, hds⟩, parts_cons hhead, ?_⟩
      rw [List.map_cons, List.map_cons, emit, emit, List.length_append,
        @List.length_append _ (_ ++ _)]
      exact Nat.add_lt_add_left hlt _

theorem emit_parts (hl : ∀ d ∈ l, d.2 ≠ [])
    (h : (parts l).IsChain fun a b => ¬ Torn a.2 b.2) :
    emit none 0 (l.map piece) = emit none 0 ((parts l).map piece) := by
  have hchain : (group l).IsChain fun a b => ¬ Torn a.text b.text := (List.isChain_map _).mp h
  have huncut : (group l).map Item.uncut = (parts l).map piece := by
    rw [parts, List.map_map]
    rfl
  rw [← emit_group, ← huncut]
  exact emit_uncut (x := []) (whole_group hl) (by simp [trailing, leading])
    (fun _ _ hnone => absurd rfl hnone) hchain

/-- **The cut of the parts does not show exactly if no border is torn.** -/
theorem emit_eq_iff (hl : ∀ d ∈ l, d.2 ≠ []) :
    (∀ l' : List (π × List Char), (∀ d ∈ l', d.2 ≠ []) → parts l' = parts l →
      emit none 0 (l'.map piece) = emit none 0 (l.map piece)) ↔
    (parts l).IsChain fun a b => ¬ Torn a.2 b.2 := by
  constructor
  · intro h
    by_contra htorn
    have hchain := isChain_parts l
    have hne : ∀ d ∈ parts l, d.2 ≠ [] := by
      simp only [parts, List.forall_mem_map]
      intro i hi hnil
      have hi := whole_group hl i hi
      exact hi.1 (List.prefix_nil.mp (hnil ▸ hi.2))
    have hself := h (parts l) hne (parts_of_isChain hchain)
    cases hps : parts l with
    | nil => exact htorn (hps ▸ List.isChain_nil)
    | cons d ps =>
      rw [hps] at htorn hchain hne hself
      rw [List.forall_mem_cons] at hne
      have hhead := (List.isChain_cons.mp hchain).1
      obtain ⟨ds, hds, rfl, hlt⟩ := exists_cut hne.2 hchain.tail hhead
        (after_eq_zero (t := 0) hne.1) htorn
      have hcut := h (d :: ds) (List.forall_mem_cons.mpr ⟨hne.1, hds⟩)
        (by rw [hps, parts_cons hhead])
      rw [← hself, List.map_cons, List.map_cons, emit, emit, missing_none] at hcut
      exact hlt.ne (congrArg List.length (List.append_cancel_left hcut)).symm
  · intro h l' hl' hparts
    rw [emit_parts hl h, emit_parts hl' (hparts ▸ h), hparts]

end

end Zeron.Breaks
