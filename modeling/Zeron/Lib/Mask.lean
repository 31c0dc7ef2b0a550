import Mathlib

/-!
# Masking what follows a marker

A text is searched for markers. After an opening marker, and after a gap, a secret runs up to the
first character that stops it; another marker is itself the start of its secret. Secrets are
replaced by one cover.

* `Rules`: the markers and the classes of characters;
* `Mode`, `next`, `put`: reading one character, with the text behind it in sight;
* `scan`: the masked text; `shown`, `after`: its part, and the mode, before more text comes;
* **`scan_append_of_hides`**: a text that ends in a secret or before one is masked alone;
* **`scan_secret_eq`**: the secret behind such a text does not matter;
* **`scan_append_ne`**: a character behind any other text is shown;
* **`scan_cons_ne`**: a longer text is masked differently;
* `scan_search`, `scan_labelled`, `scan_gap`, `scan_stop`: a whole mode at a time.
-/

namespace Zeron.Mask

variable {α : Type*}

structure Rules (α : Type*) where
  markers : List (List α)
  /-- The secret starts after the marker and not with it. -/
  opens : List α → Bool
  /-- Markers are compared after this. -/
  fold : α → α
  gap : α → Bool
  stop : α → Bool
  cover : List α

/-- Where the reading of a text stands. -/
inductive Mode where
  | search
  /-- The rest of an opening marker. -/
  | label (left : ℕ)
  | gap
  | secret
  deriving DecidableEq

/-- What comes next is part of a secret. -/
def Mode.hides : Mode → Bool
  | .gap | .secret => true
  | .search | .label _ => false

def labelled (left : ℕ) : Mode := if left = 0 then .gap else .label left

namespace Rules

variable [DecidableEq α] (R : Rules α)

/-- The marker at the start of a text. -/
def markerAt (text : List α) : Option (List α) :=
  R.markers.find? fun m => m <+: text.map R.fold

def next : Mode → α → List α → Mode
  | .search, c, text =>
    match R.markerAt (c :: text) with
    | none => .search
    | some m => if R.opens m then labelled (m.length - 1) else .secret
  | .label left, _, _ => labelled (left - 1)
  | .gap, c, _ => if R.gap c then .gap else if R.stop c then .search else .secret
  | .secret, c, _ => if R.stop c then .search else .secret

def put : Mode → α → List α → List α
  | .search, c, text =>
    match R.markerAt (c :: text) with
    | none => [c]
    | some m => if R.opens m then [c] else R.cover
  | .label _, c, _ => [c]
  | .gap, c, _ => if R.gap c then [c] else if R.stop c then R.cover ++ [c] else R.cover
  | .secret, c, _ => if R.stop c then [c] else []

def scan : Mode → List α → List α
  | mode, [] => if mode = .gap then R.cover else []
  | mode, c :: text => R.put mode c text ++ scan (R.next mode c text) text

/-- The masked text, up to what depends on the text to come. -/
def shown : Mode → List α → List α
  | _, [] => []
  | mode, c :: text => R.put mode c text ++ shown (R.next mode c text) text

def after : Mode → List α → Mode
  | mode, [] => mode
  | mode, c :: text => after (R.next mode c text) text

/-- No marker is a part of another. -/
def Apart : Prop := ∀ m ∈ R.markers, ∀ m' ∈ R.markers, m' <:+: m → m' = m

/-- A character that is in no marker. -/
def Foreign (c : α) : Prop := ∀ m ∈ R.markers, R.fold c ∉ m

/-- A marker without its first character is no marker, nor the start of one or more than one; its
first two characters differ. -/
def Distinct : Prop :=
  ∀ m ∈ R.markers, ∃ a b rest, m = a :: b :: rest ∧ a ≠ b ∧
    ∀ m' ∈ R.markers, ¬ m' <+: b :: rest ∧ ¬ b :: rest <+: m'

variable {R}

/-! ## Markers -/

theorem markerAt_eq_none {text : List α} :
    R.markerAt text = none ↔ ∀ m ∈ R.markers, ¬ m <+: text.map R.fold := by
  simp [markerAt]

theorem markerAt_prefix {text m : List α} (h : R.markerAt text = some m) :
    m ∈ R.markers ∧ m <+: text.map R.fold :=
  ⟨List.mem_of_find?_eq_some h, by simpa using List.find?_some h⟩

omit [DecidableEq α] in
theorem Apart.eq_of_prefix (h : R.Apart) {m m' text : List α} (hm : m ∈ R.markers)
    (hm' : m' ∈ R.markers) (hp : m <+: text) (hp' : m' <+: text) : m = m' := by
  rcases List.prefix_or_prefix_of_prefix hp hp' with hle | hle
  · exact h m' hm' m hm hle.isInfix
  · exact (h m hm m' hm' hle.isInfix).symm

theorem Apart.markerAt_eq (h : R.Apart) {text m : List α} (hm : m ∈ R.markers)
    (hp : m <+: text.map R.fold) : R.markerAt text = some m := by
  cases hat : R.markerAt text with
  | none => exact absurd hp (markerAt_eq_none.mp hat m hm)
  | some m' =>
    obtain ⟨hm', hp'⟩ := markerAt_prefix hat
    rw [h.eq_of_prefix hm' hm hp' hp]

theorem Apart.markerAt_append (h : R.Apart) {text m : List α} (hat : R.markerAt text = some m)
    (more : List α) : R.markerAt (text ++ more) = some m := by
  obtain ⟨hm, hp⟩ := markerAt_prefix hat
  exact h.markerAt_eq hm (by rw [List.map_append]; exact hp.trans (List.prefix_append _ _))

theorem Foreign.markerAt_append {c : α} (hc : R.Foreign c) (text more : List α) :
    R.markerAt (text ++ c :: more) = R.markerAt text := by
  refine List.find?_congr fun m hm => decide_eq_decide.mpr ⟨fun hp => ?_, fun hp => ?_⟩
  · rw [List.map_append, List.map_cons] at hp
    rcases List.prefix_or_prefix_of_prefix hp (List.prefix_append _ _) with hle | ⟨rest, rfl⟩
    · exact hle
    · rw [List.prefix_append_right_inj] at hp
      cases rest with
      | nil => simp
      | cons d rest =>
        rw [List.cons_prefix_cons] at hp
        exact absurd (by simp [hp.1]) (hc _ hm)
  · rw [List.map_append]
    exact hp.trans (List.prefix_append _ _)

theorem Foreign.markerAt_cons {c : α} (hc : R.Foreign c) (more : List α)
    (h : [] ∉ R.markers) : R.markerAt (c :: more) = none := by
  have he := hc.markerAt_append [] more
  rw [List.nil_append] at he
  rw [he, markerAt_eq_none]
  intro m hm hp
  rw [List.map_nil, List.prefix_nil] at hp
  exact h (hp ▸ hm)

/-! ## Texts in two parts -/

attribute [local simp] next in
theorem after_search {text : List α}
    (h : ∀ rest, rest <:+ text → R.markerAt rest = none) : R.after .search text = .search := by
  induction text with
  | nil => rfl
  | cons c text ih =>
    rw [after, next, h _ (List.suffix_refl _)]
    exact ih fun rest hr => h rest (hr.trans (List.suffix_cons _ _))

theorem after_of_spans (ha : R.Apart) {c : α} {text more m : List α}
    (hnone : R.markerAt (c :: text) = none) (hat : R.markerAt (c :: text ++ more) = some m) :
    R.after .search text = .search := by
  obtain ⟨hm, hp⟩ := markerAt_prefix hat
  have hspan : (c :: text).map R.fold <+: m := by
    have hq : (c :: text).map R.fold <+: (c :: text ++ more).map R.fold := by
      rw [List.map_append]
      exact List.prefix_append _ _
    rcases List.prefix_or_prefix_of_prefix hp hq with hle | hle
    · exact absurd hle (markerAt_eq_none.mp hnone m hm)
    · exact hle
  refine after_search fun rest hrest => markerAt_eq_none.mpr fun m' hm' hp' => ?_
  have hin : m' <:+: text.map R.fold := hp'.isInfix.trans (hrest.map R.fold).isInfix
  have heq : m' = m :=
    ha m hm m' hm' (hin.trans ((List.suffix_cons (R.fold c) _).isInfix.trans hspan.isInfix))
  have hle := hin.length_le
  have hlt := hspan.length_le
  rw [heq] at hle
  simp only [List.map_cons, List.length_cons] at hlt
  omega

attribute [local simp] scan put in
/-- **A text that ends in a secret or before one is masked alone.** -/
theorem scan_append_of_hides (ha : R.Apart) (mode : Mode) (text more : List α)
    (h : (R.after mode text).hides = true) :
    R.scan mode (text ++ more) = R.shown mode text ++ R.scan (R.after mode text) more := by
  induction text generalizing mode with
  | nil => rfl
  | cons c text ih =>
    have key : R.put mode c (text ++ more) = R.put mode c text ∧
        R.next mode c (text ++ more) = R.next mode c text := by
      cases mode with
      | search =>
        have hat : R.markerAt (c :: (text ++ more)) = R.markerAt (c :: text) := by
          cases hc : R.markerAt (c :: text) with
          | some m => exact ha.markerAt_append hc more
          | none =>
            cases hc' : R.markerAt (c :: (text ++ more)) with
            | none => rfl
            | some m =>
              rw [after, next, hc, after_of_spans ha hc hc'] at h
              exact absurd h (by decide)
        simp only [put, next, hat, and_self]
      | label left | gap | secret => exact ⟨rfl, rfl⟩
    rw [List.cons_append, scan, key.1, key.2, ih _ h, shown, after, List.append_assoc]

/-- **A foreign character parts a text.** -/
theorem scan_append_foreign {c : α} (hc : R.Foreign c) (mode : Mode) (text more : List α) :
    R.scan mode (text ++ c :: more) =
      R.shown mode text ++ R.scan (R.after mode text) (c :: more) := by
  induction text generalizing mode with
  | nil => rfl
  | cons d text ih =>
    have hat := hc.markerAt_append (d :: text) more
    have key : R.put mode d (text ++ c :: more) = R.put mode d text ∧
        R.next mode d (text ++ c :: more) = R.next mode d text := by
      cases mode with
      | search =>
        rw [List.cons_append] at hat
        simp only [put, next, hat, and_self]
      | label left | gap | secret => exact ⟨rfl, rfl⟩
    rw [List.cons_append, scan, key.1, key.2, ih, shown, after, List.append_assoc]

/-! ## Secrets -/

/-- The characters of a secret. -/
def Plain (R : Rules α) (s : List α) : Prop := ∀ c ∈ s, R.stop c = false ∧ R.gap c = false

omit [DecidableEq α] in
theorem Plain.of_cons {c : α} {s : List α} (h : R.Plain (c :: s)) : R.Plain s :=
  fun d hd => h d (List.mem_cons_of_mem _ hd)

theorem scan_secret {s : List α} (hs : R.Plain s) (more : List α) :
    R.scan .secret (s ++ more) = R.scan .secret more := by
  induction s with
  | nil => rfl
  | cons c s ih =>
    rw [List.cons_append, scan, put, next, (hs c List.mem_cons_self).1, if_neg (by simp),
      if_neg (by simp), ih hs.of_cons, List.nil_append]

theorem scan_hides {s : List α} (hs : R.Plain s) (hne : s ≠ []) (more : List α) {mode : Mode}
    (h : mode.hides = true) :
    R.scan mode (s ++ more) =
      (if mode = .gap then R.cover else []) ++ R.scan .secret more := by
  cases mode with
  | search | label left => simp [Mode.hides] at h
  | secret => rw [scan_secret hs, if_neg (by simp), List.nil_append]
  | gap =>
    obtain ⟨c, s, rfl⟩ := List.exists_cons_of_ne_nil hne
    obtain ⟨hstop, hgap⟩ := hs c List.mem_cons_self
    rw [List.cons_append, scan, put, next, hstop, hgap, if_neg (by simp), if_neg (by simp),
      if_neg (by simp), if_neg (by simp), if_pos rfl, scan_secret hs.of_cons]

/-- **The secret does not matter behind a text that ends in a secret or before one.** -/
theorem scan_secret_eq (ha : R.Apart) {mode : Mode} {text s s' : List α}
    (h : (R.after mode text).hides = true) (hs : R.Plain s) (hs' : R.Plain s') (hne : s ≠ [])
    (hne' : s' ≠ []) (more : List α) :
    R.scan mode (text ++ (s ++ more)) = R.scan mode (text ++ (s' ++ more)) := by
  rw [scan_append_of_hides ha _ _ _ h, scan_append_of_hides ha _ _ _ h, scan_hides hs hne more h,
    scan_hides hs' hne' more h]

/-- **Behind any other text, a character is shown.** -/
theorem scan_append_ne {mode : Mode} {text more more' : List α} {c c' : α}
    (h : (R.after mode text).hides = false) (hc : R.Foreign c) (hc' : R.Foreign c') (hne : c ≠ c')
    (hnil : [] ∉ R.markers) :
    R.scan mode (text ++ c :: more) ≠ R.scan mode (text ++ c' :: more') := by
  have key : ∀ {d : α}, R.Foreign d → ∀ tail,
      ∃ rest, R.scan (R.after mode text) (d :: tail) = d :: rest := by
    intro d hd tail
    rw [scan]
    cases hm : R.after mode text with
    | search => exact ⟨_, by rw [put, hd.markerAt_cons _ hnil]; rfl⟩
    | label left => exact ⟨_, by rw [put]; rfl⟩
    | gap | secret => simp [hm, Mode.hides] at h
  obtain ⟨rest, hrest⟩ := key hc more
  obtain ⟨rest', hrest'⟩ := key hc' more'
  rw [scan_append_foreign hc, scan_append_foreign hc', hrest, hrest']
  intro he
  exact hne (List.cons.inj (List.append_cancel_left he)).1

/-! ## Longer texts -/

/-- **A text with one more character in front is masked differently.** -/
theorem scan_cons_ne (hd : R.Distinct) {z : α} {mask : List α} (hcover : R.cover = z :: mask)
    (hz : R.Foreign z) (c : α) (text : List α) :
    R.scan .search (c :: text) ≠ R.scan .search text := by
  rw [scan, put, next]
  cases hat : R.markerAt (c :: text) with
  | none => simp
  | some m =>
    obtain ⟨hm, hp⟩ := markerAt_prefix hat
    obtain ⟨a, b, rest, rfl, hab, hother⟩ := hd m hm
    rw [List.map_cons, List.cons_prefix_cons] at hp
    obtain ⟨rfl, hp⟩ := hp
    cases text with
    | nil => simp at hp
    | cons d text =>
      have hfold : b = R.fold d := by
        rw [List.map_cons, List.cons_prefix_cons] at hp
        exact hp.1
      have hnone : R.markerAt (d :: text) = none := by
        refine markerAt_eq_none.mpr fun m' hm' hp' => ?_
        rcases List.prefix_or_prefix_of_prefix hp hp' with hle | hle
        · exact (hother m' hm').2 hle
        · exact (hother m' hm').1 hle
      have hscan : R.scan .search (d :: text) = d :: R.scan .search text := by
        rw [scan, put, next, hnone]
        rfl
      rw [hscan]
      intro he
      cases ho : R.opens (R.fold c :: b :: rest) with
      | true =>
        simp only [ho, if_true, List.singleton_append, List.cons.injEq] at he
        exact hab (by rw [he.1, hfold])
      | false =>
        simp only [ho, Bool.false_eq_true, if_false, hcover, List.cons_append,
          List.cons.injEq] at he
        exact hz _ hm (by rw [he.1, ← hfold]; simp)

/-! ## A mode at a time -/

theorem scan_search {text : List α} {n : ℕ} (hn : n ≤ text.length)
    (h : ∀ i < n, R.markerAt (text.drop i) = none) :
    R.scan .search text = text.take n ++ R.scan .search (text.drop n) := by
  induction n generalizing text with
  | zero => rfl
  | succ n ih =>
    cases text with
    | nil => simp at hn
    | cons c text =>
      have hc : R.markerAt (c :: text) = none := h 0 n.succ_pos
      rw [scan, put, next, hc, ih (Nat.le_of_succ_le_succ hn) fun i hi =>
        h (i + 1) (Nat.succ_lt_succ hi)]
      rfl

theorem scan_labelled {text : List α} {n : ℕ} (hn : n ≤ text.length) :
    R.scan (labelled n) text = text.take n ++ R.scan .gap (text.drop n) := by
  induction n generalizing text with
  | zero => rfl
  | succ n ih =>
    cases text with
    | nil => simp at hn
    | cons c text =>
      rw [labelled, if_neg n.succ_ne_zero, scan, put, next, Nat.add_sub_cancel,
        ih (Nat.le_of_succ_le_succ hn)]
      rfl

theorem scan_stop (hstop : ∀ c text, R.stop c = true → R.markerAt (c :: text) = none)
    (text : List α) : R.scan .secret text = R.scan .search (text.dropWhile fun c => !R.stop c) := by
  induction text with
  | nil => rfl
  | cons c text ih =>
    cases hc : R.stop c with
    | true =>
      rw [List.dropWhile_cons_of_neg (by simp [hc])]
      simp only [scan, put, next, hc, hstop c text hc, if_true]
    | false =>
      rw [List.dropWhile_cons_of_pos (by simp [hc]), scan, put, next, hc, if_neg (by simp),
        if_neg (by simp), ih, List.nil_append]

theorem scan_gap (hstop : ∀ c text, R.stop c = true → R.markerAt (c :: text) = none)
    (text : List α) :
    R.scan .gap text = text.takeWhile R.gap ++
      (R.cover ++ R.scan .search ((text.dropWhile R.gap).dropWhile fun c => !R.stop c)) := by
  induction text with
  | nil => simp [scan]
  | cons c text ih =>
    cases hg : R.gap c with
    | true =>
      rw [scan, put, next, hg, if_pos rfl, if_pos rfl, ih, List.takeWhile_cons_of_pos hg,
        List.dropWhile_cons_of_pos hg]
      rfl
    | false =>
      rw [List.takeWhile_cons_of_neg (by simp [hg]), List.dropWhile_cons_of_neg (by simp [hg]),
        ← scan_stop hstop]
      cases hc : R.stop c with
      | true => simp [scan, put, next, hg, hc]
      | false => simp [scan, put, next, hg, hc]

end Rules

end Zeron.Mask
