import Zeron.Agent.Stderr

/-!
# What a crash message tells of a credential

* `tailOf`: the tail that is shown, in three parts; `Covers`: the part in front of the credential
  ends in a credential or before one;
* `Place`: lines with a place for a credential; `joined`: their tail;
* `Covered`, `CoveredAll`: the credential, or every one of its length, is covered;
* **`crash_hides`**: exactly then the message is the same for every credential of the same widths,
  or of the same length.
-/

namespace Zeron.Agent.Stderr

open Cut Mask Zeron.Session

/-! ## The shown tail -/

section Tail

variable (lead rest : List Char)

/-- What is shown of a tail with a credential between `lead` and `rest`. -/
def tailOf (credential : List Char) : List Char :=
  dropBytes (size (lead ++ credential ++ rest) - keepBytes * 2) (lead ++ credential ++ rest)

/-- What is shown before a credential of so many bytes. -/
def leadAt (bytes : ℕ) : List Char :=
  dropBytes (size lead + bytes + size rest - keepBytes * 2) lead

/-- What is shown of a credential. -/
def shownOf (credential : List Char) : List Char :=
  dropBytes (size credential + size rest - keepBytes * 2) credential

theorem tailOf_eq (credential : List Char) :
    tailOf lead rest credential = leadAt lead rest (size credential) ++
      (shownOf rest credential ++ dropBytes (size rest - keepBytes * 2) rest) := by
  unfold tailOf leadAt shownOf
  generalize keepBytes * 2 = kept
  rw [dropBytes_append, dropBytes_append, List.append_assoc, size_append, size_append]
  rw [show size lead + size credential + size rest - kept - size lead =
      size credential + size rest - kept by omega,
    show size lead + size credential + size rest - kept - (size lead + size credential) =
      size rest - kept by omega]

/-- Nothing of the credential is shown, or what is shown before it ends in a credential or before
one. -/
def Covers (credential : List Char) : Prop :=
  shownOf rest credential = [] ∨
    (secrets.after .search (leadAt lead rest (size credential))).hides = true

instance (credential : List Char) : Decidable (Covers lead rest credential) :=
  inferInstanceAs (Decidable (_ ∨ _))

end Tail

/-- The characters that a credential has none of. -/
def Plain (s : List Char) : Prop := ∀ c ∈ s, isStop c = false

theorem Plain.plain {s : List Char} (h : Plain s) : secrets.Plain s := by
  intro c hc
  refine ⟨h c hc, ?_⟩
  by_contra hg
  rw [Bool.not_eq_false] at hg
  exact absurd (isStop_of_isGap hg) (by simp [h c hc])

/-- Characters of no marker, of a given width. -/
def filler (other : Bool) (width : ℕ) : Char :=
  match width with
  | 1 => if other then '1' else '0'
  | 2 => if other then 'è' else 'é'
  | 3 => if other then '二' else '一'
  | _ => if other then '😁' else '😀'

theorem filler_cases {P : Char → Prop} (other : Bool)
    (h : ∀ c ∈ if other then ['1', 'è', '二', '😁'] else ['0', 'é', '一', '😀'], P c) (width : ℕ) :
    P (filler other width) := by
  cases other with
  | true =>
    unfold filler
    split
    all_goals exact h _ (by simp)
  | false =>
    unfold filler
    split
    all_goals exact h _ (by simp)

theorem filler_foreign (other : Bool) (width : ℕ) : secrets.Foreign (filler other width) := by
  refine filler_cases other ?_ width
  cases other with
  | true => simp [Rules.Foreign, secrets, markers]
  | false => simp [Rules.Foreign, secrets, markers]

theorem isStop_filler (other : Bool) (width : ℕ) : isStop (filler other width) = false := by
  refine @filler_cases (isStop · = false) other ?_ width
  cases other with
  | true => simp [isStop, isWhitespace, quotes]
  | false => simp [isStop, isWhitespace, quotes]

theorem filler_ne (width width' : ℕ) : filler false width ≠ filler true width' := by
  refine @filler_cases (· ≠ filler true width') false (fun c hc => ?_) width
  refine @filler_cases (c ≠ ·) true ?_ width'
  simp only [Bool.false_eq_true, if_false, List.mem_cons, List.not_mem_nil, or_false] at hc
  rcases hc with rfl | rfl | rfl | rfl <;> simp

theorem utf8Size_filler (other : Bool) {width : ℕ} (h : 0 < width) (h' : width ≤ 4) :
    (filler other width).utf8Size = width := by
  interval_cases width <;> cases other <;> rfl

/-- A credential of fillers, as wide as `s`. -/
def fill (other : Bool) (s : List Char) : List Char := s.map fun c => filler other c.utf8Size

theorem widths_fill (other : Bool) (s : List Char) :
    (fill other s).map Char.utf8Size = s.map Char.utf8Size := by
  rw [fill, List.map_map]
  refine List.map_congr_left fun c _ => ?_
  exact utf8Size_filler other c.utf8Size_pos c.utf8Size_le_four

theorem mem_fill {other : Bool} {s : List Char} {c : Char} (h : c ∈ fill other s) :
    ∃ width, c = filler other width := by
  obtain ⟨d, -, rfl⟩ := List.mem_map.mp h
  exact ⟨_, rfl⟩

theorem size_of_widths {s s' : List Char} (h : s'.map Char.utf8Size = s.map Char.utf8Size) :
    size s' = size s := congrArg List.sum h

section Tail

variable {lead rest : List Char}

theorem shownOf_length {s s' : List Char} (h : s'.map Char.utf8Size = s.map Char.utf8Size) :
    (shownOf rest s').length = (shownOf rest s).length := by
  unfold shownOf
  rw [size_of_widths h]
  exact length_dropBytes h _

theorem Plain.shownOf {s : List Char} (h : Plain s) : Plain (shownOf rest s) :=
  fun c hc => h c ((dropBytes_suffix _ _).subset hc)

theorem Covers.scan_eq {s s' : List Char} (h : Covers lead rest s) (hs : Plain s) (hs' : Plain s')
    (hw : s'.map Char.utf8Size = s.map Char.utf8Size) :
    secrets.scan .search (tailOf lead rest s') = secrets.scan .search (tailOf lead rest s) := by
  have hlen : (shownOf rest s').length = (shownOf rest s).length := shownOf_length hw
  rw [tailOf_eq, tailOf_eq, size_of_widths hw]
  by_cases hnil : shownOf rest s = []
  · rw [hnil, List.length_nil, List.length_eq_zero_iff] at hlen
    rw [hnil, hlen]
  · have hnil' : shownOf rest s' ≠ [] := by
      intro he
      rw [he, List.length_nil, eq_comm, List.length_eq_zero_iff] at hlen
      exact hnil hlen
    exact Rules.scan_secret_eq markers_apart (h.resolve_left hnil) hs'.shownOf.plain
      hs.shownOf.plain hnil' hnil _

theorem scan_fill_ne {s : List Char} (h : ¬ Covers lead rest s) :
    secrets.scan .search (tailOf lead rest (fill false s)) ≠
      secrets.scan .search (tailOf lead rest (fill true s)) := by
  obtain ⟨hshown, hlead⟩ := not_or.mp h
  have key : ∀ other, ∃ width more, shownOf rest (fill other s) = filler other width :: more := by
    intro other
    cases he : shownOf rest (fill other s) with
    | nil =>
      have hlen := @shownOf_length rest _ _ (widths_fill other s)
      rw [he, List.length_nil, eq_comm, List.length_eq_zero_iff] at hlen
      exact absurd hlen hshown
    | cons c more =>
      have hc : c ∈ fill other s :=
        (dropBytes_suffix _ _).subset (he ▸ List.mem_cons_self : c ∈ shownOf rest (fill other s))
      obtain ⟨width, rfl⟩ := mem_fill hc
      exact ⟨width, more, rfl⟩
  obtain ⟨w, more, hfalse⟩ := key false
  obtain ⟨w', more', htrue⟩ := key true
  rw [tailOf_eq, tailOf_eq, hfalse, htrue, size_of_widths (widths_fill false s),
    size_of_widths (widths_fill true s)]
  exact Rules.scan_append_ne (by simpa using hlead) (filler_foreign _ _) (filler_foreign _ _)
    (filler_ne _ _) nil_not_mem_markers

/-! ## Credentials of one length -/

/-- So many characters, and so many bytes more. -/
def stretch : ℕ → ℕ → List Char
  | 0, _ => []
  | k + 1, j => filler false (1 + min j 3) :: stretch k (j - 3)

@[simp] theorem length_stretch (k j : ℕ) : (stretch k j).length = k := by
  induction k generalizing j with
  | zero => rfl
  | succ k ih => simp [stretch, ih]

theorem size_stretch {k j : ℕ} (h : j ≤ 3 * k) : size (stretch k j) = k + j := by
  induction k generalizing j with
  | zero => simp [stretch, show j = 0 by omega]
  | succ k ih =>
    rw [stretch, size_cons, ih (by omega), utf8Size_filler _ (by omega) (by omega)]
    omega

theorem stretch_narrow (k : ℕ) : ∀ c ∈ stretch k 0, c.utf8Size = 1 := by
  induction k with
  | zero => simp [stretch]
  | succ k ih =>
    intro c hc
    rw [stretch, List.mem_cons] at hc
    rcases hc with rfl | hc
    · rfl
    · exact ih c hc

/-- Only fillers. -/
def Filling (s : List Char) : Prop := ∀ c ∈ s, ∃ other width, c = filler other width

theorem Filling.plain {s : List Char} (h : Filling s) : Plain s := by
  intro c hc
  obtain ⟨other, width, rfl⟩ := h c hc
  exact isStop_filler other width

theorem filling_fill (other : Bool) (s : List Char) : Filling (fill other s) := by
  intro c hc
  obtain ⟨width, rfl⟩ := mem_fill hc
  exact ⟨other, width, rfl⟩

theorem filling_stretch (k j : ℕ) : Filling (stretch k j) := by
  induction k generalizing j with
  | zero => simp [Filling, stretch]
  | succ k ih =>
    intro c hc
    rw [stretch, List.mem_cons] at hc
    rcases hc with rfl | hc
    · exact ⟨_, _, rfl⟩
    · exact ih _ c hc

theorem shownOf_of_le {s : List Char} (h : size s + size rest ≤ keepBytes * 2) :
    shownOf rest s = s := by
  rw [shownOf, Nat.sub_eq_zero_of_le h, dropBytes_zero]

theorem leadAt_succ (lead rest : List Char) (bytes : ℕ) :
    leadAt lead rest (bytes + 1) = leadAt lead rest bytes ∨
      ∃ c, leadAt lead rest bytes = c :: leadAt lead rest (bytes + 1) := by
  unfold leadAt
  generalize keepBytes * 2 = kept
  rcases Nat.lt_or_ge (size lead + bytes + size rest) kept with hlt | hge
  · refine .inl ?_
    rw [Nat.sub_eq_zero_of_le (by omega), Nat.sub_eq_zero_of_le (by omega)]
  · rw [show size lead + (bytes + 1) + size rest - kept =
      size lead + bytes + size rest - kept + 1 by omega]
    exact dropBytes_succ _ _

theorem leadAt_suffix (lead rest : List Char) {bytes bytes' : ℕ} (h : bytes ≤ bytes') :
    leadAt lead rest bytes' <:+ leadAt lead rest bytes := by
  unfold leadAt
  exact dropBytes_mono (by omega) lead

theorem redacted_foreign : secrets.Foreign '[' := by
  simp [Rules.Foreign, secrets, markers]

theorem room_of_leadAt {bytes : ℕ}
    (h : (secrets.after .search (leadAt lead rest bytes)).hides = true) :
    bytes + size rest < keepBytes * 2 := by
  by_contra hge
  have hnil : leadAt lead rest bytes = [] := by
    unfold leadAt
    exact dropBytes_of_size_le (by omega)
  rw [hnil] at h
  exact absurd h (by decide)

/-- The credentials of a length are covered if the front is the same for the narrowest and the
widest, and ends in a credential or before one. -/
theorem scan_eq_of_length {k : ℕ} (hsame : leadAt lead rest k = leadAt lead rest (4 * k))
    (h : (secrets.after .search (leadAt lead rest k)).hides = true) (hk : 0 < k)
    {s s' : List Char} (hs : Plain s) (hs' : Plain s') (hl : s.length = k) (hl' : s'.length = k) :
    secrets.scan .search (tailOf lead rest s) = secrets.scan .search (tailOf lead rest s') := by
  have key : ∀ {t : List Char}, t.length = k → t ≠ [] ∧
      tailOf lead rest t =
        leadAt lead rest k ++ (t ++ dropBytes (size rest - keepBytes * 2) rest) := by
    intro t ht
    have hle := length_le_size t
    have hge := size_le t
    have hlead : leadAt lead rest (size t) = leadAt lead rest k := by
      have h₁ := leadAt_suffix lead rest (show size t ≤ 4 * k by omega)
      have h₂ := leadAt_suffix lead rest (show k ≤ size t by omega)
      refine h₂.eq_of_length (Nat.le_antisymm h₂.length_le ?_)
      rw [hsame]
      exact h₁.length_le
    have hhides : (secrets.after .search (leadAt lead rest (size t))).hides = true := by
      rw [hlead]
      exact h
    have hroom := room_of_leadAt hhides
    refine ⟨fun he => by simp [he] at ht; omega, ?_⟩
    rw [tailOf_eq, hlead, shownOf_of_le hroom.le]
  obtain ⟨hne, he⟩ := key hl
  obtain ⟨hne', he'⟩ := key hl'
  rw [he, he']
  exact Rules.scan_secret_eq markers_apart h hs.plain hs'.plain hne hne' _

/-- **If the credentials of a length are not told apart, the front hides them all.** -/
theorem leadAt_same {k : ℕ} (hk : 0 < k) (hrest : size rest < keepBytes * 2)
    (h : ∀ s s', Filling s → Filling s' → s.length = k → s'.length = k →
      secrets.scan .search (tailOf lead rest s) = secrets.scan .search (tailOf lead rest s')) :
    leadAt lead rest k = leadAt lead rest (4 * k) ∧
      (secrets.after .search (leadAt lead rest k)).hides = true := by
  have hcovers : ∀ j, Covers lead rest (stretch k j) := by
    intro j
    by_contra hn
    exact scan_fill_ne hn (h _ _ (filling_fill _ _) (filling_fill _ _) (by simp [fill])
      (by simp [fill]))
  have key : ∀ j ≤ 3 * k, leadAt lead rest (k + j) = leadAt lead rest k ∧
      (secrets.after .search (leadAt lead rest (k + j))).hides = true := by
    intro j hj
    induction j with
    | zero =>
      refine ⟨rfl, ?_⟩
      have hc := hcovers 0
      rw [Covers, size_stretch (Nat.zero_le _)] at hc
      refine hc.resolve_left fun hnil => ?_
      rw [shownOf, dropBytes_of_narrow (stretch_narrow k), List.drop_eq_nil_iff, length_stretch,
        size_stretch (Nat.zero_le _)] at hnil
      omega
    | succ j ih =>
      obtain ⟨hsame, hhides⟩ := ih (by omega)
      have hroom := room_of_leadAt hhides
      have hshown : shownOf rest (stretch k (j + 1)) = stretch k (j + 1) :=
        shownOf_of_le (by rw [size_stretch hj]; omega)
      have hne : ∀ i, stretch k i ≠ [] := by
        intro i he
        have hlen := length_stretch k i
        rw [he, List.length_nil] at hlen
        omega
      have hnext : (secrets.after .search (leadAt lead rest (k + (j + 1)))).hides = true := by
        have hc := hcovers (j + 1)
        rw [Covers, size_stretch hj, hshown] at hc
        exact hc.resolve_left (hne _)
      refine ⟨?_, hnext⟩
      rw [← hsame]
      rcases leadAt_succ lead rest (k + j) with he | ⟨c, he⟩
      · exact he
      · have hshown' : shownOf rest (stretch k j) = stretch k j :=
          shownOf_of_le (by rw [size_stretch (by omega)]; omega)
        have hscan := h _ _ (filling_stretch k (j + 1)) (filling_stretch k j)
          (length_stretch _ _) (length_stretch _ _)
        rw [tailOf_eq, tailOf_eq, size_stretch hj, size_stretch (by omega), hshown, hshown', he,
          Rules.scan_secret_eq markers_apart hnext (filling_stretch _ _).plain.plain
            (filling_stretch k j).plain.plain (hne _) (hne _)] at hscan
        exact absurd hscan.symm
          (Rules.scan_cons_ne markers_distinct rfl redacted_foreign c _)
  refine ⟨?_, (key 0 (Nat.zero_le _)).2⟩
  rw [show 4 * k = k + 3 * k by omega, (key (3 * k) le_rfl).1]

end Tail

/-! ## A credential among the lines -/

/-- Lines with a place for a credential, behind a marker. -/
structure Place where
  before : List (List Char)
  pre : List Char
  label : List Char
  gap : List Char
  post : List Char
  after : List (List Char)
  label_marker : label.map Char.toLower ∈ markers
  gap_isGap : ∀ c ∈ gap, isGap c = true
  gap_opens : gap ≠ [] → opensCredential (label.map Char.toLower) = true
  post_stops : ∀ c ∈ post.head?, isStop c = true

/-- A credential: no delimiter, no white space and no marker. -/
structure Credential (s : List Char) : Prop where
  plain : Plain s
  unmarked : ∀ m ∈ markers, ¬ m <:+: s.map Char.toLower

namespace Place

variable (p : Place)

def lines (s : List Char) : List (List Char) :=
  p.before ++ (p.pre ++ p.label ++ p.gap ++ s ++ p.post) :: p.after

def message (name : String) (status : Option ExitStatus) (s : List Char) : List Char :=
  crashMessage name status ((p.lines s).foldl push [])

/-- The line up to the credential. -/
def head : List Char := (p.pre ++ p.label ++ p.gap).dropWhile isWhitespace

/-- The lines behind, as they are kept. -/
def recent : List (List Char) := p.after.filterMap keptLine

/-- The characters of the credential that its line has room for. -/
def room : ℕ := keepBytes - p.head.length

/-- The tail up to the credential. -/
def lead : List Char :=
  ((p.before.filterMap keptLine).rtake (keepLines - 1 - p.recent.length)).flatMap (· ++ ['\n']) ++
    p.head.take keepBytes

/-- The tail behind a credential of a length. -/
def rest (length : ℕ) : List Char :=
  (p.post.rdropWhile isWhitespace).take (p.room - length) ++ p.recent.flatMap ('\n' :: ·)

theorem isWhitespace_of_isStop {c : Char} (h : isStop c = false) : isWhitespace c = false := by
  simp only [isStop, Bool.or_eq_false_iff] at h
  exact h.1

theorem head_isEmpty :
    ((p.pre ++ p.label ++ p.gap).dropWhile isWhitespace).isEmpty = false := by
  obtain ⟨hne, hstop⟩ := markers_stop _ p.label_marker
  obtain ⟨c, rest, hlabel⟩ := List.exists_cons_of_ne_nil (mt List.map_eq_nil_iff.mpr hne)
  have hc : isWhitespace c = false := by
    refine isWhitespace_of_isStop ?_
    rw [← isStop_toLower]
    exact hstop _ (by rw [hlabel]; rfl)
  have hmem : c ∈ p.pre ++ p.label ++ p.gap := by rw [hlabel]; simp
  by_contra hempty
  rw [Bool.not_eq_false, List.isEmpty_iff, List.dropWhile_eq_nil_iff] at hempty
  exact absurd (hempty c hmem) (by simp [hc])

theorem rdropWhile_append {α : Type*} (q : α → Bool) (xs ys : List α) :
    (xs ++ ys).rdropWhile q =
      if (ys.rdropWhile q).isEmpty then xs.rdropWhile q else xs ++ ys.rdropWhile q := by
  simp only [List.rdropWhile, List.reverse_append, List.dropWhile_append, List.isEmpty_reverse]
  split_ifs <;> simp

theorem trimText_line {s : List Char} (hs : Plain s) (hne : s ≠ []) :
    trimText (p.pre ++ p.label ++ p.gap ++ s ++ p.post) =
      p.head ++ s ++ p.post.rdropWhile isWhitespace := by
  have hlast : (p.head ++ s).rdropWhile isWhitespace = p.head ++ s := by
    rw [List.rdropWhile_eq_self_iff]
    intro hl hw
    rw [List.getLast_append_of_ne_nil _ hne] at hw
    have := isWhitespace_of_isStop (hs _ (List.getLast_mem hne))
    rw [this] at hw
    exact absurd hw (by simp)
  have hdrop : (p.pre ++ p.label ++ p.gap ++ s ++ p.post).dropWhile isWhitespace =
      p.head ++ s ++ p.post := by
    rw [List.append_assoc, List.dropWhile_append, p.head_isEmpty, if_neg (by simp)]
    exact (List.append_assoc _ _ _).symm
  rw [trimText, hdrop, rdropWhile_append, hlast]
  split_ifs with h
  · rw [List.isEmpty_iff.mp h, List.append_nil]
  · rfl

theorem keptLine_line {s : List Char} (hs : Plain s) (hne : s ≠ []) :
    keptLine (p.pre ++ p.label ++ p.gap ++ s ++ p.post) =
      some (p.head.take keepBytes ++ s.take p.room ++
        (p.post.rdropWhile isWhitespace).take (p.room - s.length)) := by
  rw [keptLine, p.trimText_line hs hne, if_neg (by simp [hne]), List.take_append, List.take_append,
    List.length_append, ← Nat.sub_sub]
  rfl

theorem intercalate_append {α : Type*} (sep mid : List α) (ls rs : List (List α)) :
    sep.intercalate (ls ++ mid :: rs) =
      ls.flatMap (· ++ sep) ++ mid ++ rs.flatMap (sep ++ ·) := by
  induction ls with
  | nil =>
    induction rs generalizing mid with
    | nil => simp
    | cons r rs ih =>
      have ih := ih r
      rw [List.nil_append] at ih ⊢
      rw [List.intercalate_cons_cons, ih]
      simp
  | cons l ls ih =>
    rw [List.cons_append, List.intercalate_cons_of_ne_nil (by simp), ih]
    simp

/-- **The tail of the lines.** -/
theorem snapshot_lines {s : List Char} (hs : Plain s) (hne : s ≠ [])
    (hr : p.recent.length < keepLines) :
    snapshot ((p.lines s).foldl push []) =
      some (tailOf p.lead (p.rest s.length) (s.take p.room)) := by
  have htail : (p.lines s).foldl push [] =
      (p.before.filterMap keptLine).rtake (keepLines - 1 - p.recent.length) ++
        (p.head.take keepBytes ++ s.take p.room ++
          (p.post.rdropWhile isWhitespace).take (p.room - s.length)) :: p.recent := by
    rw [foldl_push, lines, List.filterMap_append, List.filterMap_cons, p.keptLine_line hs hne,
      rtake_append, List.length_cons, Nat.sub_sub, Nat.add_comm 1]
    congr 1
    have hr : (p.after.filterMap keptLine).length + 1 - keepLines = 0 :=
      Nat.sub_eq_zero_of_le hr
    rw [List.rtake, List.length_cons, hr]
    rfl
  rw [htail, snapshot, if_neg (by simp), intercalate_append]
  unfold tailOf lead rest
  simp only [List.append_assoc, List.singleton_append]

theorem rolled (hr : keepLines ≤ p.recent.length) (s : List Char) :
    (p.lines s).foldl push [] = p.recent.rtake keepLines := by
  have hk : keepLines ≤ (p.after.filterMap keptLine).length := hr
  rw [foldl_push, lines, List.filterMap_append, ← List.singleton_append, List.filterMap_append,
    ← List.append_assoc, rtake_append, Nat.sub_eq_zero_of_le hk, List.rtake_zero, List.nil_append]
  rfl

/-- The front of the tail hides the credential, or nothing of it is kept. -/
def Covered (s : List Char) : Prop :=
  keepLines ≤ p.recent.length ∨ Covers p.lead (p.rest s.length) (s.take p.room)

instance (s : List Char) : Decidable (p.Covered s) := inferInstanceAs (Decidable (_ ∨ _))

/-- Nothing is kept of a credential of this length, or the front of the tail hides it and is the
same for characters of one byte and of four. -/
def CoveredAll (length : ℕ) : Prop :=
  let kept := min length p.room
  keepLines ≤ p.recent.length ∨ kept = 0 ∨ keepBytes * 2 ≤ size (p.rest length) ∨
    leadAt p.lead (p.rest length) kept = leadAt p.lead (p.rest length) (4 * kept) ∧
      (secrets.after .search (leadAt p.lead (p.rest length) kept)).hides = true

theorem message_eq_iff (name : String) (status : Option ExitStatus)
    (hr : p.recent.length < keepLines) {s s' : List Char} (hs : Plain s) (hs' : Plain s')
    (hl : s'.length = s.length) :
    p.message name status s' = p.message name status s ↔
      secrets.scan .search (tailOf p.lead (p.rest s.length) (s'.take p.room)) =
        secrets.scan .search (tailOf p.lead (p.rest s.length) (s.take p.room)) := by
  by_cases hne : s = []
  · have hne' : s' = [] := List.length_eq_zero_iff.mp (by rw [hl, hne]; rfl)
    rw [hne, hne']
    simp only
  · have hne' : s' ≠ [] := by
      intro he
      rw [he, List.length_nil, eq_comm, List.length_eq_zero_iff] at hl
      exact hne hl
    unfold message crashMessage
    rw [p.snapshot_lines hs hne hr, p.snapshot_lines hs' hne' hr, hl, ← redactSecrets_eq,
      ← redactSecrets_eq]
    exact List.append_right_inj _

end Place

theorem Filling.credential {s : List Char} (h : Filling s) : Credential s where
  plain := h.plain
  unmarked m hm hin := by
    obtain ⟨c, hc⟩ := List.exists_mem_of_ne_nil m (markers_stop m hm).1
    obtain ⟨d, hd, hcd⟩ := List.mem_map.mp (hin.subset hc)
    obtain ⟨other, width, rfl⟩ := h d hd
    refine filler_foreign other width m hm ?_
    rw [show secrets.fold = Char.toLower from rfl, hcd]
    exact hc

theorem Plain.take {s : List Char} (h : Plain s) (n : ℕ) : Plain (s.take n) :=
  fun c hc => h c (List.mem_of_mem_take hc)

theorem fill_take (other : Bool) (s : List Char) (n : ℕ) :
    fill other (s.take n) = (fill other s).take n := List.map_take

theorem Filling.append {s s' : List Char} (h : Filling s) (h' : Filling s') : Filling (s ++ s') :=
  fun c hc => (List.mem_append.mp hc).elim (h c) (h' c)

theorem length_of_widths {s s' : List Char} (h : s'.map Char.utf8Size = s.map Char.utf8Size) :
    s'.length = s.length := by
  simpa using congrArg List.length h

theorem tailOf_of_rest {lead rest : List Char} (h : keepBytes * 2 ≤ size rest) (s : List Char) :
    tailOf lead rest s = dropBytes (size rest - keepBytes * 2) rest := by
  have hlead : leadAt lead rest (size s) = [] := by
    unfold leadAt
    exact dropBytes_of_size_le (by omega)
  have hshown : shownOf rest s = [] := by
    unfold shownOf
    exact dropBytes_of_size_le (by omega)
  rw [tailOf_eq, hlead, hshown, List.nil_append, List.nil_append]

namespace Place

variable (p : Place) (name : String) (status : Option ExitStatus) {s : List Char}

theorem told_widths (hr : p.recent.length < keepLines) (hs : Credential s) :
    (∀ s', Credential s' → s'.map Char.utf8Size = s.map Char.utf8Size →
        p.message name status s' = p.message name status s) ↔
      Covers p.lead (p.rest s.length) (s.take p.room) := by
  constructor
  · intro h
    by_contra hn
    refine scan_fill_ne hn ?_
    have key : ∀ other, secrets.scan .search
        (tailOf p.lead (p.rest s.length) (fill other (s.take p.room))) =
          secrets.scan .search (tailOf p.lead (p.rest s.length) (s.take p.room)) := by
      intro other
      have hc := (filling_fill other s).credential
      rw [fill_take]
      exact (p.message_eq_iff name status hr hs.plain hc.plain
        (length_of_widths (widths_fill other s))).mp (h _ hc (widths_fill other s))
    rw [key, key]
  · intro h s' hs' hw
    refine (p.message_eq_iff name status hr hs.plain hs'.plain (length_of_widths hw)).mpr ?_
    refine h.scan_eq (hs.plain.take _) (hs'.plain.take _) ?_
    rw [List.map_take, List.map_take, hw]

theorem told_length (hr : p.recent.length < keepLines) (hs : Credential s) :
    (∀ s', Credential s' → s'.length = s.length →
        p.message name status s' = p.message name status s) ↔ p.CoveredAll s.length := by
  have htake : ∀ s' : List Char, s'.length = s.length →
      (s'.take p.room).length = min s.length p.room := by
    intro s' hl
    rw [List.length_take, hl, min_comm]
  constructor
  · intro h
    by_cases hk : min s.length p.room = 0
    · exact .inr (.inl hk)
    · by_cases hrest : keepBytes * 2 ≤ size (p.rest s.length)
      · exact .inr (.inr (.inl hrest))
      · refine .inr (.inr (.inr (leadAt_same (by omega) (by omega) fun u v hu hv hul hvl => ?_)))
        have key : ∀ t, Filling t → t.length = min s.length p.room →
            secrets.scan .search (tailOf p.lead (p.rest s.length) t) =
              secrets.scan .search (tailOf p.lead (p.rest s.length) (s.take p.room)) := by
          intro t ht htl
          have hc := (ht.append (filling_fill false (s.drop t.length))).credential
          have hl : (t ++ fill false (s.drop t.length)).length = s.length := by
            simp only [List.length_append, fill, List.length_map, List.length_drop]
            omega
          have hcut : (t ++ fill false (s.drop t.length)).take p.room = t := by
            rw [List.take_append, List.take_of_length_le (by omega)]
            rcases Nat.le_total s.length p.room with hle | hle
            · have hnil : s.drop t.length = [] := List.drop_eq_nil_of_le (by omega)
              rw [hnil]
              simp [fill]
            · rw [htl, min_eq_right hle, Nat.sub_self, List.take_zero, List.append_nil]
          have he := (p.message_eq_iff name status hr hs.plain hc.plain hl).mp (h _ hc hl)
          rwa [hcut] at he
        rw [key u hu hul, key v hv hvl]
  · intro h s' hs' hl
    refine (p.message_eq_iff name status hr hs.plain hs'.plain hl).mpr ?_
    rcases h with h | h | h | ⟨hsame, hhides⟩
    · exact absurd hr (by omega)
    · have hnil : ∀ s' : List Char, s'.length = s.length → s'.take p.room = [] := fun s' hl =>
        List.length_eq_zero_iff.mp ((htake s' hl).trans h)
      rw [hnil s' hl, hnil s rfl]
    · rw [tailOf_of_rest h, tailOf_of_rest h]
    · by_cases hk : min s.length p.room = 0
      · have hnil : ∀ s' : List Char, s'.length = s.length → s'.take p.room = [] := fun s' hl =>
          List.length_eq_zero_iff.mp ((htake s' hl).trans hk)
        rw [hnil s' hl, hnil s rfl]
      · exact scan_eq_of_length hsame hhides (by omega) (hs'.plain.take _) (hs.plain.take _)
          (htake s' hl) (htake s rfl)

end Place

/-- **Exactly if the tail covers it, a crash message does not tell a credential.** The message is
the same for all credentials of the same widths exactly if this one is covered, and for all of the
same number of characters exactly if all of them are. -/
theorem crash_hides (p : Place) (name : String) (status : Option ExitStatus) {s : List Char}
    (hs : Credential s) :
    ((∀ s', Credential s' → s'.map Char.utf8Size = s.map Char.utf8Size →
        p.message name status s' = p.message name status s) ↔ p.Covered s) ∧
      ((∀ s', Credential s' → s'.length = s.length →
        p.message name status s' = p.message name status s) ↔ p.CoveredAll s.length) := by
  rcases Nat.lt_or_ge p.recent.length keepLines with hr | hr
  · refine ⟨(p.told_widths name status hr hs).trans ⟨.inr, fun h => ?_⟩,
      p.told_length name status hr hs⟩
    exact h.resolve_left (by omega)
  · have hall : ∀ s', p.message name status s' = p.message name status s := by
      intro s'
      unfold Place.message
      rw [p.rolled hr, p.rolled hr]
    exact ⟨⟨fun _ => .inl hr, fun _ s' _ _ => hall s'⟩, ⟨fun _ => .inl hr, fun _ s' _ _ => hall s'⟩⟩

/-- A line with a bearer token. -/
def bearer (pre : String) : Place where
  before := []
  pre := pre.toList
  label := "Bearer ".toList
  gap := []
  post := []
  after := []
  label_marker := by decide
  gap_isGap := by simp
  gap_opens := by simp
  post_stops := by simp

theorem filling_fill_toList (other : Bool) (s : String) : Credential (fill other s.toList) :=
  (filling_fill other s.toList).credential

/-- A plain line hides its token. -/
theorem crash_hides_bearer :
    (bearer "login failed: ").message "agent" none (fill true "token".toList) =
      (bearer "login failed: ").message "agent" none (fill false "token".toList) :=
  (crash_hides (bearer "login failed: ") "agent" none (filling_fill_toList false "token")).1.mpr
    (by decide +kernel) _ (filling_fill_toList true "token") (by decide)

/-- `api_key=Bearer …`: the word is taken for the key, and the token is shown. -/
theorem swallowed_told :
    ¬ ∀ (p : Place) (name : String) (status : Option ExitStatus) (s s' : List Char),
      Credential s → Credential s' → s'.map Char.utf8Size = s.map Char.utf8Size →
        p.message name status s' = p.message name status s := by
  intro h
  have hf := filling_fill_toList false "token"
  have ht := filling_fill_toList true "token"
  have he := h (bearer "api_key=") "agent" none _ _ hf ht (by decide)
  rw [Place.message_eq_iff _ _ _ (by decide) hf.plain ht.plain (by decide)] at he
  exact absurd he (by decide +kernel)

end Zeron.Agent.Stderr
