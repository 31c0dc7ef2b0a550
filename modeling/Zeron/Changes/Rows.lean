import Zeron.Changes.Pairs

/-!
# The rows of a diff body

* `columnItems`: the lines of a column; `left_rows`, `right_rows`: the columns of the
  split layout are these;
* `Fits`: the lists of a block hold lines of their kinds; `row_kinds`: markers stand by themselves;
* `lineAnchor`, `pairAnchors`, `bodyRows`: the source;
* **`split_keeps`**: the split layout shows every line once a side, and every card and draft.
-/

namespace Zeron.Changes

variable {ι : Type*}

/-! ## Columns -/

/-- The kind of the line that a marker behind this one belongs to. -/
def sideOf (kind : LineKind) (pendingSide : Option LineKind) : Option LineKind :=
  if kind = .marker then pendingSide else some kind

/-- The lines of the column that `other` is not in, behind a line of kind `pendingSide`. -/
def columnItems (other : LineKind) : List (ι × LineKind) → Option LineKind → List ι
  | [], _ => []
  | (ix, kind) :: lines, pendingSide =>
    if sideOf kind pendingSide = some other then columnItems other lines (sideOf kind pendingSide)
    else ix :: columnItems other lines (sideOf kind pendingSide)

theorem columnItems_nil (other : LineKind) (pendingSide : Option LineKind) :
    columnItems other ([] : List (ι × LineKind)) pendingSide = [] := rfl

theorem columnItems_cons (other : LineKind) (line : ι × LineKind) (lines : List (ι × LineKind))
    (pendingSide : Option LineKind) : columnItems other (line :: lines) pendingSide =
      if sideOf line.2 pendingSide = some other then
        columnItems other lines (sideOf line.2 pendingSide)
      else line.1 :: columnItems other lines (sideOf line.2 pendingSide) := rfl

@[simp] theorem left_zipLongest (left right : List ι) :
    (zipLongest left right).filterMap Prod.fst = left := by
  induction left generalizing right with
  | nil => simp [zipLongest, List.filterMap_map]
  | cons l left ih =>
    cases right with
    | nil => simp [zipLongest, List.filterMap_map]
    | cons r right => simp [zipLongest, ih]

@[simp] theorem right_zipLongest (left right : List ι) :
    (zipLongest left right).filterMap Prod.snd = right := by
  induction left generalizing right with
  | nil => simp [zipLongest, List.filterMap_map]
  | cons l left ih =>
    cases right with
    | nil => simp [zipLongest, List.filterMap_map]
    | cons r right => simp [zipLongest, ih]

/-- **The left column.** -/
theorem left_rows (lines : List (ι × LineKind)) (block : Block ι) (pendingSide : Option LineKind) :
    (rows lines block pendingSide).filterMap Prod.fst =
      block.dels ++ block.delMeta ++ columnItems .add lines pendingSide := by
  induction lines generalizing block pendingSide with
  | nil => simp [rows, Block.rows, columnItems_nil]
  | cons line lines ih =>
    obtain ⟨ix, kind⟩ := line
    cases kind with
    | del =>
      cases h : block.closesForDel with
      | true => simp [rows, h, ih, Block.rows, Block.ofDel, columnItems_cons, sideOf]
      | false =>
        simp only [Block.closesForDel, Bool.or_eq_false_iff, Bool.not_eq_false',
          List.isEmpty_iff] at h
        simp [rows, ih, Block.closesForDel, h, columnItems_cons, sideOf]
    | add =>
      cases h : block.closesForAdd with
      | true => simp [rows, h, ih, Block.rows, Block.ofAdd, columnItems_cons, sideOf]
      | false => simp [rows, h, ih, columnItems_cons, sideOf]
    | context => simp [rows, ih, Block.rows, Block.empty, columnItems_cons, sideOf]
    | marker =>
      rw [rows, ih, columnItems_cons, sideOf]
      cases pendingSide with
      | none => simp [Block.mark]
      | some side => cases side <;> simp [Block.mark]

/-- **The right column.** -/
theorem right_rows (lines : List (ι × LineKind)) (block : Block ι)
    (pendingSide : Option LineKind) :
    (rows lines block pendingSide).filterMap Prod.snd =
      block.adds ++ block.addMeta ++ columnItems .del lines pendingSide := by
  induction lines generalizing block pendingSide with
  | nil => simp [rows, Block.rows, columnItems_nil]
  | cons line lines ih =>
    obtain ⟨ix, kind⟩ := line
    cases kind with
    | del =>
      cases h : block.closesForDel with
      | true => simp [rows, h, ih, Block.rows, Block.ofDel, columnItems_cons, sideOf]
      | false => simp [rows, h, ih, columnItems_cons, sideOf]
    | add =>
      cases h : block.closesForAdd with
      | true => simp [rows, h, ih, Block.rows, Block.ofAdd, columnItems_cons, sideOf]
      | false =>
        simp only [Block.closesForAdd, Bool.not_eq_false', List.isEmpty_iff] at h
        simp [rows, ih, Block.closesForAdd, h, columnItems_cons, sideOf]
    | context => simp [rows, ih, Block.rows, Block.empty, columnItems_cons, sideOf]
    | marker =>
      rw [rows, ih, columnItems_cons, sideOf]
      cases pendingSide with
      | none => simp [Block.mark]
      | some side => cases side <;> simp [Block.mark]

theorem columnItems_sublist (other : LineKind) (lines : List (ι × LineKind))
    (pendingSide : Option LineKind) :
    (columnItems other lines pendingSide).Sublist (lines.map Prod.fst) := by
  induction lines generalizing pendingSide with
  | nil => exact List.Sublist.refl _
  | cons line lines ih =>
    rw [columnItems_cons]
    split_ifs with h
    · exact (ih _).cons _
    · exact (ih _).cons_cons _

theorem mem_columnItems {other : LineKind} (ho : other ≠ .marker) {lines : List (ι × LineKind)}
    {pendingSide : Option LineKind} {ix : ι} (h : ix ∈ columnItems other lines pendingSide) :
    ∃ kind, (ix, kind) ∈ lines ∧ kind ≠ other := by
  induction lines generalizing pendingSide with
  | nil => simp [columnItems_nil] at h
  | cons line lines ih =>
    have hrest : ∀ {p : Option LineKind}, ix ∈ columnItems other lines p →
        ∃ kind, (ix, kind) ∈ line :: lines ∧ kind ≠ other := by
      intro p hp
      obtain ⟨kind, hk, hne⟩ := ih hp
      exact ⟨kind, List.mem_cons_of_mem _ hk, hne⟩
    rw [columnItems_cons] at h
    split_ifs at h with hs
    · exact hrest h
    · rcases List.mem_cons.mp h with rfl | h
      · refine ⟨line.2, List.mem_cons_self, fun he => hs ?_⟩
        rw [sideOf, he, if_neg ho]
      · exact hrest h

theorem columnItems_of_mem {other : LineKind} {lines : List (ι × LineKind)} {ix : ι}
    {kind : LineKind} (h : (ix, kind) ∈ lines) (hm : kind ≠ .marker) (hne : kind ≠ other)
    (pendingSide : Option LineKind) : ix ∈ columnItems other lines pendingSide := by
  induction lines generalizing pendingSide with
  | nil => simp at h
  | cons line lines ih =>
    rw [columnItems_cons]
    rcases List.mem_cons.mp h with rfl | h
    · rw [sideOf, if_neg hm, if_neg (by simpa using hne)]
      exact List.mem_cons_self
    · split_ifs with hs
      · exact ih h _
      · exact List.mem_cons_of_mem _ (ih h _)

/-! ## Rows -/

/-- The lists of a block hold lines of their kinds. -/
structure Block.Fits (kindOf : ι → LineKind) (block : Block ι) : Prop where
  dels : ∀ ix ∈ block.dels, kindOf ix = .del
  adds : ∀ ix ∈ block.adds, kindOf ix = .add
  delMeta : ∀ ix ∈ block.delMeta, kindOf ix = .marker
  addMeta : ∀ ix ∈ block.addMeta, kindOf ix = .marker

theorem Block.Fits.empty {kindOf : ι → LineKind} : (Block.empty : Block ι).Fits kindOf :=
  ⟨by simp [Block.empty], by simp [Block.empty], by simp [Block.empty], by simp [Block.empty]⟩

theorem Block.Fits.del {kindOf : ι → LineKind} {block : Block ι} (h : block.Fits kindOf) {ix : ι}
    (hix : kindOf ix = .del) : { block with dels := block.dels ++ [ix] }.Fits kindOf := by
  refine ⟨fun jx hj => ?_, h.adds, h.delMeta, h.addMeta⟩
  rcases List.mem_append.mp hj with hj | hj
  · exact h.dels jx hj
  · rwa [List.mem_singleton.mp hj]

theorem Block.Fits.add {kindOf : ι → LineKind} {block : Block ι} (h : block.Fits kindOf) {ix : ι}
    (hix : kindOf ix = .add) : { block with adds := block.adds ++ [ix] }.Fits kindOf := by
  refine ⟨h.dels, fun jx hj => ?_, h.delMeta, h.addMeta⟩
  rcases List.mem_append.mp hj with hj | hj
  · exact h.adds jx hj
  · rwa [List.mem_singleton.mp hj]

theorem Block.Fits.ofDel {kindOf : ι → LineKind} {ix : ι} (hix : kindOf ix = .del) :
    (Block.ofDel ix).Fits kindOf := Block.Fits.empty.del hix

theorem Block.Fits.ofAdd {kindOf : ι → LineKind} {ix : ι} (hix : kindOf ix = .add) :
    (Block.ofAdd ix).Fits kindOf := Block.Fits.empty.add hix

theorem Block.Fits.mark {kindOf : ι → LineKind} {block : Block ι} (h : block.Fits kindOf) {ix : ι}
    (hix : kindOf ix = .marker) (pendingSide : Option LineKind) :
    (block.mark pendingSide ix).Fits kindOf := by
  have key : ∀ {l : List ι}, (∀ jx ∈ l, kindOf jx = .marker) →
      ∀ jx ∈ l ++ [ix], kindOf jx = .marker := by
    intro l hl jx hj
    rcases List.mem_append.mp hj with hj | hj
    · exact hl jx hj
    · rwa [List.mem_singleton.mp hj]
  cases pendingSide with
  | none => exact ⟨h.dels, h.adds, key h.delMeta, key h.addMeta⟩
  | some side =>
    cases side with
    | del => exact ⟨h.dels, h.adds, key h.delMeta, h.addMeta⟩
    | add => exact ⟨h.dels, h.adds, h.delMeta, key h.addMeta⟩
    | context | marker => exact ⟨h.dels, h.adds, key h.delMeta, key h.addMeta⟩

/-- The rows of a hunk: of deletions and additions, of markers, and of a context line. -/
inductive RowOf (kindOf : ι → LineKind) : Option ι × Option ι → Prop
  | code {l r : Option ι} (hl : ∀ ix ∈ l, kindOf ix = .del) (hr : ∀ ix ∈ r, kindOf ix = .add) :
    RowOf kindOf (l, r)
  | marker {l r : Option ι} (hl : ∀ ix ∈ l, kindOf ix = .marker)
    (hr : ∀ ix ∈ r, kindOf ix = .marker) : RowOf kindOf (l, r)
  | context {ix : ι} (h : kindOf ix = .context) : RowOf kindOf (some ix, some ix)

theorem mem_zipLongest {left right : List ι} {row : Option ι × Option ι}
    (h : row ∈ zipLongest left right) :
    (∀ ix ∈ row.1, ix ∈ left) ∧ ∀ ix ∈ row.2, ix ∈ right := by
  refine ⟨fun ix hix => ?_, fun ix hix => ?_⟩
  · rw [← left_zipLongest left right]
    exact List.mem_filterMap.mpr ⟨row, h, hix⟩
  · rw [← right_zipLongest left right]
    exact List.mem_filterMap.mpr ⟨row, h, hix⟩

theorem Block.Fits.rows {kindOf : ι → LineKind} {block : Block ι} (h : block.Fits kindOf) :
    ∀ row ∈ block.rows, RowOf kindOf row := by
  intro row hrow
  rcases List.mem_append.mp hrow with hrow | hrow
  · obtain ⟨hl, hr⟩ := mem_zipLongest hrow
    exact .code (fun ix hix => h.dels ix (hl ix hix)) fun ix hix => h.adds ix (hr ix hix)
  · obtain ⟨hl, hr⟩ := mem_zipLongest hrow
    exact .marker (fun ix hix => h.delMeta ix (hl ix hix)) fun ix hix => h.addMeta ix (hr ix hix)

/-- **Every row is of one of the three kinds.** -/
theorem row_kinds {kindOf : ι → LineKind} {lines : List (ι × LineKind)}
    (hk : ∀ line ∈ lines, kindOf line.1 = line.2) {block : Block ι} (hb : block.Fits kindOf)
    (pendingSide : Option LineKind) : ∀ row ∈ rows lines block pendingSide, RowOf kindOf row := by
  induction lines generalizing block pendingSide with
  | nil => exact hb.rows
  | cons line lines ih =>
    obtain ⟨ix, kind⟩ := line
    have hix : kindOf ix = kind := hk _ List.mem_cons_self
    have ih := @ih fun line hl => hk line (List.mem_cons_of_mem _ hl)
    have happ : ∀ {rest : List (Option ι × Option ι)}, (∀ row ∈ rest, RowOf kindOf row) →
        ∀ row ∈ block.rows ++ rest, RowOf kindOf row := fun hrest row hrow =>
      (List.mem_append.mp hrow).elim (hb.rows row) (hrest row)
    cases kind with
    | marker => exact ih (hb.mark hix pendingSide) pendingSide
    | context =>
      rw [rows]
      refine happ fun row hrow => ?_
      rcases List.mem_cons.mp hrow with rfl | hrow
      · exact .context hix
      · exact ih .empty _ row hrow
    | del =>
      rw [rows]
      split_ifs with h
      · exact happ (ih (Block.Fits.ofDel hix) _)
      · exact ih (hb.del hix) _
    | add =>
      rw [rows]
      split_ifs with h
      · exact happ (ih (Block.Fits.ofAdd hix) _)
      · exact ih (hb.add hix) _

theorem context_row {lines : List (ι × LineKind)} {ix : ι} (h : (ix, .context) ∈ lines)
    (block : Block ι) (pendingSide : Option LineKind) :
    (some ix, some ix) ∈ rows lines block pendingSide := by
  induction lines generalizing block pendingSide with
  | nil => simp at h
  | cons line lines ih =>
    obtain ⟨jx, kind⟩ := line
    rcases List.mem_cons.mp h with he | hmem
    · cases he
      exact List.mem_append_right _ List.mem_cons_self
    · cases kind with
      | marker => exact ih hmem _ _
      | context => exact List.mem_append_right _ (List.mem_cons_of_mem _ (ih hmem _ _))
      | del =>
        rw [rows]
        split_ifs with hc
        · exact List.mem_append_right _ (ih hmem _ _)
        · exact ih hmem _ _
      | add =>
        rw [rows]
        split_ifs with hc
        · exact List.mem_append_right _ (ih hmem _ _)
        · exact ih hmem _ _

theorem length_zipLongest_le (left right : List ι) :
    (zipLongest left right).length ≤ left.length + right.length := by
  induction left generalizing right with
  | nil => simp [zipLongest]
  | cons l left ih =>
    cases right with
    | nil => simp [zipLongest]
    | cons r right =>
      have := ih right
      simp only [zipLongest, List.length_cons]
      omega

def Block.size (block : Block ι) : ℕ :=
  block.dels.length + block.adds.length + (block.delMeta.length + block.addMeta.length)

theorem Block.length_rows_le (block : Block ι) : block.rows.length ≤ block.size := by
  rw [Block.rows, List.length_append]
  exact Nat.add_le_add (length_zipLongest_le _ _) (length_zipLongest_le _ _)

theorem Block.size_mark_le (block : Block ι) (pendingSide : Option LineKind) (ix : ι) :
    (block.mark pendingSide ix).size ≤ block.size + 2 := by
  cases pendingSide with
  | none => simp [Block.size, Block.mark]; omega
  | some side => cases side <;> simp [Block.size, Block.mark] <;> omega

/-- A hunk has two rows a line at most. -/
theorem length_rows_le (lines : List (ι × LineKind)) (block : Block ι)
    (pendingSide : Option LineKind) :
    (rows lines block pendingSide).length ≤ block.size + 2 * lines.length := by
  induction lines generalizing block pendingSide with
  | nil => exact block.length_rows_le
  | cons line lines ih =>
    obtain ⟨ix, kind⟩ := line
    have hblock := block.length_rows_le
    rw [List.length_cons]
    cases kind with
    | marker =>
      have hmark := block.size_mark_le pendingSide ix
      have hrest := ih (block.mark pendingSide ix) pendingSide
      rw [rows]
      omega
    | context =>
      have hrest := ih .empty (some .context)
      simp only [rows, List.length_append, List.length_cons, Block.size, Block.empty,
        List.length_nil] at hrest hblock ⊢
      omega
    | del =>
      have hclosed := ih (.ofDel ix) (some .del)
      have hopen := ih { block with dels := block.dels ++ [ix] } (some .del)
      rw [rows]
      split_ifs with h
      · simp only [List.length_append, Block.size, Block.ofDel, List.length_cons,
          List.length_nil] at hclosed hblock ⊢
        omega
      · simp only [List.length_append, Block.size, List.length_cons, List.length_nil] at hopen ⊢
        omega
    | add =>
      have hclosed := ih (.ofAdd ix) (some .add)
      have hopen := ih { block with adds := block.adds ++ [ix] } (some .add)
      rw [rows]
      split_ifs with h
      · simp only [List.length_append, Block.size, Block.ofAdd, List.length_cons,
          List.length_nil] at hclosed hblock ⊢
        omega
      · simp only [List.length_append, Block.size, List.length_cons, List.length_nil] at hopen ⊢
        omega

/-! ## Cards -/

section Cards

variable {β : Type*} {kindOf : ι → LineKind} (f : ι → List β)
  (g : Option ι × Option ι → List β)

theorem cards_zipLongest (left right : List ι) :
    (((zipLongest left right).flatMap fun row => row.1.toList.flatMap f ++ row.2.toList.flatMap f :
      List β) : Multiset β) = ↑(left.flatMap f) + ↑(right.flatMap f) := by
  induction left generalizing right with
  | nil =>
    simp only [zipLongest, List.flatMap_map, List.flatMap_nil]
    simp
  | cons l left ih =>
    cases right with
    | nil =>
      simp only [zipLongest, List.flatMap_map, List.flatMap_nil]
      simp
    | cons r right =>
      rw [zipLongest, List.flatMap_cons, ← Multiset.coe_add, ih]
      simp only [Option.toList_some, List.flatMap_cons, ← Multiset.coe_add]
      ac_rfl

/-- What the rows of a hunk show, for rows that show what their lines do. -/
structure Shows (kindOf : ι → LineKind) : Prop where
  code : ∀ l r, (∀ ix ∈ l, kindOf ix = .del) → (∀ ix ∈ r, kindOf ix = .add) →
    g (l, r) = l.toList.flatMap f ++ r.toList.flatMap f
  marker : ∀ l r, (∀ ix ∈ l, kindOf ix = .marker) → (∀ ix ∈ r, kindOf ix = .marker) →
    g (l, r) = []
  context : ∀ ix, kindOf ix = .context → g (some ix, some ix) = f ix
  none : ∀ ix, kindOf ix = .marker → f ix = []

variable {f g}

theorem Shows.block (h : Shows f g kindOf) {block : Block ι} (hb : block.Fits kindOf) :
    (block.rows.flatMap g : Multiset β) = ↑(block.dels.flatMap f) + ↑(block.adds.flatMap f) := by
  have hcode : (zipLongest block.dels block.adds).flatMap g =
      (zipLongest block.dels block.adds).flatMap fun row =>
        row.1.toList.flatMap f ++ row.2.toList.flatMap f := by
    refine List.flatMap_congr fun row hrow => ?_
    obtain ⟨hl, hr⟩ := mem_zipLongest hrow
    exact h.code row.1 row.2 (fun ix hix => hb.dels ix (hl ix hix))
      fun ix hix => hb.adds ix (hr ix hix)
  have hmarker : (zipLongest block.delMeta block.addMeta).flatMap g = [] := by
    refine List.flatMap_eq_nil_iff.mpr fun row hrow => ?_
    obtain ⟨hl, hr⟩ := mem_zipLongest hrow
    exact h.marker row.1 row.2 (fun ix hix => hb.delMeta ix (hl ix hix))
      fun ix hix => hb.addMeta ix (hr ix hix)
  rw [Block.rows, List.flatMap_append, hcode, hmarker, List.append_nil, cards_zipLongest]

/-- **The rows show the cards of the lines.** -/
theorem Shows.rows (h : Shows f g kindOf) {lines : List (ι × LineKind)}
    (hk : ∀ line ∈ lines, kindOf line.1 = line.2) {block : Block ι} (hb : block.Fits kindOf)
    (pendingSide : Option LineKind) :
    ((Changes.rows lines block pendingSide).flatMap g : Multiset β) =
      ↑(block.dels.flatMap f) + ↑(block.adds.flatMap f) +
        ↑(lines.flatMap fun line => f line.1) := by
  induction lines generalizing block pendingSide with
  | nil =>
    rw [Changes.rows, h.block hb]
    simp
  | cons line lines ih =>
    obtain ⟨ix, kind⟩ := line
    have hix : kindOf ix = kind := hk _ List.mem_cons_self
    have ih := @ih fun line hl => hk line (List.mem_cons_of_mem _ hl)
    have hblock := h.block hb
    cases kind with
    | marker =>
      have hmark : (block.mark pendingSide ix).dels = block.dels ∧
          (block.mark pendingSide ix).adds = block.adds := by
        cases pendingSide with
        | none => exact ⟨rfl, rfl⟩
        | some side => cases side <;> exact ⟨rfl, rfl⟩
      rw [Changes.rows, ih (hb.mark hix pendingSide), hmark.1, hmark.2, List.flatMap_cons,
        h.none ix hix, List.nil_append]
    | context =>
      rw [Changes.rows, List.flatMap_append, List.flatMap_cons, ← Multiset.coe_add, hblock,
        ← Multiset.coe_add, ih .empty, h.context ix hix, List.flatMap_cons, ← Multiset.coe_add]
      simp [Block.empty]
    | del =>
      rw [Changes.rows, List.flatMap_cons, ← Multiset.coe_add]
      split_ifs with hc
      · rw [List.flatMap_append, ← Multiset.coe_add, hblock, ih (.ofDel hix)]
        simp [Block.ofDel]
      · rw [ih (hb.del hix), List.flatMap_append, ← Multiset.coe_add]
        simp only [List.flatMap_singleton]
        ac_rfl
    | add =>
      rw [Changes.rows, List.flatMap_cons, ← Multiset.coe_add]
      split_ifs with hc
      · rw [List.flatMap_append, ← Multiset.coe_add, hblock, ih (.ofAdd hix)]
        simp [Block.ofAdd]
      · rw [ih (hb.add hix), List.flatMap_append, ← Multiset.coe_add]
        simp only [List.flatMap_singleton]
        ac_rfl

end Cards

/-! ## Rows of a body -/

inductive DiffMode where
  | unified
  | split
  deriving DecidableEq

inductive CommentSide where
  | old
  | new
  deriving DecidableEq

inductive CommentSource where
  | diff (side : CommentSide)
  | file

/-- What the rows read of a staged comment. -/
structure ReviewComment where
  line : ℕ
  source : CommentSource

def ReviewComment.diffAnchor (comment : ReviewComment) : Option (CommentSide × ℕ) :=
  match comment.source with
  | .diff side => some (side, comment.line)
  | .file => none

/-- A deletion is cited in the old file, everything else in the new one. -/
def lineAnchor (line : DiffLine) : Option (CommentSide × ℕ) :=
  match line.kind with
  | .marker => none
  | .del => line.oldNo.map fun no => (.old, no)
  | _ => line.newNo.map fun no => (.new, no)

def pairAnchors (lines : List DiffLine) (pair : Option ℕ × Option ℕ) :
    List (Option (CommentSide × ℕ)) :=
  let anchor := fun ix : Option ℕ => (ix.bind fun ix => lines[ix]?).bind lineAnchor
  if anchor pair.1 = anchor pair.2 then [anchor pair.1, none] else [anchor pair.1, anchor pair.2]

inductive DiffRow where
  | notice (file notice : ℕ)
  | hunkHeader (file hunk : ℕ)
  | line (file hunk line flat : ℕ)
  | splitLine (file hunk : ℕ) (left right : Option ℕ)
  | commentCard (file card : ℕ)
  | commentDraft (file : ℕ)
  | bodyPad (file : ℕ)
  deriving DecidableEq

/-- A comment card or a draft. -/
def DiffRow.isCard : DiffRow → Bool
  | .commentCard _ _ | .commentDraft _ => true
  | _ => false

section Body

variable (fileIx : ℕ) (comments : List ReviewComment) (draft : Option (CommentSide × ℕ))

/-- The cards of an anchor, and its draft. -/
def anchorCards (anchor : CommentSide × ℕ) : List DiffRow :=
  (comments.zipIdx.filterMap fun (comment, ix) =>
    if comment.diffAnchor = some anchor then some (DiffRow.commentCard fileIx (asU32 ix)) else none) ++
  if draft = some anchor then [DiffRow.commentDraft fileIx] else []

def pushCards (anchors : List (Option (CommentSide × ℕ))) : List DiffRow :=
  anchors.flatMap fun anchor => anchor.toList.flatMap (anchorCards fileIx comments draft)

/-- The rows of a hunk behind its header; `flat` counts the lines of the hunks before it. -/
def hunkRows (mode : DiffMode) (hunkIx flat : ℕ) (lines : List DiffLine) : List DiffRow :=
  match mode with
  | .unified =>
    lines.zipIdx.flatMap fun (line, ix) =>
      .line fileIx hunkIx (asU32 ix) (asU32 (flat + ix)) ::
        pushCards fileIx comments draft [lineAnchor line]
  | .split =>
    (splitPairs lines).flatMap fun pair =>
      .splitLine fileIx hunkIx pair.1 pair.2 ::
        pushCards fileIx comments draft (pairAnchors lines pair)

def hunksRows (mode : DiffMode) : ℕ → ℕ → List Hunk → List DiffRow
  | _, _, [] => []
  | hunkIx, flat, hunk :: hunks =>
    .hunkHeader fileIx (asU32 hunkIx) ::
      (hunkRows fileIx comments draft mode (asU32 hunkIx) flat hunk.lines ++
        hunksRows mode (hunkIx + 1) (flat + hunk.lines.length) hunks)

def bodyRows (file : FileDiff) (mode : DiffMode) : List DiffRow :=
  (List.range (fileNotices file).length).map (fun notice => DiffRow.notice fileIx (asU32 notice)) ++
    hunksRows fileIx comments draft mode 0 0 file.hunks ++ [DiffRow.bodyPad fileIx]

end Body

/-! ## Hunks -/

/-- What no layout may lose: each line of code is once in the columns of its kind, in order, and
markers are by themselves. -/
structure Lossless (lines : List DiffLine) (pairs : List (Option ℕ × Option ℕ)) : Prop where
  del : ∀ ix line, lines[ix]? = some line → line.kind = .del →
    (pairs.filterMap Prod.fst).count ix = 1 ∧ ix ∉ pairs.filterMap Prod.snd
  add : ∀ ix line, lines[ix]? = some line → line.kind = .add →
    (pairs.filterMap Prod.snd).count ix = 1 ∧ ix ∉ pairs.filterMap Prod.fst
  context : ∀ ix line, lines[ix]? = some line → line.kind = .context →
    (some ix, some ix) ∈ pairs ∧ (pairs.filterMap Prod.fst).count ix = 1 ∧
      (pairs.filterMap Prod.snd).count ix = 1
  left : (pairs.filterMap Prod.fst).Pairwise (· < ·)
  right : (pairs.filterMap Prod.snd).Pairwise (· < ·)
  marker : ∀ l r, (some l, some r) ∈ pairs →
    ((lines[l]?).map (·.kind) = some .marker ↔ (lines[r]?).map (·.kind) = some .marker)

theorem splitPairs_eq {lines : List DiffLine} (h : lines.length ≤ 2 ^ 33) :
    splitPairs lines = rows (indexed lines) .empty none := by
  have hle := length_rows_le (indexed lines) .empty none
  have hlen : (indexed lines).length = lines.length := by simp [indexed]
  rw [hlen] at hle
  have hmax : usizeMax.toNat = 2 ^ 64 - 1 := rfl
  rw [splitPairs, splitPairsUpto, pair_eq (indexed lines) (Nat.zero_le _) (.empty _) none,
    List.nil_append, hmax]
  refine List.take_of_length_le ?_
  have hsize : (Block.empty : Block ℕ).size = 0 := rfl
  omega

theorem indexed_keys (lines : List DiffLine) :
    (indexed lines).map Prod.fst = (List.range lines.length).map asU32 := by
  rw [List.range_eq_range', ← List.zipIdx_map_snd 0 lines, List.map_map, indexed, List.map_map]
  exact List.map_congr_left fun _ _ => rfl

def kindAt (lines : List DiffLine) (ix : ℕ) : LineKind := ((lines[ix]?).map (·.kind)).getD .context

theorem kindAt_eq_marker {lines : List DiffLine} {ix : ℕ} :
    kindAt lines ix = .marker ↔ (lines[ix]?).map (·.kind) = some .marker := by
  rw [kindAt]
  cases (lines[ix]?).map (·.kind) <;> simp

section Indexed

variable {lines : List DiffLine} (h : lines.length ≤ 2 ^ 32)

include h

theorem indexed_keys_range : (indexed lines).map Prod.fst = List.range lines.length := by
  rw [indexed_keys]
  refine (List.map_congr_left fun ix hix => ?_).trans (List.map_id _)
  rw [List.mem_range] at hix
  exact asU32_of_lt (by omega)

theorem mem_indexed {ix : ℕ} {kind : LineKind} :
    (ix, kind) ∈ indexed lines ↔ ∃ line, lines[ix]? = some line ∧ line.kind = kind := by
  rw [indexed, List.mem_map]
  constructor
  · rintro ⟨⟨line, jx⟩, hmem, he⟩
    rw [List.mem_zipIdx_iff_getElem?] at hmem
    have hlt := (List.getElem?_eq_some_iff.mp hmem).1
    simp only [Prod.mk.injEq] at he
    rw [asU32_of_lt (by omega)] at he
    exact ⟨line, he.1 ▸ hmem, he.2⟩
  · rintro ⟨line, hline, rfl⟩
    have hlt := (List.getElem?_eq_some_iff.mp hline).1
    refine ⟨(line, ix), List.mem_zipIdx_iff_getElem?.mpr hline, ?_⟩
    change (asU32 ix, line.kind) = _
    rw [asU32_of_lt (by omega)]

theorem kindAt_indexed : ∀ line ∈ indexed lines, kindAt lines line.1 = line.2 := by
  intro (ix, kind) hmem
  obtain ⟨line, hline, rfl⟩ := (mem_indexed h).mp hmem
  rw [kindAt, hline]
  rfl

theorem count_column {other : LineKind} {ix : ℕ} {line : DiffLine} (hline : lines[ix]? = some line)
    (hm : line.kind ≠ .marker) (hne : line.kind ≠ other) :
    (columnItems other (indexed lines) none).count ix = 1 := by
  have hsub := columnItems_sublist other (indexed lines) none
  rw [indexed_keys_range h] at hsub
  exact List.count_eq_one_of_mem (hsub.nodup List.nodup_range)
    (columnItems_of_mem ((mem_indexed h).mpr ⟨line, hline, rfl⟩) hm hne none)

theorem not_mem_column {ix : ℕ} {line : DiffLine} (hline : lines[ix]? = some line)
    (hm : line.kind ≠ .marker) : ix ∉ columnItems line.kind (indexed lines) none := by
  intro hix
  obtain ⟨kind, hmem, hne⟩ := mem_columnItems hm hix
  obtain ⟨line', hline', rfl⟩ := (mem_indexed h).mp hmem
  rw [hline, Option.some_inj] at hline'
  exact hne (by rw [hline'])

theorem pairwise_column (other : LineKind) :
    (columnItems other (indexed lines) none).Pairwise (· < ·) := by
  have hsub := columnItems_sublist other (indexed lines) none
  rw [indexed_keys_range h] at hsub
  exact List.pairwise_lt_range.sublist hsub

/-- **The rows of a hunk lose nothing.** -/
theorem splitPairs_lossless : Lossless lines (splitPairs lines) := by
  have hleft : (splitPairs lines).filterMap Prod.fst = columnItems .add (indexed lines) none := by
    rw [splitPairs_eq (by omega), left_rows]
    rfl
  have hright : (splitPairs lines).filterMap Prod.snd = columnItems .del (indexed lines) none := by
    rw [splitPairs_eq (by omega), right_rows]
    rfl
  refine ⟨?_, ?_, ?_, ?_, ?_, ?_⟩
  · intro ix line hline hk
    rw [hleft, hright]
    refine ⟨count_column h hline (by simp [hk]) (by simp [hk]), ?_⟩
    rw [← hk]
    exact not_mem_column h hline (by simp [hk])
  · intro ix line hline hk
    rw [hleft, hright]
    refine ⟨count_column h hline (by simp [hk]) (by simp [hk]), ?_⟩
    rw [← hk]
    exact not_mem_column h hline (by simp [hk])
  · intro ix line hline hk
    rw [hleft, hright]
    refine ⟨?_, count_column h hline (by simp [hk]) (by simp [hk]),
      count_column h hline (by simp [hk]) (by simp [hk])⟩
    rw [splitPairs_eq (by omega)]
    exact context_row ((mem_indexed h).mpr ⟨line, hline, hk⟩) _ _
  · rw [hleft]
    exact pairwise_column h _
  · rw [hright]
    exact pairwise_column h _
  · intro l r hrow
    rw [splitPairs_eq (by omega)] at hrow
    rw [← kindAt_eq_marker, ← kindAt_eq_marker]
    cases row_kinds (kindAt_indexed h) .empty none _ hrow with
    | code hl hr => simp [hl l rfl, hr r rfl]
    | marker hl hr => simp [hl l rfl, hr r rfl]
    | context hix => rfl

end Indexed

/-! ## Bodies -/

section Body

variable {fileIx : ℕ} {comments : List ReviewComment} {draft : Option (CommentSide × ℕ)}

theorem anchorCards_isCard (anchor : CommentSide × ℕ) :
    ∀ row ∈ anchorCards fileIx comments draft anchor, row.isCard = true := by
  intro row hrow
  rcases List.mem_append.mp hrow with hrow | hrow
  · obtain ⟨⟨comment, ix⟩, -, he⟩ := List.mem_filterMap.mp hrow
    dsimp only at he
    split_ifs at he
    cases he
    rfl
  · split_ifs at hrow
    · rw [List.mem_singleton.mp hrow]
      rfl
    · simp at hrow

theorem filter_pushCards (anchors : List (Option (CommentSide × ℕ))) :
    (pushCards fileIx comments draft anchors).filter DiffRow.isCard =
      pushCards fileIx comments draft anchors := by
  refine List.filter_eq_self.mpr fun row hrow => ?_
  obtain ⟨anchor, -, hrow⟩ := List.mem_flatMap.mp hrow
  obtain ⟨a, -, hrow⟩ := List.mem_flatMap.mp hrow
  exact anchorCards_isCard a row hrow

/-- The cards that a line shows. -/
def cardsAt (fileIx : ℕ) (comments : List ReviewComment) (draft : Option (CommentSide × ℕ))
    (lines : List DiffLine) (ix : ℕ) : List DiffRow :=
  ((lines[ix]?).bind lineAnchor).toList.flatMap (anchorCards fileIx comments draft)

theorem lineAnchor_kindAt {lines : List DiffLine} {ix : ℕ} {kind : LineKind}
    (hk : kindAt lines ix = kind) (hne : kind ≠ .context) :
    ∃ line, lines[ix]? = some line ∧ line.kind = kind := by
  rw [kindAt] at hk
  cases hl : lines[ix]? with
  | none =>
    rw [hl] at hk
    exact absurd hk.symm hne
  | some line =>
    rw [hl] at hk
    exact ⟨line, rfl, hk⟩

theorem lineAnchor_marker {lines : List DiffLine} {ix : ℕ} (hk : kindAt lines ix = .marker) :
    (lines[ix]?).bind lineAnchor = none := by
  obtain ⟨line, hline, hkind⟩ := lineAnchor_kindAt hk (by simp)
  simp [hline, lineAnchor, hkind]

theorem anchor_ne {lines : List DiffLine} {l r : Option ℕ}
    (hl : ∀ ix ∈ l, kindAt lines ix = .del) (hr : ∀ ix ∈ r, kindAt lines ix = .add)
    (he : (l.bind fun ix => lines[ix]?).bind lineAnchor =
      (r.bind fun ix => lines[ix]?).bind lineAnchor) :
    (l.bind fun ix => lines[ix]?).bind lineAnchor = none := by
  cases l with
  | none => rfl
  | some l =>
    obtain ⟨line, hline, hkind⟩ := lineAnchor_kindAt (hl l rfl) (by simp)
    cases r with
    | none => exact he
    | some r =>
      obtain ⟨line', hline', hkind'⟩ := lineAnchor_kindAt (hr r rfl) (by simp)
      simp only [Option.bind_some, hline, hline', lineAnchor, hkind, hkind'] at he ⊢
      cases hold : line.oldNo with
      | none => rfl
      | some no =>
        rw [hold] at he
        cases hnew : line'.newNo <;> simp [hnew] at he

theorem side_cards (lines : List DiffLine) (side : Option ℕ) :
    ((side.bind fun ix => lines[ix]?).bind lineAnchor).toList.flatMap
      (anchorCards fileIx comments draft) =
        side.toList.flatMap (cardsAt fileIx comments draft lines) := by
  cases side with
  | none => rfl
  | some ix => simp [cardsAt]

theorem shows_pairAnchors (lines : List DiffLine) :
    Shows (cardsAt fileIx comments draft lines)
      (fun pair => pushCards fileIx comments draft (pairAnchors lines pair)) (kindAt lines) where
  code l r hl hr := by
    rw [← side_cards lines l, ← side_cards lines r, pairAnchors]
    dsimp only
    split_ifs with he
    · rw [← he, anchor_ne hl hr he]
      rfl
    · simp [pushCards]
  marker l r hl hr := by
    have hnone : ∀ {side : Option ℕ}, (∀ ix ∈ side, kindAt lines ix = .marker) →
        (side.bind fun ix => lines[ix]?).bind lineAnchor = none := by
      intro side hside
      cases side with
      | none => rfl
      | some ix => exact lineAnchor_marker (hside ix rfl)
    simp [pairAnchors, hnone hl, hnone hr, pushCards]
  context ix _ := by
    simp [pairAnchors, pushCards, cardsAt]
  none ix hix := by
    rw [cardsAt, lineAnchor_marker hix]
    rfl

/-- **A hunk shows its cards in both layouts.** -/
theorem hunkRows_cards {lines : List DiffLine} (h : lines.length ≤ 2 ^ 32) (hunkIx flat : ℕ) :
    ((hunkRows fileIx comments draft .split hunkIx flat lines).filter DiffRow.isCard).Perm
      ((hunkRows fileIx comments draft .unified hunkIx flat lines).filter DiffRow.isCard) := by
  have hsplit : (hunkRows fileIx comments draft .split hunkIx flat lines).filter DiffRow.isCard =
      (rows (indexed lines) .empty none).flatMap fun pair =>
        pushCards fileIx comments draft (pairAnchors lines pair) := by
    rw [hunkRows, splitPairs_eq (by omega), List.filter_flatMap]
    refine List.flatMap_congr fun pair _ => ?_
    rw [List.filter_cons_of_neg (by simp [DiffRow.isCard]), filter_pushCards]
  have hunified : (hunkRows fileIx comments draft .unified hunkIx flat lines).filter
      DiffRow.isCard = (indexed lines).flatMap fun line =>
        cardsAt fileIx comments draft lines line.1 := by
    rw [hunkRows, List.filter_flatMap, indexed, List.flatMap_map]
    refine List.flatMap_congr fun line hline => ?_
    obtain ⟨line, ix⟩ := line
    rw [List.mem_zipIdx_iff_getElem?] at hline
    have hlt := (List.getElem?_eq_some_iff.mp hline).1
    dsimp only at hline hlt ⊢
    rw [List.filter_cons_of_neg (by simp [DiffRow.isCard]), filter_pushCards,
      asU32_of_lt (by omega), cardsAt, hline]
    simp [pushCards]
  have hrows := (@shows_pairAnchors fileIx comments draft lines).rows (kindAt_indexed h) .empty none
  rw [hsplit, hunified, ← Multiset.coe_eq_coe, hrows]
  simp [Block.empty]

theorem hunksRows_cards {hunks : List Hunk} (h : ∀ hunk ∈ hunks, hunk.lines.length ≤ 2 ^ 32)
    (hunkIx flat : ℕ) :
    ((hunksRows fileIx comments draft .split hunkIx flat hunks).filter DiffRow.isCard).Perm
      ((hunksRows fileIx comments draft .unified hunkIx flat hunks).filter DiffRow.isCard) := by
  induction hunks generalizing hunkIx flat with
  | nil => exact .refl _
  | cons hunk hunks ih =>
    simp only [hunksRows, List.filter_cons, DiffRow.isCard, Bool.false_eq_true, if_false,
      List.filter_append]
    exact (hunkRows_cards (h hunk List.mem_cons_self) _ _).append
      (ih (fun hunk hh => h hunk (List.mem_cons_of_mem _ hh)) _ _)

end Body

/-- **The split layout loses nothing**, for hunks of `2 ^ 32` lines at most, which the rows can
index: every line keeps its place, and every file its cards and its draft. -/
theorem split_keeps :
    (∀ lines : List DiffLine, lines.length ≤ 2 ^ 32 → Lossless lines (splitPairs lines)) ∧
      ∀ (fileIx : ℕ) (comments : List ReviewComment) (draft : Option (CommentSide × ℕ))
        (file : FileDiff), (∀ hunk ∈ file.hunks, hunk.lines.length ≤ 2 ^ 32) →
          ((bodyRows fileIx comments draft file .split).filter DiffRow.isCard).Perm
            ((bodyRows fileIx comments draft file .unified).filter DiffRow.isCard) := by
  refine ⟨fun lines h => splitPairs_lossless h, fun fileIx comments draft file h => ?_⟩
  unfold bodyRows
  simp only [List.filter_append]
  exact ((hunksRows_cards h 0 0).append_left _).append_right _

/-- A hunk of one edit, and a comment on its deleted line. -/
theorem split_keeps_edit :
    Lossless [⟨.del, some 3, none, ['a']⟩, ⟨.add, none, some 3, ['b']⟩]
        (splitPairs [⟨.del, some 3, none, ['a']⟩, ⟨.add, none, some 3, ['b']⟩]) ∧
      ((bodyRows 0 [⟨3, .diff .old⟩] none { FileDiff.new ['x'] none with
          hunks := [⟨"@@ -3 +3 @@".toList,
            [⟨.del, some 3, none, ['a']⟩, ⟨.add, none, some 3, ['b']⟩]⟩] }
            .split).filter DiffRow.isCard).Perm
        ((bodyRows 0 [⟨3, .diff .old⟩] none { FileDiff.new ['x'] none with
          hunks := [⟨"@@ -3 +3 @@".toList,
            [⟨.del, some 3, none, ['a']⟩, ⟨.add, none, some 3, ['b']⟩]⟩] }
            .unified).filter DiffRow.isCard) :=
  ⟨split_keeps.1 _ (by decide), split_keeps.2 _ _ _ _ (by decide)⟩

theorem columnItems_all {other kind : LineKind} (hm : kind ≠ .marker) (hne : kind ≠ other)
    {lines : List (ι × LineKind)} (h : ∀ line ∈ lines, line.2 = kind)
    (pendingSide : Option LineKind) : columnItems other lines pendingSide = lines.map Prod.fst := by
  induction lines generalizing pendingSide with
  | nil => rfl
  | cons line lines ih =>
    rw [columnItems_cons, h line List.mem_cons_self, sideOf, if_neg hm, if_neg (by simpa using hne),
      ih (fun line hl => h line (List.mem_cons_of_mem _ hl)), List.map_cons]

/-- With one line more than the rows can index, the first index comes twice. -/
theorem wide_hunk : ¬ ∀ lines : List DiffLine, Lossless lines (splitPairs lines) := by
  intro hall
  obtain ⟨n, hn⟩ : ∃ n : ℕ, n = 2 ^ 32 := ⟨_, rfl⟩
  have hlen : (List.replicate (n + 1) (⟨.add, none, some 1, []⟩ : DiffLine)).length = n + 1 :=
    List.length_replicate
  have hright := (hall (List.replicate (n + 1) ⟨.add, none, some 1, []⟩)).right
  have hadd : ∀ line ∈ indexed (List.replicate (n + 1) (⟨.add, none, some 1, []⟩ : DiffLine)),
      line.2 = .add := by
    intro line hline
    obtain ⟨⟨l, ix⟩, hmem, rfl⟩ := List.mem_map.mp hline
    have hl : l = ⟨.add, none, some 1, []⟩ :=
      List.eq_of_mem_replicate (List.fst_mem_of_mem_zipIdx hmem)
    rw [hl]
  rw [splitPairs_eq (by rw [hlen]; omega), right_rows, columnItems_all (by simp) (by simp) hadd,
    indexed_keys, hlen] at hright
  change ((List.range (n + 1)).map asU32).Pairwise (· < ·) at hright
  have hsize : ((List.range (n + 1)).map asU32).length = n + 1 := by
    rw [List.length_map, List.length_range]
  have hlast := List.pairwise_iff_getElem.mp hright 0 n (by omega) (by omega) (by omega)
  simp only [List.getElem_map, List.getElem_range, asU32, hn] at hlast
  exact absurd hlast (by norm_num)

end Zeron.Changes
