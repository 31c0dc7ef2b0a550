import Zeron.Changes.Diff

/-!
# The rows of the split layout

`split_pairs_upto` walks the lines of a hunk and stops at a number of rows.

* `drain`, `flush`, `pair`, `splitPairsUpto`, `splitPairs`: the source;
* `rows`: the rows of all lines, without a limit;
* **`pair_eq`**: the walk makes the first of these rows;
* **`splitPairsUpto_eq`**: the limited pairing is a prefix of the whole one.
-/

namespace Zeron.Changes

variable {ι κ : Type*}

/-- The two sides' code lines of a block, and the markers that each side may end on. -/
structure Block (ι : Type*) where
  dels : List ι
  adds : List ι
  delMeta : List ι
  addMeta : List ι

def Block.empty : Block ι := { dels := [], adds := [], delMeta := [], addMeta := [] }

def Block.ofDel (ix : ι) : Block ι := { dels := [ix], adds := [], delMeta := [], addMeta := [] }

def Block.ofAdd (ix : ι) : Block ι := { dels := [], adds := [ix], delMeta := [], addMeta := [] }

/-- Two lists side by side. -/
def zipLongest : List ι → List ι → List (Option ι × Option ι)
  | [], rights => rights.map fun r => (none, some r)
  | l :: lefts, [] => (l :: lefts).map fun l => (some l, none)
  | l :: lefts, r :: rights => (some l, some r) :: zipLongest lefts rights

def drain (maxRows : ℕ) (pairs : List (Option ι × Option ι)) (left right : List ι) :
    List (Option ι × Option ι) :=
  pairs ++ (zipLongest left right).take (maxRows - pairs.length)

def flush (maxRows : ℕ) (pairs : List (Option ι × Option ι)) (block : Block ι) :
    List (Option ι × Option ι) :=
  drain maxRows (drain maxRows pairs block.dels block.adds) block.delMeta block.addMeta

/-- A deletion starts a new block. -/
def Block.closesForDel (block : Block ι) : Bool :=
  !block.adds.isEmpty || !block.delMeta.isEmpty || !block.addMeta.isEmpty

/-- An addition starts a new block. -/
def Block.closesForAdd (block : Block ι) : Bool := !block.addMeta.isEmpty

/-- A marker goes to the side of the line before it, and else to both. -/
def Block.mark (block : Block ι) (pendingSide : Option LineKind) (ix : ι) : Block ι :=
  match pendingSide with
  | some .del => { block with delMeta := block.delMeta ++ [ix] }
  | some .add => { block with addMeta := block.addMeta ++ [ix] }
  | _ => { block with delMeta := block.delMeta ++ [ix], addMeta := block.addMeta ++ [ix] }

/-- The loop, over the kinds of the lines with their indices, and the last flush. -/
def pair (maxRows : ℕ) : List (ι × LineKind) → List (Option ι × Option ι) → Block ι →
    Option LineKind → List (Option ι × Option ι)
  | [], pairs, block, _ => (flush maxRows pairs block).take maxRows
  | (ix, .del) :: lines, pairs, block, _ =>
    let (pairs, block) :=
      if block.closesForDel then (flush maxRows pairs block, .empty) else (pairs, block)
    let remaining := maxRows - min pairs.length maxRows
    if remaining = 0 then (flush maxRows pairs block).take maxRows
    else
      pair maxRows lines pairs
        (if block.dels.length < remaining then { block with dels := block.dels ++ [ix] } else block)
        (some .del)
  | (ix, .add) :: lines, pairs, block, _ =>
    let (pairs, block) :=
      if block.closesForAdd then (flush maxRows pairs block, .empty) else (pairs, block)
    let remaining := maxRows - min pairs.length maxRows
    if remaining = 0 then (flush maxRows pairs block).take maxRows
    else
      pair maxRows lines pairs
        (if block.adds.length < remaining then { block with adds := block.adds ++ [ix] } else block)
        (some .add)
  | (ix, .marker) :: lines, pairs, block, pendingSide =>
    pair maxRows lines pairs (block.mark pendingSide ix) pendingSide
  | (ix, .context) :: lines, pairs, block, _ =>
    let pairs := flush maxRows pairs block
    if maxRows ≤ pairs.length then (flush maxRows pairs .empty).take maxRows
    else pair maxRows lines (pairs ++ [(some ix, some ix)]) .empty (some .context)

/-- The lines of a hunk with their indices. -/
def indexed (lines : List DiffLine) : List (ℕ × LineKind) :=
  lines.zipIdx.map fun (line, ix) => (asU32 ix, line.kind)

def splitPairsUpto (lines : List DiffLine) (maxRows : UInt64) : List (Option ℕ × Option ℕ) :=
  pair maxRows.toNat (indexed lines) [] .empty none

/-- `usize::MAX`. -/
def usizeMax : UInt64 := -1

def splitPairs (lines : List DiffLine) : List (Option ℕ × Option ℕ) := splitPairsUpto lines usizeMax

/-! ## Without a limit -/

def Block.rows (block : Block ι) : List (Option ι × Option ι) :=
  zipLongest block.dels block.adds ++ zipLongest block.delMeta block.addMeta

/-- The rows of a block that is still open, and of the lines behind it. -/
def rows : List (ι × LineKind) → Block ι → Option LineKind → List (Option ι × Option ι)
  | [], block, _ => block.rows
  | (ix, .del) :: lines, block, _ =>
    if block.closesForDel then block.rows ++ rows lines (.ofDel ix) (some .del)
    else rows lines { block with dels := block.dels ++ [ix] } (some .del)
  | (ix, .add) :: lines, block, _ =>
    if block.closesForAdd then block.rows ++ rows lines (.ofAdd ix) (some .add)
    else rows lines { block with adds := block.adds ++ [ix] } (some .add)
  | (ix, .marker) :: lines, block, pendingSide => rows lines (block.mark pendingSide ix) pendingSide
  | (ix, .context) :: lines, block, _ =>
    block.rows ++ (some ix, some ix) :: rows lines .empty (some .context)

attribute [local simp] zipLongest pair rows in
@[simp] theorem zipLongest_nil_nil : zipLongest ([] : List ι) [] = [] := rfl

theorem zipLongest_take (n : ℕ) (left right : List ι) :
    zipLongest (left.take n) (right.take n) = (zipLongest left right).take n := by
  induction n generalizing left right with
  | zero => simp
  | succ n ih =>
    cases left with
    | nil => simp [zipLongest, List.map_take]
    | cons l left =>
      cases right with
      | nil => simp [zipLongest, List.map_take]
      | cons r right => simp [zipLongest, ih]

/-! ## The limited walk -/

section Limit

variable {maxRows : ℕ} {pairs : List (Option ι × Option ι)}

theorem drain_full (h : maxRows ≤ pairs.length) (left right : List ι) :
    drain maxRows pairs left right = pairs := by
  rw [drain, Nat.sub_eq_zero_of_le h, List.take_zero, List.append_nil]

theorem flush_full (h : maxRows ≤ pairs.length) (block : Block ι) :
    flush maxRows pairs block = pairs := by
  rw [flush, drain_full h, drain_full h]

theorem pair_full (h : pairs.length = maxRows) (lines : List (ι × LineKind)) (block : Block ι)
    (pendingSide : Option LineKind) : pair maxRows lines pairs block pendingSide = pairs := by
  have hflush : ∀ block, flush maxRows pairs block = pairs := flush_full h.ge
  have htake : pairs.take maxRows = pairs := List.take_of_length_le h.le
  induction lines generalizing block pendingSide with
  | nil => rw [pair, hflush, htake]
  | cons line lines ih =>
    obtain ⟨ix, kind⟩ := line
    cases kind with
    | marker => exact ih _ _
    | context => rw [pair, hflush, if_pos h.ge, hflush, htake]
    | del =>
      rw [pair]
      cases block.closesForDel <;> simp [hflush, htake, h]
    | add =>
      rw [pair]
      cases block.closesForAdd <;> simp [hflush, htake, h]

/-- What the walk keeps of an open block. -/
structure Keeps (remaining : ℕ) (kept block : Block ι) : Prop where
  dels : kept.dels = block.dels.take remaining
  adds : kept.adds = block.adds.take remaining
  delMeta : kept.delMeta = block.delMeta
  addMeta : kept.addMeta = block.addMeta

theorem Keeps.empty (remaining : ℕ) : Keeps remaining (Block.empty : Block ι) .empty :=
  ⟨List.take_nil.symm, List.take_nil.symm, rfl, rfl⟩

theorem Keeps.closesForDel {remaining : ℕ} {kept block : Block ι} (h : Keeps remaining kept block)
    (hpos : 0 < remaining) : kept.closesForDel = block.closesForDel := by
  have hadds : kept.adds.isEmpty = block.adds.isEmpty := by
    rw [h.adds]
    cases block.adds with
    | nil => rw [List.take_nil]
    | cons a adds =>
      obtain ⟨n, rfl⟩ : ∃ n, remaining = n + 1 := ⟨remaining - 1, by omega⟩
      rfl
  rw [Block.closesForDel, Block.closesForDel, hadds, h.delMeta, h.addMeta]

theorem Keeps.closesForAdd {remaining : ℕ} {kept block : Block ι} (h : Keeps remaining kept block) :
    kept.closesForAdd = block.closesForAdd := by
  rw [Block.closesForAdd, Block.closesForAdd, h.addMeta]

theorem Keeps.mark {remaining : ℕ} {kept block : Block ι} (h : Keeps remaining kept block)
    (pendingSide : Option LineKind) (ix : ι) :
    Keeps remaining (kept.mark pendingSide ix) (block.mark pendingSide ix) := by
  obtain ⟨hd, ha, hdm, ham⟩ := h
  cases pendingSide with
  | none => exact ⟨hd, ha, by simp [Block.mark, hdm], by simp [Block.mark, ham]⟩
  | some side =>
    cases side with
    | del => exact ⟨hd, ha, by simp [Block.mark, hdm], ham⟩
    | add => exact ⟨hd, ha, hdm, by simp [Block.mark, ham]⟩
    | context | marker =>
      exact ⟨hd, ha, by simp [Block.mark, hdm], by simp [Block.mark, ham]⟩

theorem take_concat (remaining : ℕ) (l : List ι) (ix : ι) :
    (if (l.take remaining).length < remaining then l.take remaining ++ [ix] else l.take remaining) =
      (l ++ [ix]).take remaining := by
  rw [List.length_take, List.take_append]
  split_ifs with h
  · have hlt : l.length < remaining := by omega
    obtain ⟨n, hn⟩ : ∃ n, remaining - l.length = n + 1 := ⟨remaining - l.length - 1, by omega⟩
    rw [hn, List.take_succ_cons, List.take_nil]
  · rw [Nat.sub_eq_zero_of_le (by omega), List.take_zero, List.append_nil]

theorem Keeps.del {remaining : ℕ} {kept block : Block ι} (h : Keeps remaining kept block) (ix : ι) :
    Keeps remaining
      (if kept.dels.length < remaining then { kept with dels := kept.dels ++ [ix] } else kept)
      { block with dels := block.dels ++ [ix] } := by
  have htake := take_concat remaining block.dels ix
  rw [← h.dels] at htake
  split_ifs at htake ⊢ with hroom
  · exact ⟨htake, h.adds, h.delMeta, h.addMeta⟩
  · exact ⟨htake, h.adds, h.delMeta, h.addMeta⟩

theorem Keeps.add {remaining : ℕ} {kept block : Block ι} (h : Keeps remaining kept block) (ix : ι) :
    Keeps remaining
      (if kept.adds.length < remaining then { kept with adds := kept.adds ++ [ix] } else kept)
      { block with adds := block.adds ++ [ix] } := by
  have htake := take_concat remaining block.adds ix
  rw [← h.adds] at htake
  split_ifs at htake ⊢ with hroom
  · exact ⟨h.dels, htake, h.delMeta, h.addMeta⟩
  · exact ⟨h.dels, htake, h.delMeta, h.addMeta⟩

theorem take_take_append {α : Type*} (n : ℕ) (l l' : List α) :
    (l.take n ++ l').take n = (l ++ l').take n := by
  rw [List.take_append, List.take_append, List.take_take, min_self, List.length_take]
  congr 2
  omega

theorem flush_eq (hle : pairs.length ≤ maxRows) {kept block : Block ι}
    (h : Keeps (maxRows - pairs.length) kept block) :
    flush maxRows pairs kept = (pairs ++ block.rows).take maxRows := by
  have hdrain : ∀ (done : List (Option ι × Option ι)) (left right : List ι),
      done.length ≤ maxRows →
        drain maxRows done left right = (done ++ zipLongest left right).take maxRows := by
    intro done left right hd
    rw [drain, List.take_append, List.take_of_length_le hd]
  have hfirst : drain maxRows pairs kept.dels kept.adds =
      (pairs ++ zipLongest block.dels block.adds).take maxRows := by
    rw [drain, h.dels, h.adds, zipLongest_take, List.take_take, min_self, List.take_append,
      List.take_of_length_le hle]
  rw [flush, hfirst, hdrain _ _ _ (List.length_take_le _ _), h.delMeta, h.addMeta,
    take_take_append, Block.rows, List.append_assoc]

/-- **The walk makes the first rows.** -/
theorem pair_eq (lines : List (ι × LineKind)) (hle : pairs.length ≤ maxRows)
    {kept block : Block ι} (h : Keeps (maxRows - pairs.length) kept block)
    (pendingSide : Option LineKind) :
    pair maxRows lines pairs kept pendingSide =
      (pairs ++ rows lines block pendingSide).take maxRows := by
  induction lines generalizing pairs kept block pendingSide with
  | nil =>
    rw [pair, rows, flush_eq hle h, List.take_take, min_self]
  | cons line lines ih =>
    obtain ⟨ix, kind⟩ := line
    -- rows that fill the limit hide what follows
    have hfull : ∀ {done : List (Option ι × Option ι)} (rest), done.length ≤ maxRows →
        maxRows ≤ done.length → (done ++ rest).take maxRows = done := by
      intro done rest hd h0
      rw [List.take_append, List.take_of_length_le hd, Nat.sub_eq_zero_of_le h0, List.take_zero,
        List.append_nil]
    by_cases hf : maxRows ≤ pairs.length
    · rw [pair_full (Nat.le_antisymm hle hf), hfull _ hle hf]
    · have hflush : ∀ rest, (flush maxRows pairs kept ++ rest).take maxRows =
          (pairs ++ (block.rows ++ rest)).take maxRows := by
        intro rest
        rw [flush_eq hle h, take_take_append, List.append_assoc]
      have hlen : (flush maxRows pairs kept).length ≤ maxRows := by
        rw [flush_eq hle h]
        exact List.length_take_le _ _
      cases kind with
      | marker => exact ih hle (h.mark pendingSide ix) pendingSide
      | del =>
        have hopen : ∀ {done : List (Option ι × Option ι)} {kept block : Block ι},
            done.length ≤ maxRows → Keeps (maxRows - done.length) kept block →
              (if maxRows - min done.length maxRows = 0 then (flush maxRows done kept).take maxRows
              else pair maxRows lines done
                (if kept.dels.length < maxRows - min done.length maxRows then
                  { kept with dels := kept.dels ++ [ix] } else kept) (some .del)) =
                (done ++ rows lines { block with dels := block.dels ++ [ix] } (some .del)).take
                  maxRows := by
          intro done kept block hd hk
          rw [min_eq_left hd]
          by_cases h0 : maxRows - done.length = 0
          · rw [if_pos h0, flush_full (by omega), hfull _ hd (by omega), List.take_of_length_le hd]
          · rw [if_neg h0]
            exact ih hd (hk.del ix) _
        rw [pair, rows, h.closesForDel (by omega)]
        cases block.closesForDel with
        | true => exact (hopen hlen (.empty _)).trans (hflush _)
        | false => exact hopen hle h
      | add =>
        have hopen : ∀ {done : List (Option ι × Option ι)} {kept block : Block ι},
            done.length ≤ maxRows → Keeps (maxRows - done.length) kept block →
              (if maxRows - min done.length maxRows = 0 then (flush maxRows done kept).take maxRows
              else pair maxRows lines done
                (if kept.adds.length < maxRows - min done.length maxRows then
                  { kept with adds := kept.adds ++ [ix] } else kept) (some .add)) =
                (done ++ rows lines { block with adds := block.adds ++ [ix] } (some .add)).take
                  maxRows := by
          intro done kept block hd hk
          rw [min_eq_left hd]
          by_cases h0 : maxRows - done.length = 0
          · rw [if_pos h0, flush_full (by omega), hfull _ hd (by omega), List.take_of_length_le hd]
          · rw [if_neg h0]
            exact ih hd (hk.add ix) _
        rw [pair, rows, h.closesForAdd]
        cases block.closesForAdd with
        | true => exact (hopen hlen (.empty _)).trans (hflush _)
        | false => exact hopen hle h
      | context =>
        rw [pair, rows]
        split_ifs with hc
        · rw [flush_full hc, List.take_of_length_le hlen, ← hflush, hfull _ hlen hc]
        · rw [ih (by simp; omega) (.empty _), List.append_assoc, ← hflush, List.singleton_append]

end Limit

/-- **The limited pairing is a prefix of the whole one.** -/
theorem splitPairsUpto_eq (lines : List DiffLine) (cap : UInt64) :
    splitPairsUpto lines cap = (splitPairs lines).take cap.toNat := by
  have h : ∀ limit : UInt64, splitPairsUpto lines limit =
      (rows (indexed lines) .empty none).take limit.toNat := fun limit =>
    pair_eq (indexed lines) (Nat.zero_le _) (.empty _) none
  have hmax : cap.toNat ≤ usizeMax.toNat := Nat.le_of_lt_succ cap.toNat_lt
  rw [splitPairs, h, h, List.take_take, min_eq_left hmax]

end Zeron.Changes
