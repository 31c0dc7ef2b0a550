import Mathlib

/-!
# The chunked update log

Updates of any size as rows of a bounded one (`edge/src/update-log.ts`).

* `appendUpdateRow`, `readUpdateRows`: the source;
* `readFrom_append`: a row that continues nothing closes the update before it;
* **`updates_kept`**: what was appended is read back behind what was there.
-/

namespace Zeron.Edge

/-- `CHUNK_BYTES`. -/
def chunkBytes : ℕ := 1500000

/-- What a value of the store may take. -/
def valueCap : ℕ := 2 * 1024 * 1024

/-- A row of the `updates` table, in the order of `seq`. Rows from before the column exist have
`cont` unset. -/
structure UpdateRow where
  bytes : List UInt8
  cont : Bool := false
  deriving DecidableEq

/-- The loop in `appendUpdateRow`, from an offset on. -/
def chunkRows (cont : Bool) (update : List UInt8) : List UpdateRow :=
  if update = [] then []
  else { bytes := update.take chunkBytes, cont } :: chunkRows true (update.drop chunkBytes)
termination_by update.length
decreasing_by
  have hpos : 0 < chunkBytes := by decide
  have hlen := List.length_pos_iff.mpr ‹¬ update = []›
  simp only [List.length_drop]
  omega

/-- `appendUpdateRow`. -/
def appendUpdateRow (log : List UpdateRow) (update : List UInt8) : List UpdateRow :=
  log ++ chunkRows false update

/-- The loop in `readUpdateRows`, with the rows of the update that is open. -/
def readFrom (parts : List (List UInt8)) : List UpdateRow → List (List UInt8)
  | [] => if parts = [] then [] else [parts.flatten]
  | row :: rows =>
    if !row.cont ∧ parts ≠ [] then parts.flatten :: readFrom [row.bytes] rows
    else readFrom (parts ++ [row.bytes]) rows

/-- `readUpdateRows`. -/
def readUpdateRows (log : List UpdateRow) : List (List UInt8) := readFrom [] log

/-! ## Reading back -/

section

variable {log rows : List UpdateRow} {update : List UInt8} {parts : List (List UInt8)}

theorem chunkRows_nil (cont : Bool) : chunkRows cont [] = [] := by
  rw [chunkRows, if_pos rfl]

theorem chunkRows_of_ne_nil (h : update ≠ []) (cont : Bool) : chunkRows cont update =
    { bytes := update.take chunkBytes, cont } :: chunkRows true (update.drop chunkBytes) := by
  rw [chunkRows, if_neg h]

theorem length_le_of_mem_chunkRows {cont : Bool} {row : UpdateRow}
    (h : row ∈ chunkRows cont update) : row.bytes.length ≤ valueCap := by
  induction cont, update using chunkRows.induct with
  | case1 cont => simp [chunkRows_nil] at h
  | case2 cont update hne ih =>
    rw [chunkRows_of_ne_nil hne] at h
    rcases List.mem_cons.mp h with rfl | h
    · exact (List.length_take_le _ _).trans (by decide)
    · exact ih h

attribute [local simp] readFrom in
theorem readFrom_chunkRows (h : parts ≠ []) :
    readFrom parts (chunkRows true update) = [parts.flatten ++ update] := by
  obtain ⟨cont, hcont⟩ : ∃ cont, cont = true := ⟨true, rfl⟩
  rw [← hcont]
  induction cont, update using chunkRows.induct generalizing parts with
  | case1 cont => rw [chunkRows_nil, readFrom, if_neg h, List.append_nil]
  | case2 cont update hne ih =>
    have hopen : parts ++ [update.take chunkBytes] ≠ [] := by simp
    rw [chunkRows_of_ne_nil hne, hcont, readFrom, if_neg (by simp), ih hopen rfl]
    simp

attribute [local simp] readUpdateRows in
theorem readUpdateRows_chunkRows (h : update ≠ []) :
    readUpdateRows (chunkRows false update) = [update] := by
  rw [readUpdateRows, chunkRows_of_ne_nil h, readFrom, if_neg (by simp), List.nil_append,
    readFrom_chunkRows (List.cons_ne_nil _ _)]
  simp

theorem readFrom_append (h : ∀ row ∈ rows.head?, row.cont = false) :
    readFrom parts (log ++ rows) = readFrom parts log ++ readUpdateRows rows := by
  induction log generalizing parts with
  | nil =>
    cases rows with
    | nil => simp [readUpdateRows, readFrom]
    | cons row rows =>
      have hrow : row.cont = false := h row (by simp)
      by_cases hparts : parts = [] <;> simp [readUpdateRows, readFrom, hrow, hparts]
  | cons row log ih =>
    rw [List.cons_append, readFrom, readFrom]
    split_ifs with hrow
    · rw [ih, List.cons_append]
    · exact ih

theorem readUpdateRows_appendUpdateRow (log : List UpdateRow) (update : List UInt8) :
    readUpdateRows (appendUpdateRow log update) =
      readUpdateRows log ++ [update].filter (· ≠ []) := by
  have hhead : ∀ row ∈ (chunkRows false update).head?, row.cont = false := by
    by_cases h : update = []
    · simp [h, chunkRows_nil]
    · simp [chunkRows_of_ne_nil h]
  rw [appendUpdateRow, readUpdateRows, readFrom_append hhead, ← readUpdateRows]
  by_cases h : update = []
  · simp [h, chunkRows_nil, readUpdateRows, readFrom]
  · simp [readUpdateRows_chunkRows h, h]

end

/-- **The updates are kept.** Whatever the log holds, the appended updates that are not empty are
read back behind its own, and no row that is added is above the cap. -/
theorem updates_kept (log : List UpdateRow) (updates : List (List UInt8)) :
    readUpdateRows (updates.foldl appendUpdateRow log) =
        readUpdateRows log ++ updates.filter (· ≠ []) ∧
      ∀ row ∈ updates.foldl appendUpdateRow log, row ∈ log ∨ row.bytes.length ≤ valueCap := by
  induction updates generalizing log with
  | nil => exact ⟨by simp, fun row hrow => Or.inl hrow⟩
  | cons update updates ih =>
    obtain ⟨hread, hcap⟩ := ih (appendUpdateRow log update)
    refine ⟨?_, fun row hrow => ?_⟩
    · rw [List.foldl_cons, hread, readUpdateRows_appendUpdateRow, List.append_assoc,
        ← List.filter_append, List.singleton_append]
    · rcases hcap row hrow with hmem | hle
      · rcases List.mem_append.mp hmem with hmem | hmem
        · exact Or.inl hmem
        · exact Or.inr (length_le_of_mem_chunkRows hmem)
      · exact Or.inr hle

/-- An empty update leaves no row. -/
theorem empty_dropped :
    readUpdateRows ([[]].foldl appendUpdateRow []) ≠ readUpdateRows [] ++ [[]] := by
  simp [appendUpdateRow, chunkRows_nil, readUpdateRows, readFrom]

end Zeron.Edge
