import Zeron.Lib.Cut
import Zeron.Lib.Lossy
import Zeron.Lib.Split
import Zeron.Session.Queue

/-!
# Git's status

The output of `git status --porcelain -z` and its two readers, `git_status::parse` and the loop of
`capture_diff_against` (`engine/src/diff_sync.rs`). Paths are compared as Rust compares strings.

* `StatusRecord`, `render`: the records git prints;
* `parse`: the files of the records; `untrackedPaths`: the untracked ones;
* `parseLoop_fields`, `parseLoop_complete`: the loop takes one record at a time;
* `mem_mergeAll`: what sorting and merging leave;
* **`statusReaders`**: both readers on what git prints.
-/

namespace Zeron.Diff

open Zeron.Session (isWhitespace)

/-! ## States of a file -/

inductive GitFileState where
  | unchanged
  | added
  | modified
  | deleted
  | renamed
  | copied
  | unmerged
  | untracked
  | typeChanged
  deriving DecidableEq

structure GitFileStatus where
  path : List Char
  oldPath : Option (List Char)
  index : GitFileState
  worktree : GitFileState
  deriving DecidableEq

/-- A byte literal. -/
def ascii (c : Char) : UInt8 := UInt8.ofNat c.toNat

def state (code : UInt8) : Option GitFileState :=
  if code = ascii ' ' then some .unchanged
  else if code = ascii 'A' then some .added
  else if code = ascii 'M' then some .modified
  else if code = ascii 'D' then some .deleted
  else if code = ascii 'R' then some .renamed
  else if code = ascii 'C' then some .copied
  else if code = ascii 'U' then some .unmerged
  else if code = ascii '?' then some .untracked
  else if code = ascii 'T' then some .typeChanged
  else none

/-- The letter git prints. -/
def GitFileState.letter : GitFileState → Char
  | .unchanged => ' '
  | .added => 'A'
  | .modified => 'M'
  | .deleted => 'D'
  | .renamed => 'R'
  | .copied => 'C'
  | .unmerged => 'U'
  | .untracked => '?'
  | .typeChanged => 'T'

def GitFileState.code (s : GitFileState) : UInt8 := ascii s.letter

theorem state_eq_some {code : UInt8} {s : GitFileState} : state code = some s ↔ code = s.code := by
  constructor
  · intro h
    unfold state at h
    split_ifs at h <;> obtain rfl := Option.some.inj h <;> assumption
  · rintro rfl
    cases s <;> decide

/-- Whether a code comes with an origin. -/
def isRename (code : UInt8) : Bool := code = ascii 'R' || code = ascii 'C'

/-! ## The parser -/

/-- A record that is no status line. -/
def badRecord (record : List UInt8) : Bool := record.length < 4 || record[2]? ≠ some (ascii ' ')

/-- The origin of a record. -/
def readOld (old : Option (List UInt8)) (renamed : Bool) : Option (Option (List Char)) :=
  match old with
  | some bytes => do
    let path ← fromUtf8 bytes
    if path = [] then none else return some path
  | none => if renamed then none else some none

/-- The file of a record. -/
def readRecord (record : List UInt8) (old : Option (List UInt8)) (renamed : Bool) :
    Option GitFileStatus := do
  let index ← record[0]?.bind state
  let worktree ← record[1]?.bind state
  let path ← fromUtf8 (record.drop 3)
  let oldPath ← readOld old renamed
  return { path, oldPath, index, worktree }

/-- The loop of `parse`: the files, and whether the output was complete. -/
def parseLoop (complete : Bool) : List (List UInt8) → List GitFileStatus × Bool
  | [] => ([], complete)
  | record :: records =>
    if record = [] ∧ records = [] then ([], complete)
    else if badRecord record then ([], false)
    else
      let renamed := (record.take 2).any isRename
      let old := if renamed then records.head? else none
      let rest := if renamed then records.tail else records
      match readRecord record old renamed with
      | some file => (file :: (parseLoop complete rest).1, (parseLoop complete rest).2)
      | none => parseLoop false rest
  termination_by records => records.length
  decreasing_by all_goals simp only [List.length_cons]; split_ifs <;> simp

/-- `file` joined to the one before it. -/
def mergeFile (previous file : GitFileStatus) : GitFileStatus :=
  { previous with
    index :=
      if file.index = .unchanged ∨ file.index = .untracked then previous.index else file.index
    worktree := if file.worktree = .unchanged then previous.worktree else file.worktree
    oldPath := previous.oldPath <|> file.oldPath }

/-- The files merged so far, from the newest, and the next one. -/
def mergeInto (merged : List GitFileStatus) (file : GitFileStatus) : List GitFileStatus :=
  match merged with
  | [] => [file]
  | previous :: merged =>
    if previous.path = file.path then mergeFile previous file :: merged
    else file :: previous :: merged

def mergeAll (files : List GitFileStatus) : List GitFileStatus :=
  ((files.mergeSort fun a b => a.path ≤ b.path).foldl mergeInto []).reverse

def parse (bytes : List UInt8) (truncated : Bool) : List GitFileStatus × Bool :=
  let complete := !truncated && (bytes = [] || bytes.getLast? = some 0)
  let (files, complete) := parseLoop complete (bytes.splitOn 0)
  (mergeAll files, complete)

/-! ## The untracked files of a diff -/

def splitZ (value : List UInt8) : List (List Char) :=
  ((value.splitOn 0).filter (· ≠ [])).map fromUtf8Lossy

/-- The status loop of `capture_diff_against`; `skip` if the next field is an origin. A slice
inside a character is a panic. -/
def statusLoop (skip : Bool) : List (List Char) → Option (List (List Char))
  | [] => some []
  | record :: records =>
    if skip then statusLoop false records
    else if Cut.size record < 3 then statusLoop false records
    else
      match Cut.splitAtByte record 2 with
      | none => none
      | some (code, path) => do
        let paths ← statusLoop (code.head? = some 'R' || code.head? = some 'C') records
        return if code = ['?', '?'] then path.dropWhile isWhitespace :: paths else paths

def untrackedPaths (status : List UInt8) : Option (List (List Char)) :=
  (statusLoop false (splitZ status)).map (·.mergeSort)

/-! ## What git prints -/

def GitFileState.isRename (s : GitFileState) : Bool := s = .renamed || s = .copied

/-- A record; a renamed or copied file comes with its origin. -/
@[ext] structure StatusRecord where
  index : GitFileState
  worktree : GitFileState
  path : List UInt8
  origin : Option (List UInt8)
  path_ne : path ≠ []
  path_nul : 0 ∉ path
  origin_ne : ∀ o ∈ origin, o ≠ []
  origin_nul : ∀ o ∈ origin, 0 ∉ o
  origin_isSome : origin.isSome = (index.isRename || worktree.isRename)

def StatusRecord.head (r : StatusRecord) : List UInt8 :=
  r.index.code :: r.worktree.code :: ascii ' ' :: r.path

def StatusRecord.fields (r : StatusRecord) : List (List UInt8) := r.head :: r.origin.toList

/-- The output with `-z`. -/
def render (rs : List StatusRecord) : List UInt8 :=
  (rs.flatMap (·.fields)).flatMap fun field => field ++ [0]

/-- Whether the paths are texts. -/
def StatusRecord.valid (r : StatusRecord) : Bool :=
  (fromUtf8 r.path).isSome && r.origin.all fun o => (fromUtf8 o).isSome

def StatusRecord.untracked (r : StatusRecord) : Bool :=
  r.index = .untracked && r.worktree = .untracked

/-- The file of a record, as it should be read. -/
def StatusRecord.entry (r : StatusRecord) : GitFileStatus where
  path := fromUtf8Lossy r.path
  oldPath := r.origin.map fromUtf8Lossy
  index := r.index
  worktree := r.worktree

/-- The files of one path joined in their order. -/
def combine (path : List Char) (files : List GitFileStatus) : Option GitFileStatus :=
  (files.filter (·.path = path)).foldl
    (fun previous file => some (previous.elim file (mergeFile · file))) none

/-! ## The parts of the output -/

theorem parseLoop_cons (complete : Bool) (record : List UInt8) (records : List (List UInt8)) :
    parseLoop complete (record :: records) =
      if record = [] ∧ records = [] then ([], complete)
      else if badRecord record then ([], false)
      else
        let renamed := (record.take 2).any isRename
        let old := if renamed then records.head? else none
        let rest := if renamed then records.tail else records
        (readRecord record old renamed).elim (parseLoop false rest) fun file =>
          (file :: (parseLoop complete rest).1, (parseLoop complete rest).2) := by
  rw [parseLoop]
  dsimp only
  refine if_congr Iff.rfl rfl (if_congr Iff.rfl rfl ?_)
  cases readRecord record (if (record.take 2).any isRename then records.head? else none)
    ((record.take 2).any isRename) <;> rfl

section Fields

variable (r : StatusRecord)

theorem code_ne (s : GitFileState) : s.code ≠ 0 := by cases s <;> decide

theorem code_inj {s t : GitFileState} : s.code = t.code ↔ s = t := by
  rw [← state_eq_some, state_eq_some.mpr rfl, Option.some_inj]

theorem fields_nul : ∀ field ∈ r.fields, 0 ∉ field := by
  have horigin := r.origin_nul
  have hspace : ascii ' ' ≠ 0 := by decide
  intro field hfield
  rcases List.mem_cons.mp hfield with rfl | hfield
  · simp [StatusRecord.head, r.path_nul, (code_ne _).symm, hspace.symm]
  · exact horigin field (Option.mem_toList.mp hfield)

theorem fields_ne : ∀ field ∈ r.fields, field ≠ [] := by
  intro field hfield
  rcases List.mem_cons.mp hfield with rfl | hfield
  · simp [StatusRecord.head]
  · exact r.origin_ne field (Option.mem_toList.mp hfield)

theorem isRename_code (s : GitFileState) : isRename s.code = s.isRename := by cases s <;> decide

theorem head_good : badRecord r.head = false := by
  have hlen := List.length_pos_iff.mpr r.path_ne
  have hlong : ¬ r.head.length < 4 := by
    simp only [StatusRecord.head, List.length_cons]
    omega
  rw [badRecord, decide_eq_false hlong]
  simp [StatusRecord.head]

theorem head_renamed : (r.head.take 2).any isRename = r.origin.isSome := by
  rw [r.origin_isSome, ← isRename_code, ← isRename_code]
  simp [StatusRecord.head]

theorem fromUtf8_ne {bytes : List UInt8} (h : bytes ≠ []) {text : List Char}
    (ht : fromUtf8 bytes = some text) : text ≠ [] := by
  rintro rfl
  exact h (utf8_of_fromUtf8 ht).symm

/-- **A record is read.** -/
theorem readRecord_head :
    readRecord r.head r.origin r.origin.isSome = if r.valid then some r.entry else none := by
  have hindex := state_eq_some.mpr (rfl : r.index.code = r.index.code)
  have hworktree := state_eq_some.mpr (rfl : r.worktree.code = r.worktree.code)
  have hread : readRecord r.head r.origin r.origin.isSome =
      (fromUtf8 r.path).bind fun path => (readOld r.origin r.origin.isSome).bind fun oldPath =>
        some ⟨path, oldPath, r.index, r.worktree⟩ := by
    simp [readRecord, StatusRecord.head, hindex, hworktree]
  rw [hread]
  cases hpath : fromUtf8 r.path with
  | none => simp [StatusRecord.valid, hpath]
  | some path =>
    have hlossy := fromUtf8Lossy_of_fromUtf8 hpath
    cases horigin : r.origin with
    | none => simp [readOld, StatusRecord.valid, StatusRecord.entry, hpath, horigin, hlossy]
    | some origin =>
      cases hold : fromUtf8 origin with
      | none => simp [readOld, StatusRecord.valid, hpath, horigin, hold]
      | some old =>
        have hne := fromUtf8_ne (r.origin_ne origin horigin) hold
        have holdLossy := fromUtf8Lossy_of_fromUtf8 hold
        simp [readOld, StatusRecord.valid, StatusRecord.entry, hpath, horigin, hold, hlossy,
          holdLossy, hne]

theorem parseLoop_record (complete : Bool) (parts : List (List UInt8)) :
    parseLoop complete (r.fields ++ parts) =
      if r.valid then
        (r.entry :: (parseLoop complete parts).1, (parseLoop complete parts).2)
      else parseLoop false parts := by
  have hne : ¬ (r.head = [] ∧ r.origin.toList ++ parts = []) := fun h =>
    fields_ne r r.head List.mem_cons_self h.1
  have hold : (if r.origin.isSome then (r.origin.toList ++ parts).head? else none) = r.origin := by
    cases r.origin <;> rfl
  have hrest : (if r.origin.isSome then (r.origin.toList ++ parts).tail
      else r.origin.toList ++ parts) = parts := by
    cases r.origin <;> rfl
  have hturn : parseLoop complete (r.fields ++ parts) =
      (readRecord r.head r.origin r.origin.isSome).elim (parseLoop false parts) fun file =>
        (file :: (parseLoop complete parts).1, (parseLoop complete parts).2) := by
    rw [StatusRecord.fields, List.cons_append, parseLoop_cons, if_neg hne, head_good,
      if_neg (by simp)]
    dsimp only
    rw [head_renamed, hold, hrest]
  rw [hturn, readRecord_head]
  split_ifs <;> rfl

end Fields

theorem parseLoop_end (complete : Bool) : parseLoop complete [[]] = ([], complete) := by
  rw [parseLoop, if_pos ⟨rfl, rfl⟩]

/-- **The loop on the records.** -/
theorem parseLoop_fields (rs : List StatusRecord) (complete : Bool) :
    parseLoop complete (rs.flatMap (·.fields) ++ [[]]) =
      ((rs.filter (·.valid)).map (·.entry), complete && rs.all (·.valid)) := by
  induction rs generalizing complete with
  | nil => simp [parseLoop_end]
  | cons r rs ih =>
    rw [List.flatMap_cons, List.append_assoc, parseLoop_record, ih, ih]
    cases hvalid : r.valid <;> simp [hvalid]

theorem splitOn_render (rs : List StatusRecord) (bytes : List UInt8) :
    (render rs ++ bytes).splitOn 0 = rs.flatMap (·.fields) ++ bytes.splitOn 0 := by
  refine splitOn_ended 0 (fun field hfield => ?_) bytes
  obtain ⟨r, -, hr⟩ := List.mem_flatMap.mp hfield
  exact fields_nul r field hr

theorem parts_render (rs : List StatusRecord) :
    (render rs).splitOn 0 = rs.flatMap (·.fields) ++ [[]] := by
  have h := splitOn_render rs []
  rwa [List.append_nil] at h

/-! ## The output that counts as complete -/

theorem render_cons (r : StatusRecord) (rs : List StatusRecord) :
    render (r :: rs) = (r.fields.flatMap fun field => field ++ [0]) ++ render rs := by
  rw [render, List.flatMap_cons, List.flatMap_append]
  rfl

theorem record_shape {record : List UInt8} (h : badRecord record = false) :
    ∃ x y path, record = x :: y :: ascii ' ' :: path ∧ path ≠ [] := by
  simp only [badRecord, Bool.or_eq_false_iff, decide_eq_false_iff_not, not_not] at h
  obtain ⟨hlen, hspace⟩ := h
  rcases record with _ | ⟨x, _ | ⟨y, _ | ⟨b, path⟩⟩⟩
  · simp at hlen
  · simp at hlen
  · simp at hlen
  · obtain rfl : b = ascii ' ' := by simpa using hspace
    refine ⟨x, y, path, rfl, ?_⟩
    rintro rfl
    simp at hlen

/-- **What is read is a record.** -/
theorem exists_record {record : List UInt8} {old : Option (List UInt8)} {file : GitFileStatus}
    (hnul : 0 ∉ record) (holdNul : ∀ o ∈ old, 0 ∉ o) (hbad : badRecord record = false)
    (hold : old.isSome → (record.take 2).any isRename = true)
    (h : readRecord record old ((record.take 2).any isRename) = some file) :
    ∃ r : StatusRecord, r.fields = record :: old.toList := by
  obtain ⟨x, y, path, rfl, hne⟩ := record_shape hbad
  have hpathNul : 0 ∉ path := fun hmem => hnul (by simp [hmem])
  cases hx : state x with
  | none => simp [readRecord, hx] at h
  | some index =>
    cases hy : state y with
    | none => simp [readRecord, hx, hy] at h
    | some worktree =>
      obtain rfl := state_eq_some.mp hx
      obtain rfl := state_eq_some.mp hy
      cases old with
      | none =>
        have hplain : (index.isRename || worktree.isRename) = false := by
          rw [← isRename_code, ← isRename_code]
          by_contra hc
          rw [Bool.not_eq_false] at hc
          simp [readRecord, readOld, hx, hy, hc] at h
        exact ⟨⟨index, worktree, path, none, hne, hpathNul, by simp, by simp, hplain.symm⟩, rfl⟩
      | some o =>
        have hrenamed : (index.isRename || worktree.isRename) = true := by
          rw [← isRename_code, ← isRename_code]
          simpa using hold rfl
        have ho : o ≠ [] := by
          rintro rfl
          have hnil : fromUtf8 [] = some [] := fromUtf8_utf8 []
          simp [readRecord, readOld, hx, hy, hnil] at h
        refine ⟨⟨index, worktree, path, some o, hne, hpathNul, ?_, ?_, hrenamed.symm⟩, rfl⟩
        · simpa using ho
        · simpa using holdNul

theorem rest_length {n : ℕ} (renamed : Bool) {record : List UInt8} {records : List (List UInt8)}
    (h : (record :: records).length ≤ n + 1) :
    (if renamed then records.tail else records).length ≤ n := by
  rw [List.length_cons] at h
  split_ifs
  · rw [List.length_tail]
    omega
  · omega

theorem old_append_rest (renamed : Bool) (records : List (List UInt8)) :
    (if renamed then records.head? else none).toList ++
      (if renamed then records.tail else records) = records := by
  cases renamed
  · rfl
  · cases records <;> rfl

theorem parseLoop_incomplete (n : ℕ) {parts : List (List UInt8)} (hn : parts.length ≤ n) :
    (parseLoop false parts).2 = false := by
  induction n generalizing parts with
  | zero => rw [List.length_eq_zero_iff.mp (Nat.le_zero.mp hn), parseLoop]
  | succ n ih =>
    cases parts with
    | nil => rw [parseLoop]
    | cons record records =>
      have hrest := ih (rest_length ((record.take 2).any isRename) hn)
      rw [parseLoop_cons]
      by_cases hend : record = [] ∧ records = []
      · rw [if_pos hend]
      · by_cases hbad : badRecord record = true
        · rw [if_neg hend, if_pos hbad]
        · rw [if_neg hend, if_neg hbad]
          dsimp only
          cases readRecord record (if (record.take 2).any isRename then records.head? else none)
            ((record.take 2).any isRename) with
          | none => exact hrest
          | some file => exact hrest

/-- **Only records count as complete.** -/
theorem parseLoop_complete (n : ℕ) {complete : Bool} {parts : List (List UInt8)}
    (hn : parts.length ≤ n) (hnul : ∀ part ∈ parts, 0 ∉ part) (hlast : parts.getLast? = some [])
    (h : (parseLoop complete parts).2 = true) :
    complete = true ∧ ∃ rs : List StatusRecord, parts = rs.flatMap (·.fields) ++ [[]] := by
  induction n generalizing parts with
  | zero =>
    rw [List.length_eq_zero_iff.mp (Nat.le_zero.mp hn)] at hlast
    simp at hlast
  | succ n ih =>
    cases parts with
    | nil => simp at hlast
    | cons record records =>
      have hlen := rest_length ((record.take 2).any isRename) hn
      rw [parseLoop_cons] at h
      by_cases hend : record = [] ∧ records = []
      · rw [if_pos hend] at h
        exact ⟨h, [], by simp [hend.1, hend.2]⟩
      · by_cases hbad : badRecord record = true
        · simp [if_neg hend, hbad] at h
        · rw [if_neg hend, if_neg hbad] at h
          dsimp only at h
          generalize hold : (if (record.take 2).any isRename then records.head? else none) = old
            at h
          generalize hrest : (if (record.take 2).any isRename then records.tail else records) = rest
            at h hlen
          have hsplit : old.toList ++ rest = records := by
            rw [← hold, ← hrest, old_append_rest]
          cases hread : readRecord record old ((record.take 2).any isRename) with
          | none =>
            rw [hread] at h
            exact absurd (h.symm.trans (parseLoop_incomplete n hlen)) (by simp)
          | some file =>
            have holdNul : ∀ o ∈ old, 0 ∉ o := fun o ho =>
              hnul o (by simp [← hsplit, Option.mem_toList.mpr ho])
            have hrenamed : old.isSome → (record.take 2).any isRename = true := fun hsome => by
              by_contra hc
              rw [← hold, if_neg hc] at hsome
              simp at hsome
            obtain ⟨r, hr⟩ := exists_record (hnul _ List.mem_cons_self) holdNul
              (by simpa using hbad) hrenamed hread
            have hparts : record :: records = r.fields ++ rest := by
              rw [hr, List.cons_append, hsplit]
            have hrestLast : rest.getLast? = some [] := by
              rw [hparts] at hlast
              cases hempty : rest with
              | nil =>
                rw [hempty, List.append_nil] at hlast
                exact absurd rfl (fields_ne r [] (List.mem_of_getLast? hlast))
              | cons part rest' =>
                rwa [hempty, List.getLast?_append_of_ne_nil _ (by simp)] at hlast
            rw [hread] at h
            have hrestNul : ∀ part ∈ rest, 0 ∉ part := fun part hpart =>
              hnul part (by simp [← hsplit, hpart])
            obtain ⟨hcomplete, rs, hrs⟩ := ih hlen hrestNul hrestLast h
            exact ⟨hcomplete, r :: rs, by rw [hparts, hrs, List.flatMap_cons, List.append_assoc]⟩

theorem fields_inj {rs' rs : List StatusRecord} {more : List (List UInt8)}
    (h : rs'.flatMap (·.fields) ++ more = rs.flatMap (·.fields) ++ [[]]) :
    ∃ k, rs' = rs.take k := by
  induction rs' generalizing rs with
  | nil => exact ⟨0, rfl⟩
  | cons r' rs' ih =>
    cases rs with
    | nil =>
      have hhead := congrArg List.head? h
      simp [StatusRecord.fields, StatusRecord.head] at hhead
    | cons r rs =>
      rw [List.flatMap_cons, List.flatMap_cons, List.append_assoc, List.append_assoc,
        StatusRecord.fields, StatusRecord.fields, List.cons_append, List.cons_append,
        List.cons.injEq] at h
      obtain ⟨hhead, htail⟩ := h
      simp only [StatusRecord.head, List.cons.injEq, code_inj, true_and] at hhead
      obtain ⟨hindex, hworktree, hpath⟩ := hhead
      have hsome : r'.origin.isSome = r.origin.isSome := by
        rw [r'.origin_isSome, r.origin_isSome, hindex, hworktree]
      obtain ⟨horigin, hrest⟩ : r'.origin = r.origin ∧
          rs'.flatMap (·.fields) ++ more = rs.flatMap (·.fields) ++ [[]] := by
        cases h' : r'.origin <;> cases h : r.origin <;> rw [h', h] at hsome htail <;>
          simp at hsome
        · exact ⟨rfl, htail⟩
        · simpa using htail
      obtain ⟨k, hk⟩ := ih hrest
      have hr : r' = r := StatusRecord.ext hindex hworktree hpath horigin
      exact ⟨k + 1, by rw [List.take_succ_cons, hk, hr]⟩

/-- **A cut output.** What counts as complete is cut between two records. -/
theorem parse_cut (rs : List StatusRecord) (n : ℕ) (truncated : Bool)
    (h : (parse ((render rs).take n) truncated).2 = true) :
    truncated = false ∧ ∃ k, (render rs).take n = render (rs.take k) := by
  obtain ⟨bytes, hbytes⟩ : ∃ bytes, (render rs).take n = bytes := ⟨_, rfl⟩
  rw [hbytes] at h ⊢
  have hloop : (parseLoop (!truncated && (bytes = [] || bytes.getLast? = some 0))
      (bytes.splitOn 0)).2 = true := h
  cases hcomplete : (!truncated && (bytes = [] || bytes.getLast? = some 0)) with
  | false =>
    rw [hcomplete, parseLoop_incomplete _ le_rfl] at hloop
    simp at hloop
  | true =>
    simp only [Bool.and_eq_true, Bool.not_eq_true', Bool.or_eq_true, decide_eq_true_eq] at hcomplete
    rw [hcomplete.1] at hloop
    have hlast := (splitOn_getLast? 0 bytes).mpr hcomplete.2
    obtain ⟨-, rs', hparts⟩ := parseLoop_complete _ le_rfl (not_mem_of_mem_splitOn 0 bytes) hlast
      hloop
    have hrender : render rs' = bytes := by
      have hjoin : [0].intercalate ((render rs').splitOn 0) = render rs' :=
        List.intercalate_splitOn 0
      rw [← hjoin, parts_render, ← hparts, List.intercalate_splitOn]
    have hsplit : render rs' ++ (render rs).drop n = render rs := by
      rw [hrender, ← hbytes, List.take_append_drop]
    have hfields := splitOn_render rs' ((render rs).drop n)
    rw [hsplit, parts_render] at hfields
    obtain ⟨k, hk⟩ := fields_inj hfields.symm
    exact ⟨hcomplete.1, k, by rw [← hk, hrender]⟩

/-! ## The files of one path -/

section Merge

variable {files merged : List GitFileStatus} {file previous : GitFileStatus}

theorem combine_nil (path : List Char) : combine path [] = none := rfl

theorem combine_append (path : List Char) (files : List GitFileStatus) (file : GitFileStatus) :
    combine path (files ++ [file]) =
      if file.path = path then some ((combine path files).elim file (mergeFile · file))
      else combine path files := by
  rw [combine, List.filter_append, List.foldl_append]
  by_cases h : file.path = path <;> simp [h, combine]

theorem combine_path {path : List Char} (h : combine path files = some file) :
    file.path = path := by
  induction files using List.reverseRecOn generalizing file with
  | nil => simp [combine_nil] at h
  | append_singleton files next ih =>
    rw [combine_append] at h
    split_ifs at h with hpath
    · obtain rfl := Option.some.inj h
      cases hc : combine path files with
      | none => exact hpath
      | some previous =>
        show previous.path = path
        exact ih hc
    · exact ih h

/-- The files merged so far, from the newest. -/
structure Merged (done merged : List GitFileStatus) : Prop where
  sorted : merged.Pairwise fun a b => b.path < a.path
  last : merged.head?.map (·.path) = done.getLast?.map (·.path)
  mem : ∀ f, f ∈ merged ↔ combine f.path done = some f

theorem merged_same {done : List GitFileStatus} (h : Merged done (previous :: merged))
    (hsame : previous.path = file.path) :
    Merged (done ++ [file]) (mergeFile previous file :: merged) := by
  obtain ⟨hsorted, -, hmem⟩ := h
  rw [List.pairwise_cons] at hsorted
  have hprevious : combine file.path done = some previous :=
    hsame ▸ (hmem previous).mp List.mem_cons_self
  refine ⟨List.pairwise_cons.mpr hsorted, by simp [mergeFile, hsame], fun f => ?_⟩
  rw [combine_append, List.mem_cons]
  by_cases hpath : file.path = f.path
  · have hf : f ∉ merged := fun hf =>
      (hsorted.1 f hf).ne (hpath.symm.trans hsame.symm)
    rw [if_pos hpath, ← hpath, hprevious, Option.some_inj, or_iff_left hf]
    exact eq_comm
  · have hold : f ∈ merged ↔ combine f.path done = some f := by
      rw [← hmem, List.mem_cons, or_iff_right]
      rintro rfl
      exact hpath hsame.symm
    rw [if_neg hpath, ← hold, or_iff_right]
    rintro rfl
    exact hpath hsame.symm

theorem merged_new {done : List GitFileStatus} (h : Merged done merged)
    (hlt : ∀ g ∈ merged, g.path < file.path) : Merged (done ++ [file]) (file :: merged) := by
  obtain ⟨hsorted, -, hmem⟩ := h
  refine ⟨List.pairwise_cons.mpr ⟨hlt, hsorted⟩, by simp, fun f => ?_⟩
  rw [combine_append, List.mem_cons]
  by_cases hpath : file.path = f.path
  · have hnone : combine file.path done = none := by
      cases hc : combine file.path done with
      | none => rfl
      | some g =>
        have hg : g.path = file.path := combine_path hc
        exact absurd hg (hlt g ((hmem g).mpr (hg ▸ hc))).ne
    have hf : f ∉ merged := fun hf => (hlt f hf).ne hpath.symm
    rw [if_pos hpath, ← hpath, hnone, or_iff_left hf]
    simp [eq_comm]
  · rw [if_neg hpath, ← hmem, or_iff_right]
    rintro rfl
    exact hpath rfl

/-- **The next file in the order of paths.** -/
theorem merged_step {done : List GitFileStatus} (h : Merged done merged)
    (hle : ∀ g ∈ done, g.path ≤ file.path) : Merged (done ++ [file]) (mergeInto merged file) := by
  cases merged with
  | nil => exact merged_new h (by simp)
  | cons previous merged =>
    rw [mergeInto]
    by_cases hsame : previous.path = file.path
    · rw [if_pos hsame]
      exact merged_same h hsame
    · rw [if_neg hsame]
      obtain ⟨g, hg, hpath⟩ : ∃ g, done.getLast? = some g ∧ g.path = previous.path := by
        have hlast := h.last
        simpa [eq_comm] using hlast
      have hlt : previous.path < file.path :=
        lt_of_le_of_ne (hpath ▸ hle g (List.mem_of_getLast? hg)) hsame
      refine merged_new h fun f hf => ?_
      rcases List.mem_cons.mp hf with rfl | hf
      · exact hlt
      · exact ((List.pairwise_cons.mp h.sorted).1 f hf).trans hlt

theorem merged_foldl (hsorted : files.Pairwise fun a b => a.path ≤ b.path) :
    Merged files (files.foldl mergeInto []) := by
  induction files using List.reverseRecOn with
  | nil => exact ⟨List.Pairwise.nil, rfl, by simp [combine_nil]⟩
  | append_singleton files file ih =>
    rw [List.pairwise_append] at hsorted
    rw [List.foldl_append]
    exact merged_step (ih hsorted.1) fun g hg => hsorted.2.2 g hg file (by simp)

theorem sorted_sort (files : List GitFileStatus) :
    (files.mergeSort fun a b => a.path ≤ b.path).Pairwise fun a b => a.path ≤ b.path := by
  have h := @List.pairwise_mergeSort _ (fun a b : GitFileStatus => decide (a.path ≤ b.path))
    (fun a b c hab hbc => by
      simp only [decide_eq_true_eq] at hab hbc ⊢
      exact hab.trans hbc)
    (fun a b => by simpa using le_total a.path b.path) files
  simpa using h

theorem combine_sort (path : List Char) (files : List GitFileStatus) :
    combine path (files.mergeSort fun a b => a.path ≤ b.path) = combine path files := by
  have hperm := List.mergeSort_perm files fun a b => decide (a.path ≤ b.path)
  have hsub : (files.filter (·.path = path)).Sublist
      (files.mergeSort fun a b => decide (a.path ≤ b.path)) := by
    refine List.sublist_mergeSort (fun a b c hab hbc => ?_) (fun a b => ?_) ?_ List.filter_sublist
    · simp only [decide_eq_true_eq] at hab hbc ⊢
      exact hab.trans hbc
    · simpa using le_total a.path b.path
    · refine List.pairwise_of_forall_mem_list fun a ha b hb => ?_
      simp only [List.mem_filter, decide_eq_true_eq] at ha hb
      simp [ha.2, hb.2]
  have hfilter := hsub.filter fun f => decide (f.path = path)
  rw [List.filter_filter] at hfilter
  simp only [Bool.and_self] at hfilter
  have he : files.filter (·.path = path) =
      (files.mergeSort fun a b => decide (a.path ≤ b.path)).filter (·.path = path) :=
    hfilter.eq_of_length (hperm.symm.filter _).length_eq
  rw [combine, combine, he]

theorem mergeAll_sorted (files : List GitFileStatus) :
    (mergeAll files).Pairwise fun a b => a.path < b.path := by
  rw [mergeAll, List.pairwise_reverse]
  exact (merged_foldl (sorted_sort files)).sorted

/-- **What is merged.** -/
theorem mem_mergeAll (files : List GitFileStatus) (f : GitFileStatus) :
    f ∈ mergeAll files ↔ combine f.path files = some f := by
  rw [mergeAll, List.mem_reverse, (merged_foldl (sorted_sort files)).mem, combine_sort]

end Merge

/-! ## The loop over the untracked files -/

theorem letter_ascii (s : GitFileState) : s.letter.toNat < 128 ∧ s.letter.utf8Size = 1 := by
  cases s <;> decide

theorem letter_rename (s : GitFileState) : (s.letter = 'R' || s.letter = 'C') = s.isRename := by
  cases s <;> decide

theorem letter_untracked (s : GitFileState) : s.letter = '?' ↔ s = .untracked := by
  cases s <;> decide

theorem lossy_head (r : StatusRecord) : fromUtf8Lossy r.head =
    [r.index.letter, r.worktree.letter] ++ ' ' :: fromUtf8Lossy r.path := by
  have hspace : ' '.toNat < 128 := by decide
  unfold StatusRecord.head GitFileState.code ascii
  rw [fromUtf8Lossy_ascii (letter_ascii _).1, fromUtf8Lossy_ascii (letter_ascii _).1,
    fromUtf8Lossy_ascii hspace]
  rfl

theorem splitZ_render (rs : List StatusRecord) :
    splitZ (render rs) = (rs.flatMap (·.fields)).map fromUtf8Lossy := by
  rw [splitZ, parts_render, List.filter_append, List.filter_eq_self.mpr]
  · simp
  · intro field hfield
    obtain ⟨r, -, hr⟩ := List.mem_flatMap.mp hfield
    simpa using fields_ne r field hr

theorem statusLoop_record (r : StatusRecord) (records : List (List Char)) :
    statusLoop false (fromUtf8Lossy r.head :: records) =
      (statusLoop r.index.isRename records).map fun paths =>
        if r.untracked then (fromUtf8Lossy r.path).dropWhile isWhitespace :: paths else paths := by
  obtain ⟨-, hindex⟩ := letter_ascii r.index
  obtain ⟨-, hworktree⟩ := letter_ascii r.worktree
  have hsize : ¬ Cut.size (fromUtf8Lossy r.head) < 3 := by
    have hspace : ' '.utf8Size = 1 := by decide
    rw [lossy_head]
    simp only [Cut.size_append, Cut.size_cons, Cut.size_nil, hindex, hworktree, hspace]
    omega
  have hsplit : Cut.splitAtByte (fromUtf8Lossy r.head) 2 =
      some ([r.index.letter, r.worktree.letter], ' ' :: fromUtf8Lossy r.path) := by
    rw [Cut.splitAtByte_eq_some, lossy_head]
    exact ⟨rfl, by simp [hindex, hworktree]⟩
  have hskip : ([r.index.letter, r.worktree.letter].head? = some 'R' ||
      [r.index.letter, r.worktree.letter].head? = some 'C') = r.index.isRename := by
    rw [← letter_rename]
    simp
  have hcode : ([r.index.letter, r.worktree.letter] = ['?', '?']) ↔ r.untracked = true := by
    simp [StatusRecord.untracked, letter_untracked]
  have hblank : (' ' :: fromUtf8Lossy r.path).dropWhile isWhitespace =
      (fromUtf8Lossy r.path).dropWhile isWhitespace :=
    List.dropWhile_cons_of_pos (by decide)
  rw [statusLoop, if_neg (by simp), if_neg hsize, hsplit]
  dsimp only
  rw [hskip, hblank]
  cases statusLoop r.index.isRename records with
  | none => rfl
  | some paths => exact congrArg some (if_congr hcode rfl rfl)

theorem statusLoop_fields (rs : List StatusRecord)
    (hrename : ∀ r ∈ rs, r.worktree.isRename = true → r.index.isRename = true) :
    statusLoop false ((rs.flatMap (·.fields)).map fromUtf8Lossy) =
      some ((rs.filter (·.untracked)).map fun r =>
        (fromUtf8Lossy r.path).dropWhile isWhitespace) := by
  induction rs with
  | nil => rfl
  | cons r rs ih =>
    have hskip : statusLoop r.index.isRename
        (r.origin.toList.map fromUtf8Lossy ++ (rs.flatMap (·.fields)).map fromUtf8Lossy) =
        statusLoop false ((rs.flatMap (·.fields)).map fromUtf8Lossy) := by
      have hsome := r.origin_isSome
      have hworktree := hrename r List.mem_cons_self
      cases horigin : r.origin with
      | none =>
        have hindex : r.index.isRename = false := by
          rw [horigin] at hsome
          simpa using (Bool.or_eq_false_iff.mp hsome.symm).1
        rw [hindex]
        rfl
      | some o =>
        have hindex : r.index.isRename = true := by
          rw [horigin, Option.isSome_some, eq_comm, Bool.or_eq_true] at hsome
          exact hsome.elim id hworktree
        rw [hindex]
        rfl
    rw [List.flatMap_cons, StatusRecord.fields, List.cons_append, List.map_cons, List.map_append,
      statusLoop_record, hskip, ih fun r' hr' => hrename r' (List.mem_cons_of_mem _ hr')]
    cases hr : r.untracked <;> simp [hr]

/-- **The two readers of git's status.** The parser gives the records whose paths are texts, in the
order of their paths and those of one path merged, and never calls a cut output complete; the loop
gives the paths of the untracked records, unless a record has a rename in its second column only,
or a path begins with a blank. -/
theorem statusReaders (rs : List StatusRecord) :
    ((parse (render rs) false).2 = rs.all (·.valid) ∧
      ((parse (render rs) false).1.Pairwise fun a b => a.path < b.path) ∧
      ∀ file, file ∈ (parse (render rs) false).1 ↔
        combine file.path ((rs.filter (·.valid)).map (·.entry)) = some file) ∧
    (∀ n truncated, (parse ((render rs).take n) truncated).2 = true →
      truncated = false ∧ ∃ k, (render rs).take n = render (rs.take k)) ∧
    ((∀ r ∈ rs, r.worktree.isRename = true → r.index.isRename = true) →
      (∀ r ∈ rs, r.untracked = true → ∀ c, (fromUtf8Lossy r.path).head? = some c →
        isWhitespace c = false) →
      untrackedPaths (render rs) =
        some (((rs.filter (·.untracked)).map fun r => fromUtf8Lossy r.path).mergeSort)) := by
  have hcomplete : (render rs = [] || (render rs).getLast? = some 0) = true := by
    have hlast := splitOn_getLast? 0 (render rs)
    rw [parts_render, List.getLast?_concat, eq_self_iff_true, true_iff] at hlast
    simpa using hlast
  have hparse : parse (render rs) false =
      (mergeAll ((rs.filter (·.valid)).map (·.entry)), rs.all (·.valid)) := by
    rw [parse, hcomplete, parts_render, parseLoop_fields]
    rfl
  refine ⟨?_, parse_cut rs, fun hrename hblank => ?_⟩
  · rw [hparse]
    exact ⟨rfl, mergeAll_sorted _, mem_mergeAll _⟩
  · rw [untrackedPaths, splitZ_render, statusLoop_fields rs hrename, Option.map_some]
    have htrim : ((rs.filter (·.untracked)).map fun r =>
        (fromUtf8Lossy r.path).dropWhile isWhitespace) =
          (rs.filter (·.untracked)).map fun r => fromUtf8Lossy r.path := by
      refine List.map_congr_left fun r hr => ?_
      obtain ⟨hmem, huntracked⟩ := List.mem_filter.mp hr
      have hhead := hblank r hmem huntracked
      cases htext : fromUtf8Lossy r.path with
      | nil => rfl
      | cons c text => exact List.dropWhile_cons_of_neg (by simp [hhead c (by simp [htext])])
    rw [htrim]

/-- A record without a rename. -/
def plainRecord (index worktree : GitFileState) (c : Char) (hc : ascii c ≠ 0)
    (h : (index.isRename || worktree.isRename) = false) : StatusRecord where
  index := index
  worktree := worktree
  path := [ascii c]
  origin := none
  path_ne := by simp
  path_nul := by simpa using hc.symm
  origin_ne := by simp
  origin_nul := by simp
  origin_isSome := h.symm

/-- A modified file before an untracked one, as git orders them. -/
def outOfOrder : List StatusRecord :=
  [plainRecord .modified .unchanged 'z' (by decide) rfl,
    plainRecord .untracked .untracked 'a' (by decide) rfl]

theorem plain_path (c : Char) (h : c.toNat < 128) :
    fromUtf8Lossy [ascii c] = [c] ∧ fromUtf8 [ascii c] = some [c] := by
  have hbytes : utf8 [c] = [ascii c] := utf8_ascii (by simpa using h)
  rw [← hbytes]
  exact ⟨fromUtf8Lossy_utf8 _, fromUtf8_utf8 _⟩

/-- The parser does not keep the order. -/
theorem status_sorts : ¬ ∀ rs : List StatusRecord,
    (∀ r ∈ rs, r.valid = true) → parse (render rs) false = (rs.map (·.entry), true) := by
  intro h
  have hz := plain_path 'z' (by decide)
  have ha := plain_path 'a' (by decide)
  have hvalid : ∀ r ∈ outOfOrder, r.valid = true := by
    simp [outOfOrder, plainRecord, StatusRecord.valid, hz, ha]
  have hsorted : (parse (render outOfOrder) false).1.Pairwise fun a b => a.path < b.path :=
    mergeAll_sorted _
  rw [h outOfOrder hvalid] at hsorted
  have hlt : ['z'] < ['a'] := by
    simpa [outOfOrder, plainRecord, StatusRecord.entry, hz, ha] using hsorted
  exact absurd hlt (by decide)

theorem statusReaders_sample :
    (parse (render outOfOrder) false).2 = true ∧
      untrackedPaths (render outOfOrder) = some [['a']] := by
  have hz := plain_path 'z' (by decide)
  have ha := plain_path 'a' (by decide)
  obtain ⟨⟨hcomplete, -⟩, -, huntracked⟩ := statusReaders outOfOrder
  constructor
  · rw [hcomplete]
    simp [outOfOrder, plainRecord, StatusRecord.valid, hz, ha]
  · rw [huntracked]
    · simp [outOfOrder, plainRecord, StatusRecord.untracked, ha]
    · simp [outOfOrder, plainRecord, GitFileState.isRename]
    · simp [outOfOrder, plainRecord, StatusRecord.untracked, ha]
      decide

end Zeron.Diff
