import Zeron.Changes.Bounds

/-!
# Patches of git

A change of a file as git renders it, and what the parser makes of it.

* `FileChange`, `FileChange.render`: a change, and its section of a patch;
* `FileChange.expected`: the file the pane should show;
* `head_good`, `parsed_good`: what the parser keeps of a section;
* `run_section`: the parser takes a section as a whole;
* **`parse_render`**: exactly the patches of recoverable changes are.
-/

namespace Zeron.Changes

open Session (isWhitespace)

/-! ## Changes -/

/-- A text that is printed on one line. -/
structure OneLine where
  text : List Char
  noBreak : '\n' ∉ text

inductive FileMode where
  | regular
  | executable
  | symlink
  | gitlink

def FileMode.digits : FileMode → String
  | .regular => "100644"
  | .executable => "100755"
  | .symlink => "120000"
  | .gitlink => "160000"

def FileMode.text (mode : FileMode) : List Char := mode.digits.toList

def noNewlineText : List Char := "No newline at end of file".toList

/-- A line of a hunk; the only marker is the one of a missing newline. -/
structure BodyLine where
  kind : LineKind
  text : OneLine
  marker_text : kind = .marker → text.text = noNewlineText

structure HunkChange where
  oldStart : ℕ
  newStart : ℕ
  old_lt : oldStart < 2 ^ 32
  new_lt : newStart < 2 ^ 32
  /-- The text git shows behind the numbers. -/
  heading : Option OneLine
  lines : List BodyLine

inductive ChangeKind where
  | modified (modes : Option (FileMode × FileMode))
  | added (mode : FileMode)
  | deleted (mode : FileMode)
  | renamed (old similarity : OneLine) (modes : Option (FileMode × FileMode))

inductive ChangeBody where
  /-- No content changed, or the file is empty. -/
  | same
  | binary
  | text (hunks : List HunkChange)

structure FileChange where
  kind : ChangeKind
  path : OneLine
  /-- The blobs of the index line, if there is one. -/
  index : Option OneLine
  body : ChangeBody

/-! ## The format -/

def lineMark : LineKind → List Char
  | .context => [' ']
  | .add => ['+']
  | .del => ['-']
  | .marker => ['\\', ' ']

def BodyLine.raw (line : BodyLine) : List Char := lineMark line.kind ++ line.text.text

def HunkChange.kinds (h : HunkChange) : List LineKind := h.lines.map (·.kind)

/-- `start,count`; a count of 1 is left out. -/
def range (start count : ℕ) : List Char :=
  Nat.toDigits 10 start ++ if count = 1 then [] else ',' :: Nat.toDigits 10 count

def headingText : Option OneLine → List Char
  | some t => ' ' :: t.text
  | none => []

def HunkChange.header (h : HunkChange) : List Char :=
  "@@ -".toList ++ (range h.oldStart (oldCount h.kinds) ++ (" +".toList ++
    (range h.newStart (newCount h.kinds) ++ (" @@".toList ++ headingText h.heading))))

theorem HunkChange.header_eq (h : HunkChange) : h.header =
    "@@ -".toList ++ (range h.oldStart (oldCount h.kinds) ++ (" +".toList ++
      (range h.newStart (newCount h.kinds) ++ (" @@".toList ++ headingText h.heading)))) := by
  delta HunkChange.header
  rfl

def HunkChange.raws (h : HunkChange) : List (List Char) := h.header :: h.lines.map (·.raw)

def FileChange.oldPath (c : FileChange) : List Char :=
  match c.kind with
  | .renamed old _ _ => old.text
  | _ => c.path.text

def modeLines : Option (FileMode × FileMode) → List (List Char)
  | some (old, new) => ["old mode ".toList ++ old.text, "new mode ".toList ++ new.text]
  | none => []

def ChangeKind.extended (kind : ChangeKind) (path : List Char) : List (List Char) :=
  match kind with
  | .modified modes => modeLines modes
  | .added mode => ["new file mode ".toList ++ mode.text]
  | .deleted mode => ["deleted file mode ".toList ++ mode.text]
  | .renamed old similarity modes =>
    modeLines modes ++ ["similarity index ".toList ++ similarity.text,
      "rename from ".toList ++ old.text, "rename to ".toList ++ path]

/-- A tab ends a name with a blank. -/
def nameTab (name : List Char) : List Char := if ' ' ∈ name then ['\t'] else []

def FileChange.oldLabel (c : FileChange) : List Char :=
  match c.kind with
  | .added _ => "/dev/null".toList
  | _ => "a/".toList ++ c.oldPath

def FileChange.newLabel (c : FileChange) : List Char :=
  match c.kind with
  | .deleted _ => "/dev/null".toList
  | _ => "b/".toList ++ c.path.text

def FileChange.bodyHeaders (c : FileChange) : List (List Char) :=
  match c.body with
  | .same => []
  | .binary => ["Binary files ".toList ++ (c.oldLabel ++ (" and ".toList ++ (c.newLabel ++
      " differ".toList)))]
  | .text _ => ["--- ".toList ++ (c.oldLabel ++ nameTab c.oldLabel),
      "+++ ".toList ++ (c.newLabel ++ nameTab c.newLabel)]

def FileChange.headers (c : FileChange) : List (List Char) :=
  c.kind.extended c.path.text ++ (c.index.toList.map fun t => "index ".toList ++ t.text) ++
    c.bodyHeaders

def FileChange.hunks (c : FileChange) : List HunkChange :=
  match c.body with
  | .text hunks => hunks
  | _ => []

/-- The mark between the two paths. -/
def pathMark : List Char := " b/".toList

/-- The text behind `diff --git `. -/
def gitRest (old new : List Char) : List Char := 'a' :: '/' :: old ++ (pathMark ++ new)

def FileChange.gitLine (c : FileChange) : List Char :=
  "diff --git ".toList ++ gitRest c.oldPath c.path.text

def FileChange.raws (c : FileChange) : List (List Char) :=
  c.gitLine :: (c.headers ++ c.hunks.flatMap (·.raws))

def renderLines (raws : List (List Char)) : List Char := raws.flatMap fun raw => raw ++ ['\n']

/-- The patch of a list of changes. -/
def renderPatch (changes : List FileChange) : List Char :=
  renderLines (changes.flatMap (·.raws))

/-! ## What the pane should show -/

/-- The lines of a hunk with their numbers. -/
def numbered (f : List Char → List Char) (old new : ℕ) : List BodyLine → List DiffLine
  | [] => []
  | line :: lines =>
    { kind := line.kind
      oldNo := if onOld line.kind then some old else none
      newNo := if onNew line.kind then some new else none
      text := f line.text.text } ::
    numbered f (old + (onOld line.kind).toNat) (new + (onNew line.kind).toNat) lines

/-- The hunk, with `f` applied to its texts. -/
def HunkChange.shown (f : List Char → List Char) (h : HunkChange) : Hunk :=
  ⟨f h.header, numbered f h.oldStart h.newStart h.lines⟩

def ChangeKind.status : ChangeKind → FileStatus
  | .modified _ => .modified
  | .added _ => .added
  | .deleted _ => .deleted
  | .renamed _ _ _ => .renamed

def ChangeKind.notices : ChangeKind → List (List Char)
  | .modified (some (_, new)) | .renamed _ _ (some (_, new)) =>
    ["Mode changed to ".toList ++ new.text]
  | _ => []

def FileChange.kinds (c : FileChange) : List LineKind := c.hunks.flatMap (·.kinds)

/-- The largest number of the lines. -/
def maxNumber (lines : List DiffLine) : ℕ := (lines.flatMap (·.numbers)).foldl max 0

/-- The file of the change. -/
def FileChange.expected (c : FileChange) : FileDiff where
  path := c.path.text
  oldPath := match c.kind with
    | .renamed old _ _ => some old.text
    | _ => none
  status := c.kind.status
  binary := match c.body with
    | .binary => true
    | _ => false
  notices := c.kind.notices
  hunks := c.hunks.map (·.shown id)
  additions := c.kinds.count .add
  deletions := c.kinds.count .del
  maxLine := maxNumber (c.hunks.flatMap fun h => (h.shown id).lines)

/-! ## Lines of a rendered patch -/

theorem linesFrom_append {l : List Char} (h : '\n' ∉ l) (start rest : List Char) :
    linesFrom start (l ++ '\n' :: rest) = stripCr (start ++ l) :: linesFrom [] rest := by
  induction l generalizing start with
  | nil => simp [linesFrom]
  | cons c l ih =>
    rw [List.mem_cons, not_or] at h
    rw [List.cons_append, linesFrom, if_neg (Ne.symm h.1), ih h.2, List.append_assoc]
    rfl

theorem textLines_render {raws : List (List Char)} (h : ∀ raw ∈ raws, '\n' ∉ raw) :
    textLines (renderLines raws) = raws.map stripCr := by
  induction raws with
  | nil => rfl
  | cons raw raws ih =>
    have hrest := ih fun r hr => h r (List.mem_cons_of_mem _ hr)
    rw [textLines] at hrest ⊢
    rw [show renderLines (raw :: raws) = raw ++ '\n' :: renderLines raws by simp [renderLines],
      linesFrom_append (h raw List.mem_cons_self), hrest]
    rfl

theorem not_mem_digits (n : ℕ) : '\n' ∉ Nat.toDigits 10 n := fun h => by
  have := Nat.isDigit_of_mem_toDigits (by omega) (by omega) h
  simp at this

theorem not_mem_range (start count : ℕ) : '\n' ∉ range start count := by
  unfold range
  split_ifs <;> simp [not_mem_digits]

theorem not_mem_heading (heading : Option OneLine) : '\n' ∉ headingText heading := by
  cases heading with
  | none => simp [headingText]
  | some t => simp [headingText, t.noBreak]

theorem FileMode.noBreak (mode : FileMode) : '\n' ∉ mode.text := by
  cases mode <;> simp [FileMode.text, FileMode.digits]

theorem not_mem_nameTab (name : List Char) : '\n' ∉ nameTab name := by
  unfold nameTab
  split_ifs <;> simp

theorem FileChange.oldPath_noBreak (c : FileChange) : '\n' ∉ c.oldPath := by
  unfold FileChange.oldPath
  split
  · exact OneLine.noBreak _
  · exact c.path.noBreak

theorem FileChange.labels_noBreak (c : FileChange) : '\n' ∉ c.oldLabel ∧ '\n' ∉ c.newLabel := by
  unfold FileChange.oldLabel FileChange.newLabel
  constructor <;> split <;> simp [c.oldPath_noBreak, c.path.noBreak]

theorem gitLine_noBreak (c : FileChange) : '\n' ∉ c.gitLine := by
  have hp := c.path.noBreak
  have ho := c.oldPath_noBreak
  unfold FileChange.gitLine
  generalize c.oldPath = old at ho
  generalize c.path.text = new at hp
  simp [gitRest, pathMark, hp, ho]

/-- How the headers begin. -/
def headerMarks : List String :=
  ["old mode ", "new mode ", "new file mode ", "deleted file mode ", "similarity index ",
    "rename from ", "rename to ", "index ", "Binary files ", "--- ", "+++ "]

/-- A header is a mark and a text on one line. -/
def IsHeader (raw : List Char) : Prop :=
  ∃ mark ∈ headerMarks, ∃ t, '\n' ∉ t ∧ raw = mark.toList ++ t

theorem isHeader_modes (modes : Option (FileMode × FileMode)) :
    ∀ raw ∈ modeLines modes, IsHeader raw := by
  cases modes with
  | none => simp [modeLines]
  | some m =>
    intro raw hraw
    rcases List.mem_pair.mp hraw with rfl | rfl
    · exact ⟨"old mode ", by simp [headerMarks], _, m.1.noBreak, rfl⟩
    · exact ⟨"new mode ", by simp [headerMarks], _, m.2.noBreak, rfl⟩

theorem isHeader_extended (kind : ChangeKind) {path : List Char} (hp : '\n' ∉ path) :
    ∀ raw ∈ kind.extended path, IsHeader raw := by
  intro raw hraw
  cases kind with
  | modified modes => exact isHeader_modes modes raw hraw
  | added mode =>
    rw [List.mem_singleton.mp hraw]
    exact ⟨"new file mode ", by simp [headerMarks], _, mode.noBreak, rfl⟩
  | deleted mode =>
    rw [List.mem_singleton.mp hraw]
    exact ⟨"deleted file mode ", by simp [headerMarks], _, mode.noBreak, rfl⟩
  | renamed old similarity modes =>
    rcases List.mem_append.mp hraw with hraw | hraw
    · exact isHeader_modes modes raw hraw
    · rcases List.mem_cons.mp hraw with rfl | hraw
      · exact ⟨"similarity index ", by simp [headerMarks], _, similarity.noBreak, rfl⟩
      · rcases List.mem_pair.mp hraw with rfl | rfl
        · exact ⟨"rename from ", by simp [headerMarks], _, old.noBreak, rfl⟩
        · exact ⟨"rename to ", by simp [headerMarks], _, hp, rfl⟩

theorem isHeader_body (c : FileChange) : ∀ raw ∈ c.bodyHeaders, IsHeader raw := by
  obtain ⟨hold, hnew⟩ := c.labels_noBreak
  intro raw hraw
  unfold FileChange.bodyHeaders at hraw
  split at hraw
  · simp at hraw
  · rw [List.mem_singleton.mp hraw]
    exact ⟨"Binary files ", by simp [headerMarks], _, by simp [hold, hnew], rfl⟩
  · rcases List.mem_pair.mp hraw with rfl | rfl
    · exact ⟨"--- ", by simp [headerMarks], _, by simp [hold, not_mem_nameTab], rfl⟩
    · exact ⟨"+++ ", by simp [headerMarks], _, by simp [hnew, not_mem_nameTab], rfl⟩

theorem isHeader (c : FileChange) : ∀ raw ∈ c.headers, IsHeader raw := by
  intro raw hraw
  rcases List.mem_append.mp hraw with hraw | hraw
  · rcases List.mem_append.mp hraw with hraw | hraw
    · exact isHeader_extended c.kind c.path.noBreak raw hraw
    · obtain ⟨t, -, rfl⟩ := List.mem_map.mp hraw
      exact ⟨"index ", by simp [headerMarks], _, t.noBreak, rfl⟩
  · exact isHeader_body c raw hraw

theorem IsHeader.noBreak {raw : List Char} (h : IsHeader raw) : '\n' ∉ raw := by
  have hmarks : ∀ mark ∈ headerMarks, '\n' ∉ mark.toList := by simp [headerMarks]
  obtain ⟨mark, hmark, t, ht, rfl⟩ := h
  simp [hmarks mark hmark, ht]

theorem HunkChange.noBreak (h : HunkChange) : ∀ raw ∈ h.raws, '\n' ∉ raw := by
  intro raw hraw
  rcases List.mem_cons.mp hraw with rfl | hraw
  · simp [HunkChange.header_eq, not_mem_range, not_mem_heading]
  · obtain ⟨line, -, rfl⟩ := List.mem_map.mp hraw
    cases hk : line.kind <;> simp [BodyLine.raw, lineMark, hk, line.text.noBreak]

theorem FileChange.noBreak (c : FileChange) : ∀ raw ∈ c.raws, '\n' ∉ raw := by
  intro raw hraw
  rcases List.mem_cons.mp hraw with he | hraw
  · rw [he]
    exact gitLine_noBreak c
  · rcases List.mem_append.mp hraw with hraw | hraw
    · exact (isHeader c raw hraw).noBreak
    · obtain ⟨h, -, hraw⟩ := List.mem_flatMap.mp hraw
      exact h.noBreak raw hraw

/-! ## Texts without their last character -/

theorem stripCr_append (l : List Char) {t : List Char} (h : t ≠ []) :
    stripCr (l ++ t) = l ++ stripCr t := by
  rw [stripCr, stripCr, List.getLast?_append_of_ne_nil l h]
  split_ifs
  · exact List.dropLast_append_of_ne_nil h
  · rfl

theorem stripCr_lit {l : List Char} (hl : l.getLast? ≠ some '\r') (t : List Char) :
    stripCr (l ++ t) = l ++ stripCr t := by
  cases t with
  | nil => simp [stripCr, hl]
  | cons c t => exact stripCr_append l (by simp)

theorem stripCr_eq_iff (t : List Char) : stripCr t = t ↔ t.getLast? ≠ some '\r' := by
  unfold stripCr
  split_ifs with h
  · refine iff_of_false (fun he => ?_) (by simp [h])
    have hlen := congrArg List.length he
    have hne : t ≠ [] := by
      rintro rfl
      simp at h
    have := List.length_pos_iff.mpr hne
    rw [List.length_dropLast] at hlen
    omega
  · simp [h]

theorem whitespace_cr : isWhitespace '\r' = true := by decide

theorem rdropWhile_stripCr (t : List Char) :
    (stripCr t).rdropWhile isWhitespace = t.rdropWhile isWhitespace := by
  unfold stripCr
  split_ifs with h
  · obtain ⟨u, rfl⟩ : ∃ u, t = u ++ ['\r'] := ⟨t.dropLast, (List.dropLast_append_getLast? _ h).symm⟩
    rw [List.dropLast_concat, List.rdropWhile_concat_pos _ _ _ whitespace_cr]
  · rfl

theorem trimText_stripCr (t : List Char) : trimText (stripCr t) = trimText t := by
  unfold stripCr
  split_ifs with h
  · obtain ⟨u, rfl⟩ : ∃ u, t = u ++ ['\r'] := ⟨t.dropLast, (List.dropLast_append_getLast? _ h).symm⟩
    rw [List.dropLast_concat, trimText, trimText, trimStart, trimStart, List.dropWhile_append]
    split_ifs with hu
    · rw [List.isEmpty_iff.mp hu]
      decide
    · rw [List.rdropWhile_concat_pos _ _ _ whitespace_cr]
  · rfl

/-! ## The first line of a section -/

theorem rfind_eq_none {part : List Char} (text : List Char) :
    rfind part text = none ↔ ¬ part <:+: text := by
  induction text with
  | nil => simp [rfind]
  | cons c text ih =>
    rw [rfind, List.infix_cons_iff, not_or, ← ih]
    cases h : rfind part text with
    | none => simp
    | some i => simp

theorem rfind_append {part b : List Char} {i : ℕ} (a : List Char) (h : rfind part b = some i) :
    rfind part (a ++ b) = some (a.length + i) := by
  induction a with
  | nil => simpa using h
  | cons c a ih =>
    rw [List.cons_append, rfind, ih, List.length_cons]
    simp only [Option.some_inj]
    omega

theorem rfind_prefix {part : List Char} {text : List Char} {i : ℕ}
    (h : rfind part text = some i) : part <+: text.drop i := by
  induction text generalizing i with
  | nil =>
    rw [rfind] at h
    split_ifs at h with hp
    simp [hp]
  | cons c text ih =>
    rw [rfind] at h
    cases hr : rfind part text with
    | none =>
      rw [hr] at h
      dsimp only at h
      split_ifs at h with hp
      rw [← Option.some.inj h]
      exact hp
    | some j =>
      rw [hr] at h
      rw [← Option.some.inj h]
      exact ih hr

theorem whitespace_plain : isWhitespace 'a' = false ∧ isWhitespace 'b' = false ∧
    isWhitespace '/' = false := by decide

theorem rdropWhile_stays {c : Char} (hc : isWhitespace c = false) (u v : List Char) :
    (u ++ c :: v).rdropWhile isWhitespace = u ++ c :: v.rdropWhile isWhitespace := by
  induction v using List.reverseRecOn with
  | nil => exact List.rdropWhile_concat_neg _ _ _ (by simp [hc])
  | append_singleton v x ih =>
    rw [show u ++ c :: (v ++ [x]) = (u ++ c :: v) ++ [x] by simp]
    cases hx : isWhitespace x with
    | true => rw [List.rdropWhile_concat_pos _ _ _ hx, List.rdropWhile_concat_pos _ _ _ hx, ih]
    | false =>
      have hx' : ¬ isWhitespace x = true := by simp [hx]
      rw [List.rdropWhile_concat_neg _ _ _ hx', List.rdropWhile_concat_neg _ _ _ hx']
      simp

theorem trimText_lead {c : Char} (hc : isWhitespace c = false) (t : List Char) :
    trimText (c :: '/' :: t) = c :: '/' :: t.rdropWhile isWhitespace := by
  rw [trimText, trimStart, List.dropWhile_cons_of_neg (by simp [hc])]
  exact rdropWhile_stays whitespace_plain.2.2 [c] t

theorem unquote_prefix {c : Char} (hc : isWhitespace c = false) (hq : c ≠ '"') (t : List Char) :
    unquote (c :: '/' :: t) = c :: '/' :: t.rdropWhile isWhitespace := by
  unfold unquote
  dsimp only
  rw [trimText_lead hc, if_neg]
  simp [hq]

theorem stripGitPrefix_a (t : List Char) : stripGitPrefix ('a' :: '/' :: t) = t := by
  simp [stripGitPrefix, stripPrefix]

theorem stripGitPrefix_b (t : List Char) : stripGitPrefix ('b' :: '/' :: t) = t := by
  simp [stripGitPrefix, stripPrefix]

theorem parseGitPaths_mark {old new : List Char}
    (h : rfind pathMark (gitRest old new) = some (old.length + 2)) :
    parseGitPaths (gitRest old new) =
      (old.rdropWhile isWhitespace, new.rdropWhile isWhitespace) := by
  have htake : (gitRest old new).take (old.length + 2) = 'a' :: '/' :: old :=
    @List.take_left _ ('a' :: '/' :: old) _
  have hdrop : (gitRest old new).drop (old.length + 2 + 1) = 'b' :: '/' :: new :=
    @List.drop_length_add_append _ ('a' :: '/' :: old) _ 1
  unfold parseGitPaths
  rw [show " b/".toList = pathMark from rfl, h]
  simp only [Option.orElse]
  rw [htake, hdrop, unquote_prefix whitespace_plain.1 (by decide),
    unquote_prefix whitespace_plain.2.1 (by decide), stripGitPrefix_a, stripGitPrefix_b]

theorem rfind_plain {old new : List Char} (h : ¬ pathMark <:+: new) :
    rfind pathMark (gitRest old new) = some (old.length + 2) := by
  have hnone : rfind pathMark ('b' :: '/' :: new) = none := by
    rw [rfind_eq_none, List.infix_cons_iff, List.infix_cons_iff]
    simp [pathMark]
    simpa [pathMark] using h
  have hmark : rfind pathMark (pathMark ++ new) = some 0 := by
    show rfind pathMark (' ' :: 'b' :: '/' :: new) = some 0
    rw [rfind, hnone]
    simp [pathMark]
  exact rfind_append ('a' :: '/' :: old) hmark

/-- A path with a mark is cut there, and the file is taken for a renamed one. -/
theorem parseGitPaths_split {old new : List Char} (h : pathMark <:+: new)
    (hlen : new.length ≤ old.length) :
    (parseGitPaths (gitRest old new)).1 ≠ (parseGitPaths (gitRest old new)).2 := by
  obtain ⟨i, hi⟩ : ∃ i, rfind pathMark new = some i := by
    rw [← Option.ne_none_iff_exists', Ne, rfind_eq_none, not_not]
    exact h
  obtain ⟨rest, hrest⟩ := rfind_prefix hi
  have hnew : new = new.take i ++ (pathMark ++ rest) := by
    rw [hrest, List.take_append_drop]
  have hlt : i ≤ new.length := by
    by_contra hc
    rw [List.drop_eq_nil_of_le (by omega)] at hrest
    simp [pathMark] at hrest
  have hsplit : gitRest old new = gitRest (old ++ (pathMark ++ new.take i)) rest := by
    conv_lhs => rw [hnew]
    simp [gitRest]
  have hat : rfind pathMark (gitRest (old ++ (pathMark ++ new.take i)) rest) =
      some ((old ++ (pathMark ++ new.take i)).length + 2) := by
    have hr := rfind_append ('a' :: '/' :: old ++ pathMark) hi
    rw [← hsplit, gitRest, ← List.append_assoc, hr]
    simp [pathMark, hlt]
    omega
  rw [hsplit, parseGitPaths_mark hat]
  intro he
  have hlong : (old ++ (pathMark ++ new.take i)).rdropWhile isWhitespace =
      (old ++ [' ', 'b']) ++ '/' :: (new.take i).rdropWhile isWhitespace := by
    rw [← rdropWhile_stays whitespace_plain.2.2]
    simp [pathMark]
  have hshort : (rest.rdropWhile isWhitespace).length ≤ rest.length :=
    (List.rdropWhile_prefix _ _).length_le
  have hrestlen := congrArg List.length hnew
  have helen := congrArg List.length (hlong.symm.trans he)
  simp only [List.length_append, List.length_cons, List.length_nil] at hrestlen helen
  omega

/-! ## The headers of a section -/

section Headers

variable (file : FileDiff) (t : List Char)

theorem readHeader_oldMode : readHeader file ("old mode ".toList ++ t) = file := by
  simp [readHeader, startsWith]

theorem readHeader_newMode : readHeader file ("new mode ".toList ++ t) =
    { file with notices := file.notices ++ ["Mode changed to ".toList ++ trimText t] } := by
  simp [readHeader, startsWith, show "new mode ".length = 9 from rfl]

theorem readHeader_newFile :
    readHeader file ("new file mode ".toList ++ t) = { file with status := .added } := by
  simp [readHeader, startsWith]

theorem readHeader_deletedFile :
    readHeader file ("deleted file mode ".toList ++ t) = { file with status := .deleted } := by
  simp [readHeader, startsWith]

theorem readHeader_similarity : readHeader file ("similarity index ".toList ++ t) = file := by
  simp [readHeader, startsWith]

theorem readHeader_renameFrom : readHeader file ("rename from ".toList ++ t) =
    { file with status := .renamed, oldPath := some (trimText t) } := by
  simp [readHeader, startsWith, show "rename from ".length = 12 from rfl]

theorem readHeader_renameTo : readHeader file ("rename to ".toList ++ t) =
    { file with status := .renamed, path := trimText t } := by
  simp [readHeader, startsWith, show "rename to ".length = 10 from rfl]

theorem readHeader_index : readHeader file ("index ".toList ++ t) = file := by
  simp [readHeader, startsWith]

theorem readHeader_binary :
    readHeader file ("Binary files ".toList ++ t) = { file with binary := true } := by
  simp [readHeader, startsWith]

theorem readHeader_minus : readHeader file ("--- ".toList ++ t) =
    if trimText t = "/dev/null".toList then { file with status := .added } else file := by
  unfold readHeader
  generalize "/dev/null".toList = null
  simp [startsWith, show "--- ".length = 4 from rfl]

theorem readHeader_plus : readHeader file ("+++ ".toList ++ t) =
    if trimText t = "/dev/null".toList then { file with status := .deleted }
    else if file.oldPath.isNone then { file with path := stripGitPrefix (trimText t) }
    else file := by
  unfold readHeader
  generalize "/dev/null".toList = null
  simp [startsWith, show "+++ ".length = 4 from rfl]

end Headers

theorem trimText_mode (mode : FileMode) : trimText mode.text = mode.text := by
  cases mode <;> decide

theorem stripCr_mode (mode : FileMode) : stripCr mode.text = mode.text := by
  cases mode <;> decide

/-- The headers of a section, as the parser reads them. -/
def readHeaders (raws : List (List Char)) (file : FileDiff) : FileDiff :=
  (raws.map stripCr).foldl readHeader file

theorem readHeaders_append (as bs : List (List Char)) (file : FileDiff) :
    readHeaders (as ++ bs) file = readHeaders bs (readHeaders as file) := by
  rw [readHeaders, List.map_append, List.foldl_append]
  rfl

theorem readHeaders_cons (raw : List Char) (raws : List (List Char)) (file : FileDiff) :
    readHeaders (raw :: raws) file = readHeaders raws (readHeader file (stripCr raw)) := rfl

theorem readHeaders_nil (file : FileDiff) : readHeaders [] file = file := rfl

theorem readHeaders_modes (modes : Option (FileMode × FileMode)) (file : FileDiff) :
    readHeaders (modeLines modes) file =
      { file with notices := file.notices ++ (ChangeKind.modified modes).notices } := by
  cases modes with
  | none => simp [modeLines, readHeaders_nil, ChangeKind.notices]
  | some m =>
    rw [modeLines, readHeaders_cons, readHeaders_cons, readHeaders_nil,
      stripCr_lit (by simp), stripCr_lit (by simp), readHeader_oldMode, readHeader_newMode,
      stripCr_mode, trimText_mode]
    rfl

/-- The paths behind the headers, from those of the first line. -/
def FileChange.headOld (c : FileChange) (old : Option (List Char)) : Option (List Char) :=
  match c.kind with
  | .renamed old _ _ => some (trimText old.text)
  | _ => old

def FileChange.headPath (c : FileChange) (path : List Char) (old : Option (List Char)) :
    List Char :=
  match c.kind with
  | .renamed _ _ _ => trimText c.path.text
  | .deleted _ => path
  | _ =>
    match c.body with
    | .text _ => if old.isNone then c.path.text.rdropWhile isWhitespace else path
    | _ => path

theorem readHeaders_index (index : Option OneLine) (file : FileDiff) :
    readHeaders (index.toList.map fun t => "index ".toList ++ t.text) file = file := by
  cases index with
  | none => rfl
  | some t =>
    show readHeader file (stripCr ("index ".toList ++ t.text)) = file
    rw [stripCr_lit (by simp), readHeader_index]

theorem readHeaders_extended (kind : ChangeKind) (path : List Char) (p : List Char)
    (o : Option (List Char)) :
    readHeaders (kind.extended path) (.new p o) =
      { FileDiff.new (match kind with
          | .renamed _ _ _ => trimText path
          | _ => p) (match kind with
          | .renamed old _ _ => some (trimText old.text)
          | _ => o) with status := kind.status, notices := kind.notices } := by
  cases kind with
  | modified modes =>
    rw [ChangeKind.extended, readHeaders_modes]
    rfl
  | added mode =>
    rw [ChangeKind.extended, readHeaders_cons, readHeaders_nil, stripCr_lit (by simp),
      readHeader_newFile]
    rfl
  | deleted mode =>
    rw [ChangeKind.extended, readHeaders_cons, readHeaders_nil, stripCr_lit (by simp),
      readHeader_deletedFile]
    rfl
  | renamed old similarity modes =>
    rw [ChangeKind.extended, readHeaders_append, readHeaders_modes, readHeaders_cons,
      readHeaders_cons, readHeaders_cons, readHeaders_nil, stripCr_lit (by simp),
      stripCr_lit (by simp), stripCr_lit (by simp), readHeader_similarity, readHeader_renameFrom,
      readHeader_renameTo, trimText_stripCr, trimText_stripCr]
    cases modes <;> rfl

/-! ### The names -/

theorem trimText_tab (t : List Char) : trimText (t ++ ['\t']) = trimText t := by
  rw [trimText, trimText, trimStart, trimStart, List.dropWhile_append]
  split_ifs with ht
  · rw [List.isEmpty_iff.mp ht]
    decide
  · exact List.rdropWhile_concat_pos _ _ _ (by decide)

theorem trimText_label (label : List Char) :
    trimText (stripCr (label ++ nameTab label)) = trimText label := by
  rw [trimText_stripCr]
  unfold nameTab
  split_ifs
  · exact trimText_tab label
  · rw [List.append_nil]

theorem devNull : trimText "/dev/null".toList = "/dev/null".toList := by decide

theorem trimText_path {c : Char} (hc : isWhitespace c = false) (hne : c ≠ '/') (t : List Char) :
    trimText (c :: '/' :: t) ≠ "/dev/null".toList := by
  rw [trimText_lead hc]
  simp [hne]

/-- The file behind a `---` line, and behind a `+++` line. -/
def FileDiff.minus (file : FileDiff) (name : List Char) : FileDiff :=
  if name = "/dev/null".toList then { file with status := .added } else file

def FileDiff.plus (file : FileDiff) (name : List Char) : FileDiff :=
  if name = "/dev/null".toList then { file with status := .deleted }
  else if file.oldPath.isNone then { file with path := stripGitPrefix name }
  else file

theorem readHeaders_labels (old new : List Char) (file : FileDiff) :
    readHeaders ["--- ".toList ++ (old ++ nameTab old), "+++ ".toList ++ (new ++ nameTab new)]
        file =
      (file.minus (trimText old)).plus (trimText new) := by
  rw [readHeaders_cons, readHeaders_cons, readHeaders_nil,
    @stripCr_lit "--- ".toList (by simp), @stripCr_lit "+++ ".toList (by simp),
    readHeader_minus, readHeader_plus, trimText_label, trimText_label]
  rfl

theorem FileDiff.minus_old (file : FileDiff) (path : List Char) :
    file.minus (trimText ('a' :: '/' :: path)) = file :=
  if_neg (trimText_path whitespace_plain.1 (by decide) path)

theorem FileDiff.plus_new (file : FileDiff) (path : List Char) :
    file.plus (trimText ('b' :: '/' :: path)) =
      if file.oldPath.isNone then { file with path := path.rdropWhile isWhitespace } else file := by
  rw [FileDiff.plus, if_neg (trimText_path whitespace_plain.2.1 (by decide) path),
    trimText_lead whitespace_plain.2.1, stripGitPrefix_b]

theorem FileDiff.minus_null (file : FileDiff) :
    file.minus (trimText "/dev/null".toList) = { file with status := .added } := if_pos devNull

theorem FileDiff.plus_null (file : FileDiff) :
    file.plus (trimText "/dev/null".toList) = { file with status := .deleted } := if_pos devNull

/-- The file behind the headers. -/
def FileChange.head (c : FileChange) (p : List Char) (o : Option (List Char)) : FileDiff where
  path := c.headPath p o
  oldPath := c.headOld o
  status := c.kind.status
  binary := c.expected.binary
  notices := c.kind.notices
  hunks := []
  additions := 0
  deletions := 0
  maxLine := 0

theorem readHeaders_head (c : FileChange) (p : List Char) (o : Option (List Char)) :
    readHeaders c.headers (.new p o) = c.head p o := by
  obtain ⟨kind, path, index, body⟩ := c
  rw [FileChange.headers, readHeaders_append, readHeaders_append, readHeaders_extended,
    readHeaders_index]
  cases body with
  | same => cases kind <;> rfl
  | binary =>
    rw [FileChange.bodyHeaders, readHeaders_cons, readHeaders_nil,
      @stripCr_lit "Binary files ".toList (by simp), readHeader_binary]
    cases kind <;> rfl
  | text hunks =>
    rw [FileChange.bodyHeaders, readHeaders_labels]
    cases kind with
    | modified modes =>
      have ho : FileChange.oldLabel ⟨.modified modes, path, index, .text hunks⟩ =
        'a' :: '/' :: path.text := rfl
      have hn : FileChange.newLabel ⟨.modified modes, path, index, .text hunks⟩ =
        'b' :: '/' :: path.text := rfl
      rw [ho, hn, FileDiff.minus_old, FileDiff.plus_new]
      cases o <;> rfl
    | added mode =>
      have ho : FileChange.oldLabel ⟨.added mode, path, index, .text hunks⟩ =
        "/dev/null".toList := rfl
      have hn : FileChange.newLabel ⟨.added mode, path, index, .text hunks⟩ =
        'b' :: '/' :: path.text := rfl
      rw [ho, hn, FileDiff.minus_null, FileDiff.plus_new]
      cases o <;> rfl
    | deleted mode =>
      have ho : FileChange.oldLabel ⟨.deleted mode, path, index, .text hunks⟩ =
        'a' :: '/' :: path.text := rfl
      have hn : FileChange.newLabel ⟨.deleted mode, path, index, .text hunks⟩ =
        "/dev/null".toList := rfl
      rw [ho, hn, FileDiff.minus_old, FileDiff.plus_null]
      rfl
    | renamed old similarity modes =>
      have ho : FileChange.oldLabel ⟨.renamed old similarity modes, path, index, .text hunks⟩ =
        'a' :: '/' :: old.text := rfl
      have hn : FileChange.newLabel ⟨.renamed old similarity modes, path, index, .text hunks⟩ =
        'b' :: '/' :: path.text := rfl
      rw [ho, hn, FileDiff.minus_old, FileDiff.plus_new]
      rfl

/-! ### What is recovered -/

/-- The paths the parser reads. -/
def FileChange.PathsGood (c : FileChange) : Prop :=
  match c.kind with
  | .renamed old _ _ => trimText old.text = old.text ∧ trimText c.path.text = c.path.text
  | _ => ¬ pathMark <:+: c.path.text ∧ c.path.text.rdropWhile isWhitespace = c.path.text

/-- The file behind the headers, from the first line on. -/
def FileChange.parsedHead (c : FileChange) : FileDiff :=
  let (old, new) := parseGitPaths (gitRest c.oldPath (stripCr c.path.text))
  c.head new (if old = new then none else some old)

theorem mark_stripCr (t : List Char) : pathMark <:+: stripCr t ↔ pathMark <:+: t := by
  unfold stripCr
  split_ifs with h
  · obtain ⟨u, rfl⟩ : ∃ u, t = u ++ ['\r'] := ⟨t.dropLast, (List.dropLast_append_getLast? _ h).symm⟩
    have hend : ¬ pathMark <:+ u ++ ['\r'] := fun ⟨v, hv⟩ => by
      have hlast := congrArg List.getLast? hv
      simp [pathMark] at hlast
    rw [List.dropLast_concat, List.infix_concat_iff, or_iff_right hend]
  · rfl

theorem head_plain {c : FileChange} (hp : c.oldPath = c.path.text)
    (hold : ∀ o, c.headOld o = o)
    (hpath : ∀ p, c.headPath (c.path.text.rdropWhile isWhitespace) none = p ↔
      c.path.text.rdropWhile isWhitespace = p) :
    (c.parsedHead.path = c.path.text ∧ c.parsedHead.oldPath = none) ↔
      ¬ pathMark <:+: c.path.text ∧ c.path.text.rdropWhile isWhitespace = c.path.text := by
  unfold FileChange.parsedHead
  rw [hp]
  by_cases hmark : pathMark <:+: c.path.text
  · have hsplit := parseGitPaths_split ((mark_stripCr _).mpr hmark)
      (show (stripCr c.path.text).length ≤ c.path.text.length by
        unfold stripCr
        split_ifs <;> simp)
    refine iff_of_false ?_ (by simp [hmark])
    dsimp only [FileChange.head]
    rw [if_neg hsplit, hold]
    simp
  · rw [parseGitPaths_mark (rfind_plain ((mark_stripCr _).not.mpr hmark)), rdropWhile_stripCr]
    dsimp only [FileChange.head]
    rw [if_pos rfl, hold, hpath]
    simp [hmark]

theorem head_good (c : FileChange) :
    (c.parsedHead.path = c.expected.path ∧ c.parsedHead.oldPath = c.expected.oldPath) ↔
      c.PathsGood := by
  obtain ⟨kind, path, index, body⟩ := c
  cases kind with
  | renamed old similarity modes =>
    show (trimText path.text = path.text ∧ some (trimText old.text) = some old.text) ↔
      (trimText old.text = old.text ∧ trimText path.text = path.text)
    rw [Option.some_inj, and_comm]
  | modified modes => exact head_plain rfl (fun o => rfl) fun p => by cases body <;> rfl
  | added mode => exact head_plain rfl (fun o => rfl) fun p => by cases body <;> rfl
  | deleted mode => exact head_plain rfl (fun o => rfl) fun p => by rfl

/-! ## The hunks of a section -/

/-- No counter of the parser leaves 32 bits. -/
def HunkChange.Fits (h : HunkChange) : Prop :=
  h.oldStart + oldCount h.kinds < 2 ^ 32 ∧ h.newStart + newCount h.kinds < 2 ^ 32

instance (h : HunkChange) : Decidable h.Fits := inferInstanceAs (Decidable (_ ∧ _))

def FileChange.Fits (c : FileChange) : Prop :=
  (∀ h ∈ c.hunks, h.Fits) ∧ c.kinds.count .add < 2 ^ 32 ∧ c.kinds.count .del < 2 ^ 32

instance (c : FileChange) : Decidable c.Fits := inferInstanceAs (Decidable (_ ∧ _))

/-- The texts the parser keeps. -/
def FileChange.TextsGood (c : FileChange) : Prop :=
  ∀ h ∈ c.hunks, (∀ t ∈ h.heading, t.text.getLast? ≠ some '\r') ∧
    ∀ line ∈ h.lines, line.text.text.getLast? ≠ some '\r'

/-- The change is recovered. -/
def FileChange.Good (c : FileChange) : Prop := c.PathsGood ∧ c.TextsGood ∧ c.Fits

/-- The file the parser makes of the section. -/
def FileChange.parsed (c : FileChange) : FileDiff :=
  { c.parsedHead with
    hunks := c.hunks.map (·.shown stripCr)
    additions := c.kinds.count .add
    deletions := c.kinds.count .del
    maxLine := maxNumber (c.hunks.flatMap fun h => (h.shown stripCr).lines) }

theorem numbers_numbered (f g : List Char → List Char) (old new : ℕ) (lines : List BodyLine) :
    (numbered f old new lines).flatMap (·.numbers) =
      (numbered g old new lines).flatMap (·.numbers) := by
  induction lines generalizing old new with
  | nil => rfl
  | cons line lines ih =>
    rw [numbered, numbered, List.flatMap_cons, List.flatMap_cons, ih]
    rfl

theorem maxNumber_shown (f g : List Char → List Char) (hunks : List HunkChange) :
    maxNumber (hunks.flatMap fun h => (h.shown f).lines) =
      maxNumber (hunks.flatMap fun h => (h.shown g).lines) := by
  rw [maxNumber, maxNumber, List.flatMap_assoc, List.flatMap_assoc]
  refine congrArg (·.foldl max 0) (List.flatMap_congr fun h _ => ?_)
  exact numbers_numbered f g h.oldStart h.newStart h.lines

theorem numbered_inj (old new : ℕ) (lines : List BodyLine) :
    numbered stripCr old new lines = numbered id old new lines ↔
      ∀ line ∈ lines, line.text.text.getLast? ≠ some '\r' := by
  induction lines generalizing old new with
  | nil => simp [numbered]
  | cons line lines ih =>
    rw [numbered, numbered, List.cons.injEq, ih, List.forall_mem_cons, ← stripCr_eq_iff]
    simp

theorem stripCr_header (h : HunkChange) :
    stripCr h.header = h.header ↔ ∀ t ∈ h.heading, t.text.getLast? ≠ some '\r' := by
  have hlast : h.header.getLast? = (" @@".toList ++ headingText h.heading).getLast? := by
    have hne : " @@".toList ++ headingText h.heading ≠ [] := by simp
    rw [HunkChange.header_eq, List.getLast?_append_of_ne_nil _ (by simp),
      List.getLast?_append_of_ne_nil _ (by simp), List.getLast?_append_of_ne_nil _ (by simp),
      List.getLast?_append_of_ne_nil _ hne]
  rw [stripCr_eq_iff, hlast]
  cases h.heading with
  | none => simp [headingText]
  | some t =>
    rw [headingText, List.getLast?_append_of_ne_nil _ (by simp)]
    cases ht : t.text with
    | nil => simp [ht]
    | cons c text => simp [ht]

theorem parsed_good (c : FileChange) :
    c.parsed = c.expected ↔ c.PathsGood ∧ c.TextsGood := by
  have hhunks : c.hunks.map (·.shown stripCr) = c.hunks.map (·.shown id) ↔ c.TextsGood := by
    rw [List.map_inj_left]
    refine forall₂_congr fun h _ => ?_
    rw [HunkChange.shown, HunkChange.shown, Hunk.mk.injEq, numbered_inj]
    exact and_congr_left' (stripCr_header h)
  have hhead : c.parsedHead.status = c.expected.status ∧ c.parsedHead.binary = c.expected.binary ∧
      c.parsedHead.notices = c.expected.notices := ⟨rfl, rfl, rfl⟩
  rw [← head_good, ← hhunks]
  constructor
  · intro he
    have hpath := congrArg FileDiff.path he
    have hold := congrArg FileDiff.oldPath he
    have hh := congrArg FileDiff.hunks he
    exact ⟨⟨hpath, hold⟩, hh⟩
  · rintro ⟨⟨hpath, hold⟩, hh⟩
    rw [FileChange.parsed, hpath, hold, hhead.1, hhead.2.1, hhead.2.2, hh,
      maxNumber_shown stripCr id]
    rfl

/-! ## The parser on a section -/

section Run

variable {s : ParseState} {file : FileDiff} {files : List FileDiff}

theorem raw_plain (line : BodyLine) : isFileLine (stripCr line.raw) = false ∧
    startsWith "@@" (stripCr line.raw) = false ∧ bodyKind (stripCr line.raw) = some line.kind ∧
      bodyText (stripCr line.raw) = stripCr line.text.text := by
  obtain ⟨kind, text, hm⟩ := line
  have hraw : stripCr (BodyLine.raw ⟨kind, text, hm⟩) = lineMark kind ++ stripCr text.text :=
    stripCr_lit (by cases kind <;> simp [lineMark]) text.text
  rw [hraw]
  cases kind with
  | marker =>
    have htext : bodyText ('\\' :: ' ' :: stripCr noNewlineText) = stripCr noNewlineText := by
      decide +kernel
    rw [hm rfl]
    exact ⟨by simp [isFileLine, startsWith, lineMark], by simp [startsWith, lineMark], rfl, htext⟩
  | _ => simp [isFileLine, startsWith, bodyKind, bodyText, lineMark]

theorem parse_body_line (hfiles : s.files = file :: files) (hin : s.inHunk = true)
    (line : BodyLine) :
    (s.Room file line.kind ∧ parseLine s (stripCr line.raw) =
        some (s.take file files line.kind (stripCr line.text.text))) ∨
      (¬ s.Room file line.kind ∧ parseLine s (stripCr line.raw) = none) := by
  obtain ⟨hf, hat, hk, ht⟩ := raw_plain line
  have hf' : startsWith "diff --git " (stripCr line.raw) = false := hf
  have hline : parseLine s (stripCr line.raw) = hunkLine s file files (stripCr line.raw) := by
    simp [parseLine, hf', hfiles, hat, hin]
  rw [hline, ← ht]
  exact hunkLine_body hk

theorem pushLine_last (line : DiffLine) (hunks : List Hunk) (hunk : Hunk) :
    pushLine line (hunks ++ [hunk]) = hunks ++ [{ hunk with lines := hunk.lines ++ [line] }] := by
  induction hunks with
  | nil => rfl
  | cons h hunks ih =>
    cases hunks with
    | nil => rfl
    | cons h' hunks => exact congrArg (h :: ·) ih

/-- The file with lines behind those of its last hunk. -/
def FileDiff.grow (file : FileDiff) (before : List Hunk) (header : List Char)
    (lines : List DiffLine) (added : List DiffLine) : FileDiff :=
  { file with
    hunks := before ++ [⟨header, lines ++ added⟩]
    additions := file.additions + (added.map (·.kind)).count .add
    deletions := file.deletions + (added.map (·.kind)).count .del
    maxLine := (added.flatMap (·.numbers)).foldl max file.maxLine }

/-- Nothing overflows on these lines. -/
def ParseState.RunRoom (s : ParseState) (file : FileDiff) (kinds : List LineKind) : Prop :=
  file.additions + kinds.count .add < 2 ^ 32 ∧ file.deletions + kinds.count .del < 2 ^ 32 ∧
    s.oldNo + oldCount kinds < 2 ^ 32 ∧ s.newNo + newCount kinds < 2 ^ 32

instance (kinds : List LineKind) : Decidable (s.RunRoom file kinds) :=
  inferInstanceAs (Decidable (_ ∧ _))

theorem runRoom_cons (kind : LineKind) (kinds : List LineKind) (text : List Char) :
    s.RunRoom file (kind :: kinds) ↔
      s.Room file kind ∧ (s.take file files kind text).RunRoom (file.count kind) kinds := by
  cases kind <;>
    simp [ParseState.RunRoom, ParseState.Room, ParseState.take, FileDiff.count, onOld, onNew,
      oldCount, newCount] <;> omega

theorem foldl_numbers (line : DiffLine) (m : ℕ) :
    line.numbers.foldl max m = max (max m (line.oldNo.getD 0)) (line.newNo.getD 0) := by
  obtain ⟨kind, old, new, text⟩ := line
  cases old <;> cases new <;> simp [DiffLine.numbers]

theorem grow_take {before : List Hunk} {header : List Char} {lines : List DiffLine}
    (h : file.hunks = before ++ [⟨header, lines⟩]) (kind : LineKind) (text : List Char)
    (rest : List DiffLine) :
    ((file.count kind).push (s.lineOf kind text)).grow before header
        (lines ++ [s.lineOf kind text]) rest =
      file.grow before header lines (s.lineOf kind text :: rest) := by
  have hne : (file.count kind).hunks ≠ [] := by
    show file.hunks ≠ []
    simp [h]
  have hkind : (s.lineOf kind text).kind = kind := rfl
  have hcount : ∀ k : LineKind, ∀ ks, (kind :: ks).count k = [kind].count k + ks.count k :=
    fun k ks => by rw [← List.singleton_append, List.count_append]
  rw [FileDiff.push, if_neg hne]
  simp only [FileDiff.grow, FileDiff.count, List.append_assoc, List.singleton_append,
    List.map_cons, List.flatMap_cons, List.foldl_append, foldl_numbers, Nat.add_assoc, hkind]
  rw [hcount .add (rest.map _), hcount .del (rest.map _)]

theorem runRoom_one {kind : LineKind} (hr : s.Room file kind) (hroom : s.RunRoom file []) :
    s.RunRoom file [kind] := by
  obtain ⟨hra, hrd, hro, hrn⟩ := hr
  obtain ⟨ha, hd, ho, hn⟩ := hroom
  cases kind <;> simp_all [ParseState.RunRoom, oldCount, newCount, onOld, onNew]

/-- **The lines of a hunk.** -/
theorem run_lines {before : List Hunk} {header : List Char} {done : List DiffLine}
    (hfiles : s.files = file :: files) (hin : s.inHunk = true)
    (hhunks : file.hunks = before ++ [⟨header, done⟩]) (hroom : s.RunRoom file [])
    (lines : List BodyLine) :
    ((lines.map fun l => stripCr l.raw).foldlM parseLine s).map (·.files) =
      if s.RunRoom file (lines.map (·.kind)) then
        some (file.grow before header done (numbered stripCr s.oldNo s.newNo lines) :: files)
      else none := by
  induction lines generalizing s file done with
  | nil =>
    rw [List.map_nil, List.map_nil, if_pos hroom]
    simp [FileDiff.grow, numbered, ← hhunks, hfiles]
  | cons line lines ih =>
    rw [List.map_cons, List.map_cons, List.foldlM_cons]
    rcases parse_body_line hfiles hin line with ⟨hr, he⟩ | ⟨hr, he⟩
    · have hne : (file.count line.kind).hunks ≠ [] := by
        show file.hunks ≠ []
        simp [hhunks]
      have hpush :
          ((file.count line.kind).push (s.lineOf line.kind (stripCr line.text.text))).hunks =
          before ++ [⟨header, done ++ [s.lineOf line.kind (stripCr line.text.text)]⟩] := by
        rw [FileDiff.push, if_neg hne]
        show pushLine _ file.hunks = _
        rw [hhunks, pushLine_last]
      have hsame : ∀ kinds, (s.take file files line.kind (stripCr line.text.text)).RunRoom
          ((file.count line.kind).push (s.lineOf line.kind (stripCr line.text.text))) kinds ↔
          (s.take file files line.kind (stripCr line.text.text)).RunRoom (file.count line.kind)
            kinds := by
        intro kinds
        rw [FileDiff.push, if_neg hne]
        rfl
      have hroom' : s.RunRoom file [line.kind] := runRoom_one hr hroom
      have hrun := @ih (s.take file files line.kind (stripCr line.text.text)) _ _ rfl hin hpush
        ((hsame []).mpr ((runRoom_cons _ _ _).mp hroom').2)
      rw [he]
      refine hrun.trans ?_
      rw [grow_take hhunks]
      have hold : (s.take file files line.kind (stripCr line.text.text)).oldNo =
          s.oldNo + (onOld line.kind).toNat := congrArg (s.oldNo + ·) (oldCount_cons line.kind [])
      have hnew : (s.take file files line.kind (stripCr line.text.text)).newNo =
          s.newNo + (onNew line.kind).toNat := congrArg (s.newNo + ·) (newCount_cons line.kind [])
      refine if_congr ((hsame _).trans ?_) (by rw [hold, hnew]; rfl) rfl
      rw [runRoom_cons _ _ (stripCr line.text.text)]
      exact (and_iff_right hr).symm
    · have hno : ¬ s.RunRoom file (line.kind :: lines.map (·.kind)) := fun h =>
        hr ((@runRoom_cons s file files _ _ []).mp h).1
      rw [he, if_neg hno]
      rfl

/-! ### The header of a hunk -/

theorem digit_plain {c : Char} (h : c.isDigit = true) :
    c ≠ ',' ∧ c ≠ '+' ∧ isWhitespace c = false := by
  obtain ⟨hlow, hhigh⟩ := Char.isDigit_iff_toNat.mp h
  refine ⟨?_, ?_, ?_⟩
  · rintro rfl
    simp at hlow
  · rintro rfl
    simp at hlow
  · have hl : 48 ≤ c.toNat := hlow
    have hh : c.toNat ≤ 57 := hhigh
    simp only [isWhitespace, Bool.or_eq_false_iff, Bool.and_eq_false_iff, decide_eq_false_iff_not]
    omega

theorem range_eq (start count : ℕ) (rest : List Char) :
    ∃ c rest', range start count ++ ' ' :: rest = Nat.toDigits 10 start ++ c :: rest' ∧
      (c = ',' ∨ c = ' ') := by
  unfold range
  split_ifs
  · exact ⟨' ', rest, by simp, .inr rfl⟩
  · exact ⟨',', Nat.toDigits 10 count ++ ' ' :: rest, by simp, .inl rfl⟩

theorem takeWhile_range (start count : ℕ) (rest : List Char) :
    (range start count ++ ' ' :: rest).takeWhile (fun c => c ≠ ',' ∧ !isWhitespace c) =
      Nat.toDigits 10 start := by
  obtain ⟨c, rest', he, hc⟩ := range_eq start count rest
  rw [he, List.takeWhile_append_of_pos, List.takeWhile_cons_of_neg, List.append_nil]
  · rcases hc with rfl | rfl <;> decide
  · intro d hd
    have := digit_plain (Nat.isDigit_of_mem_toDigits (by omega) (by omega) hd)
    simp [this]

theorem parseU32_digits {n : ℕ} (h : n < 2 ^ 32) : parseU32 (Nat.toDigits 10 n) = some n := by
  have hdigit : ∀ c ∈ Nat.toDigits 10 n, c.isDigit = true := fun c hc =>
    Nat.isDigit_of_mem_toDigits (by omega) (by omega) hc
  have hplus : (Nat.toDigits 10 n).head? ≠ some '+' := fun he =>
    (digit_plain (hdigit '+' (List.mem_of_mem_head? he))).2.1 rfl
  have hall : (Nat.toDigits 10 n).all Char.isDigit = true := List.all_eq_true.mpr hdigit
  unfold parseU32
  dsimp only
  rw [if_neg hplus, if_pos, Nat.ofDigitChars_ten_toDigits]
  exact ⟨Nat.toDigits_ne_nil, hall, by rwa [Nat.ofDigitChars_ten_toDigits]⟩

theorem signedNumber_range {sign : Char} {before : List Char} (hb : sign ∉ before) {start : ℕ}
    (h : start < 2 ^ 32) (count : ℕ) (rest : List Char) :
    signedNumber sign (before ++ sign :: (range start count ++ ' ' :: rest)) = some start := by
  have hdrop : (before ++ sign :: (range start count ++ ' ' :: rest)).dropWhile (· ≠ sign) =
      sign :: (range start count ++ ' ' :: rest) := by
    rw [List.dropWhile_append_of_pos, List.dropWhile_cons_of_neg (by simp)]
    intro c hc
    simp only [ne_eq, decide_not, Bool.not_eq_eq_eq_not, Bool.not_true, decide_eq_false_iff_not]
    rintro rfl
    exact hb hc
  rw [signedNumber, hdrop]
  dsimp only
  rw [takeWhile_range, parseU32_digits h]

theorem plus_not_range (start count : ℕ) : '+' ∉ range start count := by
  have hdigits : ∀ n, '+' ∉ Nat.toDigits 10 n := fun n h =>
    (digit_plain (Nat.isDigit_of_mem_toDigits (by omega) (by omega) h)).2.1 rfl
  unfold range
  split_ifs <;> simp [hdigits]

theorem parseHunkHeader_header (h : HunkChange) :
    parseHunkHeader (stripCr h.header) = some (h.oldStart, h.newStart) := by
  obtain ⟨rest, hrest⟩ : ∃ rest, stripCr h.header = "@@".toList ++
      ([' '] ++ '-' :: (range h.oldStart (oldCount h.kinds) ++ ' ' :: ('+' ::
        (range h.newStart (newCount h.kinds) ++ ' ' :: rest)))) := by
    refine ⟨"@@".toList ++ stripCr (headingText h.heading), ?_⟩
    have htail : stripCr (" @@".toList ++ headingText h.heading) =
        ' ' :: ("@@".toList ++ stripCr (headingText h.heading)) := stripCr_lit (by simp) _
    rw [HunkChange.header_eq, stripCr_append _ (by simp), stripCr_append _ (by simp),
      stripCr_append _ (by simp), stripCr_append _ (by simp), htail]
    simp
  have hold : signedNumber '-' ([' '] ++ '-' :: (range h.oldStart (oldCount h.kinds) ++
      ' ' :: ('+' :: (range h.newStart (newCount h.kinds) ++ ' ' :: rest)))) = some h.oldStart :=
    signedNumber_range (by simp) h.old_lt _ _
  have hnew : signedNumber '+' ([' '] ++ '-' :: (range h.oldStart (oldCount h.kinds) ++
      ' ' :: ('+' :: (range h.newStart (newCount h.kinds) ++ ' ' :: rest)))) = some h.newStart := by
    have hb : '+' ∉ [' ', '-'] ++ range h.oldStart (oldCount h.kinds) ++ [' '] := by
      simp [plus_not_range]
    have := signedNumber_range hb h.new_lt (newCount h.kinds) rest
    simpa using this
  have hpre : ∀ text, stripPrefix "@@" ("@@".toList ++ text) = some text := fun text => by
    simp [stripPrefix]
  rw [hrest, parseHunkHeader, hpre]
  show (do
    let old ← signedNumber '-' _
    let new ← signedNumber '+' _
    return (old, new)) = _
  rw [hold, hnew]
  rfl

/-- The file with a hunk behind the others. -/
def FileDiff.addHunk (file : FileDiff) (h : HunkChange) : FileDiff :=
  file.grow file.hunks (stripCr h.header) [] (h.shown stripCr).lines

/-- **A hunk.** -/
theorem run_hunk (hfiles : s.files = file :: files)
    (ha : file.additions < 2 ^ 32) (hd : file.deletions < 2 ^ 32) (h : HunkChange) :
    ((h.raws.map stripCr).foldlM parseLine s).map (·.files) =
      if (h.oldStart + oldCount h.kinds < 2 ^ 32 ∧ h.newStart + newCount h.kinds < 2 ^ 32) ∧
          file.additions + h.kinds.count .add < 2 ^ 32 ∧
          file.deletions + h.kinds.count .del < 2 ^ 32 then
        some (file.addHunk h :: files)
      else none := by
  have hat : startsWith "@@" (stripCr h.header) = true := by
    rw [HunkChange.header_eq, stripCr_lit (by simp)]
    simp [startsWith]
  have hf : startsWith "diff --git " (stripCr h.header) = false := by
    rw [HunkChange.header_eq, stripCr_lit (by simp)]
    simp [startsWith]
  have hstart : parseLine s (stripCr h.header) =
      some { files := { file with hunks := file.hunks ++ [⟨stripCr h.header, []⟩] } :: files
             inHunk := true, oldNo := h.oldStart, newNo := h.newStart } := by
    simp only [parseLine, hf, hfiles, hat, parseHunkHeader_header]
    rfl
  rw [HunkChange.raws, List.map_cons, List.map_map, List.foldlM_cons, hstart]
  refine (@run_lines ⟨_, true, h.oldStart, h.newStart⟩
    { file with hunks := file.hunks ++ [⟨stripCr h.header, []⟩] } files file.hunks
    (stripCr h.header) [] rfl rfl rfl ⟨ha, hd, h.old_lt, h.new_lt⟩ h.lines).trans
      (if_congr ?_ rfl rfl)
  unfold ParseState.RunRoom
  tauto

theorem kinds_numbered (f : List Char → List Char) (old new : ℕ) (lines : List BodyLine) :
    (numbered f old new lines).map (·.kind) = lines.map (·.kind) := by
  induction lines generalizing old new with
  | nil => rfl
  | cons line lines ih => rw [numbered, List.map_cons, List.map_cons, ih]

/-- The file with hunks behind its own. -/
def FileDiff.addHunks (file : FileDiff) (hunks : List HunkChange) : FileDiff :=
  { file with
    hunks := file.hunks ++ hunks.map (·.shown stripCr)
    additions := file.additions + (hunks.flatMap (·.kinds)).count .add
    deletions := file.deletions + (hunks.flatMap (·.kinds)).count .del
    maxLine := ((hunks.flatMap fun h => (h.shown stripCr).lines).flatMap (·.numbers)).foldl max
      file.maxLine }

theorem addHunks_cons (file : FileDiff) (h : HunkChange) (hunks : List HunkChange) :
    (file.addHunk h).addHunks hunks = file.addHunks (h :: hunks) := by
  have hkinds : (h.shown stripCr).lines.map (·.kind) = h.kinds := kinds_numbered _ _ _ _
  simp only [FileDiff.addHunks, FileDiff.addHunk, FileDiff.grow, hkinds, List.flatMap_cons,
    List.flatMap_append, List.count_append, List.foldl_append, List.map_cons, List.append_assoc,
    List.nil_append, Nat.add_assoc]
  rfl

/-- **The hunks of a file.** -/
theorem run_hunks (hfiles : s.files = file :: files) (ha : file.additions < 2 ^ 32)
    (hd : file.deletions < 2 ^ 32) (hunks : List HunkChange) :
    (((hunks.flatMap (·.raws)).map stripCr).foldlM parseLine s).map (·.files) =
      if (∀ h ∈ hunks, h.Fits) ∧
          file.additions + (hunks.flatMap (·.kinds)).count .add < 2 ^ 32 ∧
          file.deletions + (hunks.flatMap (·.kinds)).count .del < 2 ^ 32 then
        some (file.addHunks hunks :: files)
      else none := by
  induction hunks generalizing s file with
  | nil =>
    rw [if_pos ⟨by simp, ha, hd⟩]
    simp [hfiles, FileDiff.addHunks]
  | cons h hunks ih =>
    have hhunk := run_hunk hfiles ha hd h
    have hkinds : (h.shown stripCr).lines.map (·.kind) = h.kinds := kinds_numbered _ _ _ _
    rw [List.flatMap_cons, List.map_append, List.foldlM_append]
    split_ifs at hhunk with hroom
    · obtain ⟨s', hs', hfiles'⟩ := Option.map_eq_some_iff.mp hhunk
      have hadd : (file.addHunk h).additions = file.additions + h.kinds.count .add := by
        rw [← hkinds]
        rfl
      have hdel : (file.addHunk h).deletions = file.deletions + h.kinds.count .del := by
        rw [← hkinds]
        rfl
      have hrun := ih hfiles' (hadd ▸ hroom.2.1) (hdel ▸ hroom.2.2)
      rw [hs']
      refine hrun.trans (if_congr ?_ (by rw [addHunks_cons]) rfl)
      rw [hadd, hdel, List.forall_mem_cons, List.flatMap_cons, List.count_append, List.count_append,
        HunkChange.Fits]
      have hfits := hroom.1
      simp only [Nat.add_assoc]
      tauto
    · rw [Option.map_eq_none_iff.mp hhunk, if_neg]
      · rfl
      · rw [List.forall_mem_cons, List.flatMap_cons, List.count_append, List.count_append]
        rintro ⟨⟨hfits, -⟩, hadd, hdel⟩
        exact hroom ⟨hfits, by omega, by omega⟩

/-! ### Sections -/

theorem IsHeader.plain {raw : List Char} (h : IsHeader raw) :
    isFileLine (stripCr raw) = false ∧ startsWith "@@" (stripCr raw) = false := by
  have hmarks : ∀ mark ∈ headerMarks, mark.toList.getLast? ≠ some '\r' ∧
      2 ≤ mark.toList.length ∧ mark.toList.take 2 ≠ ['d', 'i'] ∧
        mark.toList.take 2 ≠ ['@', '@'] := by simp [headerMarks]
  obtain ⟨mark, hmark, t, -, rfl⟩ := h
  obtain ⟨hcr, hlen, hd, hat⟩ := hmarks mark hmark
  rw [stripCr_lit hcr]
  have htake : ∀ pre : List Char, 2 ≤ pre.length → pre <+: mark.toList ++ stripCr t →
      mark.toList.take 2 = pre.take 2 := by
    rintro pre hpre ⟨rest, hrest⟩
    rw [← List.take_append_of_le_length hlen, ← hrest, List.take_append_of_le_length hpre]
  constructor
  · exact decide_eq_false fun hp => hd (htake _ (by decide) hp)
  · exact decide_eq_false fun hp => hat (htake _ (by decide) hp)

theorem run_headers (hfiles : s.files = file :: files) (hin : s.inHunk = false)
    {raws : List (List Char)} (hraws : ∀ raw ∈ raws, IsHeader raw) :
    (raws.map stripCr).foldlM parseLine s =
      some { s with files := readHeaders raws file :: files } := by
  induction raws generalizing s file with
  | nil => simp [readHeaders_nil, ← hfiles]
  | cons raw raws ih =>
    obtain ⟨hf, hat⟩ := (hraws raw List.mem_cons_self).plain
    have hf' : startsWith "diff --git " (stripCr raw) = false := hf
    have hline : parseLine s (stripCr raw) =
        some { s with files := readHeader file (stripCr raw) :: files } := by
      simp [parseLine, hf', hfiles, hat, hin]
    rw [List.map_cons, List.foldlM_cons, hline, readHeaders_cons]
    exact @ih { s with files := readHeader file (stripCr raw) :: files } _ rfl hin fun r hr =>
      hraws r (List.mem_cons_of_mem _ hr)

theorem stripCr_gitRest (old new : List Char) :
    stripCr (gitRest old new) = gitRest old (stripCr new) := by
  rw [gitRest, stripCr_append _ (by simp [pathMark]), @stripCr_lit pathMark (by simp [pathMark])]
  rfl

/-- **A section.** -/
theorem run_section (s : ParseState) (c : FileChange) :
    ((c.raws.map stripCr).foldlM parseLine s).map (·.files) =
      if c.Fits then some (c.parsed :: s.files) else none := by
  obtain ⟨old, new, hpaths⟩ : ∃ old new,
      parseGitPaths (gitRest c.oldPath (stripCr c.path.text)) = (old, new) := ⟨_, _, rfl⟩
  have hgit : stripCr c.gitLine =
      "diff --git ".toList ++ gitRest c.oldPath (stripCr c.path.text) := by
    unfold FileChange.gitLine
    generalize c.oldPath = o
    generalize c.path.text = n
    rw [stripCr_append _ (show gitRest o n ≠ [] by simp [gitRest]), stripCr_gitRest]
  have hline : parseLine s (stripCr c.gitLine) =
      some { s with files := .new new (if old = new then none else some old) :: s.files
                    inHunk := false } := by
    have hpre : startsWith "diff --git " ("diff --git ".toList ++
        gitRest c.oldPath (stripCr c.path.text)) = true := decide_eq_true (List.prefix_append _ _)
    have hdrop : ("diff --git ".toList ++ gitRest c.oldPath (stripCr c.path.text)).drop
        "diff --git ".length = gitRest c.oldPath (stripCr c.path.text) := List.drop_left
    rw [hgit, parseLine, if_pos hpre, hdrop, hpaths]
  have hhead : readHeaders c.headers (.new new (if old = new then none else some old)) =
      c.parsedHead := by
    rw [readHeaders_head, FileChange.parsedHead, hpaths]
  rw [FileChange.raws, List.map_cons, List.map_append, List.foldlM_cons, hline]
  show (((c.headers.map stripCr) ++ _).foldlM parseLine _).map (·.files) = _
  rw [List.foldlM_append, run_headers rfl rfl (isHeader c), hhead]
  have hadd : c.parsedHead.additions = 0 := rfl
  have hdel : c.parsedHead.deletions = 0 := rfl
  refine (@run_hunks _ c.parsedHead s.files rfl (by omega) (by omega) c.hunks).trans
    (if_congr ?_ ?_ rfl)
  · rw [hadd, hdel, Nat.zero_add, Nat.zero_add]
    rfl
  · rw [FileDiff.addHunks, hadd, hdel, Nat.zero_add, Nat.zero_add]
    rfl

end Run

theorem run_sections (changes : List FileChange) (s : ParseState) :
    (((changes.flatMap (·.raws)).map stripCr).foldlM parseLine s).map (·.files) =
      if ∀ c ∈ changes, c.Fits then some ((changes.map (·.parsed)).reverse ++ s.files)
      else none := by
  induction changes generalizing s with
  | nil => simp
  | cons c changes ih =>
    have hsection := run_section s c
    rw [List.flatMap_cons, List.map_append, List.foldlM_append]
    split_ifs at hsection with hfits
    · obtain ⟨s', hs', hfiles'⟩ := Option.map_eq_some_iff.mp hsection
      rw [hs']
      refine (ih s').trans (if_congr ?_ ?_ rfl)
      · rw [List.forall_mem_cons, and_iff_right hfits]
      · rw [hfiles']
        simp
    · rw [Option.map_eq_none_iff.mp hsection, if_neg]
      · rfl
      · exact fun h => hfits (h c List.mem_cons_self)

/-- **Patches of git.** Exactly the patches of good changes are parsed to the files that git
showed. -/
theorem parse_render (changes : List FileChange) :
    parsePatch (renderPatch changes) = some (changes.map (·.expected)) ↔
      ∀ c ∈ changes, c.Good := by
  have hlines : textLines (renderPatch changes) = (changes.flatMap (·.raws)).map stripCr :=
    textLines_render fun raw hraw => by
      obtain ⟨c, -, hc⟩ := List.mem_flatMap.mp hraw
      exact c.noBreak raw hc
  have hrun := run_sections changes ⟨[], false, 0, 0⟩
  have hparse : parsePatch (renderPatch changes) =
      if ∀ c ∈ changes, c.Fits then some (changes.map (·.parsed)) else none := by
    rw [parsePatch, hlines]
    have hrev := congrArg (Option.map List.reverse) hrun
    rw [Option.map_map] at hrev
    refine hrev.trans ?_
    split_ifs <;> simp
  rw [hparse]
  have hgood : (∀ c ∈ changes, c.Good) ↔
      (∀ c ∈ changes, c.Fits) ∧ ∀ c ∈ changes, c.parsed = c.expected := by
    rw [← forall₂_and]
    refine forall₂_congr fun c _ => ?_
    rw [parsed_good, FileChange.Good]
    tauto
  rw [hgood]
  split_ifs with hfits
  · rw [Option.some_inj, List.map_inj_left, and_iff_right hfits]
  · simp [hfits]

/-- A modified file whose path has the mark in it. -/
def markedChange : FileChange :=
  { kind := .modified none, path := ⟨"x b/y".toList, by simp⟩, index := none
    body := .text [{
      oldStart := 1, newStart := 1, old_lt := by omega, new_lt := by omega, heading := none
      lines := [⟨.add, ⟨['z'], by simp⟩, by simp⟩] }] }

/-- The file is shown under the part of the path behind the mark. -/
theorem marked_path :
    parsePatch (renderPatch [markedChange]) ≠ some ([markedChange].map (·.expected)) ∧
      (parsePatch (renderPatch [markedChange])).map
          (fun files => files.map fun f => (f.path, f.oldPath, f.status)) =
        some [(['y'], some "x b/y b/x".toList, .modified)] := by
  constructor <;> decide +kernel

end Zeron.Changes
