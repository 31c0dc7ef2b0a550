import Zeron.Changes.Parse

/-!
# Line numbers of a parsed patch

The pane looks lines up by their numbers minus one.

* `FileDiff.numbers`: the stored numbers; `spans`, `excerptSide`, `sourcesMatchPatch`: their uses,
  `none` where an index underflows or is out of bounds;
* `hunksOf`, `Sound`: the hunks of a text, and where their numbers stay between 1 and 32 bits;
* `parseLine_sound`: what a line asks of the lines behind it;
* **`parse_safe`**: exactly on sound texts the parser does not overflow, and all uses are safe.
-/

namespace Zeron.Changes

/-! ## The uses of a number -/

def DiffLine.numbers (line : DiffLine) : List ℕ := line.oldNo.toList ++ line.newNo.toList

def FileDiff.lines (file : FileDiff) : List DiffLine := file.hunks.flatMap (·.lines)

def FileDiff.numbers (file : FileDiff) : List ℕ := file.lines.flatMap (·.numbers)

/-- `number as usize - 1`. -/
def lineIndex (number : ℕ) : Option ℕ := if number = 0 then none else some (number - 1)

inductive SourceSide where
  | old
  | new
  deriving DecidableEq

section Uses

variable {σ : Type}

structure DiffHighlights (σ : Type) where
  old : Option (List (List σ))
  new : Option (List (List σ))

def DiffHighlights.sourceRef (h : DiffHighlights σ) (line : DiffLine) : Option (SourceSide × ℕ) :=
  match line.kind with
  | .del => line.oldNo.map fun n => (.old, n)
  | .add => line.newNo.map fun n => (.new, n)
  | .context =>
    ((line.newNo.filter fun _ => h.new.isSome).map fun n => (.new, n)).orElse fun _ =>
      line.oldNo.map fun n => (.old, n)
  | .marker => none

def DiffHighlights.spans (h : DiffHighlights σ) (line : DiffLine) : Option (List σ) :=
  match h.sourceRef line with
  | none => some []
  | some (side, number) =>
    match (match side with | .old => h.old | .new => h.new) with
    | none => some []
    | some document => (lineIndex number).map fun ix => (document[ix]?).getD []

def DiffLine.numberOn (line : DiffLine) : SourceSide → Option ℕ
  | .old => line.oldNo
  | .new => line.newNo

def maxExcerptSourceLines : ℕ := 200000

/-- `lines[number as usize - 1] = spans` for every pair. -/
def setLines : List (ℕ × List σ) → List (List σ) → Option (List (List σ))
  | [], lines => some lines
  | (number, spans) :: rest, lines => do
    let ix ← lineIndex number
    if ix < lines.length then setLines rest (lines.set ix spans) else none

/-- The hunks of `excerpt_side`; the inner option is its result. -/
def excerptHunks (highlight : List Char → Option (List (List σ))) (side : SourceSide) :
    List Hunk → List (List σ) → Option (Option (List (List σ)))
  | [], lines => some (some lines)
  | hunk :: hunks, lines =>
    let visible := hunk.lines.filterMap fun line =>
      if line.kind = .marker then none else (line.numberOn side).map fun n => (n, line.text)
    if visible = [] then excerptHunks highlight side hunks lines
    else
      match highlight (['\n'].intercalate (visible.map (·.2))) with
      | none => some none
      | some document => do
        let lines ← setLines ((visible.map (·.1)).zip document) lines
        excerptHunks highlight side hunks lines

def excerptSide (highlight : List Char → Option (List (List σ))) (file : FileDiff)
    (side : SourceSide) : Option (Option (List (List σ))) :=
  let maxLine := (file.lines.filterMap (·.numberOn side)).foldl max 0
  if maxExcerptSourceLines < maxLine then some none
  else excerptHunks highlight side file.hunks (List.replicate maxLine [])

end Uses

/-- `source.get(number as usize - 1)`, for a text that may be missing. -/
def sourceLine (source : Option (List (List Char))) (number : Option ℕ) :
    Option (Option (List Char)) :=
  match number, source with
  | some number, some lines => (lineIndex number).map fun ix => lines[ix]?
  | _, _ => some none

def lineMatches (old new : Option (List (List Char))) (line : DiffLine) : Option Bool :=
  match line.kind with
  | .marker => some true
  | .del => (sourceLine old line.oldNo).map fun actual => actual = some line.text
  | .add => (sourceLine new line.newNo).map fun actual => actual = some line.text
  | .context => do
    match ← sourceLine new line.newNo with
    | some actual => return actual = line.text
    | none => return (← sourceLine old line.oldNo) = some line.text

/-- `all` over the lines, up to the first that does not match. -/
def linesMatch (old new : Option (List (List Char))) : List DiffLine → Option Bool
  | [] => some true
  | line :: lines => do
    if ← lineMatches old new line then linesMatch old new lines else return false

def sourcesMatchPatch (file : FileDiff) (oldText newText : Option (List Char)) : Option Bool :=
  linesMatch (oldText.map textLines) (newText.map textLines) file.lines

/-! ## The uses are safe -/

theorem lineIndex_of_pos {number : ℕ} (h : 1 ≤ number) : lineIndex number = some (number - 1) :=
  if_neg (by omega)

/-- The numbers of a file are at least 1. -/
def Positive (file : FileDiff) : Prop := ∀ n ∈ file.numbers, 1 ≤ n

theorem Positive.oldNo {file : FileDiff} (h : Positive file) {line : DiffLine}
    (hl : line ∈ file.lines) {n : ℕ} (hn : line.oldNo = some n) : 1 ≤ n :=
  h n (List.mem_flatMap.mpr ⟨line, hl, by simp [DiffLine.numbers, hn]⟩)

theorem Positive.newNo {file : FileDiff} (h : Positive file) {line : DiffLine}
    (hl : line ∈ file.lines) {n : ℕ} (hn : line.newNo = some n) : 1 ≤ n :=
  h n (List.mem_flatMap.mpr ⟨line, hl, by simp [DiffLine.numbers, hn]⟩)

section Safe

variable {σ : Type} {file : FileDiff}

theorem Positive.sourceRef (h : Positive file) {line : DiffLine} (hl : line ∈ file.lines)
    {highlights : DiffHighlights σ} {side : SourceSide} {n : ℕ}
    (hr : highlights.sourceRef line = some (side, n)) : 1 ≤ n := by
  have hold : ∀ {x : SourceSide × ℕ}, (line.oldNo.map fun n => (SourceSide.old, n)) = some x →
      1 ≤ x.2 := by
    intro x hx
    obtain ⟨m, hm, rfl⟩ := Option.map_eq_some_iff.mp hx
    exact h.oldNo hl hm
  unfold DiffHighlights.sourceRef at hr
  split at hr
  · exact hold hr
  · obtain ⟨m, hm, he⟩ := Option.map_eq_some_iff.mp hr
    cases he
    exact h.newNo hl hm
  · cases hnew : (line.newNo.filter fun _ => highlights.new.isSome).map
        fun n => (SourceSide.new, n) with
    | none =>
      rw [hnew] at hr
      exact hold hr
    | some x =>
      rw [hnew] at hr
      obtain ⟨m, hm, he⟩ := Option.map_eq_some_iff.mp (hnew.trans hr)
      cases he
      exact h.newNo hl (Option.filter_eq_some_iff.mp hm).1
  · simp at hr

theorem Positive.spans_safe (h : Positive file) {line : DiffLine} (hl : line ∈ file.lines)
    (highlights : DiffHighlights σ) : (highlights.spans line).isSome = true := by
  unfold DiffHighlights.spans
  split
  · rfl
  · rename_i side n hr
    have hn := h.sourceRef hl hr
    split
    · rfl
    · rw [lineIndex_of_pos hn]
      rfl

theorem setLines_isSome {pairs : List (ℕ × List σ)} {lines : List (List σ)}
    (h : ∀ p ∈ pairs, 1 ≤ p.1 ∧ p.1 ≤ lines.length) :
    ∃ lines', setLines pairs lines = some lines' ∧ lines'.length = lines.length := by
  induction pairs generalizing lines with
  | nil => exact ⟨lines, rfl, rfl⟩
  | cons p pairs ih =>
    obtain ⟨hpos, hle⟩ := h p List.mem_cons_self
    have hlt : p.1 - 1 < lines.length := by omega
    obtain ⟨lines', hs, hlen⟩ := @ih (lines.set (p.1 - 1) p.2) fun q hq => by
      rw [List.length_set]
      exact h q (List.mem_cons_of_mem _ hq)
    refine ⟨lines', ?_, by rw [hlen, List.length_set]⟩
    rw [setLines, lineIndex_of_pos hpos]
    simpa [hlt] using hs

theorem excerptHunks_isSome (highlight : List Char → Option (List (List σ))) (side : SourceSide)
    {hunks : List Hunk} {lines : List (List σ)}
    (h : ∀ hunk ∈ hunks, ∀ line ∈ hunk.lines, ∀ n ∈ line.numberOn side,
      1 ≤ n ∧ n ≤ lines.length) :
    (excerptHunks highlight side hunks lines).isSome = true := by
  induction hunks generalizing lines with
  | nil => rfl
  | cons hunk hunks ih =>
    have hrest := fun k hk => h k (List.mem_cons_of_mem hunk hk)
    rw [excerptHunks]
    split_ifs with hv
    · exact ih hrest
    · split
      · rfl
      · rename_i document hd
        have hpairs : ∀ p ∈ ((hunk.lines.filterMap fun line =>
            if line.kind = .marker then none
            else (line.numberOn side).map fun n => (n, line.text)).map (·.1)).zip document,
            1 ≤ p.1 ∧ p.1 ≤ lines.length := by
          intro p hp
          obtain ⟨q, hq, hqp⟩ := List.mem_map.mp (List.of_mem_zip hp).1
          obtain ⟨line, hline, he⟩ := List.mem_filterMap.mp hq
          split_ifs at he
          obtain ⟨n, hn, rfl⟩ := Option.map_eq_some_iff.mp he
          rw [← hqp]
          exact h hunk List.mem_cons_self line hline n hn
        obtain ⟨lines', hs, hlen⟩ := setLines_isSome hpairs
        rw [hs]
        exact ih fun k hk line hl n hn => hlen ▸ hrest k hk line hl n hn

theorem le_foldl_max (l : List ℕ) (init : ℕ) :
    init ≤ l.foldl max init ∧ ∀ n ∈ l, n ≤ l.foldl max init := by
  induction l generalizing init with
  | nil => simp
  | cons m l ih =>
    obtain ⟨hinit, hmem⟩ := ih (max init m)
    rw [List.foldl_cons]
    refine ⟨by omega, fun n hn => ?_⟩
    rcases List.mem_cons.mp hn with rfl | hn
    · omega
    · exact hmem n hn

theorem Positive.excerpt_safe (h : Positive file)
    (highlight : List Char → Option (List (List σ))) (side : SourceSide) :
    (excerptSide highlight file side).isSome = true := by
  unfold excerptSide
  dsimp only
  split_ifs with hmax
  · rfl
  · refine excerptHunks_isSome highlight side fun hunk hk line hl n hn => ?_
    have hline : line ∈ file.lines := List.mem_flatMap.mpr ⟨hunk, hk, hl⟩
    rw [List.length_replicate]
    refine ⟨?_, (le_foldl_max _ _).2 n (List.mem_filterMap.mpr ⟨line, hline, hn⟩)⟩
    cases side with
    | old => exact h.oldNo hline hn
    | new => exact h.newNo hline hn

theorem sourceLine_isSome {number : Option ℕ} (h : ∀ n ∈ number, 1 ≤ n)
    (source : Option (List (List Char))) : ∃ actual, sourceLine source number = some actual := by
  unfold sourceLine
  split
  · rw [lineIndex_of_pos (h _ rfl)]
    exact ⟨_, rfl⟩
  · exact ⟨none, rfl⟩

theorem Positive.matches_safe (h : Positive file) (oldText newText : Option (List Char)) :
    (sourcesMatchPatch file oldText newText).isSome = true := by
  have key : ∀ (old new : Option (List (List Char))), ∀ lines ⊆ file.lines,
      (linesMatch old new lines).isSome = true := by
    intro old new lines hsub
    induction lines with
    | nil => rfl
    | cons line lines ih =>
      have hl : line ∈ file.lines := hsub List.mem_cons_self
      obtain ⟨a, ha⟩ := sourceLine_isSome (fun n hn => h.oldNo hl hn) old
      obtain ⟨b, hb⟩ := sourceLine_isSome (fun n hn => h.newNo hl hn) new
      have hline : ∃ m, lineMatches old new line = some m := by
        unfold lineMatches
        split
        · exact ⟨_, rfl⟩
        · exact ⟨_, by rw [ha]; rfl⟩
        · exact ⟨_, by rw [hb]; rfl⟩
        · rw [hb, ha]
          cases b <;> exact ⟨_, rfl⟩
      obtain ⟨m, hm⟩ := hline
      rw [linesMatch, hm]
      cases m with
      | true => exact ih fun x hx => hsub (List.mem_cons_of_mem _ hx)
      | false => rfl
  exact key _ _ _ (List.Subset.refl _)

end Safe

/-! ## Sound texts -/

def isFileLine (raw : List Char) : Bool := startsWith "diff --git " raw

/-- The numbers of a hunk's first line. -/
def hunkStart (raw : List Char) : Option (ℕ × ℕ) :=
  if startsWith "@@" raw then parseHunkHeader raw else none

/-- A line that is in both files, or the kind of its marker. -/
def bodyKind : List Char → Option LineKind
  | '+' :: _ => some .add
  | '-' :: _ => some .del
  | [] | ' ' :: _ => some .context
  | '\\' :: _ => some .marker
  | _ => none

/-- The kinds of the lines of a hunk, from the lines behind its header. -/
def bodyOf : List (List Char) → List LineKind
  | [] => []
  | raw :: rest =>
    if isFileLine raw then []
    else if startsWith "@@" raw then if (parseHunkHeader raw).isSome then [] else bodyOf rest
    else
      match bodyKind raw with
      | some kind => kind :: bodyOf rest
      | none => []

/-- The hunks of a file, from the lines behind its first. -/
def hunksOf : List (List Char) → List ((ℕ × ℕ) × List LineKind)
  | [] => []
  | raw :: rest =>
    if isFileLine raw then []
    else
      match hunkStart raw with
      | some start => (start, bodyOf rest) :: hunksOf rest
      | none => hunksOf rest

/-- The lines of a hunk in a file. -/
def oldCount (body : List LineKind) : ℕ := body.countP fun k => k = .del || k = .context

def newCount (body : List LineKind) : ℕ := body.countP fun k => k = .add || k = .context

/-- So many numbers from `start` on are at least 1 and below the last of 32 bits. -/
def Fits (start count : ℕ) : Prop := (count = 0 ∨ 1 ≤ start) ∧ start + count < 2 ^ 32

instance (start count : ℕ) : Decidable (Fits start count) := inferInstanceAs (Decidable (_ ∧ _))

/-- The numbers of a file's hunks fit, and its counts. -/
def FileFits (hunks : List ((ℕ × ℕ) × List LineKind)) (additions deletions : ℕ) : Prop :=
  (∀ h ∈ hunks, Fits h.1.1 (oldCount h.2) ∧ Fits h.1.2 (newCount h.2)) ∧
    additions + (hunks.map fun h => h.2.count .add).sum < 2 ^ 32 ∧
    deletions + (hunks.map fun h => h.2.count .del).sum < 2 ^ 32

instance (hunks : List ((ℕ × ℕ) × List LineKind)) (additions deletions : ℕ) :
    Decidable (FileFits hunks additions deletions) := inferInstanceAs (Decidable (_ ∧ _))

/-- Every file of the text fits. -/
def Sound : List (List Char) → Prop
  | [] => True
  | raw :: rest => (isFileLine raw = true → FileFits (hunksOf rest) 0 0) ∧ Sound rest

instance : DecidablePred Sound := fun lines => by
  induction lines with
  | nil => exact isTrue trivial
  | cons raw rest ih =>
    unfold Sound
    exact @instDecidableAnd _ _ inferInstance ih

/-! ## A run of the parser -/

/-- What the parser keeps. -/
structure ParseState.Inv (s : ParseState) : Prop where
  bounded : ∀ file ∈ s.files, ∀ n ∈ file.numbers, n ≤ file.maxLine
  counts : ∀ file ∈ s.files, file.additions < 2 ^ 32 ∧ file.deletions < 2 ^ 32
  hunk : s.inHunk = true → ∀ file ∈ s.files.head?, file.hunks ≠ []
  nos : s.oldNo < 2 ^ 32 ∧ s.newNo < 2 ^ 32

/-- The stored numbers are at least 1. -/
def ParseState.Positive (s : ParseState) : Prop := ∀ file ∈ s.files, Changes.Positive file

/-- The rest of the hunk, if there is one. -/
def ParseState.body (s : ParseState) (rest : List (List Char)) : List LineKind :=
  if s.inHunk then bodyOf rest else []

/-- What the lines behind must meet. -/
def ParseState.Asks (s : ParseState) (rest : List (List Char)) : Prop :=
  Sound rest ∧
    ∀ file ∈ s.files.head?,
      FileFits (hunksOf rest) (file.additions + (s.body rest).count .add)
        (file.deletions + (s.body rest).count .del) ∧
      (s.inHunk = true → Fits s.oldNo (oldCount (s.body rest)) ∧
        Fits s.newNo (newCount (s.body rest)))

theorem lines_pushLine {hunks : List Hunk} (h : hunks ≠ []) (line : DiffLine) :
    (pushLine line hunks).flatMap (·.lines) = hunks.flatMap (·.lines) ++ [line] := by
  induction hunks with
  | nil => exact absurd rfl h
  | cons hunk hunks ih =>
    cases hunks with
    | nil => simp [pushLine]
    | cons hunk' hunks =>
      show hunk.lines ++ (pushLine line (hunk' :: hunks)).flatMap (·.lines) = _
      simp [ih (by simp)]

theorem numbers_push {file : FileDiff} (h : file.hunks ≠ []) (line : DiffLine) :
    (file.push line).numbers = file.numbers ++ line.numbers := by
  rw [FileDiff.push, if_neg h]
  unfold FileDiff.numbers FileDiff.lines
  rw [lines_pushLine h, List.flatMap_append, List.flatMap_singleton]

theorem pushLine_ne_nil {hunks : List Hunk} (h : hunks ≠ []) (line : DiffLine) :
    pushLine line hunks ≠ [] := by
  cases hunks with
  | nil => exact absurd rfl h
  | cons hunk hunks => cases hunks <;> simp [pushLine]

theorem maxLine_push {file : FileDiff} (h : file.hunks ≠ []) (line : DiffLine) :
    file.maxLine ≤ (file.push line).maxLine ∧
      ∀ n ∈ line.numbers, n ≤ (file.push line).maxLine := by
  rw [FileDiff.push, if_neg h]
  refine ⟨by dsimp only; omega, fun n hn => ?_⟩
  dsimp only
  rcases List.mem_append.mp hn with hn | hn
  · rw [Option.mem_toList.mp hn, Option.getD_some]
    omega
  · rw [Option.mem_toList.mp hn, Option.getD_some]
    omega

/-- `f` has the lines and the counters of `file`. -/
def FileDiff.SameLines (file f : FileDiff) : Prop :=
  f.hunks = file.hunks ∧ f.additions = file.additions ∧ f.deletions = file.deletions ∧
    f.maxLine = file.maxLine

theorem readHeader_same (file : FileDiff) (raw : List Char) :
    file.SameLines (readHeader file raw) := by
  unfold readHeader
  -- every branch updates other fields
  repeat' refine iteInduction (fun _ => ?_) fun _ => ?_
  all_goals exact ⟨rfl, rfl, rfl, rfl⟩

theorem parseU32_lt {text : List Char} {k : ℕ} (h : parseU32 text = some k) : k < 2 ^ 32 := by
  unfold parseU32 at h
  dsimp only at h
  generalize (if text.head? = some '+' then text.tail else text) = digits at h
  split_ifs at h with hd
  rw [← Option.some.inj h]
  exact hd.2.2

theorem hunkStart_lt {raw : List Char} {o n : ℕ} (h : hunkStart raw = some (o, n)) :
    o < 2 ^ 32 ∧ n < 2 ^ 32 := by
  have hnum : ∀ {sign : Char} {text : List Char} {k : ℕ}, signedNumber sign text = some k →
      k < 2 ^ 32 := by
    intro sign text k hk
    unfold signedNumber at hk
    split at hk
    · simp at hk
    · exact parseU32_lt hk
  unfold hunkStart parseHunkHeader at h
  split_ifs at h
  simp only [Option.bind_eq_bind, Option.bind_eq_some_iff, Option.pure_def, Option.some_inj,
    Prod.mk.injEq] at h
  obtain ⟨rest, -, o', ho, n', hn, rfl, rfl⟩ := h
  exact ⟨hnum ho, hnum hn⟩

/-- What a parsed line leaves: the invariant, and what is asked of the lines behind. -/
def Follows (s : ParseState) (raw : List Char) (rest : List (List Char)) (s' : ParseState) :
    Prop :=
  s'.Inv ∧ (s'.Positive ∧ s'.Asks rest ↔ s.Positive ∧ s.Asks (raw :: rest))

section Cases

variable {s : ParseState} {raw : List Char} {rest : List (List Char)}

theorem fits_zero {start : ℕ} (h : start < 2 ^ 32) : Fits start 0 := ⟨.inl rfl, h⟩

theorem asks_of_files {file : FileDiff} {files : List FileDiff} (hf : s.files = file :: files)
    (rest : List (List Char)) :
    s.Asks rest ↔ Sound rest ∧
      FileFits (hunksOf rest) (file.additions + (s.body rest).count .add)
        (file.deletions + (s.body rest).count .del) ∧
      (s.inHunk = true → Fits s.oldNo (oldCount (s.body rest)) ∧
        Fits s.newNo (newCount (s.body rest))) := by
  simp [ParseState.Asks, hf]

theorem asks_of_end (hi : s.Inv) (hbody : s.body rest = []) (hhunks : hunksOf rest = []) :
    s.Asks rest ↔ Sound rest := by
  refine ⟨And.left, fun h => ⟨h, fun file hfile => ?_⟩⟩
  obtain ⟨ha, hd⟩ := hi.counts file (List.mem_of_mem_head? hfile)
  rw [hbody, hhunks]
  exact ⟨⟨by simp, by simpa using ha, by simpa using hd⟩, fun _ =>
    ⟨fits_zero hi.nos.1, fits_zero hi.nos.2⟩⟩

theorem positive_cons {file : FileDiff} {files : List FileDiff} (hf : s.files = file :: files) :
    s.Positive ↔ Changes.Positive file ∧ ∀ f ∈ files, Changes.Positive f := by
  simp [ParseState.Positive, hf]

theorem follows_file (hi : s.Inv) (hf : isFileLine raw = true) (path : List Char)
    (oldPath : Option (List Char)) :
    Follows s raw rest { s with files := .new path oldPath :: s.files, inHunk := false } := by
  have hbody : s.body (raw :: rest) = [] := by
    unfold ParseState.body
    split_ifs
    · rw [bodyOf, if_pos hf]
    · rfl
  have hhunks : hunksOf (raw :: rest) = [] := by rw [hunksOf, if_pos hf]
  refine ⟨⟨?_, ?_, by simp, hi.nos⟩, ?_⟩
  · intro file hfile
    rcases List.mem_cons.mp hfile with rfl | hfile
    · simp [FileDiff.new, FileDiff.numbers, FileDiff.lines]
    · exact hi.bounded file hfile
  · intro file hfile
    rcases List.mem_cons.mp hfile with rfl | hfile
    · simp [FileDiff.new]
    · exact hi.counts file hfile
  · have hnew : Changes.Positive (FileDiff.new path oldPath) := by
      simp [Changes.Positive, FileDiff.new, FileDiff.numbers, FileDiff.lines]
    rw [asks_of_files rfl, asks_of_end hi hbody hhunks, positive_cons rfl, Sound]
    simp only [ParseState.body, hf, Bool.false_eq_true, if_false, List.count_nil,
      FileDiff.new, forall_const, false_implies, and_true, ParseState.Positive]
    tauto

theorem follows_nothing (hi : s.Inv) (hf : isFileLine raw = false) (hnil : s.files = []) :
    Follows s raw rest s := by
  refine ⟨hi, ?_⟩
  simp [ParseState.Asks, hnil, Sound, hf]

theorem follows_skip (hi : s.Inv) (hf : isFileLine raw = false) (hat : startsWith "@@" raw = true)
    (hnone : parseHunkHeader raw = none) : Follows s raw rest s := by
  refine ⟨hi, ?_⟩
  have hbody : s.body (raw :: rest) = s.body rest := by
    simp [ParseState.body, bodyOf, hf, hat, hnone]
  have hhunks : hunksOf (raw :: rest) = hunksOf rest := by
    simp [hunksOf, hunkStart, hf, hat, hnone]
  rw [ParseState.Asks, ParseState.Asks, hbody, hhunks, Sound]
  simp [hf]

theorem follows_hunk (hi : s.Inv) (hf : isFileLine raw = false) {o n : ℕ}
    (hstart : hunkStart raw = some (o, n)) {file : FileDiff} {files : List FileDiff}
    (hfiles : s.files = file :: files) :
    Follows s raw rest
      { files := { file with hunks := file.hunks ++ [⟨raw, []⟩] } :: files
        inHunk := true, oldNo := o, newNo := n } := by
  have hat : startsWith "@@" raw = true := by
    unfold hunkStart at hstart
    split_ifs at hstart with h
    exact h
  have hsome : (parseHunkHeader raw).isSome = true := by
    unfold hunkStart at hstart
    rw [if_pos hat] at hstart
    rw [hstart]
    rfl
  have hbody : s.body (raw :: rest) = [] := by
    unfold ParseState.body
    split_ifs
    · simp [bodyOf, hf, hat, hsome]
    · rfl
  have hhunks : hunksOf (raw :: rest) = ((o, n), bodyOf rest) :: hunksOf rest := by
    simp [hunksOf, hf, hstart]
  have hnumbers : FileDiff.numbers { file with hunks := file.hunks ++ [⟨raw, []⟩] } =
      file.numbers := by
    simp [FileDiff.numbers, FileDiff.lines]
  have hmem : ∀ f ∈ files, f ∈ s.files := fun f hf => by
    rw [hfiles]
    exact List.mem_cons_of_mem _ hf
  have hfile : file ∈ s.files := by
    rw [hfiles]
    exact List.mem_cons_self
  refine ⟨⟨?_, ?_, ?_, hunkStart_lt hstart⟩, ?_⟩
  · intro f hf
    rcases List.mem_cons.mp hf with rfl | hf
    · rw [hnumbers]
      exact hi.bounded file hfile
    · exact hi.bounded f (hmem f hf)
  · intro f hf
    rcases List.mem_cons.mp hf with rfl | hf
    · exact hi.counts file hfile
    · exact hi.counts f (hmem f hf)
  · intro _ f hf
    simp only [List.head?_cons, Option.mem_def, Option.some_inj] at hf
    rw [← hf]
    simp
  · have hz : s.inHunk = true → Fits s.oldNo 0 ∧ Fits s.newNo 0 := fun _ =>
      ⟨fits_zero hi.nos.1, fits_zero hi.nos.2⟩
    rw [asks_of_files rfl, asks_of_files hfiles, positive_cons rfl, positive_cons hfiles, hbody,
      hhunks, Sound]
    simp only [Changes.Positive, hnumbers, ParseState.body, if_true, FileFits, List.forall_mem_cons,
      List.map_cons, List.sum_cons, hf, Bool.false_eq_true, false_implies, true_and, List.count_nil,
      Nat.add_zero, forall_const, oldCount, newCount, List.countP_nil, ← Nat.add_assoc]
    tauto

/-! ### Lines of a hunk -/

def onOld (kind : LineKind) : Bool := decide (kind = .del ∨ kind = .context)

def onNew (kind : LineKind) : Bool := decide (kind = .add ∨ kind = .context)

/-- The line of this kind that comes next. -/
def ParseState.lineOf (s : ParseState) (kind : LineKind) (text : List Char) : DiffLine :=
  { kind
    oldNo := if onOld kind then some s.oldNo else none
    newNo := if onNew kind then some s.newNo else none
    text }

/-- The file with the line counted. -/
def FileDiff.count (file : FileDiff) (kind : LineKind) : FileDiff :=
  { file with
    additions := file.additions + [kind].count .add
    deletions := file.deletions + [kind].count .del }

/-- The state behind the line. -/
def ParseState.take (s : ParseState) (file : FileDiff) (files : List FileDiff) (kind : LineKind)
    (text : List Char) : ParseState :=
  { s with
    files := (file.count kind).push (s.lineOf kind text) :: files
    oldNo := s.oldNo + oldCount [kind]
    newNo := s.newNo + newCount [kind] }

/-- No counter leaves 32 bits. -/
def ParseState.Room (s : ParseState) (file : FileDiff) (kind : LineKind) : Prop :=
  (kind = .add → file.additions + 1 < 2 ^ 32) ∧ (kind = .del → file.deletions + 1 < 2 ^ 32) ∧
    (onOld kind = true → s.oldNo + 1 < 2 ^ 32) ∧ (onNew kind = true → s.newNo + 1 < 2 ^ 32)

theorem addOne_bind {α : Type} (n : ℕ) (f : ℕ → Option α) :
    (addOne n >>= f) = if n + 1 < 2 ^ 32 then f (n + 1) else none := by
  unfold addOne
  split_ifs <;> rfl

/-- The text of a line of a hunk. -/
def bodyText (raw : List Char) : List Char :=
  if raw.head? = some '\\' then trimText (raw.dropWhile (· = '\\')) else raw.drop 1

theorem hunkLine_body {file : FileDiff} {files : List FileDiff} {kind : LineKind}
    (h : bodyKind raw = some kind) :
    (s.Room file kind ∧ hunkLine s file files raw = some (s.take file files kind (bodyText raw))) ∨
      (¬ s.Room file kind ∧ hunkLine s file files raw = none) := by
  unfold bodyKind at h
  split at h <;> cases h
  all_goals
    simp only [hunkLine, addOne_bind, ParseState.Room, ParseState.take, ParseState.lineOf, bodyText,
      FileDiff.count, onOld, onNew, oldCount, newCount]
    split_ifs <;> simp_all

theorem fits_add {start count : ℕ} (b : Bool) :
    Fits start (b.toNat + count) ↔ (b = true → 1 ≤ start) ∧ Fits (start + b.toNat) count := by
  cases b with
  | false => simp [Fits]
  | true =>
    simp only [Fits, Bool.toNat_true, forall_const]
    omega

theorem oldCount_cons (kind : LineKind) (body : List LineKind) :
    oldCount (kind :: body) = (onOld kind).toNat + oldCount body := by
  cases kind <;> simp [oldCount, onOld, Nat.add_comm]

theorem newCount_cons (kind : LineKind) (body : List LineKind) :
    newCount (kind :: body) = (onNew kind).toNat + newCount body := by
  cases kind <;> simp [newCount, onNew, Nat.add_comm]

theorem body_cons (hf : isFileLine raw = false) (hat : startsWith "@@" raw = false)
    {kind : LineKind} (hk : bodyKind raw = some kind) :
    bodyOf (raw :: rest) = kind :: bodyOf rest ∧ hunksOf (raw :: rest) = hunksOf rest := by
  simp [bodyOf, hunksOf, hunkStart, hf, hat, hk]

theorem room_of_asks (hf : isFileLine raw = false) (hat : startsWith "@@" raw = false)
    {kind : LineKind} (hk : bodyKind raw = some kind) {file : FileDiff} {files : List FileDiff}
    (hfiles : s.files = file :: files) (hin : s.inHunk = true) (h : s.Asks (raw :: rest)) :
    s.Room file kind := by
  obtain ⟨hbody, hhunks⟩ := @body_cons raw rest hf hat kind hk
  rw [asks_of_files hfiles, ParseState.body, if_pos hin, hbody, hhunks, oldCount_cons,
    newCount_cons] at h
  obtain ⟨-, ⟨-, ha, hd⟩, hfits⟩ := h
  obtain ⟨ho, hn⟩ := hfits hin
  refine ⟨?_, ?_, ?_, ?_⟩
  · rintro rfl
    rw [List.count_cons_self] at ha
    omega
  · rintro rfl
    rw [List.count_cons_self] at hd
    omega
  · intro hon
    have hlt := ho.2
    rw [hon, Bool.toNat_true] at hlt
    omega
  · intro hon
    have hlt := hn.2
    rw [hon, Bool.toNat_true] at hlt
    omega

theorem numbers_lineOf (kind : LineKind) (text : List Char) :
    (s.lineOf kind text).numbers =
      (if onOld kind then [s.oldNo] else []) ++ (if onNew kind then [s.newNo] else []) := by
  cases kind <;> rfl

theorem follows_body (hi : s.Inv) (hf : isFileLine raw = false)
    (hat : startsWith "@@" raw = false) {kind : LineKind} (hk : bodyKind raw = some kind)
    {file : FileDiff} {files : List FileDiff} (hfiles : s.files = file :: files)
    (hin : s.inHunk = true) (hroom : s.Room file kind) (text : List Char) :
    Follows s raw rest (s.take file files kind text) := by
  obtain ⟨hbody, hhunks⟩ := @body_cons raw rest hf hat kind hk
  have hmem : ∀ f ∈ files, f ∈ s.files := fun f hf => by
    rw [hfiles]
    exact List.mem_cons_of_mem _ hf
  have hfile : file ∈ s.files := by
    rw [hfiles]
    exact List.mem_cons_self
  have hne : (file.count kind).hunks ≠ [] := hi.hunk hin file (by simp [hfiles])
  have hpush : ((file.count kind).push (s.lineOf kind text)).additions =
        file.additions + [kind].count .add ∧
      ((file.count kind).push (s.lineOf kind text)).deletions =
        file.deletions + [kind].count .del ∧
      ((file.count kind).push (s.lineOf kind text)).hunks ≠ [] := by
    rw [FileDiff.push, if_neg hne]
    exact ⟨rfl, rfl, pushLine_ne_nil hne _⟩
  have hnumbers := numbers_push hne (s.lineOf kind text)
  have hold : oldCount [kind] = (onOld kind).toNat := oldCount_cons kind []
  have hnew : newCount [kind] = (onNew kind).toNat := newCount_cons kind []
  refine ⟨⟨?_, ?_, ?_, ?_⟩, ?_⟩
  · intro f hf n hn
    rcases List.mem_cons.mp hf with rfl | hf
    · obtain ⟨hle, hline⟩ := maxLine_push hne (s.lineOf kind text)
      rw [hnumbers] at hn
      rcases List.mem_append.mp hn with hn | hn
      · exact (hi.bounded file hfile n hn).trans hle
      · exact hline n hn
    · exact hi.bounded f (hmem f hf) n hn
  · intro f hf
    rcases List.mem_cons.mp hf with rfl | hf
    · obtain ⟨ha, hd⟩ := hi.counts file hfile
      obtain ⟨hra, hrd, -, -⟩ := hroom
      rw [hpush.1, hpush.2.1]
      cases kind <;> simp_all
    · exact hi.counts f (hmem f hf)
  · intro _ f hf
    simp only [ParseState.take, List.head?_cons, Option.mem_def, Option.some_inj] at hf
    rw [← hf]
    exact hpush.2.2
  · obtain ⟨-, -, hro, hrn⟩ := hroom
    obtain ⟨hlo, hln⟩ := hi.nos
    simp only [ParseState.take, hold, hnew]
    constructor
    · cases h : onOld kind with
      | true => simpa [h] using hro
      | false => simpa using hlo
    · cases h : onNew kind with
      | true => simpa [h] using hrn
      | false => simpa using hln
  · have hadd : ∀ k : LineKind, (kind :: bodyOf rest).count k = [kind].count k +
        (bodyOf rest).count k := fun k => by
      rw [← List.singleton_append, List.count_append]
    rw [@asks_of_files (s.take file files kind text) _ files rfl, asks_of_files hfiles,
      @positive_cons (s.take file files kind text) _ files rfl, positive_cons hfiles]
    have hpos : Changes.Positive ((file.count kind).push (s.lineOf kind text)) ↔
        Changes.Positive file ∧ (onOld kind = true → 1 ≤ s.oldNo) ∧
          (onNew kind = true → 1 ≤ s.newNo) := by
      rw [Changes.Positive, hnumbers, numbers_lineOf]
      show (∀ n ∈ file.numbers ++ _, 1 ≤ n) ↔ _
      cases onOld kind <;> cases onNew kind <;>
        simp [Changes.Positive, or_imp, forall_and]
    rw [hpos]
    simp only [ParseState.body, ParseState.take, hin, if_true, hbody, hhunks, hpush, hold, hnew,
      oldCount_cons, newCount_cons, fits_add, hadd, Sound, hf, Bool.false_eq_true, false_implies,
      true_and, forall_const, Nat.add_assoc]
    tauto

/-! ### Headers -/

theorem hunkLine_header {file : FileDiff} {files : List FileDiff} (h : bodyKind raw = none) :
    hunkLine s file files raw =
      some { s with files := readHeader file raw :: files, inHunk := false } := by
  unfold bodyKind at h
  split at h <;> simp_all [hunkLine]

theorem numbers_readHeader (file : FileDiff) (raw : List Char) :
    (readHeader file raw).numbers = file.numbers := by
  rw [FileDiff.numbers, FileDiff.lines, (readHeader_same file raw).1]
  rfl

theorem follows_header (hi : s.Inv) (hf : isFileLine raw = false)
    (hat : startsWith "@@" raw = false) (hk : s.inHunk = true → bodyKind raw = none)
    {file : FileDiff} {files : List FileDiff} (hfiles : s.files = file :: files) :
    Follows s raw rest { s with files := readHeader file raw :: files, inHunk := false } := by
  obtain ⟨-, hadds, hdels, hmax⟩ := readHeader_same file raw
  have hnumbers := numbers_readHeader file raw
  have hbody : s.body (raw :: rest) = [] := by
    unfold ParseState.body
    split_ifs with hin
    · simp [bodyOf, hf, hat, hk hin]
    · rfl
  have hhunks : hunksOf (raw :: rest) = hunksOf rest := by simp [hunksOf, hunkStart, hf, hat]
  have hmem : ∀ f ∈ files, f ∈ s.files := fun f hf => by
    rw [hfiles]
    exact List.mem_cons_of_mem _ hf
  have hfile : file ∈ s.files := by
    rw [hfiles]
    exact List.mem_cons_self
  refine ⟨⟨?_, ?_, by simp, hi.nos⟩, ?_⟩
  · intro f hf
    rcases List.mem_cons.mp hf with rfl | hf
    · rw [hnumbers, hmax]
      exact hi.bounded file hfile
    · exact hi.bounded f (hmem f hf)
  · intro f hf
    rcases List.mem_cons.mp hf with rfl | hf
    · rw [hadds, hdels]
      exact hi.counts file hfile
    · exact hi.counts f (hmem f hf)
  · have hz : s.inHunk = true → Fits s.oldNo 0 ∧ Fits s.newNo 0 := fun _ =>
      ⟨fits_zero hi.nos.1, fits_zero hi.nos.2⟩
    rw [asks_of_files rfl, asks_of_files hfiles, positive_cons rfl, positive_cons hfiles, hbody,
      hhunks, Sound]
    simp only [Changes.Positive, hnumbers, ParseState.body, Bool.false_eq_true, if_false, hadds,
      hdels, hf, false_implies, true_and, and_true, oldCount, newCount, List.countP_nil]
    tauto

end Cases

/-- **One line.** If it is parsed, the state asks of it and of the lines behind it what the next
state asks of these; else it asks too much. -/
theorem parseLine_sound {s : ParseState} (hi : s.Inv) (raw : List Char) (rest : List (List Char)) :
    (parseLine s raw = none → ¬ (s.Positive ∧ s.Asks (raw :: rest))) ∧
      ∀ s', parseLine s raw = some s' → Follows s raw rest s' := by
  have hsome : ∀ {s₁ : ParseState}, parseLine s raw = some s₁ → Follows s raw rest s₁ →
      (parseLine s raw = none → ¬ (s.Positive ∧ s.Asks (raw :: rest))) ∧
        ∀ s', parseLine s raw = some s' → Follows s raw rest s' := by
    intro s₁ h₁ hfollows
    rw [h₁]
    refine ⟨by simp, fun s' h' => ?_⟩
    rw [← Option.some.inj h']
    exact hfollows
  cases hf : isFileLine raw with
  | true =>
    have hf' : startsWith "diff --git " raw = true := hf
    exact hsome (by rw [parseLine, if_pos hf']) (follows_file hi hf _ _)
  | false =>
    have hf' : startsWith "diff --git " raw = false := hf
    cases hfiles : s.files with
    | nil => exact hsome (by simp [parseLine, hf', hfiles]) (follows_nothing hi hf hfiles)
    | cons file files =>
      cases hat : startsWith "@@" raw with
      | true =>
        cases hstart : parseHunkHeader raw with
        | none =>
          exact hsome (by simp [parseLine, hf', hfiles, hat, hstart])
            (follows_skip hi hf hat hstart)
        | some start =>
          exact hsome (by simp only [parseLine, hf', hfiles, hat, hstart]; rfl)
            (@follows_hunk s raw rest hi hf start.1 start.2 (by rw [hunkStart, if_pos hat, hstart])
              file files hfiles)
      | false =>
        cases hin : s.inHunk with
        | false =>
          exact hsome (by simp [parseLine, hf', hfiles, hat, hin])
            (follows_header hi hf hat (by simp [hin]) hfiles)
        | true =>
          have hline : parseLine s raw = hunkLine s file files raw := by
            simp [parseLine, hf', hfiles, hat, hin]
          cases hk : bodyKind raw with
          | none =>
            exact hsome (hline.trans (hunkLine_header hk))
              (follows_header hi hf hat (fun _ => hk) hfiles)
          | some kind =>
            rcases @hunkLine_body s raw file files kind hk with ⟨hroom, he⟩ | ⟨hroom, he⟩
            · exact hsome (hline.trans he) (follows_body hi hf hat hk hfiles hin hroom _)
            · rw [hline, he]
              refine ⟨fun _ h => hroom (room_of_asks hf hat hk hfiles hin h.2), by simp⟩

/-- **The rest of a run.** -/
theorem foldlM_parseLine {s : ParseState} (hi : s.Inv) (rest : List (List Char)) :
    (∀ s', rest.foldlM parseLine s = some s' → s'.Inv) ∧
      ((∃ s', rest.foldlM parseLine s = some s' ∧ s'.Positive) ↔ s.Positive ∧ s.Asks rest) := by
  induction rest generalizing s with
  | nil =>
    refine ⟨fun s' hs => Option.some.inj hs ▸ hi, ?_, fun h => ⟨s, rfl, h.1⟩⟩
    rintro ⟨s', hs, hp⟩
    rw [← Option.some.inj hs] at hp
    refine ⟨hp, trivial, fun file hfile => ?_⟩
    obtain ⟨ha, hd⟩ := hi.counts file (List.mem_of_mem_head? hfile)
    have hbody : s.body [] = [] := by simp [ParseState.body, bodyOf]
    rw [hbody]
    exact ⟨⟨by simp [hunksOf], by simpa [hunksOf] using ha, by simpa [hunksOf] using hd⟩, fun _ =>
      ⟨fits_zero hi.nos.1, fits_zero hi.nos.2⟩⟩
  | cons raw rest ih =>
    obtain ⟨hnone, hsome⟩ := parseLine_sound hi raw rest
    rw [List.foldlM_cons]
    cases hs : parseLine s raw with
    | none => exact ⟨by simp, iff_of_false (by simp) (hnone hs)⟩
    | some s' =>
      obtain ⟨hi', hiff⟩ := hsome s' hs
      rw [← hiff]
      exact ih hi'

/-! ## Whole texts -/

/-- Every number of the file is one of its lines. -/
def FileDiff.Numbered (file : FileDiff) : Prop := ∀ n ∈ file.numbers, 1 ≤ n ∧ n ≤ file.maxLine

/-- No use of a number of the file underflows or leaves its table. -/
def FileDiff.Safe (file : FileDiff) : Prop :=
  (∀ (σ : Type) (highlights : DiffHighlights σ), ∀ line ∈ file.lines,
    (highlights.spans line).isSome = true) ∧
  (∀ (σ : Type) (highlight : List Char → Option (List (List σ))) (side : SourceSide),
    (excerptSide highlight file side).isSome = true) ∧
  ∀ oldText newText, (sourcesMatchPatch file oldText newText).isSome = true

theorem Positive.safe {file : FileDiff} (h : Positive file) : file.Safe :=
  ⟨fun _ highlights _ hl => h.spans_safe hl highlights, fun _ => h.excerpt_safe, h.matches_safe⟩

/-- **The numbers of a patch.** The parser ends, with numbers from 1 to the largest and all uses of
them safe, exactly on the sound texts. -/
theorem parse_safe (patch : List Char) :
    (∃ files, parsePatch patch = some files ∧ ∀ file ∈ files, file.Numbered ∧ file.Safe) ↔
      Sound (textLines patch) := by
  have hi : ParseState.Inv ⟨[], false, 0, 0⟩ := ⟨by simp, by simp, by simp, by simp⟩
  obtain ⟨hinv, key⟩ := foldlM_parseLine hi (textLines patch)
  have hasks : ParseState.Positive ⟨[], false, 0, 0⟩ ∧
      ParseState.Asks ⟨[], false, 0, 0⟩ (textLines patch) ↔ Sound (textLines patch) := by
    simp [ParseState.Positive, ParseState.Asks]
  rw [← hasks, ← key]
  constructor
  · rintro ⟨files, hfiles, hall⟩
    obtain ⟨s', hs', rfl⟩ := Option.map_eq_some_iff.mp hfiles
    exact ⟨s', hs', fun file hfile n hn => ((hall file (List.mem_reverse.mpr hfile)).1 n hn).1⟩
  · rintro ⟨s', hs', hp⟩
    refine ⟨s'.files.reverse, by rw [parsePatch, hs']; rfl, fun file hfile => ?_⟩
    have hmem := List.mem_reverse.mp hfile
    have hle := (hinv s' hs').bounded file hmem
    exact ⟨fun n hn => ⟨hp file hmem n hn, hle n hn⟩, (hp file hmem).safe⟩

/-- A hunk that starts at line 0 with a line in it. -/
def zeroPatch : List Char := "diff --git a/x b/x\n@@ -0,0 +0,0 @@\n y".toList

/-- The file parsed from it has the number 0; the pane looks it up. -/
theorem zero_hunk : ∃ file, parsePatch zeroPatch = some [file] ∧ 0 ∈ file.numbers ∧
    ∃ line ∈ file.lines, DiffHighlights.spans ⟨some [[()]], some [[()]]⟩ line = none := by
  refine ⟨{ FileDiff.new ['x'] none with hunks := [⟨"@@ -0,0 +0,0 @@".toList,
    [⟨.context, some 0, some 0, ['y']⟩]⟩] }, by decide +kernel, ?_, ?_⟩
  · exact List.mem_cons_self
  · exact ⟨_, List.mem_singleton_self _, rfl⟩

end Zeron.Changes
