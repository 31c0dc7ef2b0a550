import Zeron.Changes.Render
import Zeron.Rpc.DeviceFrame

/-!
# Patches of untracked files

Git shows no patch of an untracked file; the engine writes one (`engine/src/diff_sync.rs`), and the
parser of the changes pane reads it.

* `quotePatchPath`, `untrackedPatch`, `untrackedAdditions`: the writer;
* `parse_untracked`: what the parser makes of it;
* **`untracked_readsBack`**: the files that are read back as they are.
-/

namespace Zeron.Changes

open Session (isWhitespace)

/-! ## The writer -/

/-- A character that stands in a patch unquoted. -/
def plainChar (c : Char) : Bool := !(isWhitespace c || c = '"' || c = '\\')

def quotePatchPath (path : List Char) : List Char :=
  if path.any (fun c => isWhitespace c || c = '"' || c = '\\') then
    Rpc.jsonString (String.ofList path)
  else path

/-- The lines of a text; the last one may lack its newline. -/
def contentLines (content : List Char) : List (List Char) :=
  let lines := content.splitOn '\n'
  if lines.getLast? = some [] then lines.dropLast else lines

/-- The two labels of a patch. -/
def oldLabel (path : List Char) : List Char := quotePatchPath ('a' :: '/' :: path)

def newLabel (path : List Char) : List Char := quotePatchPath ('b' :: '/' :: path)

def untrackedPatch (path content : List Char) : List Char :=
  let lines := contentLines content
  let body := ['\n'].intercalate (lines.map ('+' :: ·))
  let a := oldLabel path
  let b := newLabel path
  "diff --git ".toList ++ a ++ " ".toList ++ b ++
    "\nnew file mode 100644\n--- /dev/null\n+++ ".toList ++ b ++
    "\n@@ -0,0 +1,".toList ++ Nat.toDigits 10 lines.length ++ " @@\n".toList ++ body ++ ['\n']

/-- The additions of the file in the summary. -/
def untrackedAdditions (text : List Char) : ℕ :=
  if text = [] then 0
  else asU32 ((text.splitOn '\n').length - if text.getLast? = some '\n' then 1 else 0)

/-! ## Lines of a text -/

/-- How many lines a text has. -/
def lineCount (content : List Char) : ℕ :=
  content.count '\n' + if content = [] ∨ content.getLast? = some '\n' then 0 else 1

theorem splitOn_noBreak (content : List Char) : ∀ line ∈ content.splitOn '\n', '\n' ∉ line := by
  induction content with
  | nil => simp
  | cons c content ih =>
    rw [List.splitOn_cons_eq_if_modifyHead]
    cases hs : content.splitOn '\n' with
    | nil => exact absurd hs (List.splitOn_ne_nil _ _)
    | cons line lines =>
      rw [hs, List.forall_mem_cons] at ih
      by_cases hc : c = '\n'
      · simp [hc, ih.1]
        exact ih.2
      · simp [hc, ih.1, Ne.symm hc]
        exact ih.2

theorem length_splitOn (content : List Char) :
    (content.splitOn '\n').length = content.count '\n' + 1 := by
  induction content with
  | nil => simp
  | cons c content ih =>
    rw [List.splitOn_cons_eq_if_modifyHead, List.count_cons]
    split_ifs
    · simp [ih]
    · simp [ih]

theorem splitOn_last (content : List Char) :
    (content.splitOn '\n').getLast? = some [] ↔
      content = [] ∨ content.getLast? = some '\n' := by
  induction content with
  | nil => simp
  | cons c content ih =>
    have hbreak := splitOn_noBreak content
    have hjoin : ['\n'].intercalate (content.splitOn '\n') = content :=
      List.intercalate_splitOn '\n'
    rw [List.splitOn_cons_eq_if_modifyHead]
    cases hs : content.splitOn '\n' with
    | nil => exact absurd hs (List.splitOn_ne_nil _ _)
    | cons line lines =>
      rw [hs] at ih hbreak hjoin
      cases lines with
      | nil =>
        have he : line = content := by simpa using hjoin
        have hlast : content.getLast? ≠ some '\n' := fun h =>
          hbreak line List.mem_cons_self (he ▸ List.mem_of_getLast? h)
        by_cases hc : c = '\n'
        · cases content with
          | nil => simp [hc, he]
          | cons d content => simpa [hc, he] using hlast
        · cases content with
          | nil => simp [hc]
          | cons d content => simpa [hc] using hlast
      | cons next lines =>
        have hne : content ≠ [] := by
          rintro rfl
          simp at hs
        obtain ⟨d, rest, rfl⟩ := List.exists_cons_of_ne_nil hne
        by_cases hc : c = '\n'
        · simpa [hc] using ih
        · simpa [hc] using ih

theorem contentLines_noBreak (content : List Char) :
    ∀ line ∈ contentLines content, '\n' ∉ line := by
  intro line hline
  refine splitOn_noBreak content line ?_
  unfold contentLines at hline
  dsimp only at hline
  split_ifs at hline
  · exact List.mem_of_mem_dropLast hline
  · exact hline

theorem length_contentLines (content : List Char) :
    (contentLines content).length = lineCount content := by
  have hlen := length_splitOn content
  unfold contentLines lineCount
  dsimp only
  by_cases h : (content.splitOn '\n').getLast? = some []
  · rw [if_pos h, if_pos ((splitOn_last content).mp h), List.length_dropLast]
    omega
  · rw [if_neg h, if_neg ((splitOn_last content).not.mp h)]
    omega

theorem additions_lineCount (content : List Char) :
    untrackedAdditions content = asU32 (lineCount content) := by
  have hlen := length_splitOn content
  unfold untrackedAdditions lineCount
  by_cases h : content = []
  · simp [h, asU32]
  · rw [if_neg h, hlen]
    by_cases hlast : content.getLast? = some '\n'
    · simp [h, hlast]
    · simp [h, hlast]

theorem contentLines_cr (content : List Char) :
    (∀ line ∈ contentLines content, line.getLast? ≠ some '\r') ↔
      ∀ line ∈ content.splitOn '\n', line.getLast? ≠ some '\r' := by
  unfold contentLines
  dsimp only
  split_ifs with h
  · have he : (content.splitOn '\n').dropLast ++ [[]] = content.splitOn '\n' :=
      List.dropLast_append_getLast? _ h
    conv_rhs => rw [← he]
    rw [List.forall_mem_append]
    simp
  · rfl

/-! ## Labels -/

theorem quote_plain {path : List Char} (h : ∀ c ∈ path, plainChar c = true) :
    quotePatchPath path = path := by
  refine if_neg ?_
  rw [Bool.not_eq_true, List.any_eq_false]
  intro c hc
  simpa [plainChar] using h c hc

theorem quote_quoted {path : List Char} (h : ¬ ∀ c ∈ path, plainChar c = true) :
    quotePatchPath path = '"' :: path.flatMap Rpc.escapeChar ++ ['"'] := by
  have hany : path.any (fun c => isWhitespace c || c = '"' || c = '\\') = true := by
    push Not at h
    obtain ⟨c, hc, hplain⟩ := h
    exact List.any_eq_true.mpr ⟨c, hc, by
      rwa [plainChar, ne_eq, Bool.not_eq_true, Bool.not_eq_false'] at hplain⟩
  rw [quotePatchPath, if_pos hany, Rpc.jsonString, String.toList_ofList]

theorem escape_noBreak (c : Char) : '\n' ∉ Rpc.escapeChar c := by
  unfold Rpc.escapeChar
  by_cases h : c.toNat = 10
  · obtain rfl : c = '\n' := Char.toNat_inj.mp h
    decide
  · have hc : '\n' ≠ c := by
      rintro rfl
      exact h rfl
    split_ifs <;> simp [hc]

theorem quote_noBreak (path : List Char) : '\n' ∉ quotePatchPath path := by
  by_cases h : ∀ c ∈ path, plainChar c = true
  · rw [quote_plain h]
    exact fun hmem => absurd (h _ hmem) (by decide)
  · rw [quote_quoted h]
    simp [escape_noBreak]

theorem trimText_quoted (t : List Char) : trimText ('"' :: t ++ ['"']) = '"' :: t ++ ['"'] := by
  have hq : isWhitespace '"' = false := by decide
  rw [trimText, trimStart, List.cons_append, List.dropWhile_cons_of_neg (by simp [hq]),
    ← List.cons_append, List.rdropWhile_concat_neg _ _ _ (by simp [hq])]

theorem newLabel_null (path : List Char) : trimText (newLabel path) ≠ "/dev/null".toList := by
  unfold newLabel
  by_cases h : ∀ c ∈ 'b' :: '/' :: path, plainChar c = true
  · rw [quote_plain h]
    exact trimText_path whitespace_plain.2.1 (by decide) path
  · rw [quote_quoted h, trimText_quoted]
    simp

/-! ## The lines of the patch -/

def hunkLineOf (count : ℕ) : List Char :=
  "@@ -0,0 +1,".toList ++ (Nat.toDigits 10 count ++ " @@".toList)

/-- An empty text leaves an empty line. -/
def bodyRaws (content : List Char) : List (List Char) :=
  if contentLines content = [] then [[]] else (contentLines content).map ('+' :: ·)

def untrackedHeaders (path : List Char) : List (List Char) :=
  ["new file mode ".toList ++ "100644".toList, "--- ".toList ++ "/dev/null".toList,
    "+++ ".toList ++ newLabel path]

def untrackedRaws (path content : List Char) : List (List Char) :=
  ("diff --git ".toList ++ (oldLabel path ++ ' ' :: newLabel path)) ::
    (untrackedHeaders path ++ hunkLineOf (contentLines content).length :: bodyRaws content)

theorem intercalate_lines {raws : List (List Char)} (h : raws ≠ []) :
    ['\n'].intercalate raws ++ ['\n'] = renderLines raws := by
  induction raws with
  | nil => exact absurd rfl h
  | cons raw raws ih =>
    cases raws with
    | nil => simp [renderLines]
    | cons next raws =>
      rw [List.intercalate_cons_cons, List.append_assoc, List.append_assoc,
        ih (List.cons_ne_nil _ _)]
      simp [renderLines]

theorem body_render (content : List Char) :
    ['\n'].intercalate ((contentLines content).map ('+' :: ·)) ++ ['\n'] =
      renderLines (bodyRaws content) := by
  unfold bodyRaws
  by_cases h : contentLines content = []
  · rw [if_pos h, h]
    rfl
  · rw [if_neg h]
    exact intercalate_lines (by simpa using h)

theorem untrackedPatch_lines (path content : List Char) :
    untrackedPatch path content = renderLines (untrackedRaws path content) := by
  have hbody := body_render content
  unfold untrackedPatch untrackedRaws untrackedHeaders hunkLineOf
  dsimp only
  rw [List.append_assoc _ _ ['\n'], hbody]
  generalize oldLabel path = a
  generalize newLabel path = b
  generalize Nat.toDigits 10 (contentLines content).length = digits
  generalize bodyRaws content = raws
  simp [renderLines]

theorem raws_noBreak (path content : List Char) :
    ∀ raw ∈ untrackedRaws path content, '\n' ∉ raw := by
  have hold : '\n' ∉ oldLabel path := quote_noBreak _
  have hnew : '\n' ∉ newLabel path := quote_noBreak _
  have hdigits := not_mem_digits (contentLines content).length
  have hbody : ∀ raw ∈ bodyRaws content, '\n' ∉ raw := by
    unfold bodyRaws
    split_ifs
    · simp
    · simpa using contentLines_noBreak content
  unfold untrackedRaws untrackedHeaders hunkLineOf
  generalize oldLabel path = a at hold ⊢
  generalize newLabel path = b at hnew ⊢
  generalize Nat.toDigits 10 (contentLines content).length = digits at hdigits ⊢
  generalize bodyRaws content = raws at hbody ⊢
  simpa [hold, hnew, hdigits] using hbody

theorem textLines_untracked (path content : List Char) :
    textLines (untrackedPatch path content) = (untrackedRaws path content).map stripCr := by
  rw [untrackedPatch_lines, textLines_render (raws_noBreak path content)]

/-! ## The parser on the patch -/

/-- The paths of the first line. -/
def untrackedPaths (path : List Char) : List Char × List Char :=
  parseGitPaths (stripCr (oldLabel path ++ ' ' :: newLabel path))

/-- The file behind the headers. -/
def untrackedHead (path : List Char) : FileDiff :=
  let (old, new) := untrackedPaths path
  { FileDiff.new new (if old = new then none else some old) with status := .added }.plus
    (trimText (newLabel path))

theorem untrackedHead_fresh (path : List Char) :
    (untrackedHead path).status = .added ∧ (untrackedHead path).hunks = [] ∧
      (untrackedHead path).additions = 0 ∧ (untrackedHead path).deletions = 0 := by
  have hnull := newLabel_null path
  obtain ⟨old, new, hpaths⟩ : ∃ old new, untrackedPaths path = (old, new) := ⟨_, _, rfl⟩
  rw [untrackedHead, hpaths]
  dsimp only
  rw [FileDiff.plus, if_neg hnull]
  split_ifs <;> exact ⟨rfl, rfl, rfl, rfl⟩

theorem read_untracked (path : List Char) (file : FileDiff) :
    readHeaders (untrackedHeaders path) file =
      { file with status := .added }.plus (trimText (newLabel path)) := by
  have hmode : stripCr ("new file mode ".toList ++ "100644".toList) =
      "new file mode ".toList ++ "100644".toList := by decide
  have hnull : stripCr ("--- ".toList ++ "/dev/null".toList) =
      "--- ".toList ++ "/dev/null".toList := by decide
  unfold untrackedHeaders
  rw [readHeaders_cons, readHeaders_cons, readHeaders_cons, readHeaders_nil, hmode, hnull,
    @stripCr_lit "+++ ".toList (by simp), readHeader_newFile, readHeader_minus, readHeader_plus,
    trimText_stripCr, if_pos devNull]
  rfl

theorem isHeader_untracked (path : List Char) : ∀ raw ∈ untrackedHeaders path, IsHeader raw := by
  intro raw hraw
  rcases List.mem_cons.mp hraw with rfl | hraw
  · exact ⟨"new file mode ", by simp [headerMarks], _, by simp, rfl⟩
  · rcases List.mem_pair.mp hraw with rfl | rfl
    · exact ⟨"--- ", by simp [headerMarks], _, by simp, rfl⟩
    · exact ⟨"+++ ", by simp [headerMarks], _, quote_noBreak _, rfl⟩

theorem parseHunkHeader_untracked (count : ℕ) :
    parseHunkHeader (hunkLineOf count) = some (0, 1) := by
  have htext : hunkLineOf count = '@' :: '@' :: ' ' :: '-' :: '0' :: ',' :: '0' :: ' ' :: '+' ::
      '1' :: ',' :: (Nat.toDigits 10 count ++ " @@".toList) := rfl
  rw [htext]
  generalize Nat.toDigits 10 count ++ " @@".toList = rest
  rfl

theorem hunkLineOf_plain (count : ℕ) :
    stripCr (hunkLineOf count) = hunkLineOf count ∧ startsWith "@@" (hunkLineOf count) = true ∧
      startsWith "diff --git " (hunkLineOf count) = false := by
  unfold hunkLineOf
  generalize Nat.toDigits 10 count = digits
  refine ⟨?_, by simp [startsWith], by simp [startsWith]⟩
  rw [stripCr_eq_iff, List.getLast?_append_of_ne_nil _ (by simp),
    List.getLast?_append_of_ne_nil _ (by simp)]
  simp

/-- The lines of the hunk. -/
def bodyLines (content : List Char) : List BodyLine :=
  if contentLines content = [] then [⟨.context, ⟨[], by simp⟩, by simp⟩]
  else
    (contentLines content).pmap (fun line h => ⟨.add, ⟨line, h⟩, by simp⟩)
      (contentLines_noBreak content)

section Run

variable {s : ParseState} {file : FileDiff} {files : List FileDiff}

theorem parseLine_empty (hfiles : s.files = file :: files) (hin : s.inHunk = true) :
    parseLine s [] = parseLine s [' '] := by
  simp [parseLine, startsWith, hfiles, hin, hunkLine]

theorem run_body (hfiles : s.files = file :: files) (hin : s.inHunk = true)
    (content : List Char) :
    ((bodyRaws content).map stripCr).foldlM parseLine s =
      ((bodyLines content).map fun l => stripCr l.raw).foldlM parseLine s := by
  unfold bodyRaws bodyLines
  by_cases h : contentLines content = []
  · rw [if_pos h, if_pos h]
    exact congrArg (· >>= fun s' => pure s') (parseLine_empty hfiles hin)
  · rw [if_neg h, if_neg h, List.map_map, List.map_pmap]
    exact congrArg (List.foldlM parseLine s) (List.pmap_eq_map (contentLines_noBreak content)).symm

end Run

/-- The texts of the lines a file adds. -/
def FileDiff.addedTexts (file : FileDiff) : List (List Char) :=
  ((file.hunks.flatMap (·.lines)).filter (·.kind = .add)).map (·.text)

theorem added_numbered (f : List Char → List Char) (old new : ℕ) (lines : List BodyLine) :
    ((numbered f old new lines).filter (·.kind = .add)).map (·.text) =
      (lines.filter (·.kind = .add)).map fun l => f l.text.text := by
  induction lines generalizing old new with
  | nil => rfl
  | cons line lines ih =>
    rw [numbered]
    by_cases hk : line.kind = .add
    · simp [hk, ih]
    · simp [hk, ih]

theorem added_body (content : List Char) :
    ((bodyLines content).filter (·.kind = .add)).map (fun l => stripCr l.text.text) =
      (contentLines content).map stripCr := by
  unfold bodyLines
  by_cases h : contentLines content = []
  · rw [if_pos h, h]
    rfl
  · rw [if_neg h, List.filter_eq_self.mpr, List.map_pmap, List.pmap_eq_map]
    intro line hline
    obtain ⟨text, htext, rfl⟩ := List.mem_pmap.mp hline
    rfl

theorem kinds_body (content : List Char) :
    (bodyLines content).map (·.kind) =
      if contentLines content = [] then [.context]
      else List.replicate (contentLines content).length .add := by
  unfold bodyLines
  by_cases h : contentLines content = []
  · rw [if_pos h, if_pos h]
    rfl
  · rw [if_neg h, if_neg h, List.map_pmap, List.pmap_eq_map, List.map_const']

theorem room_body (files : List FileDiff) {file : FileDiff} (ha : file.additions = 0)
    (hd : file.deletions = 0) (content : List Char) :
    ParseState.RunRoom ⟨files, true, 0, 1⟩ file ((bodyLines content).map (·.kind)) ↔
      lineCount content + 1 < 2 ^ 32 := by
  rw [kinds_body, ← length_contentLines]
  unfold ParseState.RunRoom
  by_cases h : contentLines content = []
  · rw [if_pos h, h, ha, hd]
    simp [oldCount, newCount]
  · rw [if_neg h, ha, hd]
    simp [oldCount, newCount, List.countP_replicate, List.count_replicate]
    omega

/-- **An untracked file's patch.** -/
theorem parse_untracked (path content : List Char) :
    parsePatch (untrackedPatch path content) =
      if lineCount content + 1 < 2 ^ 32 then
        some [(untrackedHead path).grow [] (hunkLineOf (contentLines content).length) []
          (numbered stripCr 0 1 (bodyLines content))]
      else none := by
  obtain ⟨hstatus, hhunks, hadd, hdel⟩ := untrackedHead_fresh path
  obtain ⟨old, new, hpaths⟩ : ∃ old new, untrackedPaths path = (old, new) := ⟨_, _, rfl⟩
  have hgit : parseLine ⟨[], false, 0, 0⟩
      (stripCr ("diff --git ".toList ++ (oldLabel path ++ ' ' :: newLabel path))) =
      some ⟨[.new new (if old = new then none else some old)], false, 0, 0⟩ := by
    have hpre : startsWith "diff --git " ("diff --git ".toList ++
        stripCr (oldLabel path ++ ' ' :: newLabel path)) = true :=
      decide_eq_true (List.prefix_append _ _)
    have hdrop : ("diff --git ".toList ++ stripCr (oldLabel path ++ ' ' :: newLabel path)).drop
        "diff --git ".length = stripCr (oldLabel path ++ ' ' :: newLabel path) := List.drop_left
    have hrest : parseGitPaths (stripCr (oldLabel path ++ ' ' :: newLabel path)) = (old, new) :=
      hpaths
    rw [stripCr_lit (by simp), parseLine, if_pos hpre, hdrop, hrest]
  have hhead : readHeaders (untrackedHeaders path) (.new new (if old = new then none else some old))
      = untrackedHead path := by
    rw [read_untracked, untrackedHead, hpaths]
  rw [parsePatch, textLines_untracked]
  generalize hunk : hunkLineOf (contentLines content).length = header
  have hhunk : parseLine ⟨[untrackedHead path], false, 0, 0⟩ (stripCr header) =
      some ⟨[{ untrackedHead path with hunks := [⟨header, []⟩] }], true, 0, 1⟩ := by
    obtain ⟨hcr, hat, hf⟩ := hunkLineOf_plain (contentLines content).length
    have hnumbers := parseHunkHeader_untracked (contentLines content).length
    rw [hunk] at hcr hat hf hnumbers
    rw [hcr]
    simp only [parseLine, hf, hat, hnumbers, hhunks]
    rfl
  have hroom := @room_body [{ untrackedHead path with hunks := [⟨header, []⟩] }]
    { untrackedHead path with hunks := [⟨header, []⟩] } hadd hdel content
  have hrun := @run_lines ⟨[{ untrackedHead path with hunks := [⟨header, []⟩] }], true, 0, 1⟩
    { untrackedHead path with hunks := [⟨header, []⟩] } [] [] header [] rfl rfl rfl
    (by simp [ParseState.RunRoom, hadd, hdel, oldCount, newCount]) (bodyLines content)
  have hlines : ((untrackedRaws path content).map stripCr).foldlM parseLine ⟨[], false, 0, 0⟩ =
      ((bodyLines content).map fun l => stripCr l.raw).foldlM parseLine
        ⟨[{ untrackedHead path with hunks := [⟨header, []⟩] }], true, 0, 1⟩ := by
    rw [untrackedRaws, hunk, List.map_cons, List.foldlM_cons, hgit]
    show ((List.map stripCr _).foldlM parseLine _) = _
    rw [List.map_append, List.foldlM_append, run_headers rfl rfl (isHeader_untracked path), hhead,
      List.map_cons]
    show (List.foldlM parseLine _ (_ :: _)) = _
    rw [List.foldlM_cons, hhunk]
    exact run_body rfl rfl content
  have hrev := congrArg (Option.map List.reverse) hrun
  rw [Option.map_map] at hrev
  rw [hlines]
  refine hrev.trans ?_
  by_cases hfits : lineCount content + 1 < 2 ^ 32
  · rw [if_pos hfits, if_pos (hroom.mpr hfits)]
    rfl
  · rw [if_neg hfits, if_neg (hroom.not.mpr hfits)]
    rfl

/-! ## What is read back -/

/-- The parser shows the file as the engine wrote it. -/
def ReadsBack (path content : List Char) : Prop :=
  ∃ file, parsePatch (untrackedPatch path content) = some [file] ∧ file.status = .added ∧
    file.path = path ∧ file.oldPath = none ∧ file.addedTexts = contentLines content ∧
      file.addedTexts.length = untrackedAdditions content

theorem trimText_blank {t : List Char} (h : ∀ c ∈ t, isWhitespace c = false) :
    t.rdropWhile isWhitespace = t := by
  rw [List.rdropWhile_eq_self_iff]
  exact fun hne => by simp [h _ (List.getLast_mem hne)]

theorem head_plainPath {path : List Char} (h : ∀ c ∈ path, plainChar c = true) :
    (untrackedHead path).path = path ∧ (untrackedHead path).oldPath = none := by
  have hblank : ∀ c ∈ path, isWhitespace c = false := fun c hc => by
    have := h c hc
    simp only [plainChar, Bool.not_eq_true', Bool.or_eq_false_iff] at this
    exact this.1.1
  have hold : oldLabel path = 'a' :: '/' :: path :=
    quote_plain (List.forall_mem_cons.mpr ⟨by decide, List.forall_mem_cons.mpr ⟨by decide, h⟩⟩)
  have hnew : newLabel path = 'b' :: '/' :: path :=
    quote_plain (List.forall_mem_cons.mpr ⟨by decide, List.forall_mem_cons.mpr ⟨by decide, h⟩⟩)
  have hcr : stripCr path = path := by
    rw [stripCr_eq_iff]
    exact fun hl => absurd (hblank _ (List.mem_of_getLast? hl)) (by decide)
  have hmark : ¬ pathMark <:+: path := fun hi =>
    absurd (hblank ' ' (hi.subset (by simp [pathMark]))) (by decide)
  have hpaths : untrackedPaths path = (path, path) := by
    have hrest : oldLabel path ++ ' ' :: newLabel path = gitRest path path := by
      rw [hold, hnew]
      rfl
    rw [untrackedPaths, hrest, stripCr_gitRest, hcr, parseGitPaths_mark (rfind_plain hmark),
      trimText_blank hblank]
  rw [untrackedHead, hpaths, hnew]
  dsimp only
  rw [if_pos rfl, FileDiff.plus_new, trimText_blank hblank]
  exact ⟨rfl, rfl⟩

theorem head_quoted {path : List Char} (h : ¬ ∀ c ∈ path, plainChar c = true) :
    ¬ ((untrackedHead path).path = path ∧ (untrackedHead path).oldPath = none) := by
  have hquoted : ¬ ∀ c ∈ 'b' :: '/' :: path, plainChar c = true := fun hall =>
    h fun c hc => hall c (List.mem_cons_of_mem _ (List.mem_cons_of_mem _ hc))
  have hnew : newLabel path = '"' :: ('b' :: '/' :: path).flatMap Rpc.escapeChar ++ ['"'] :=
    quote_quoted hquoted
  have hlen := Rpc.length_escape ('b' :: '/' :: path)
  have hstrip : stripGitPrefix (newLabel path) = newLabel path := by
    rw [hnew]
    simp [stripGitPrefix, stripPrefix]
  have htrim : trimText (newLabel path) = newLabel path := by
    rw [hnew, trimText_quoted]
  have hnull := newLabel_null path
  rintro ⟨hpath, hold⟩
  obtain ⟨old, new, hpaths⟩ : ∃ old new, untrackedPaths path = (old, new) := ⟨_, _, rfl⟩
  rw [untrackedHead, hpaths] at hpath hold
  dsimp only at hpath hold
  rw [FileDiff.plus, if_neg hnull] at hpath hold
  by_cases hsame : old = new
  · rw [if_pos hsame] at hpath
    have hlabel : newLabel path = path := by
      rw [← hstrip, ← htrim]
      exact hpath
    have := congrArg List.length (hnew.symm.trans hlabel)
    simp only [List.length_append, List.length_cons] at hlen this
    omega
  · rw [if_neg hsame] at hold
    exact absurd hold (by simp [FileDiff.new])

theorem head_path (path : List Char) :
    ((untrackedHead path).path = path ∧ (untrackedHead path).oldPath = none) ↔
      ∀ c ∈ path, plainChar c = true := by
  by_cases h : ∀ c ∈ path, plainChar c = true
  · exact iff_of_true (head_plainPath h) h
  · exact iff_of_false (head_quoted h) h

/-- **Untracked files.** The patch of an untracked file is read back exactly if its path needs no
quotes, no line of its text ends in a return, and its lines can be numbered. -/
theorem untracked_readsBack (path content : List Char) :
    ReadsBack path content ↔
      (∀ c ∈ path, isWhitespace c = false ∧ c ≠ '"' ∧ c ≠ '\\') ∧
        (∀ line ∈ content.splitOn '\n', line.getLast? ≠ some '\r') ∧
          lineCount content + 1 < 2 ^ 32 := by
  have hplain : (∀ c ∈ path, isWhitespace c = false ∧ c ≠ '"' ∧ c ≠ '\\') ↔
      ∀ c ∈ path, plainChar c = true := by
    refine forall₂_congr fun c _ => ?_
    simp [plainChar, and_assoc]
  have htexts : (contentLines content).map stripCr = contentLines content ↔
      ∀ line ∈ content.splitOn '\n', line.getLast? ≠ some '\r' := by
    rw [← contentLines_cr]
    conv_lhs => rw [← List.map_id (contentLines content), List.map_map]
    rw [List.map_inj_left]
    exact forall₂_congr fun line _ => stripCr_eq_iff line
  have hadded : ((untrackedHead path).grow [] (hunkLineOf (contentLines content).length) []
      (numbered stripCr 0 1 (bodyLines content))).addedTexts =
        (contentLines content).map stripCr := by
    rw [← added_body, ← added_numbered stripCr 0 1]
    simp [FileDiff.addedTexts, FileDiff.grow]
  rw [hplain, ← head_path, ← htexts, ReadsBack, parse_untracked]
  by_cases hfits : lineCount content + 1 < 2 ^ 32
  · have hcount : untrackedAdditions content = (contentLines content).length := by
      rw [additions_lineCount, asU32_of_lt (by omega), length_contentLines]
    rw [if_pos hfits]
    constructor
    · rintro ⟨file, hfile, -, hpath, hold, hlines, -⟩
      obtain rfl := List.head_eq_of_cons_eq (Option.some.inj hfile)
      exact ⟨⟨hpath, hold⟩, hadded.symm.trans hlines, hfits⟩
    · rintro ⟨⟨hpath, hold⟩, hlines, -⟩
      refine ⟨_, rfl, (untrackedHead_fresh path).1, hpath, hold, hadded.trans hlines, ?_⟩
      rw [hadded, List.length_map, hcount]
  · rw [if_neg hfits]
    exact iff_of_false (by simp) fun h => hfits h.2.2

/-- The quotes stay in the path, and a return is lost. -/
theorem untracked_quoted :
    ¬ (∀ path content, ReadsBack path content) ∧
      (parsePatch (untrackedPatch "my file".toList "x\r\n".toList)).map
          (fun files => files.map fun f => (f.path, f.oldPath, f.addedTexts)) =
        some [("\"b/my file\"".toList, none, [['x']])] := by
  have hpatch : (parsePatch (untrackedPatch "my file".toList "x\r\n".toList)).map
      (fun files => files.map fun f => (f.path, f.oldPath, f.addedTexts)) =
        some [("\"b/my file\"".toList, none, [['x']])] := by decide +kernel
  refine ⟨fun h => ?_, hpatch⟩
  obtain ⟨file, hfile, -, hpath, -⟩ := h "my file".toList "x\r\n".toList
  rw [hfile] at hpatch
  simp [hpath] at hpatch

end Zeron.Changes
