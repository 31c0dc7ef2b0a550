import Zeron.Files.Text
import Zeron.Lib.Utf8

/-!
# Reading a workspace file

How the bytes of a file are reported to an editor, and what becomes of them in a save
(`engine/src/workspace_files.rs`).

* `classifyFileText`: the report; `replaceCrlf`: line endings as an editor has them;
* `charEndings`, **`countEndings_utf8`**: the line endings of a text, by its characters;
* `expand_replaceCrlf`, `replaceCrlf_expand`: the two conversions of line endings;
* **`edit_preserves`**: a save of what was read gives the same bytes, and a read of what was saved
  reports it, unless the text starts with a byte order mark of its own; `mark_dropped`.
-/

namespace Zeron.Files

inductive TextEncoding where
  | utf8
  | utf8Bom
  | binary
  | unsupported
  deriving DecidableEq

inductive ReadOnlyReason where
  | binary
  | unsupportedEncoding
  | tooLarge
  | mixedLineEndings
  deriving DecidableEq

/-- `WorkspaceFileText`; the caller fills in the checkout. -/
structure FileText where
  checkoutId : String := ""
  path : String
  text : Option String
  contentHash : Option String
  size : ℕ
  modifiedAt : Option ℤ
  encoding : TextEncoding
  lineEnding : Option LineEnding
  readOnlyReason : Option ReadOnlyReason
  truncated : Bool := false
  deriving DecidableEq

/-- `source.replace("\r\n", "\n")`. -/
def replaceCrlf : List Char → List Char
  | [] => []
  | [c] => [c]
  | c :: d :: rest =>
    if c = '\r' ∧ d = '\n' then '\n' :: replaceCrlf rest else c :: replaceCrlf (d :: rest)

/-- `hash` is `hash_bytes`. -/
def classifyFileText (hash : Bytes → String) (path : String) (bytes : Bytes)
    (modifiedAt : Option ℤ) : FileText :=
  let contentHash := some (hash bytes)
  let size := bytes.length
  if bytes.contains 0 then
    { path, text := none, contentHash, size, modifiedAt, encoding := .binary
      lineEnding := none, readOnlyReason := some .binary }
  else
    let encoding := if bytes.take 3 = bom then .utf8Bom else .utf8
    let source := if bytes.take 3 = bom then bytes.drop 3 else bytes
    match fromUtf8 source with
    | none =>
      { path, text := none, contentHash, size, modifiedAt, encoding := .unsupported
        lineEnding := none, readOnlyReason := some .unsupportedEncoding }
    | some chars =>
      let lineEnding := detectLineEnding source
      let text := if lineEnding = .crlf then replaceCrlf chars else chars
      let readOnlyReason :=
        if maxEditableFileBytes < size then some .tooLarge
        else if lineEnding = .mixed then some .mixedLineEndings
        else none
      { path, text := some (.ofList text), contentHash, size, modifiedAt, encoding
        lineEnding := some lineEnding, readOnlyReason }

/-! ## Line endings of a text -/

/-- The counters of `detect_line_ending`, on characters. -/
def charEndings : List Char → Endings
  | [] => ⟨0, 0, 0⟩
  | [c] => if c = '\r' then ⟨0, 0, 1⟩ else if c = '\n' then ⟨0, 1, 0⟩ else ⟨0, 0, 0⟩
  | c :: d :: rest =>
    if c = '\r' ∧ d = '\n' then
      let n := charEndings rest
      { n with crlf := n.crlf + 1 }
    else
      let n := charEndings (d :: rest)
      if c = '\r' then { n with loneCr := n.loneCr + 1 }
      else if c = '\n' then { n with lf := n.lf + 1 }
      else n

section Counts

variable {byte : UInt8} {bytes : Bytes} {c : Char} {text : List Char}

theorem countEndings_single (byte : UInt8) : countEndings [byte] =
    if byte = 13 then ⟨0, 0, 1⟩ else if byte = 10 then ⟨0, 1, 0⟩ else ⟨0, 0, 0⟩ := rfl

theorem countEndings_cons_cons (byte next : UInt8) (rest : Bytes) :
    countEndings (byte :: next :: rest) =
      if byte = 13 ∧ next = 10 then { countEndings rest with crlf := (countEndings rest).crlf + 1 }
      else
        let n := countEndings (next :: rest)
        if byte = 13 then { n with loneCr := n.loneCr + 1 }
        else if byte = 10 then { n with lf := n.lf + 1 }
        else n := rfl

theorem charEndings_single (c : Char) : charEndings [c] =
    if c = '\r' then ⟨0, 0, 1⟩ else if c = '\n' then ⟨0, 1, 0⟩ else ⟨0, 0, 0⟩ := rfl

theorem charEndings_cons_cons (c d : Char) (rest : List Char) :
    charEndings (c :: d :: rest) =
      if c = '\r' ∧ d = '\n' then { charEndings rest with crlf := (charEndings rest).crlf + 1 }
      else
        let n := charEndings (d :: rest)
        if c = '\r' then { n with loneCr := n.loneCr + 1 }
        else if c = '\n' then { n with lf := n.lf + 1 }
        else n := rfl

theorem countEndings_cons_of_ne (hcr : byte ≠ 13) (hlf : byte ≠ 10) :
    countEndings (byte :: bytes) = countEndings bytes := by
  cases bytes with
  | nil => simp [countEndings_single, hcr, hlf]; rfl
  | cons next rest => simp [countEndings_cons_cons, hcr, hlf]

theorem countEndings_append (h : ∀ byte ∈ bytes, byte ≠ 13 ∧ byte ≠ 10) (rest : Bytes) :
    countEndings (bytes ++ rest) = countEndings rest := by
  induction bytes with
  | nil => rfl
  | cons byte bytes ih =>
    rw [List.forall_mem_cons] at h
    rw [List.cons_append, countEndings_cons_of_ne h.1.1 h.1.2, ih h.2]

theorem countEndings_lf : countEndings (10 :: bytes) =
    { countEndings bytes with lf := (countEndings bytes).lf + 1 } := by
  cases bytes with
  | nil => rfl
  | cons next rest => simp [countEndings_cons_cons]

theorem countEndings_cr (h : bytes.head? ≠ some 10) : countEndings (13 :: bytes) =
    { countEndings bytes with loneCr := (countEndings bytes).loneCr + 1 } := by
  cases bytes with
  | nil => rfl
  | cons next rest => simp_all [countEndings_cons_cons]

theorem charEndings_cons_of_ne (hcr : c ≠ '\r') (hlf : c ≠ '\n') :
    charEndings (c :: text) = charEndings text := by
  cases text with
  | nil => simp [charEndings_single, hcr, hlf]; rfl
  | cons d rest => simp [charEndings_cons_cons, hcr, hlf]

theorem charEndings_lf : charEndings ('\n' :: text) =
    { charEndings text with lf := (charEndings text).lf + 1 } := by
  cases text with
  | nil => rfl
  | cons d rest => simp [charEndings_cons_cons]

theorem charEndings_cr (h : text.head? ≠ some '\n') : charEndings ('\r' :: text) =
    { charEndings text with loneCr := (charEndings text).loneCr + 1 } := by
  cases text with
  | nil => rfl
  | cons d rest => simp_all [charEndings_cons_cons]

theorem ne_of_mem_utf8EncodeChar (hcr : c ≠ '\r') (hlf : c ≠ '\n') :
    ∀ byte ∈ String.utf8EncodeChar c, byte ≠ 13 ∧ byte ≠ 10 := by
  intro byte hbyte
  by_cases hc : c.toNat < 128
  · rw [utf8EncodeChar_ascii hc, List.mem_singleton] at hbyte
    have hval : byte.toNat = c.toNat := by
      rw [hbyte, UInt8.toNat_ofNat']
      omega
    constructor
    · rintro rfl
      exact hcr (Char.toNat_inj.mp hval.symm)
    · rintro rfl
      exact hlf (Char.toNat_inj.mp hval.symm)
  · have hle := le_of_mem_utf8EncodeChar (Nat.not_lt.mp hc) hbyte
    constructor
    · rintro rfl
      exact absurd hle (by decide)
    · rintro rfl
      exact absurd hle (by decide)

theorem head?_utf8 (h : text.head? ≠ some '\n') : (utf8 text).head? ≠ some 10 := by
  cases text with
  | nil => simp
  | cons d rest =>
    rw [utf8_cons]
    by_cases hcr : d = '\r'
    · subst hcr
      simp [show String.utf8EncodeChar '\r' = [13] from rfl]
    · have hlf : d ≠ '\n' := fun he => h (he ▸ rfl)
      have hne : String.utf8EncodeChar d ≠ [] := by
        rw [← List.length_pos_iff, String.length_utf8EncodeChar]
        exact d.utf8Size_pos
      obtain ⟨byte, bytes, hd⟩ := List.exists_cons_of_ne_nil hne
      have hbyte := ne_of_mem_utf8EncodeChar hcr hlf byte (hd ▸ List.mem_cons_self)
      rw [hd, List.cons_append, List.head?_cons]
      simpa using hbyte.2

/-- **The line endings of a text are counted by its characters.** -/
theorem countEndings_utf8 (text : List Char) : countEndings (utf8 text) = charEndings text := by
  induction text using charEndings.induct with
  | case1 => rfl
  | case2 => rfl
  | case3 => rfl
  | case4 c hcr hlf =>
    rw [charEndings_cons_of_ne hcr hlf, utf8_cons,
      countEndings_append (ne_of_mem_utf8EncodeChar hcr hlf)]
    rfl
  | case5 c d rest h ih =>
    obtain ⟨rfl, rfl⟩ := h
    have hbytes : utf8 ('\r' :: '\n' :: rest) = 13 :: 10 :: utf8 rest := rfl
    rw [hbytes]
    simp [countEndings_cons_cons, charEndings_cons_cons, ih]
  | case6 d rest h ih =>
    have hhead : (d :: rest).head? ≠ some '\n' := by simpa using h
    rw [charEndings_cr hhead, utf8_cons]
    have hbytes : String.utf8EncodeChar '\r' = [13] := rfl
    rw [hbytes, List.singleton_append, countEndings_cr (head?_utf8 hhead), ih]
  | case7 d rest h hcr ih =>
    rw [charEndings_lf, utf8_cons]
    have hbytes : String.utf8EncodeChar '\n' = [10] := rfl
    rw [hbytes, List.singleton_append, countEndings_lf, ih]
  | case8 c d rest h hcr hlf ih =>
    rw [charEndings_cons_of_ne hcr hlf, utf8_cons,
      countEndings_append (ne_of_mem_utf8EncodeChar hcr hlf), ih]

end Counts

/-! ## Converting line endings -/

/-- `text.replace('\n', "\r\n")`. -/
def expand (text : List Char) : List Char :=
  text.flatMap fun c => if c = '\n' then ['\r', '\n'] else [c]

section Convert

variable {c : Char} {text : List Char}

theorem expand_lf : expand ('\n' :: text) = '\r' :: '\n' :: expand text := rfl

theorem expand_cons_of_ne (h : c ≠ '\n') : expand (c :: text) = c :: expand text := by
  simp [expand, h]

theorem expand_of_notMem (h : '\n' ∉ text) : expand text = text := by
  induction text with
  | nil => rfl
  | cons c text ih =>
    rw [List.mem_cons, not_or] at h
    rw [expand_cons_of_ne (Ne.symm h.1), ih h.2]

theorem notMem_expand (hcr : c ≠ '\r') (h : c ∉ text) : c ∉ expand text := by
  induction text with
  | nil => exact List.not_mem_nil
  | cons d text ih =>
    rw [List.mem_cons, not_or] at h
    by_cases hd : d = '\n'
    · subst hd
      rw [expand_lf]
      simp [hcr, h.1, ih h.2]
    · rw [expand_cons_of_ne hd]
      simp [h.1, ih h.2]

theorem replaceCrlf_cons_cons (c d : Char) (rest : List Char) : replaceCrlf (c :: d :: rest) =
    if c = '\r' ∧ d = '\n' then '\n' :: replaceCrlf rest else c :: replaceCrlf (d :: rest) := rfl

theorem replaceCrlf_cons_of_ne (h : c ≠ '\r') :
    replaceCrlf (c :: text) = c :: replaceCrlf text := by
  cases text with
  | nil => rfl
  | cons d rest => simp [replaceCrlf_cons_cons, h]

theorem replaceCrlf_expand (h : '\r' ∉ text) : replaceCrlf (expand text) = text := by
  induction text with
  | nil => rfl
  | cons c text ih =>
    rw [List.mem_cons, not_or] at h
    by_cases hc : c = '\n'
    · subst hc
      rw [expand_lf]
      simp [replaceCrlf_cons_cons, ih h.2]
    · rw [expand_cons_of_ne hc, replaceCrlf_cons_of_ne (Ne.symm h.1), ih h.2]

theorem charEndings_of_notMem (h : '\r' ∉ text) :
    charEndings text = ⟨0, text.count '\n', 0⟩ := by
  induction text with
  | nil => rfl
  | cons c text ih =>
    rw [List.mem_cons, not_or] at h
    by_cases hc : c = '\n'
    · subst hc
      rw [charEndings_lf, ih h.2, List.count_cons_self]
    · rw [charEndings_cons_of_ne (Ne.symm h.1) hc, ih h.2, List.count_cons_of_ne hc]

theorem charEndings_expand (h : '\r' ∉ text) :
    charEndings (expand text) = ⟨text.count '\n', 0, 0⟩ := by
  induction text with
  | nil => rfl
  | cons c text ih =>
    rw [List.mem_cons, not_or] at h
    by_cases hc : c = '\n'
    · subst hc
      rw [expand_lf, List.count_cons_self]
      simp [charEndings_cons_cons, ih h.2]
    · rw [expand_cons_of_ne hc, charEndings_cons_of_ne (Ne.symm h.1) hc, ih h.2,
        List.count_cons_of_ne hc]

theorem notMem_of_charEndings (hcrlf : (charEndings text).crlf = 0)
    (hcr : (charEndings text).loneCr = 0) : '\r' ∉ text := by
  induction text with
  | nil => exact List.not_mem_nil
  | cons c text ih =>
    by_cases hc : c = '\r'
    · subst hc
      cases text with
      | nil => simp [charEndings_single] at hcr
      | cons d rest =>
        by_cases hd : d = '\n'
        · subst hd
          simp [charEndings_cons_cons] at hcrlf
        · rw [charEndings_cr (by simpa using hd)] at hcr
          cases hcr
    · rw [List.mem_cons, not_or]
      refine ⟨Ne.symm hc, ih ?_ ?_⟩ <;> by_cases hlf : c = '\n'
      · subst hlf
        rwa [charEndings_lf] at hcrlf
      · rwa [charEndings_cons_of_ne hc hlf] at hcrlf
      · subst hlf
        rwa [charEndings_lf] at hcr
      · rwa [charEndings_cons_of_ne hc hlf] at hcr

/-- A text of carriage returns before every newline and nowhere else is what its conversion is
saved as. -/
theorem expand_replaceCrlf (hlf : (charEndings text).lf = 0) (hcr : (charEndings text).loneCr = 0) :
    '\r' ∉ replaceCrlf text ∧ expand (replaceCrlf text) = text := by
  induction text using replaceCrlf.induct with
  | case1 => exact ⟨List.not_mem_nil, rfl⟩
  | case2 c =>
    have hc : c ≠ '\r' ∧ c ≠ '\n' := by
      constructor
      · rintro rfl
        simp [charEndings_single] at hcr
      · rintro rfl
        simp [charEndings_single] at hlf
    rw [replaceCrlf, expand_cons_of_ne hc.2]
    exact ⟨by simpa using Ne.symm hc.1, rfl⟩
  | case3 c d rest h ih =>
    obtain ⟨rfl, rfl⟩ := h
    have hcount : charEndings ('\r' :: '\n' :: rest) =
        { charEndings rest with crlf := (charEndings rest).crlf + 1 } := by
      simp [charEndings_cons_cons]
    rw [hcount] at hlf hcr
    obtain ⟨hnot, hexpand⟩ := ih hlf hcr
    have hrep : replaceCrlf ('\r' :: '\n' :: rest) = '\n' :: replaceCrlf rest := by
      simp [replaceCrlf_cons_cons]
    rw [hrep, expand_lf, hexpand]
    exact ⟨by simpa using hnot, rfl⟩
  | case4 c d rest h ih =>
    have hc : c ≠ '\r' := by
      rintro rfl
      rw [charEndings_cr (by simpa using h)] at hcr
      cases hcr
    have hn : c ≠ '\n' := by
      rintro rfl
      rw [charEndings_lf] at hlf
      cases hlf
    rw [charEndings_cons_of_ne hc hn] at hlf hcr
    obtain ⟨hnot, hexpand⟩ := ih hlf hcr
    rw [replaceCrlf_cons_of_ne hc, expand_cons_of_ne hn, hexpand]
    exact ⟨by simpa using ⟨Ne.symm hc, hnot⟩, rfl⟩

end Convert

/-! ## Saving and reading -/

/-- The line ending a file is saved with; one without a newline may be saved with either. -/
def LineEnding.savedAs : LineEnding → WritableLineEnding → Bool
  | .none, _ => true
  | .lf, .lf => true
  | .crlf, .crlf => true
  | _, _ => false

def TextEncoding.savedAs : TextEncoding → WritableEncoding → Bool
  | .utf8, .utf8 => true
  | .utf8Bom, .utf8Bom => true
  | _, _ => false

/-- What a request's line ending is reported as. -/
def WritableLineEnding.reported : WritableLineEnding → LineEnding
  | .lf => .lf
  | .crlf => .crlf

/-- A save of what was read. -/
structure SavesBack (file : FileText) (request : WriteRequest) : Prop where
  text : file.text = some request.text
  encoding : file.encoding.savedAs request.encoding = true
  lineEnding : file.lineEnding.any (·.savedAs request.lineEnding) = true
  hash : request.expectedContentHash ≠ ""

/-- A report of what was saved. -/
structure Reports (file : FileText) (request : WriteRequest) : Prop where
  text : file.text = some request.text
  encoding : file.encoding.savedAs request.encoding = true
  lineEnding : '\n' ∈ request.text.toList → file.lineEnding = some request.lineEnding.reported

/-- The characters a request is saved as. -/
def WriteRequest.source (request : WriteRequest) : List Char :=
  match request.lineEnding with
  | .lf => request.text.toList
  | .crlf => expand request.text.toList

/-- The bytes a request is saved as. -/
def WriteRequest.bytes (request : WriteRequest) : Bytes :=
  (if request.encoding = .utf8Bom then bom else []) ++ utf8 request.source

/-- **When a save is accepted, and its bytes.** -/
theorem encodeWriteText_eq_ok {request : WriteRequest} {bytes : Bytes} :
    encodeWriteText request = .ok bytes ↔ '\x00' ∉ request.text.toList ∧
      '\r' ∉ request.text.toList ∧ request.expectedContentHash ≠ "" ∧ request.bytes = bytes ∧
      bytes.length ≤ maxEditableFileBytes := by
  have hform : encodeWriteText request =
      if request.text.toList.contains '\x00' then
        .error (.badParams "write text must not contain NUL bytes")
      else if request.text.toList.contains '\r' then
        .error (.badParams "write text must use normalized LF line endings")
      else if request.expectedContentHash = "" then
        .error (.badParams "expectedContentHash must not be empty")
      else if maxEditableFileBytes < request.bytes.length then
        .error (.unsupported "write exceeds the 1048576-byte editable limit")
      else .ok request.bytes := by
    unfold encodeWriteText WriteRequest.bytes WriteRequest.source
    cases request.lineEnding <;> rfl
  simp only [hform, List.contains_eq_mem, decide_eq_true_eq]
  split_ifs with hnul hcr hhash hsize
  · simp [hnul]
  · simp [hcr]
  · simp [hhash]
  · simp only [false_iff, not_and]
    rintro - - - rfl
    exact not_le.mpr hsize
  · simp only [Except.ok.injEq, hnul, not_false_eq_true, hcr, true_and, ne_eq, hhash]
    constructor
    · rintro rfl
      exact ⟨rfl, not_lt.mp hsize⟩
    · exact fun h => h.1

section Classify

variable {hash : Bytes → String} {path : String} {bytes : Bytes} {modifiedAt : Option ℤ}

/-- The bytes after the mark. -/
def sourceOf (bytes : Bytes) : Bytes := if bytes.take 3 = bom then bytes.drop 3 else bytes

theorem mark_append_sourceOf (bytes : Bytes) :
    (if bytes.take 3 = bom then bom else []) ++ sourceOf bytes = bytes := by
  unfold sourceOf
  split_ifs with h
  · rw [← h, List.take_append_drop]
  · rfl

/-- The text of a source, as it is reported. -/
def shown (chars : List Char) : List Char :=
  if detectLineEnding (utf8 chars) = .crlf then replaceCrlf chars else chars

theorem classify_eq {chars : List Char} (hnul : 0 ∉ bytes) (hsource : sourceOf bytes = utf8 chars) :
    classifyFileText hash path bytes modifiedAt =
      { path, text := some (.ofList (shown chars)), contentHash := some (hash bytes)
        size := bytes.length, modifiedAt
        encoding := if bytes.take 3 = bom then .utf8Bom else .utf8
        lineEnding := some (detectLineEnding (utf8 chars))
        readOnlyReason :=
          if maxEditableFileBytes < bytes.length then some .tooLarge
          else if detectLineEnding (utf8 chars) = .mixed then some .mixedLineEndings
          else none } := by
  have hcontains : bytes.contains 0 = false := by simpa using hnul
  rw [sourceOf] at hsource
  simp only [classifyFileText, hcontains, hsource, fromUtf8_utf8, Bool.false_eq_true, if_false,
    shown]

/-- **A file that may be edited has a text.** -/
theorem exists_chars (h : (classifyFileText hash path bytes modifiedAt).readOnlyReason = none) :
    0 ∉ bytes ∧ ∃ chars, sourceOf bytes = utf8 chars := by
  by_cases hnul : 0 ∈ bytes
  · simp [classifyFileText, hnul] at h
  · refine ⟨hnul, ?_⟩
    cases hfrom : fromUtf8 (sourceOf bytes) with
    | none =>
      rw [sourceOf] at hfrom
      simp [classifyFileText, hnul, hfrom] at h
    | some chars => exact ⟨chars, (utf8_of_fromUtf8 hfrom).symm⟩

theorem zero_mem_utf8 {chars : List Char} : 0 ∈ utf8 chars ↔ '\x00' ∈ chars := by
  constructor
  · intro h
    obtain ⟨c, hc, hbyte⟩ := List.mem_flatMap.mp h
    have hascii : c.toNat < 128 := ascii_of_mem_utf8EncodeChar hbyte (by decide)
    rw [utf8EncodeChar_ascii hascii, List.mem_singleton] at hbyte
    have hval : c.toNat = 0 := by
      have := congrArg UInt8.toNat hbyte
      rw [UInt8.toNat_ofNat'] at this
      simp at this
      omega
    exact (Char.toNat_inj.mp hval : c = '\x00') ▸ hc
  · intro h
    exact List.mem_flatMap.mpr ⟨'\x00', h, by decide⟩

theorem detect_cases (chars : List Char) :
    detectLineEnding (utf8 chars) = .none ∧ '\r' ∉ chars ∧ '\n' ∉ chars ∨
    detectLineEnding (utf8 chars) = .lf ∧ '\r' ∉ chars ∨
    detectLineEnding (utf8 chars) = .crlf ∧ '\r' ∉ replaceCrlf chars ∧
      expand (replaceCrlf chars) = chars ∨
    detectLineEnding (utf8 chars) = .mixed := by
  unfold detectLineEnding
  rw [countEndings_utf8]
  rcases hcounts : charEndings chars with ⟨crlf, lf, loneCr⟩
  split
  · rename_i hzero
    rw [Endings.mk.injEq] at hzero
    obtain ⟨rfl, rfl, rfl⟩ := hzero
    have hnot := notMem_of_charEndings (by rw [hcounts]) (by rw [hcounts])
    refine Or.inl ⟨rfl, hnot, ?_⟩
    have hcount := charEndings_of_notMem hnot
    rw [hcounts, Endings.mk.injEq] at hcount
    exact List.count_eq_zero.mp hcount.2.1.symm
  · rename_i hzero
    rw [Endings.mk.injEq] at hzero
    obtain ⟨rfl, -, rfl⟩ := hzero
    exact Or.inr (Or.inl ⟨rfl, notMem_of_charEndings (by rw [hcounts]) (by rw [hcounts])⟩)
  · rename_i hzero
    rw [Endings.mk.injEq] at hzero
    obtain ⟨-, rfl, rfl⟩ := hzero
    obtain ⟨hnot, hexpand⟩ := expand_replaceCrlf (by rw [hcounts]) (by rw [hcounts])
    exact Or.inr (Or.inr (Or.inl ⟨rfl, hnot, hexpand⟩))
  · exact Or.inr (Or.inr (Or.inr rfl))

theorem zero_notMem_sourceOf (h : 0 ∉ bytes) : 0 ∉ sourceOf bytes := by
  rw [← mark_append_sourceOf bytes] at h
  exact fun hmem => h (List.mem_append_right _ hmem)

theorem notMem_replaceCrlf {c : Char} (hc : c ≠ '\n') {chars : List Char} (h : c ∉ chars) :
    c ∉ replaceCrlf chars := by
  induction chars using replaceCrlf.induct with
  | case1 => exact List.not_mem_nil
  | case2 d => exact h
  | case3 d e rest hde ih =>
    simp only [List.mem_cons, not_or] at h
    simp only [replaceCrlf, hde, and_self, if_true, List.mem_cons, not_or]
    exact ⟨hc, ih h.2.2⟩
  | case4 d e rest hde ih =>
    rw [replaceCrlf, if_neg hde, List.mem_cons, not_or]
    rw [List.mem_cons, not_or] at h
    exact ⟨h.1, ih h.2⟩

/-- **A save of what was read gives the same bytes.** -/
theorem encode_classify {request : WriteRequest}
    (h : (classifyFileText hash path bytes modifiedAt).readOnlyReason = none)
    (hback : SavesBack (classifyFileText hash path bytes modifiedAt) request) :
    encodeWriteText request = .ok bytes := by
  obtain ⟨hnul, chars, hsource⟩ := exists_chars h
  obtain ⟨htext, hencoding, hending, hhash⟩ := hback
  rw [classify_eq hnul hsource] at h htext hencoding hending
  dsimp only at h htext hencoding hending
  rw [Option.any_some] at hending
  have hsize : bytes.length ≤ maxEditableFileBytes := by
    by_contra hlarge
    rw [if_pos (not_le.mp hlarge)] at h
    cases h
  have hmark : (if request.encoding = .utf8Bom then bom else []) =
      if bytes.take 3 = bom then bom else [] := by
    by_cases hbom : bytes.take 3 = bom
    · rw [if_pos hbom] at hencoding
      cases he : request.encoding <;> simp_all [TextEncoding.savedAs]
    · rw [if_neg hbom] at hencoding
      cases he : request.encoding <;> simp_all [TextEncoding.savedAs]
  have hnulChars : '\x00' ∉ chars := by
    rw [← zero_mem_utf8, ← hsource]
    exact zero_notMem_sourceOf hnul
  have hshown : request.text.toList = shown chars := by
    rw [← Option.some_inj.mp htext, String.toList_ofList]
  -- by the line ending that was detected
  have hconvert : '\r' ∉ shown chars ∧ request.source = chars := by
    unfold WriteRequest.source
    rw [hshown, shown]
    rcases detect_cases chars with ⟨hd, hcr, hlf⟩ | ⟨hd, hcr⟩ | ⟨hd, hcr, hexpand⟩ | hd
    · rw [hd, if_neg (by decide)]
      refine ⟨hcr, ?_⟩
      cases request.lineEnding with
      | lf => rfl
      | crlf => exact expand_of_notMem hlf
    · rw [hd] at hending
      rw [hd, if_neg (by decide)]
      refine ⟨hcr, ?_⟩
      cases he : request.lineEnding with
      | lf => rfl
      | crlf =>
        rw [he] at hending
        cases hending
    · rw [hd] at hending
      rw [hd, if_pos rfl]
      refine ⟨hcr, ?_⟩
      cases he : request.lineEnding with
      | lf =>
        rw [he] at hending
        cases hending
      | crlf => exact hexpand
    · rw [hd] at hending
      cases he : request.lineEnding <;> rw [he] at hending <;> cases hending
  refine encodeWriteText_eq_ok.mpr ⟨?_, ?_, hhash, ?_, hsize⟩
  · rw [hshown, shown]
    split_ifs
    · exact notMem_replaceCrlf (by decide) hnulChars
    · exact hnulChars
  · rw [hshown]
    exact hconvert.1
  · rw [WriteRequest.bytes, hmark, hconvert.2, ← hsource, mark_append_sourceOf]

end Classify

/-! ## Reading what was saved -/

/-- A text saved without a mark that begins with one of its own. -/
def WriteRequest.Marked (request : WriteRequest) : Prop :=
  request.encoding = .utf8 ∧ request.text.toList.head? = some '\uFEFF'

section Saved

variable {request : WriteRequest}

theorem detect_source (hcr : '\r' ∉ request.text.toList) :
    detectLineEnding (utf8 request.source) =
      if '\n' ∈ request.text.toList then request.lineEnding.reported else .none := by
  have hzero : '\n' ∈ request.text.toList ↔ request.text.toList.count '\n' ≠ 0 := by
    rw [ne_eq, List.count_eq_zero, not_not]
  rw [detectLineEnding, countEndings_utf8, WriteRequest.source]
  simp only [hzero]
  cases request.lineEnding with
  | lf =>
    rw [charEndings_of_notMem hcr]
    cases request.text.toList.count '\n' <;> rfl
  | crlf =>
    rw [charEndings_expand hcr]
    cases request.text.toList.count '\n' <;> rfl

theorem shown_source (hcr : '\r' ∉ request.text.toList) :
    shown request.source = request.text.toList := by
  rw [shown, detect_source hcr, WriteRequest.source]
  by_cases hlf : '\n' ∈ request.text.toList
  · rw [if_pos hlf]
    cases request.lineEnding with
    | lf => rfl
    | crlf => exact replaceCrlf_expand hcr
  · rw [if_neg hlf, if_neg (by decide)]
    cases request.lineEnding with
    | lf => rfl
    | crlf => exact expand_of_notMem hlf

theorem zero_notMem_bytes (hnul : '\x00' ∉ request.text.toList) : 0 ∉ request.bytes := by
  have hsource : '\x00' ∉ request.source := by
    unfold WriteRequest.source
    cases request.lineEnding with
    | lf => exact hnul
    | crlf => exact notMem_expand (by decide) hnul
  rw [WriteRequest.bytes, List.mem_append, zero_mem_utf8, not_or]
  refine ⟨?_, hsource⟩
  split_ifs <;> decide

theorem head?_source : request.source.head? = some '\uFEFF' ↔
    request.text.toList.head? = some '\uFEFF' := by
  unfold WriteRequest.source
  cases request.lineEnding with
  | lf => rfl
  | crlf =>
    cases request.text.toList with
    | nil => rfl
    | cons c text =>
      by_cases hc : c = '\n'
      · subst hc
        rw [expand_lf]
        simp
      · rw [expand_cons_of_ne hc, List.head?_cons, List.head?_cons]

theorem take_utf8 (text : List Char) : (utf8 text).take 3 = bom ↔ text.head? = some '\uFEFF' := by
  have hbom : bom = utf8 ['\uFEFF'] := by decide
  have htake : (utf8 text).take 3 = bom ↔ bom <+: utf8 text := by
    rw [List.prefix_iff_eq_take]
    exact eq_comm
  rw [htake, hbom, utf8_prefix_iff]
  cases text with
  | nil => simp
  | cons c text => simp [List.cons_prefix_cons, eq_comm]

variable (hash : Bytes → String) (path : String) (modifiedAt : Option ℤ) {bytes : Bytes}

/-- **A read of what was saved reports it**, unless the text starts with a mark of its own. -/
theorem classify_encode (h : encodeWriteText request = .ok bytes) :
    Reports (classifyFileText hash path bytes modifiedAt) request ↔ ¬ request.Marked := by
  obtain ⟨hnul, hcr, -, rfl, -⟩ := encodeWriteText_eq_ok.mp h
  have hzero := zero_notMem_bytes hnul
  have hreport : sourceOf request.bytes = utf8 request.source →
      (if request.bytes.take 3 = bom then TextEncoding.utf8Bom else .utf8).savedAs
        request.encoding = true →
      Reports (classifyFileText hash path request.bytes modifiedAt) request := by
    intro hsource hencoding
    rw [classify_eq hzero hsource]
    refine ⟨?_, hencoding, ?_⟩
    · rw [shown_source hcr, String.ofList_toList]
    · intro hlf
      rw [detect_source hcr, if_pos hlf]
  cases he : request.encoding with
  | utf8Bom =>
    have hbytes : request.bytes = bom ++ utf8 request.source := by
      rw [WriteRequest.bytes, he, if_pos rfl]
    have htake : request.bytes.take 3 = bom := by simp [hbytes, bom]
    refine iff_of_true (hreport ?_ ?_) (fun hm => by simp [WriteRequest.Marked, he] at hm)
    · rw [sourceOf, if_pos htake, hbytes]
      rfl
    · rw [if_pos htake, he]
      rfl
  | utf8 =>
    have hbytes : request.bytes = utf8 request.source := by
      rw [WriteRequest.bytes, he, if_neg (by decide), List.nil_append]
    have htake : request.bytes.take 3 = bom ↔ request.Marked := by
      rw [hbytes, take_utf8, head?_source, WriteRequest.Marked, he]
      simp
    by_cases hm : request.Marked
    · -- the mark is taken for the file's
      refine iff_of_false (fun hr => ?_) (not_not.mpr hm)
      have hhead := head?_source.mpr hm.2
      obtain ⟨rest, hrest⟩ := List.head?_eq_some_iff.mp hhead
      have hsource : sourceOf request.bytes = utf8 rest := by
        rw [sourceOf, if_pos (htake.mpr hm), hbytes, hrest]
        rfl
      have hencoding := hr.encoding
      rw [classify_eq hzero hsource, he] at hencoding
      simp [htake.mpr hm, TextEncoding.savedAs] at hencoding
    · refine iff_of_true (hreport ?_ ?_) hm
      · rw [sourceOf, if_neg (fun h => hm (htake.mp h)), hbytes]
      · rw [if_neg (fun h => hm (htake.mp h)), he]
        rfl

/-- **Editing a file preserves its bytes**: a save of what was read gives the same bytes, and a
read of what was saved reports it unless the text starts with a mark of its own. -/
theorem edit_preserves :
    (∀ (bytes : Bytes) (request : WriteRequest),
      (classifyFileText hash path bytes modifiedAt).readOnlyReason = none →
      SavesBack (classifyFileText hash path bytes modifiedAt) request →
      encodeWriteText request = .ok bytes) ∧
    ∀ (request : WriteRequest) (bytes : Bytes), encodeWriteText request = .ok bytes →
      (Reports (classifyFileText hash path bytes modifiedAt) request ↔ ¬ request.Marked) :=
  ⟨fun _ _ h hback => encode_classify h hback,
    fun _ _ h => classify_encode hash path modifiedAt h⟩

end Saved

/-- A file of two lines with a mark and carriage returns, and its save. -/
theorem edit_preserves_marked (hash : Bytes → String) :
    encodeWriteText ⟨"é\nb", .utf8Bom, .crlf, "h", "c"⟩ =
        .ok [0xef, 0xbb, 0xbf, 0xc3, 0xa9, 13, 10, 98] ∧
      Reports (classifyFileText hash "f" [0xef, 0xbb, 0xbf, 0xc3, 0xa9, 13, 10, 98] none)
        ⟨"é\nb", .utf8Bom, .crlf, "h", "c"⟩ := by
  have hread : (classifyFileText (fun _ => "h") "f" [0xef, 0xbb, 0xbf, 0xc3, 0xa9, 13, 10, 98]
      none).readOnlyReason = none := by decide +kernel
  have hsave := (edit_preserves (fun _ => "h") "f" none).1
    [0xef, 0xbb, 0xbf, 0xc3, 0xa9, 13, 10, 98] ⟨"é\nb", .utf8Bom, .crlf, "h", "c"⟩ hread
    ⟨by decide +kernel, by decide +kernel, by decide +kernel, by decide +kernel⟩
  exact ⟨hsave, ((edit_preserves hash "f" none).2 _ _ hsave).mpr (by
    rw [WriteRequest.Marked]
    decide +kernel)⟩

/-- **A mark at the start of a text saved without one is read as the file's.** -/
theorem mark_dropped :
    encodeWriteText ⟨"\uFEFFa", .utf8, .lf, "h", "c"⟩ = .ok [0xef, 0xbb, 0xbf, 97] ∧
      classifyFileText (fun _ => "h") "f" [0xef, 0xbb, 0xbf, 97] none =
        { path := "f", text := some "a", contentHash := some "h", size := 4, modifiedAt := none
          encoding := .utf8Bom, lineEnding := some .none, readOnlyReason := none } := by
  decide +kernel

end Zeron.Files
