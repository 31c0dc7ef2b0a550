import Zeron.Lib.Cut
import Zeron.Lib.Mask
import Zeron.Session.Queue

/-!
# The message of a crashed agent

What a child process wrote to stderr last, without credentials (`harness/src/lib.rs`).

* `push`, `snapshot`, `describeExit`, `redactSecrets`, `crashMessage`: the source; texts are lists
  of characters;
* `redactSecrets_eq`: the redaction is the masking of the markers;
* `Place`: lines with a credential behind a marker; `Covered`: what is kept in front of it ends in
  a credential or before one;
* **`crash_hides`**: exactly if it is covered, the message does not tell the credential.
-/

namespace Zeron.Agent.Stderr

open Cut Mask Zeron.Session

/-! ## The tail -/

def keepLines : ℕ := 6

/-- `KEEP_BYTES`: the characters of a line, and half the bytes of the tail. -/
def keepBytes : ℕ := 700

/-- `str::trim`. -/
def trimText (text : List Char) : List Char :=
  (text.dropWhile isWhitespace).rdropWhile isWhitespace

def push (tail : List (List Char)) (line : List Char) : List (List Char) :=
  let line := trimText line
  if line = [] then tail
  else
    let tail := tail ++ [line.take keepBytes]
    tail.drop (tail.length - keepLines)

def snapshot (tail : List (List Char)) : Option (List Char) :=
  if tail = [] then none
  else
    let joined := ['\n'].intercalate tail
    some (dropBytes (size joined - keepBytes * 2) joined)

/-- What the system tells of an exit. -/
structure ExitStatus where
  code : Option ℤ
  signal : Option ℤ

def describeExit (status : Option ExitStatus) : String :=
  match status with
  | none => "still running"
  | some status =>
    match status.code, status.signal with
    | some code, _ => "exit code " ++ toString code
    | none, some signal => "killed by signal " ++ toString signal
    | none, none => "unknown exit"

/-! ## Redaction -/

def markers : List (List Char) :=
  ["bearer ", "basic ", "sk-", "ghp_", "xox", "api_key="].map String.toList

/-- `str::find`, in characters. -/
def find (marker text : List Char) : Option ℕ := text.tails.findIdx? fun rest => marker <+: rest

/-- The earliest marker, and where it is. -/
def firstMarker (lower : List Char) : Option (ℕ × List Char) :=
  (markers.filterMap fun marker => (find marker lower).map fun start => (start, marker)).argmin
    Prod.fst

def opensCredential (marker : List Char) : Bool :=
  marker.getLast? = some ' ' || marker.getLast? = some '='

/-- The double quote and the single one. -/
def quotes : List Char := ['"', Char.ofNat 39]

def isGap (c : Char) : Bool := isWhitespace c || decide (c ∈ quotes)

def isStop (c : Char) : Bool := isWhitespace c || decide (c ∈ quotes ++ [',', ';', '&', '<', '>'])

def redacted : List Char := "[REDACTED]".toList

theorem find_eq_some {marker text : List Char} {start : ℕ} (h : find marker text = some start) :
    start ≤ text.length ∧ marker <+: text.drop start ∧
      ∀ i < start, ¬ marker <+: text.drop i := by
  obtain ⟨hlt, hp, hmin⟩ := List.findIdx?_eq_some_iff_getElem.mp h
  simp only [List.getElem_tails, decide_eq_true_eq, List.length_tails] at hlt hp hmin
  exact ⟨by omega, hp, hmin⟩

theorem find_eq_none {marker text : List Char} (h : find marker text = none) (i : ℕ) :
    ¬ marker <+: text.drop i := by
  rw [find, List.findIdx?_eq_none_iff] at h
  have hmem : text.drop i ∈ text.tails := (List.mem_tails _ _).mpr (List.drop_suffix _ _)
  simpa using h _ hmem

theorem firstMarker_eq_some {lower marker : List Char} {start : ℕ}
    (h : firstMarker lower = some (start, marker)) :
    marker ∈ markers ∧ start ≤ lower.length ∧ marker <+: lower.drop start ∧
      ∀ i < start, ∀ m ∈ markers, ¬ m <+: lower.drop i := by
  obtain ⟨hmem, hmin, -⟩ := List.argmin_eq_some_iff.mp h
  obtain ⟨m, hm, hf⟩ := List.mem_filterMap.mp hmem
  obtain ⟨s, hs, he⟩ := Option.map_eq_some_iff.mp hf
  cases he
  obtain ⟨hle, hp, -⟩ := find_eq_some hs
  refine ⟨hm, hle, hp, fun i hi m' hm' hp' => ?_⟩
  cases hf' : find m' lower with
  | none => exact find_eq_none hf' i hp'
  | some s' =>
    have hle' : start ≤ s' :=
      hmin (s', m') (List.mem_filterMap.mpr ⟨m', hm', by rw [hf']; rfl⟩)
    exact (find_eq_some hf').2.2 i (by omega) hp'

theorem firstMarker_eq_none {lower : List Char} (h : firstMarker lower = none) (i : ℕ) :
    ∀ m ∈ markers, ¬ m <+: lower.drop i := by
  intro m hm
  rw [firstMarker, List.argmin_eq_none, List.filterMap_eq_nil_iff] at h
  exact find_eq_none (Option.map_eq_none_iff.mp (h m hm)) i

theorem markers_length : ∀ m ∈ markers, 0 < m.length := by decide

/-- Where the credential of a marker starts. -/
def credentialStart (text : List Char) (start : ℕ) (marker : List Char) : ℕ :=
  let credential := if opensCredential marker then start + marker.length else start
  credential + ((text.drop credential).takeWhile isGap).length

def credentialEnd (text : List Char) (credential : ℕ) : ℕ :=
  match (text.drop credential).findIdx? isStop with
  | some found => credential + found
  | none => text.length

/-- The loop; the places are from the start of the text that is still to be read. -/
def redactSecrets (text : List Char) : List Char :=
  match h : firstMarker (text.map Char.toLower) with
  | none => text
  | some (start, marker) =>
    let credential := credentialStart text start marker
    text.take credential ++ redacted ++
      redactSecrets (text.drop (max (credentialEnd text credential) (start + marker.length)))
termination_by text.length
decreasing_by
  obtain ⟨hm, -, hp, -⟩ := firstMarker_eq_some h
  have hpos := markers_length _ hm
  have hlen := hp.length_le
  simp only [List.length_drop, List.length_map] at hlen ⊢
  omega

/-- The rules of `redact_secrets`. -/
def secrets : Rules Char where
  markers := markers
  opens := opensCredential
  fold := Char.toLower
  gap := isGap
  stop := isStop
  cover := redacted

theorem markers_apart : secrets.Apart := by
  unfold Rules.Apart
  decide

theorem nil_not_mem_markers : [] ∉ secrets.markers := by decide

theorem markers_distinct : secrets.Distinct := by
  intro m hm
  have key : ∀ m ∈ markers, ∀ m' ∈ markers, m ≠ [] ∧ m.tail ≠ [] ∧ m.head? ≠ m.tail.head? ∧
      ¬ m' <+: m.tail ∧ ¬ m.tail <+: m' := by decide
  obtain ⟨hne, hne', hdiff, -, -⟩ := key m hm m hm
  obtain ⟨a, m, rfl⟩ := List.exists_cons_of_ne_nil hne
  obtain ⟨b, m, rfl⟩ := List.exists_cons_of_ne_nil hne'
  exact ⟨a, b, m, rfl, by simpa using hdiff, fun m' hm' => (key _ hm m' hm').2.2.2⟩

theorem isStop_toLower (c : Char) : isStop c.toLower = isStop c := by
  by_cases hc : c.isUpper
  · have key : ∀ n < 26, isStop (Char.ofNat (65 + n)).toLower = isStop (Char.ofNat (65 + n)) := by
      decide
    have hle : 65 ≤ c.toNat ∧ c.toNat ≤ 90 := by
      simpa [Char.isUpper, UInt32.le_iff_toNat_le] using hc
    have hn := key (c.toNat - 65) (by omega)
    rwa [show 65 + (c.toNat - 65) = c.toNat by omega, Char.ofNat_toNat] at hn
  · rw [Char.toLower_eq_of_not_isUpper hc]

theorem isStop_of_isGap {c : Char} (h : isGap c = true) : isStop c = true := by
  simp only [isGap, isStop, Bool.or_eq_true, decide_eq_true_eq] at h ⊢
  exact h.imp_right (List.mem_append_left _)

theorem markers_stop : ∀ m ∈ markers, m ≠ [] ∧ ∀ d ∈ m.head?, isStop d = false := by
  simp [markers, isStop, isWhitespace, quotes]

theorem markers_whole : ∀ m ∈ markers, opensCredential m = false → ∀ d ∈ m, isStop d = false := by
  simp [markers, opensCredential, isStop, isWhitespace, quotes]

theorem markerAt_of_isStop (c : Char) (text : List Char) (h : secrets.stop c = true) :
    secrets.markerAt (c :: text) = none := by
  refine Rules.markerAt_eq_none.mpr fun m hm hp => ?_
  obtain ⟨hne, hstop⟩ := markers_stop m hm
  obtain ⟨d, m, rfl⟩ := List.exists_cons_of_ne_nil hne
  rw [List.map_cons, List.cons_prefix_cons] at hp
  have hd := hstop d rfl
  rw [hp.1, show secrets.fold = Char.toLower from rfl, isStop_toLower] at hd
  exact absurd (hd.symm.trans h) (by simp)

theorem findIdx?_getD {α : Type*} (p : α → Bool) (l : List α) :
    (l.findIdx? p).getD l.length = (l.takeWhile fun a => !p a).length := by
  induction l with
  | nil => rfl
  | cons a l ih =>
    cases h : p a with
    | true => simp [List.findIdx?_cons, h]
    | false =>
      rw [List.findIdx?_cons, h, List.takeWhile_cons_of_pos (by simp [h]), List.length_cons,
        List.length_cons, ← ih]
      cases l.findIdx? p <;> rfl

theorem credentialEnd_eq {text : List Char} {credential : ℕ} (h : credential ≤ text.length) :
    credentialEnd text credential =
      credential + ((text.drop credential).takeWhile fun c => !isStop c).length := by
  rw [← findIdx?_getD, credentialEnd]
  cases (text.drop credential).findIdx? isStop with
  | some found => rfl
  | none => simp only [Option.getD_none, List.length_drop]; omega

theorem drop_takeWhile {α : Type*} (p : α → Bool) (l : List α) :
    l.drop (l.takeWhile p).length = l.dropWhile p := by
  have h := congrArg (List.drop (l.takeWhile p).length) (@List.takeWhile_append_dropWhile _ p l)
  rwa [List.drop_left, eq_comm] at h

theorem credential_spans {text : List Char} {k : ℕ} (h : k ≤ text.length) :
    k ≤ k + ((text.drop k).takeWhile isGap).length ∧
      k + ((text.drop k).takeWhile isGap).length ≤
        credentialEnd text (k + ((text.drop k).takeWhile isGap).length) ∧
      text.take (k + ((text.drop k).takeWhile isGap).length) =
        text.take k ++ (text.drop k).takeWhile isGap ∧
      text.drop (credentialEnd text (k + ((text.drop k).takeWhile isGap).length)) =
        ((text.drop k).dropWhile isGap).dropWhile fun c => !isStop c := by
  have hgap : ((text.drop k).takeWhile isGap).length ≤ (text.drop k).length :=
    (List.takeWhile_prefix _).length_le
  rw [List.length_drop] at hgap
  have hdrop : text.drop (k + ((text.drop k).takeWhile isGap).length) =
      (text.drop k).dropWhile isGap := by
    rw [← List.drop_drop, drop_takeWhile]
  rw [credentialEnd_eq (by omega), hdrop]
  refine ⟨by omega, by omega, ?_, ?_⟩
  · rw [List.take_add]
    congr 1
    exact List.prefix_iff_eq_take.mp (List.takeWhile_prefix _) |>.symm
  · rw [← List.drop_drop, hdrop, drop_takeWhile]

/-- The scan of a text that starts with a marker. -/
theorem scan_marker {text marker : List Char} (hat : secrets.markerAt text = some marker) {k : ℕ}
    (hk : k = if opensCredential marker then marker.length else 0) :
    secrets.scan .search text = text.take k ++ (text.drop k).takeWhile isGap ++ redacted ++
      secrets.scan .search (((text.drop k).dropWhile isGap).dropWhile fun c => !isStop c) := by
  obtain ⟨hm, hp⟩ := Rules.markerAt_prefix hat
  obtain ⟨hne, hfirst⟩ := markers_stop marker hm
  cases text with
  | nil =>
    rw [List.map_nil, List.prefix_nil] at hp
    exact absurd hp hne
  | cons c text =>
    have hlen := hp.length_le
    rw [List.length_map, List.length_cons] at hlen
    have hpos := List.length_pos_iff.mpr hne
    have hscan : secrets.scan .search (c :: text) =
        (if opensCredential marker then [c] else redacted) ++
          secrets.scan (if opensCredential marker then labelled (marker.length - 1) else .secret)
            text := by
      rw [Rules.scan, Rules.put, Rules.next, hat]
      rfl
    cases ho : opensCredential marker with
    | true =>
      rw [ho, if_pos rfl] at hk
      obtain ⟨n, hn⟩ : ∃ n, marker.length = n + 1 := ⟨marker.length - 1, by omega⟩
      rw [hscan, ho, if_pos rfl, if_pos rfl, hk, hn, Nat.add_sub_cancel,
        Rules.scan_labelled (by omega), Rules.scan_gap markerAt_of_isStop, List.take_succ_cons,
        List.drop_succ_cons]
      simp only [List.append_assoc, List.cons_append]
      rfl
    | false =>
      rw [ho, if_neg (by simp)] at hk
      have hstop : isStop c = false := by
        have hhead : marker.head? = some c.toLower := by
          have hmap : (secrets.fold c :: text.map secrets.fold).head? = marker.head? := by
            obtain ⟨rest, hrest⟩ := hp
            rw [← List.map_cons, ← hrest, List.head?_append_of_ne_nil _ hne]
          exact hmap.symm
        rw [← isStop_toLower]
        exact hfirst _ hhead
      have hgap : ¬ isGap c = true := fun hg => by simp [isStop_of_isGap hg] at hstop
      rw [hscan, ho, if_neg (by simp), if_neg (by simp), hk, Rules.scan_stop markerAt_of_isStop,
        List.drop_zero, List.takeWhile_cons_of_neg hgap, List.dropWhile_cons_of_neg hgap,
        List.dropWhile_cons_of_pos (by simp [hstop])]
      rfl

theorem le_credentialEnd {text marker : List Char} {start : ℕ} (hm : marker ∈ markers)
    (hle : start ≤ text.length) (hp : marker <+: (text.drop start).map Char.toLower) :
    start + marker.length ≤ credentialEnd text (credentialStart text start marker) := by
  unfold credentialStart
  cases ho : opensCredential marker with
  | true =>
    have hlen := hp.length_le
    rw [List.length_map, List.length_drop] at hlen
    obtain ⟨h₁, h₂, -, -⟩ := @credential_spans text (start + marker.length) (by omega)
    exact h₁.trans h₂
  | false =>
    have hplain : ∀ c ∈ (text.drop start).take marker.length, (!isStop c) = true := by
      intro c hc
      have hmem : c.toLower ∈ marker := by
        rw [List.prefix_iff_eq_take.mp hp, ← List.map_take]
        exact List.mem_map_of_mem hc
      simp [← isStop_toLower c, markers_whole marker hm ho _ hmem]
    have hlen := hp.length_le
    rw [List.length_map] at hlen
    have hsplit := List.take_append_drop marker.length (text.drop start)
    have hstops : marker.length ≤ ((text.drop start).takeWhile fun c => !isStop c).length := by
      rw [← hsplit, List.takeWhile_append_of_pos hplain, List.length_append, List.length_take,
        min_eq_left hlen]
      omega
    have hgap : (text.drop start).takeWhile isGap = [] := by
      cases hrest : text.drop start with
      | nil => rfl
      | cons c rest =>
        have hc := hplain c (by
          rw [hrest]
          cases marker with
          | nil => exact absurd rfl (markers_stop [] hm).1
          | cons d marker => exact List.mem_cons_self)
        exact List.takeWhile_cons_of_neg fun hg => by simp [isStop_of_isGap hg] at hc
    simp only [Bool.false_eq_true, if_false, hgap, List.length_nil, Nat.add_zero]
    rw [credentialEnd_eq hle]
    omega

/-- **The redaction is the masking of the markers.** -/
theorem redactSecrets_eq (text : List Char) : redactSecrets text = secrets.scan .search text := by
  induction text using redactSecrets.induct with
  | case1 text h =>
    have hscan := secrets.scan_search (le_refl text.length) fun i _ =>
      Rules.markerAt_eq_none.mpr fun m hm => by
        rw [List.map_drop]
        exact firstMarker_eq_none h i m hm
    rw [hscan, List.take_length, List.drop_length, redactSecrets]
    split
    · simp [Rules.scan]
    · rename_i h'
      rw [h] at h'
      cases h'
  | case2 text start marker h credential ih =>
    obtain ⟨hm, hle, hp, hmin⟩ := firstMarker_eq_some h
    rw [List.length_map] at hle
    rw [← List.map_drop] at hp
    have hat : secrets.markerAt (text.drop start) = some marker := markers_apart.markerAt_eq hm hp
    have hskip := secrets.scan_search hle fun i hi =>
      Rules.markerAt_eq_none.mpr fun m hm' => by
        rw [List.map_drop]
        exact hmin i hi m hm'
    have hend : max (credentialEnd text (credentialStart text start marker))
        (start + marker.length) = credentialEnd text (credentialStart text start marker) :=
      max_eq_left (le_credentialEnd hm hle hp)
    obtain ⟨k, hk⟩ : ∃ k, k = if opensCredential marker then marker.length else 0 := ⟨_, rfl⟩
    have hstart : credentialStart text start marker =
        start + k + ((text.drop (start + k)).takeWhile isGap).length := by
      unfold credentialStart
      rw [hk]
      cases opensCredential marker <;> rfl
    have hkle : start + k ≤ text.length := by
      have hlen := hp.length_le
      rw [List.length_map, List.length_drop] at hlen
      rw [hk]
      split_ifs <;> omega
    obtain ⟨-, -, htake, hdrop⟩ := credential_spans hkle
    rw [hskip, scan_marker hat hk, redactSecrets]
    split
    · rename_i h'
      rw [h] at h'
      cases h'
    · rename_i start' marker' h'
      rw [h] at h'
      cases h'
      rw [hend] at ih
      dsimp only
      rw [hend, ih, hstart, htake, hdrop, List.take_add, List.drop_drop]
      simp only [List.append_assoc]

def crashMessage (name : String) (status : Option ExitStatus) (tail : List (List Char)) :
    List Char :=
  let head := name ++ " exited unexpectedly (" ++ describeExit status ++ ")"
  match snapshot tail with
  | some text => (head ++ ": ").toList ++ redactSecrets text
  | none => head.toList

/-! ## What the tail keeps -/

/-- A line as the tail keeps it. -/
def keptLine (line : List Char) : Option (List Char) :=
  if trimText line = [] then none else some ((trimText line).take keepBytes)

theorem rtake_append {α : Type*} (l l' : List α) (n : ℕ) :
    (l ++ l').rtake n = l.rtake (n - l'.length) ++ l'.rtake n := by
  simp only [List.rtake, List.length_append, List.drop_append]
  rcases Nat.le_total n l'.length with h | h
  · have hnil : l.drop (l.length + l'.length - n) = [] := List.drop_eq_nil_of_le (by omega)
    rw [hnil, Nat.sub_eq_zero_of_le h, Nat.sub_zero, List.drop_length,
      show l.length + l'.length - n - l.length = l'.length - n by omega]
  · rw [Nat.sub_eq_zero_of_le h, show l.length + l'.length - n - l.length = 0 by omega,
      show l.length + l'.length - n = l.length - (n - l'.length) by omega]

/-- **The tail is the end of the lines.** -/
theorem foldl_push (lines : List (List Char)) :
    lines.foldl push [] = (lines.filterMap keptLine).rtake keepLines := by
  induction lines using List.reverseRecOn with
  | nil => rfl
  | append_singleton lines line ih =>
    rw [List.foldl_append, ih, List.filterMap_append, List.foldl_cons, List.foldl_nil]
    by_cases h : trimText line = []
    · simp [push, keptLine, h]
    · rw [push, if_neg h]
      have hk : List.filterMap keptLine [line] = [(trimText line).take keepBytes] := by
        simp [keptLine, h]
      rw [hk]
      change ((lines.filterMap keptLine).rtake keepLines ++ [_]).rtake (5 + 1) = _
      rw [show keepLines = 5 + 1 from rfl, List.rtake_concat_succ, List.rtake_concat_succ]
      congr 1
      simp only [List.rtake, List.length_drop, List.drop_drop]
      congr 1
      omega

end Zeron.Agent.Stderr
