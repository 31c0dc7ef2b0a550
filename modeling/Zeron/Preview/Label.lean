import Mathlib

/-!
# Labels of preview hostnames

A preview goes under `device.service.localhost` (`preview/src/catalog.rs`). Labels and hostnames
are lists of characters.

* `slug`: a label made of a name; `allocate`: one that is not used yet;
* `ValidLabel`, `validHostname`: what the proxy takes; `hostname`;
* **`validLabel_slug`**, **`allocate_spec`**, **`validHostname_hostname`**.
-/

namespace Zeron.Preview

abbrev Label := List Char

/-! ## Hostnames -/

def labelChar (c : Char) : Bool := c.isLower || c.isDigit || c = '-'

structure ValidLabel (s : Label) : Prop where
  nonempty : s ≠ []
  short : s.length ≤ 63
  first : s.head? ≠ some '-'
  last : s.getLast? ≠ some '-'
  chars : ∀ c ∈ s, labelChar c = true

theorem validLabel_iff {s : Label} : ValidLabel s ↔
    s ≠ [] ∧ s.length ≤ 63 ∧ s.head? ≠ some '-' ∧ s.getLast? ≠ some '-' ∧
      s.all labelChar = true :=
  ⟨fun h => ⟨h.nonempty, h.short, h.first, h.last, List.all_eq_true.mpr h.chars⟩,
    fun ⟨hne, hshort, hfirst, hlast, hchars⟩ =>
      ⟨hne, hshort, hfirst, hlast, List.all_eq_true.mp hchars⟩⟩

instance : DecidablePred ValidLabel := fun _ => decidable_of_iff' _ validLabel_iff

/-- `valid_hostname`. -/
def validHostname (host : Label) : Bool :=
  match host.splitOn '.' with
  | [device, service, top] =>
    top = "localhost".toList && decide (ValidLabel device) && decide (ValidLabel service)
  | _ => false

def hostname (device service : Label) : Label :=
  device ++ '.' :: (service ++ '.' :: "localhost".toList)

/-- `split('.').next()`. -/
def firstLabel (host : Label) : Label := host.takeWhile (· ≠ '.')

/-- `split_once('.').1`. -/
def afterFirst (host : Label) : Label := (host.dropWhile (· ≠ '.')).tail

/-! ## Names -/

def slugLoop (result : Label) : List Char → Label
  | [] => result
  | c :: cs =>
    let result :=
      if c.isAlphanum then result ++ [c.toLower]
      else if result.getLast? ≠ some '-' ∧ result ≠ [] then result ++ ['-']
      else result
    if 48 ≤ result.length then result else slugLoop result cs

/-- `trim_end_matches('-')`. -/
def trimEnd (s : Label) : Label := s.rdropWhile (· = '-')

/-- `slug`. -/
def slug (value : List Char) : Label :=
  let result := trimEnd ((slugLoop [] value).dropWhile (· = '-'))
  if result = [] then "project".toList else result

/-- The first free number, from `index` on; the numbers end with an `i32`. -/
def numbered (base : Label) (used : List Label) : ℕ → ℕ → Option Label
  | _, 0 => none
  | index, fuel + 1 =>
    let label := base.take 48 ++ '-' :: index.repr.toList
    if label ∈ used then numbered base used (index + 1) fuel else some label

/-- `allocate`. -/
def allocate (base : Label) (used : List Label) : Option Label :=
  let base := trimEnd (base.take 58)
  if base ∈ used then numbered base used 2 (2 ^ 31 - 2) else some base

example : allocate "macbook".toList ["macbook".toList, "macbook-2".toList] =
    some "macbook-3".toList := by decide

/-! ## Labels -/

/-- The start of a label: it may be cut, or have a number appended. -/
structure Stem (s : Label) : Prop where
  nonempty : s ≠ []
  first : s.head? ≠ some '-'
  chars : ∀ c ∈ s, labelChar c = true

theorem ValidLabel.stem {s : Label} (h : ValidLabel s) : Stem s := ⟨h.nonempty, h.first, h.chars⟩

theorem toLower_of_isAlphanum {c : Char} (h : c.isAlphanum = true) :
    c.toLower.isLower = true ∨ c.toLower.isDigit = true := by
  unfold Char.toLower
  split
  · rename_i hup
    left
    simp only [Char.isLower, Bool.and_eq_true, decide_eq_true_eq]
    have hlo : 65 ≤ c.val.toNat := hup.1
    have hhi : c.val.toNat ≤ 90 := hup.2
    have hval : (c.val + ('a'.val - 'A'.val)).toNat = c.val.toNat + 32 := by
      rw [UInt32.toNat_add]
      show (c.val.toNat + 32) % 2 ^ 32 = _
      omega
    constructor
    · show 97 ≤ (c.val + ('a'.val - 'A'.val)).toNat
      omega
    · show (c.val + ('a'.val - 'A'.val)).toNat ≤ 122
      omega
  · rename_i hnup
    have hno : c.isUpper = false := by simpa [Char.isUpper] using hnup
    simpa [Char.isAlphanum, Char.isAlpha, hno] using h

theorem labelChar_of {c : Char} (h : c.isLower = true ∨ c.isDigit = true) :
    labelChar c = true ∧ c ≠ '-' := by
  refine ⟨?_, ?_⟩
  · rcases h with h | h <;> simp [labelChar, h]
  · rintro rfl
    exact absurd h (by decide)

theorem Stem.take {s : Label} (h : Stem s) {n : ℕ} (hn : 0 < n) : Stem (s.take n) := by
  obtain ⟨c, cs, rfl⟩ := List.exists_cons_of_ne_nil h.nonempty
  obtain ⟨m, rfl⟩ := Nat.exists_eq_succ_of_ne_zero hn.ne'
  exact ⟨List.cons_ne_nil _ _, h.first, fun c' hc => h.chars c' (List.mem_of_mem_take hc)⟩

theorem Stem.trimEnd {s : Label} (h : Stem s) (hshort : s.length ≤ 63) :
    ValidLabel (trimEnd s) := by
  obtain ⟨c, cs, rfl⟩ := List.exists_cons_of_ne_nil h.nonempty
  have hpre : Preview.trimEnd (c :: cs) <+: c :: cs := List.rdropWhile_prefix _ _
  have hne : Preview.trimEnd (c :: cs) ≠ [] := by
    intro hnil
    have hall := List.rdropWhile_eq_nil_iff.mp hnil c List.mem_cons_self
    exact h.first (by simpa using hall)
  obtain ⟨c', cs', hcons⟩ := List.exists_cons_of_ne_nil hne
  refine ⟨hne, hpre.length_le.trans hshort, ?_, ?_, fun x hx => h.chars x (hpre.subset hx)⟩
  · rw [hcons] at hpre ⊢
    obtain ⟨t, ht⟩ := hpre
    rw [List.cons_append, List.cons.injEq] at ht
    rw [ht.1]
    exact h.first
  · rw [List.getLast?_eq_some_getLast hne]
    have hlast := List.rdropWhile_last_not (· = '-') (c :: cs) hne
    exact fun he => hlast (decide_eq_true (Option.some_inj.mp he))

theorem stem_concat {s : Label} {c : Char} (hfirst : s.head? ≠ some '-')
    (hchars : ∀ c ∈ s, labelChar c = true) (hc : labelChar c = true) (hdash : s = [] → c ≠ '-') :
    (s ++ [c]).head? ≠ some '-' ∧ ∀ c' ∈ s ++ [c], labelChar c' = true := by
  refine ⟨?_, fun c' hc' => ?_⟩
  · cases s with
    | nil => exact fun he => hdash rfl (Option.some_inj.mp he)
    | cons x xs => exact hfirst
  · rcases List.mem_append.mp hc' with hc' | hc'
    · exact hchars c' hc'
    · rw [List.mem_singleton.mp hc']
      exact hc

theorem slugLoop_spec (result : Label) (hlen : result.length ≤ 47)
    (hfirst : result.head? ≠ some '-') (hchars : ∀ c ∈ result, labelChar c = true)
    (value : List Char) :
    (slugLoop result value).length ≤ 48 ∧ (slugLoop result value).head? ≠ some '-' ∧
      ∀ c ∈ slugLoop result value, labelChar c = true := by
  induction value generalizing result with
  | nil => exact ⟨Nat.le_succ_of_le hlen, hfirst, hchars⟩
  | cons c cs ih =>
    have hnext : ∀ result' : Label, result'.length ≤ 48 → result'.head? ≠ some '-' →
        (∀ c ∈ result', labelChar c = true) →
        (if 48 ≤ result'.length then result' else slugLoop result' cs).length ≤ 48 ∧
          (if 48 ≤ result'.length then result' else slugLoop result' cs).head? ≠ some '-' ∧
          ∀ c ∈ if 48 ≤ result'.length then result' else slugLoop result' cs,
            labelChar c = true := by
      intro result' hlen' hfirst' hchars'
      split_ifs with hfull
      · exact ⟨hlen', hfirst', hchars'⟩
      · exact ih result' (by omega) hfirst' hchars'
    have hlonger : ∀ x : Char, (result ++ [x]).length ≤ 48 := fun x => by
      rw [List.length_append, List.length_singleton]
      omega
    unfold slugLoop
    dsimp only
    by_cases hc : c.isAlphanum = true
    · rw [if_pos hc]
      obtain ⟨hlabel, hdash⟩ := labelChar_of (toLower_of_isAlphanum hc)
      obtain ⟨hfirst', hchars'⟩ := stem_concat hfirst hchars hlabel fun _ => hdash
      exact hnext _ (hlonger _) hfirst' hchars'
    · rw [if_neg hc]
      by_cases hsep : result.getLast? ≠ some '-' ∧ result ≠ []
      · rw [if_pos hsep]
        obtain ⟨hfirst', hchars'⟩ := stem_concat (c := '-') hfirst hchars rfl
          fun hnil => absurd hnil hsep.2
        exact hnext _ (hlonger _) hfirst' hchars'
      · rw [if_neg hsep]
        exact hnext _ (Nat.le_succ_of_le hlen) hfirst hchars

/-- **A slug is a label.** -/
theorem validLabel_slug (value : List Char) : ValidLabel (slug value) := by
  obtain ⟨hlen, hfirst, hchars⟩ := slugLoop_spec [] (Nat.zero_le _)
    (fun he => by cases he) (fun _ hc => by cases hc) value
  unfold slug
  dsimp only
  have hdrop : (slugLoop [] value).dropWhile (· = '-') = slugLoop [] value := by
    cases hloop : slugLoop [] value with
    | nil => rfl
    | cons c cs =>
      rw [hloop] at hfirst
      exact List.dropWhile_cons_of_neg (by simpa using hfirst)
  rw [hdrop]
  split_ifs with hempty
  · decide
  · have hne : slugLoop [] value ≠ [] := fun hnil => hempty (by rw [hnil]; rfl)
    exact Stem.trimEnd ⟨hne, hfirst, hchars⟩ (by omega)

theorem numbered_spec {base : Label} (hbase : Stem base) {used : List Label} {index fuel : ℕ}
    {label : Label} (hlast : index + fuel ≤ 2 ^ 31)
    (h : numbered base used index fuel = some label) :
    ValidLabel label ∧ label ∉ used := by
  induction fuel generalizing index with
  | zero => cases h
  | succ fuel ih =>
    unfold numbered at h
    dsimp only at h
    split_ifs at h with hused
    · exact ih (by omega) h
    · cases Option.some_inj.mp h
      refine ⟨?_, hused⟩
      have hstem := hbase.take (n := 48) (by omega)
      have hdigits : ∀ c ∈ index.repr.toList, c.isDigit = true := fun c hc =>
        Nat.isDigit_of_mem_toDigits (by omega) (by omega) (Nat.toList_repr ▸ hc)
      have hlen : index.repr.toList.length ≤ 10 := by
        rw [String.length_toList]
        exact (Nat.length_repr_le_iff (by omega)).mpr (by omega)
      have hne : index.repr.toList ≠ [] := by
        rw [Nat.toList_repr]
        exact Nat.toDigits_ne_nil
      refine ⟨List.append_ne_nil_of_left_ne_nil hstem.nonempty _, ?_, ?_, ?_, fun c hc => ?_⟩
      · rw [List.length_append, List.length_cons]
        have := List.length_take_le 48 base
        omega
      · obtain ⟨x, xs, hcons⟩ := List.exists_cons_of_ne_nil hstem.nonempty
        have hfirst := hstem.first
        rw [hcons] at hfirst ⊢
        exact hfirst
      · rw [List.getLast?_append, List.getLast?_cons_of_ne_nil hne,
          List.getLast?_eq_some_getLast hne]
        intro he
        have hdigit := hdigits _ (List.getLast_mem hne)
        rw [Option.some_or] at he
        rw [Option.some_inj.mp he] at hdigit
        exact absurd hdigit (by decide)
      · rcases List.mem_append.mp hc with hc | hc
        · exact hstem.chars c hc
        · rcases List.mem_cons.mp hc with rfl | hc
          · rfl
          · exact (labelChar_of (Or.inr (hdigits c hc))).1

/-- **What is allocated is a label that was not used.** -/
theorem allocate_spec {base : Label} (hbase : Stem base) {used : List Label} {label : Label}
    (h : allocate base used = some label) : ValidLabel label ∧ label ∉ used := by
  have hvalid : ValidLabel (trimEnd (base.take 58)) :=
    (hbase.take (by omega)).trimEnd (Nat.le_trans (List.length_take_le _ _) (by omega))
  unfold allocate at h
  dsimp only at h
  split_ifs at h with hused
  · exact numbered_spec hvalid.stem (by omega) h
  · cases Option.some_inj.mp h
    exact ⟨hvalid, hused⟩

/-! ## Hostnames -/

theorem ValidLabel.no_dot {s : Label} (h : ValidLabel s) : '.' ∉ s := fun hdot =>
  absurd (h.chars '.' hdot) (by decide)

theorem splitOn_hostname {device service : Label} (hdevice : '.' ∉ device)
    (hservice : '.' ∉ service) :
    (hostname device service).splitOn '.' = [device, service, "localhost".toList] := by
  unfold hostname
  rw [List.splitOn_append_cons_self_of_not_mem hdevice,
    List.splitOn_append_cons_self_of_not_mem hservice, List.splitOn_eq_singleton (by decide)]

/-- **Labels make a hostname.** -/
theorem validHostname_hostname {device service : Label} (hdevice : ValidLabel device)
    (hservice : ValidLabel service) : validHostname (hostname device service) = true := by
  unfold validHostname
  rw [splitOn_hostname hdevice.no_dot hservice.no_dot]
  simp [hdevice, hservice]

theorem firstLabel_hostname {device service : Label} (hdevice : '.' ∉ device) :
    firstLabel (hostname device service) = device := by
  unfold firstLabel hostname
  rw [List.takeWhile_append_of_pos fun c hc => by
    simpa using fun he : c = '.' => hdevice (he ▸ hc)]
  simp

theorem hostname_inj {device device' service service' : Label} (hdevice : '.' ∉ device)
    (hdevice' : '.' ∉ device') (hservice : '.' ∉ service) (hservice' : '.' ∉ service')
    (h : hostname device service = hostname device' service') :
    device = device' ∧ service = service' := by
  have hsplit := splitOn_hostname hdevice hservice
  rw [h, splitOn_hostname hdevice' hservice', List.cons.injEq, List.cons.injEq] at hsplit
  exact ⟨hsplit.1.symm, hsplit.2.1.symm⟩

theorem validHostname_elim {host : Label} (h : validHostname host = true) :
    ∃ device service, ValidLabel device ∧ ValidLabel service ∧ host = hostname device service := by
  have hjoin : ['.'].intercalate (host.splitOn '.') = host := List.intercalate_splitOn '.'
  unfold validHostname at h
  split at h
  · rename_i device service top hsplit
    simp only [Bool.and_eq_true, decide_eq_true_eq] at h
    refine ⟨device, service, h.1.2, h.2, ?_⟩
    rw [← hjoin, hsplit, h.1.1]
    simp [hostname, List.intercalate]
  · cases h

theorem afterFirst_hostname {device service : Label} (hdevice : '.' ∉ device) :
    afterFirst (hostname device service) = service ++ '.' :: "localhost".toList := by
  unfold afterFirst hostname
  rw [List.dropWhile_append_of_pos fun c hc => by
    simpa using fun he : c = '.' => hdevice (he ▸ hc)]
  simp

end Zeron.Preview
