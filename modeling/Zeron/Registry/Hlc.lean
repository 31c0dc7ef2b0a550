import Mathlib

/-!
# Hybrid logical clocks

`{ms:013}-{counter:06}-{device}`: fixed-width zero padding, so that the lexicographic order of the
strings is the order of (ms, counter, device).

* `encodeHlc`, `hlcNewer`, `HlcClock.next`: the source;
* `rank`: the order with "never written" at the bottom;
* **`encodeHlc_inj`**, **`encodeHlc_lt`**: a clock's parts, and its order while they fit;
* `HlcClock.ticks`, `ticks_lt_next`: the source of clocks only moves up.
-/

namespace Zeron.Registry

/-- A hybrid-logical-clock string. -/
abbrev Hlc : Type := String

/-- `{n:0width}`. -/
def zeroPad (width n : ℕ) : String :=
  String.ofList (List.replicate (width - (Nat.toDigits 10 n).length) '0' ++ Nat.toDigits 10 n)

/-- `encode_hlc`. -/
def encodeHlc (ms counter : ℕ) (device : String) : Hlc :=
  zeroPad 13 ms ++ "-" ++ zeroPad 6 counter ++ "-" ++ device

/-- `a` strictly newer than `b` (`none`: never written, loses to any). -/
def hlcNewer (a : Hlc) (b : Option Hlc) : Bool :=
  match b with
  | none => true
  | some b => b < a

/-- Monotonic HLC source. -/
structure HlcClock where
  lastMs : ℕ
  counter : ℕ
  deriving DecidableEq

/-- `HlcClock::next`: the ticked clock and the string it stamps. -/
def HlcClock.next (clock : HlcClock) (nowMs : ℤ) (device : String) : HlcClock × Hlc :=
  let ticked : HlcClock :=
    if (clock.lastMs : ℤ) < nowMs then { lastMs := nowMs.toNat, counter := 0 }
    else if clock.counter + 1 > 999999 then { lastMs := clock.lastMs + 1, counter := 0 }
    else { clock with counter := clock.counter + 1 }
  (ticked, encodeHlc ticked.lastMs ticked.counter device)

/-- The place of a clock in the order: never written is below every clock. -/
def rank : Option Hlc → WithBot Hlc
  | none => ⊥
  | some h => h

@[simp] theorem rank_none : rank none = ⊥ := rfl

@[simp] theorem rank_some (h : Hlc) : rank (some h) = h := rfl

theorem rank_injective : Function.Injective rank := by
  intro a b h
  cases a <;> cases b <;> simp_all

theorem hlcNewer_iff {a : Hlc} {b : Option Hlc} : hlcNewer a b = true ↔ rank b < a := by
  cases b with
  | none => exact ⟨fun _ => WithBot.bot_lt_coe a, fun _ => rfl⟩
  | some b =>
    rw [hlcNewer, decide_eq_true_iff]
    exact WithBot.coe_lt_coe.symm

theorem hlcNewer_false_iff {a : Hlc} {b : Option Hlc} :
    hlcNewer a b = false ↔ (a : WithBot Hlc) ≤ rank b := by
  rw [← not_lt, ← hlcNewer_iff, Bool.not_eq_true]

/-! ## The text of a clock -/

theorem zeroPad_toList (width n : ℕ) : (zeroPad width n).toList =
    List.replicate (width - (Nat.toDigits 10 n).length) '0' ++ Nat.toDigits 10 n := by
  simp [zeroPad]

theorem length_zeroPad {width n : ℕ} (hw : 0 < width) (h : n < 10 ^ width) :
    (zeroPad width n).toList.length = width := by
  have := (Nat.length_toDigits_le_iff (b := 10) (by omega) hw).mpr h
  rw [zeroPad_toList, List.length_append, List.length_replicate]
  omega

theorem isDigit_of_mem_zeroPad {width n : ℕ} {c : Char} (h : c ∈ (zeroPad width n).toList) :
    c.isDigit = true := by
  rw [zeroPad_toList, List.mem_append] at h
  rcases h with h | h
  · rw [List.eq_of_mem_replicate h]
    rfl
  · exact Nat.isDigit_of_mem_toDigits (by omega) (by omega) h

theorem ofDigitChars_zeroPad (width n : ℕ) :
    Nat.ofDigitChars 10 (zeroPad width n).toList 0 = n := by
  rw [zeroPad_toList, Nat.ofDigitChars_append, Nat.ofDigitChars_replicate_zero, Nat.mul_zero,
    Nat.ofDigitChars_ten_toDigits]

theorem dash_notMem_zeroPad (width n : ℕ) : '-' ∉ (zeroPad width n).toList := by
  intro h
  have := isDigit_of_mem_zeroPad h
  revert this
  decide

theorem encodeHlc_toList (ms counter : ℕ) (device : String) : (encodeHlc ms counter device).toList =
    (zeroPad 13 ms).toList ++ '-' :: ((zeroPad 6 counter).toList ++ '-' :: device.toList) := by
  simp [encodeHlc]

theorem split_at_first {a : Char} : ∀ {x y s t : List Char}, a ∉ x → a ∉ y →
    x ++ a :: s = y ++ a :: t → x = y ∧ s = t
  | [], [], s, t, _, _, h => ⟨rfl, (List.cons.inj h).2⟩
  | [], d :: y, s, t, _, hy, h => by
    rw [List.nil_append, List.cons_append, List.cons.injEq] at h
    exact absurd (h.1 ▸ List.mem_cons_self) hy
  | c :: x, [], s, t, hx, _, h => by
    rw [List.nil_append, List.cons_append, List.cons.injEq] at h
    exact absurd (h.1 ▸ List.mem_cons_self) hx
  | c :: x, d :: y, s, t, hx, hy, h => by
    rw [List.cons_append, List.cons_append, List.cons.injEq] at h
    obtain ⟨rfl, rfl⟩ := split_at_first (fun hm => hx (List.mem_cons_of_mem _ hm))
      (fun hm => hy (List.mem_cons_of_mem _ hm)) h.2
    exact ⟨by rw [h.1], rfl⟩

/-- **A clock's parts can be read off its text.** -/
theorem encodeHlc_inj {ms ms' counter counter' : ℕ} {device device' : String}
    (h : encodeHlc ms counter device = encodeHlc ms' counter' device') :
    ms = ms' ∧ counter = counter' ∧ device = device' := by
  have hl := congrArg String.toList h
  rw [encodeHlc_toList, encodeHlc_toList] at hl
  obtain ⟨hms, hrest⟩ := split_at_first (dash_notMem_zeroPad 13 ms) (dash_notMem_zeroPad 13 ms') hl
  obtain ⟨hcounter, hdev⟩ :=
    split_at_first (dash_notMem_zeroPad 6 counter) (dash_notMem_zeroPad 6 counter') hrest
  refine ⟨?_, ?_, String.toList_inj.mp hdev⟩
  · rw [← ofDigitChars_zeroPad 13 ms, hms, ofDigitChars_zeroPad]
  · rw [← ofDigitChars_zeroPad 6 counter, hcounter, ofDigitChars_zeroPad]

theorem ofDigitChars_lt {l : List Char} (h : ∀ c ∈ l, c.isDigit = true) :
    Nat.ofDigitChars 10 l 0 < 10 ^ l.length := by
  induction l with
  | nil => simp
  | cons c l ih =>
    obtain ⟨hc, hl⟩ := List.forall_mem_cons.mp h
    have hc := (Char.isDigit_iff_toNat.mp hc).2
    have h9 : '9'.toNat = 57 := rfl
    have h0 : '0'.toNat = 48 := rfl
    have ih := ih hl
    rw [Nat.ofDigitChars_cons, Nat.ofDigitChars_eq_ofDigitChars_zero, List.length_cons, pow_succ,
      Nat.mul_zero, Nat.zero_add]
    have : 10 ^ l.length * (c.toNat - '0'.toNat) ≤ 10 ^ l.length * 9 :=
      Nat.mul_le_mul_left _ (by omega)
    omega

/-- Texts of digits of one length compare as their numbers. -/
theorem digits_lt_iff : ∀ {l l' : List Char}, l.length = l'.length →
    (∀ c ∈ l, c.isDigit = true) → (∀ c ∈ l', c.isDigit = true) →
    (l < l' ↔ Nat.ofDigitChars 10 l 0 < Nat.ofDigitChars 10 l' 0)
  | [], [], _, _, _ => by simp
  | c :: l, c' :: l', hlen, hl, hl' => by
    obtain ⟨hc, hl⟩ := List.forall_mem_cons.mp hl
    obtain ⟨hc', hl'⟩ := List.forall_mem_cons.mp hl'
    have hlen : l.length = l'.length := by simpa using hlen
    have ih := digits_lt_iff hlen hl hl'
    have h₁ := Char.isDigit_iff_toNat.mp hc
    have h₂ := Char.isDigit_iff_toNat.mp hc'
    have hlt : c < c' ↔ c.toNat - '0'.toNat < c'.toNat - '0'.toNat := by
      rw [Char.lt_def, UInt32.lt_iff_toNat_lt]
      simp only [Char.toNat] at h₁ h₂ ⊢
      omega
    have heq : c = c' ↔ c.toNat - '0'.toNat = c'.toNat - '0'.toNat := by
      rw [← Char.toNat_inj]
      omega
    have hb := ofDigitChars_lt hl
    have hb' := ofDigitChars_lt hl'
    have hval : ∀ (l : List Char) (d : ℕ), Nat.ofDigitChars 10 l (10 * 0 + d) =
        10 ^ l.length * d + Nat.ofDigitChars 10 l 0 := by
      intro l d
      rw [Nat.mul_zero, Nat.zero_add, Nat.ofDigitChars_eq_ofDigitChars_zero]
    rw [List.cons_lt_cons_iff, ih, hlt, heq, Nat.ofDigitChars_cons, Nat.ofDigitChars_cons, hval,
      hval, ← hlen]
    rw [← hlen] at hb'
    generalize c.toNat - '0'.toNat = d
    generalize c'.toNat - '0'.toNat = d'
    generalize Nat.ofDigitChars 10 l 0 = v at hb
    generalize Nat.ofDigitChars 10 l' 0 = v' at hb'
    generalize 10 ^ l.length = p at hb hb'
    constructor
    · rintro (h | ⟨rfl, h⟩)
      · have : p * (d + 1) ≤ p * d' := Nat.mul_le_mul_left p h
        rw [Nat.mul_succ] at this
        omega
      · omega
    · intro h
      rcases Nat.lt_trichotomy d d' with hd | rfl | hd
      · exact Or.inl hd
      · exact Or.inr ⟨rfl, by omega⟩
      · have : p * (d' + 1) ≤ p * d := Nat.mul_le_mul_left p hd
        rw [Nat.mul_succ] at this
        omega

theorem append_cons_lt_iff {a : Char} : ∀ {x y : List Char} {s t : List Char},
    x.length = y.length → (x ++ a :: s < y ++ a :: t ↔ x < y ∨ x = y ∧ s < t)
  | [], [], s, t, _ => by simp
  | c :: x, d :: y, s, t, h => by
    have h : x.length = y.length := by simpa using h
    simp only [List.cons_append, List.cons_lt_cons_iff, append_cons_lt_iff h, List.cons.injEq]
    tauto

/-- **Clocks whose parts fit their widths are ordered by ms, counter, device.** -/
theorem encodeHlc_lt {ms ms' counter counter' : ℕ} {device device' : String}
    (hms : ms < 10 ^ 13) (hms' : ms' < 10 ^ 13) (hc : counter < 10 ^ 6) (hc' : counter' < 10 ^ 6) :
    encodeHlc ms counter device < encodeHlc ms' counter' device' ↔
      ms < ms' ∨ ms = ms' ∧ (counter < counter' ∨ counter = counter' ∧ device < device') := by
  have hpad : ∀ {width n n' : ℕ}, 0 < width → n < 10 ^ width → n' < 10 ^ width →
      ((zeroPad width n).toList < (zeroPad width n').toList ↔ n < n') ∧
        ((zeroPad width n).toList = (zeroPad width n').toList ↔ n = n') := by
    intro width n n' hw h h'
    have hlen := (length_zeroPad hw h).trans (length_zeroPad hw h').symm
    have hlt := digits_lt_iff hlen (fun _ => isDigit_of_mem_zeroPad) fun _ => isDigit_of_mem_zeroPad
    rw [ofDigitChars_zeroPad, ofDigitChars_zeroPad] at hlt
    refine ⟨hlt, fun he => ?_, fun he => by rw [he]⟩
    rw [← ofDigitChars_zeroPad width n, he, ofDigitChars_zeroPad]
  have hlen₁ := (length_zeroPad (by omega) hms).trans (length_zeroPad (by omega) hms').symm
  have hlen₂ := (length_zeroPad (by omega) hc).trans (length_zeroPad (by omega) hc').symm
  rw [String.lt_iff_toList_lt, encodeHlc_toList, encodeHlc_toList, append_cons_lt_iff hlen₁,
    append_cons_lt_iff hlen₂, (hpad (by omega) hms hms').1, (hpad (by omega) hms hms').2,
    (hpad (by omega) hc hc').1, (hpad (by omega) hc hc').2, ← String.lt_iff_toList_lt]

/-! ## The source of clocks -/

/-- How far a source of clocks has got. -/
def HlcClock.ticks (clock : HlcClock) : ℕ ×ₗ ℕ := toLex (clock.lastMs, clock.counter)

/-- **Every tick moves the source up.** -/
theorem ticks_lt_next (clock : HlcClock) (nowMs : ℤ) (device : String) :
    clock.ticks < (clock.next nowMs device).1.ticks := by
  simp only [HlcClock.ticks, HlcClock.next, Prod.Lex.toLex_lt_toLex]
  split_ifs with hnow hfull
  · left
    dsimp only
    omega
  · left
    exact Nat.lt_succ_self _
  · right
    exact ⟨rfl, Nat.lt_succ_self _⟩

theorem next_snd (clock : HlcClock) (nowMs : ℤ) (device : String) :
    (clock.next nowMs device).2 = encodeHlc (clock.next nowMs device).1.lastMs
      (clock.next nowMs device).1.counter device := rfl

end Zeron.Registry
