import Mathlib

/-!
# Order keys of pins

Dense hexadecimal keys (`crates/proto/src/sidebar_pins.rs`): between two keys there is always room
for the digits of a clock.

* `validPinOrderKey`, `pinOrderKeyBetween`: the source, the loop as a recursion on its passes;
* `Between`: strictly between two optional bounds; `Admissible`: what the function asks for;
* **`between_allocate`**, **`pinOrderKeyBetween_ok`**: an allocated key is valid and lies between.
-/

namespace Zeron.Sidebar

/-- `MAX_PIN_ORDER_KEY_BYTES`. -/
def maxPinOrderKeyBytes : ℕ := 8192

/-- Maximum wire HLC: 13 + 1 + 6 + 1 + 128. -/
def nonceBytes : ℕ := 149

def isHexDigit (c : Char) : Bool := c.isDigit || ('a' ≤ c && c ≤ 'f')

/-- The characters of a key in the grammar are ASCII, one byte each. -/
def validPinOrderKey (key : String) : Bool :=
  key.toList ≠ [] && key.toList.length ≤ maxPinOrderKeyBytes && key.toList.all isHexDigit &&
    key.toList.getLast? ≠ some '0'

/-- The closure `digit`. -/
def digit (c : Char) : ℕ := if c ≤ '9' then c.toNat - '0'.toNat else c.toNat - 'a'.toNat + 10

/-- The fixed-width encoding of the nonce: two digits a byte, padded with zeros. -/
def nonceDigits (nonce : List Char) : List Char :=
  (List.range nonceBytes).flatMap fun i =>
    [Nat.digitChar ((nonce[i]?.map Char.toNat).getD 0 / 16),
      Nat.digitChar ((nonce[i]?.map Char.toNat).getD 0 % 16)]

/-- The loop over the digits of the bounds; `none` where it runs out of passes. -/
def allocate (nonce : List Char) : ℕ → List Char → Option (List Char) → Option (List Char)
  | 0, _, _ => none
  | passes + 1, lower, upper =>
    let lo := (lower.head?.map digit).getD 0
    let hi := ((upper.bind List.head?).map digit).getD 16
    if lo + 1 < hi then some (Nat.digitChar ((lo + hi) / 2) :: (nonceDigits nonce ++ ['8']))
    else (allocate nonce passes lower.tail (if lo ≠ hi then none else upper.map List.tail)).map
      (Nat.digitChar lo :: ·)

/-- `pin_order_key_between`. -/
def pinOrderKeyBetween (lower upper : Option String) (nonce : String) : Except String String :=
  if lower.any (!validPinOrderKey ·) || upper.any (!validPinOrderKey ·) ||
      (lower.any fun a => upper.any fun b => decide (b ≤ a)) || nonce.toList = [] ||
      nonceBytes < nonce.toList.length || !nonce.toList.all (·.toNat < 128) ||
      nonce.toList.contains '\x00' then
    .error "Invalid pin ordering bounds"
  else
    match allocate nonce.toList maxPinOrderKeyBytes ((lower.map String.toList).getD [])
        (upper.map String.toList) with
    | none => .error "Pin ordering key is too long"
    | some key =>
      if key.length ≤ maxPinOrderKeyBytes then .ok (String.ofList key)
      else .error "Pin ordering key is too long"

/-! ## Digits -/

theorem isHexDigit_iff {c : Char} :
    isHexDigit c = true ↔ 48 ≤ c.toNat ∧ c.toNat ≤ 57 ∨ 97 ≤ c.toNat ∧ c.toNat ≤ 102 := by
  have hle : ∀ a b : Char, a ≤ b ↔ a.toNat ≤ b.toNat := fun a b => by
    rw [Char.le_def, UInt32.le_iff_toNat_le]
    rfl
  rw [isHexDigit, Bool.or_eq_true, Char.isDigit_iff_toNat, Bool.and_eq_true, decide_eq_true_iff,
    decide_eq_true_iff, hle, hle]
  rfl

theorem digit_of_hex {c : Char} (h : isHexDigit c = true) :
    digit c = if c.toNat ≤ 57 then c.toNat - 48 else c.toNat - 87 := by
  have hle : c ≤ '9' ↔ c.toNat ≤ 57 := by
    rw [Char.le_def, UInt32.le_iff_toNat_le]
    rfl
  have hzero : '0'.toNat = 48 := rfl
  have ha : 'a'.toNat = 97 := rfl
  rw [isHexDigit_iff] at h
  unfold digit
  split_ifs with h₁ h₂ h₂ <;> simp only [hle] at h₁ <;> omega

theorem digit_lt {c : Char} (h : isHexDigit c = true) : digit c < 16 := by
  rw [digit_of_hex h]
  rw [isHexDigit_iff] at h
  split_ifs <;> omega

theorem digit_lt_digit {c d : Char} (hc : isHexDigit c = true) (hd : isHexDigit d = true) :
    digit c < digit d ↔ c < d := by
  rw [digit_of_hex hc, digit_of_hex hd, Char.lt_def, UInt32.lt_iff_toNat_lt]
  rw [isHexDigit_iff] at hc hd
  change _ ↔ c.toNat < d.toNat
  split_ifs <;> omega

theorem digitChar_hex : ∀ n < 16, isHexDigit (Nat.digitChar n) = true := by decide

theorem digit_digitChar : ∀ n < 16, digit (Nat.digitChar n) = n := by decide

theorem digitChar_digit {c : Char} (h : isHexDigit c = true) : Nat.digitChar (digit c) = c := by
  have hlt := digit_lt h
  have hhex := digitChar_hex _ hlt
  have heq := digit_digitChar _ hlt
  rcases lt_trichotomy (Nat.digitChar (digit c)) c with hc | hc | hc
  · rw [← digit_lt_digit hhex h, heq] at hc
    exact absurd hc (lt_irrefl _)
  · exact hc
  · rw [← digit_lt_digit h hhex, heq] at hc
    exact absurd hc (lt_irrefl _)

theorem digitChar_lt {n : ℕ} {c : Char} (hn : n < 16) (hc : isHexDigit c = true)
    (h : n < digit c) : Nat.digitChar n < c := by
  rwa [← digit_lt_digit (digitChar_hex n hn) hc, digit_digitChar n hn]

theorem lt_digitChar {n : ℕ} {c : Char} (hn : n < 16) (hc : isHexDigit c = true)
    (h : digit c < n) : c < Nat.digitChar n := by
  rwa [← digit_lt_digit hc (digitChar_hex n hn), digit_digitChar n hn]

/-! ## Allocation -/

/-- Strictly between two bounds, where they are given. -/
def Between {α : Type} [LT α] (lower upper : Option α) (a : α) : Prop :=
  (∀ l ∈ lower, l < a) ∧ ∀ u ∈ upper, a < u

/-- Bounds the loop meets: digits, the upper one not ending in a zero, in order. -/
structure Bounds (lower : List Char) (upper : Option (List Char)) : Prop where
  digits : ∀ c ∈ lower, isHexDigit c = true
  above : ∀ u ∈ upper, (∀ c ∈ u, isHexDigit c = true) ∧ u.getLast? ≠ some '0' ∧ lower < u

theorem Bounds.tail_open {lower : List Char} {upper : Option (List Char)} (h : Bounds lower upper) :
    Bounds lower.tail none :=
  ⟨fun c hc => h.digits c (List.mem_of_mem_tail hc), by simp⟩

theorem Bounds.tail_equal {d : Char} {lower u : List Char}
    (h : Bounds (d :: lower) (some (d :: u))) :
    Bounds lower (some u) := by
  obtain ⟨hhex, hlast, hlt⟩ := h.above _ rfl
  have hlt : lower < u := by simpa [List.cons_lt_cons_iff] using hlt
  refine ⟨fun c hc => h.digits c (List.mem_cons_of_mem _ hc), ?_⟩
  rintro _ ⟨⟩
  refine ⟨fun c hc => hhex c (List.mem_cons_of_mem _ hc), fun he => hlast ?_, hlt⟩
  rw [List.getLast?_cons, he]
  rfl

theorem Bounds.tail_zero {u : List Char} (h : Bounds [] (some ('0' :: u))) :
    Bounds [] (some u) := by
  obtain ⟨hhex, hlast, -⟩ := h.above _ rfl
  refine ⟨by simp, ?_⟩
  rintro _ ⟨⟩
  have hne : u ≠ [] := by
    rintro rfl
    exact hlast rfl
  refine ⟨fun c hc => hhex c (List.mem_cons_of_mem _ hc), fun he => hlast ?_, ?_⟩
  · rw [List.getLast?_cons, he]
    rfl
  · cases u with
    | nil => exact absurd rfl hne
    | cons c u => exact List.nil_lt_cons c u

theorem hex_nonceDigits {nonce : List Char} (h : ∀ c ∈ nonce, c.toNat < 128) {c : Char}
    (hc : c ∈ nonceDigits nonce) : isHexDigit c = true := by
  obtain ⟨i, -, hc⟩ := List.mem_flatMap.mp hc
  have hbyte : (nonce[i]?.map Char.toNat).getD 0 < 128 := by
    cases hi : nonce[i]? with
    | none => simp
    | some b => exact h b (List.mem_of_getElem? hi)
  simp only [List.mem_cons, List.not_mem_nil, or_false] at hc
  rcases hc with rfl | rfl
  · exact digitChar_hex _ (by omega)
  · exact digitChar_hex _ (Nat.mod_lt _ (by omega))

/-- What the loop allocates: digits ending in an `8`, between the bounds. -/
structure Allocated (lower : List Char) (upper : Option (List Char)) (key : List Char) : Prop where
  above : lower < key
  below : ∀ u ∈ upper, key < u
  digits : ∀ c ∈ key, isHexDigit c = true
  last : key.getLast? = some '8'

theorem Allocated.cons {lower key : List Char} {upper upper' : Option (List Char)} {n : ℕ}
    (hn : n < 16) (h : Allocated lower.tail upper' key)
    (hlo : ∀ c ∈ lower.head?, digit c = n ∧ isHexDigit c = true)
    (hup : ∀ u ∈ upper, Nat.digitChar n :: key < u) :
    Allocated lower upper (Nat.digitChar n :: key) := by
  refine ⟨?_, hup, List.forall_mem_cons.mpr ⟨digitChar_hex n hn, h.digits⟩, ?_⟩
  · cases lower with
    | nil => exact List.nil_lt_cons _ _
    | cons d l =>
      obtain ⟨hd, hhex⟩ := hlo d rfl
      rw [← hd, digitChar_digit hhex, List.cons_lt_cons_iff]
      exact Or.inr ⟨rfl, h.above⟩
  · rw [List.getLast?_cons, h.last]
    rfl

theorem Bounds.digits_le {lower : List Char} {upper : Option (List Char)} (h : Bounds lower upper) :
    (lower.head?.map digit).getD 0 < 16 ∧
      (lower.head?.map digit).getD 0 ≤ ((upper.bind List.head?).map digit).getD 16 ∧
      ((upper.bind List.head?).map digit).getD 16 ≤ 16 := by
  have hlo : (lower.head?.map digit).getD 0 < 16 := by
    cases lower with
    | nil => simp
    | cons d l => exact digit_lt (h.digits d List.mem_cons_self)
  refine ⟨hlo, ?_⟩
  cases upper with
  | none => exact ⟨hlo.le, le_rfl⟩
  | some u =>
    obtain ⟨hhex, -, hlt⟩ := h.above u rfl
    cases u with
    | nil => exact absurd hlt (List.not_lt_nil _)
    | cons c u =>
      have hc := hhex c List.mem_cons_self
      refine ⟨?_, (digit_lt hc).le⟩
      cases lower with
      | nil => exact Nat.zero_le _
      | cons d l =>
        have hd := h.digits d List.mem_cons_self
        rw [List.cons_lt_cons_iff] at hlt
        rcases hlt with hlt | ⟨rfl, -⟩
        · exact ((digit_lt_digit hd hc).mpr hlt).le
        · exact le_rfl

/-- **What the loop returns lies between its bounds.** -/
theorem between_allocate {nonce : List Char} (hn : ∀ c ∈ nonce, c.toNat < 128) (passes : ℕ) :
    ∀ {lower : List Char} {upper : Option (List Char)} {key : List Char}, Bounds lower upper →
      allocate nonce passes lower upper = some key → Allocated lower upper key := by
  induction passes with
  | zero => exact fun _ h => by cases h
  | succ passes ih =>
    intro lower upper key hb h
    obtain ⟨hlo, hle, hhi⟩ := hb.digits_le
    unfold allocate at h
    dsimp only at h
    split_ifs at h with hroom hne
    · -- there is room for a digit strictly between
      cases h
      have hmid : ∀ a b : ℕ, a + 1 < b → b ≤ 16 → a < (a + b) / 2 ∧ (a + b) / 2 < b := by omega
      obtain ⟨hmlo, hmhi⟩ := hmid _ _ hroom hhi
      have hm16 := hmhi.trans_le hhi
      refine ⟨?_, fun u hu => ?_, ?_, ?_⟩
      · cases lower with
        | nil => exact List.nil_lt_cons _ _
        | cons d l =>
          rw [List.cons_lt_cons_iff]
          exact Or.inl (lt_digitChar hm16 (hb.digits d List.mem_cons_self) hmlo)
      · obtain rfl := Option.mem_def.mp hu
        obtain ⟨hhex, -, hlt⟩ := hb.above u rfl
        cases u with
        | nil => exact absurd hlt (List.not_lt_nil _)
        | cons c u =>
          rw [List.cons_lt_cons_iff]
          exact Or.inl (digitChar_lt hm16 (hhex c List.mem_cons_self) hmhi)
      · intro c hc
        rcases List.mem_cons.mp hc with rfl | hc
        · exact digitChar_hex _ hm16
        · rcases List.mem_append.mp hc with hc | hc
          · exact hex_nonceDigits hn hc
          · rw [List.mem_singleton.mp hc]
            rfl
      · rw [← List.cons_append, List.getLast?_append]
        rfl
    · -- the digits are next to each other: the upper bound no longer matters
      obtain ⟨rest, hrest, rfl⟩ := Option.map_eq_some_iff.mp h
      refine (ih hb.tail_open hrest).cons hlo (fun c hc => ?_) fun u hu => ?_
      · rw [Option.mem_def.mp hc]
        exact ⟨rfl, hb.digits c (List.mem_of_mem_head? hc)⟩
      · obtain rfl := Option.mem_def.mp hu
        obtain ⟨hhex, -, hlt⟩ := hb.above u rfl
        cases u with
        | nil => exact absurd hlt (List.not_lt_nil _)
        | cons c u =>
          rw [List.cons_lt_cons_iff]
          exact Or.inl (digitChar_lt hlo (hhex c List.mem_cons_self) (lt_of_le_of_ne hle hne))
    · -- one digit for both
      obtain ⟨rest, hrest, rfl⟩ := Option.map_eq_some_iff.mp h
      have heq := not_ne_iff.mp hne
      cases upper with
      | none => exact absurd heq (by simpa using hlo.ne)
      | some u =>
        obtain ⟨hhex, -, hlt⟩ := hb.above u rfl
        cases u with
        | nil => exact absurd hlt (List.not_lt_nil _)
        | cons c u =>
          have hc := hhex c List.mem_cons_self
          have hcd : Nat.digitChar ((lower.head?.map digit).getD 0) = c := by
            rw [heq]
            exact digitChar_digit hc
          have hbt : Bounds lower.tail (some u) := by
            cases lower with
            | nil =>
              obtain rfl : c = '0' := hcd.symm
              exact hb.tail_zero
            | cons d l =>
              obtain rfl : d = c :=
                (digitChar_digit (hb.digits d List.mem_cons_self)).symm.trans hcd
              exact hb.tail_equal
          have halloc := ih hbt hrest
          refine halloc.cons hlo (fun e he => ?_) fun v hv => ?_
          · rw [Option.mem_def.mp he]
            exact ⟨rfl, hb.digits e (List.mem_of_mem_head? he)⟩
          · obtain rfl := Option.some.inj (Option.mem_def.mp hv)
            rw [hcd, List.cons_lt_cons_iff]
            exact Or.inr ⟨rfl, halloc.below u rfl⟩

/-! ## Keys -/

theorem validPinOrderKey_iff {key : String} : validPinOrderKey key = true ↔
    key.toList ≠ [] ∧ key.toList.length ≤ maxPinOrderKeyBytes ∧
      (∀ c ∈ key.toList, isHexDigit c = true) ∧ key.toList.getLast? ≠ some '0' := by
  simp [validPinOrderKey, and_assoc]

/-- What the function asks of a nonce. -/
structure ValidNonce (nonce : List Char) : Prop where
  nonempty : nonce ≠ []
  short : nonce.length ≤ 149
  ascii : ∀ c ∈ nonce, c.toNat < 128
  noNul : '\x00' ∉ nonce

section Requests

variable {lower upper : Option String} {text key : String}

/-- Valid bounds in order, and a nonce within the limits. -/
structure Admissible (lower upper : Option String) (nonce : String) : Prop where
  validLower : ∀ k ∈ lower, validPinOrderKey k = true
  validUpper : ∀ k ∈ upper, validPinOrderKey k = true
  ordered : ∀ a ∈ lower, ∀ b ∈ upper, a < b
  nonce : ValidNonce nonce.toList

theorem admissible_iff : Admissible lower upper text ↔
    ¬ (lower.any (!validPinOrderKey ·) || upper.any (!validPinOrderKey ·) ||
      (lower.any fun a => upper.any fun b => decide (b ≤ a)) || text.toList = [] ||
      nonceBytes < text.toList.length || !text.toList.all (·.toNat < 128) ||
      text.toList.contains '\x00') = true := by
  simp only [Bool.or_eq_true, not_or, Bool.not_eq_true, Option.any_eq_false,
    Bool.not_eq_false, List.all_eq_true, decide_eq_false_iff_not, not_le, decide_eq_true_eq,
    Bool.not_eq_eq_eq_not, Bool.not_true, Bool.not_false, List.contains_eq_mem]
  constructor
  · intro h
    exact ⟨⟨⟨⟨⟨⟨h.validLower, h.validUpper⟩, h.ordered⟩, h.nonce.nonempty⟩,
      Nat.not_lt.mpr h.nonce.short⟩, h.nonce.ascii⟩, h.nonce.noNul⟩
  · rintro ⟨⟨⟨⟨⟨⟨hlo, hup⟩, hlt⟩, hne⟩, hshort⟩, hascii⟩, hnul⟩
    exact ⟨hlo, hup, hlt, hne, Nat.not_lt.mp hshort, hascii, hnul⟩

theorem Admissible.bounds (h : Admissible lower upper text) :
    Bounds ((lower.map String.toList).getD []) (upper.map String.toList) := by
  refine ⟨fun c hc => ?_, fun u hu => ?_⟩
  · cases lower with
    | none => exact absurd hc (by simp)
    | some l => exact (validPinOrderKey_iff.mp (h.validLower l rfl)).2.2.1 c hc
  · obtain ⟨b, hub, rfl⟩ := Option.map_eq_some_iff.mp hu
    obtain ⟨hne, -, hhex, hlast⟩ := validPinOrderKey_iff.mp (h.validUpper b hub)
    refine ⟨hhex, hlast, ?_⟩
    cases lower with
    | none =>
      show [] < b.toList
      cases hbl : b.toList with
      | nil => exact absurd hbl hne
      | cons c l => exact List.nil_lt_cons c l
    | some l => exact String.lt_iff_toList_lt.mp (h.ordered l rfl b hub)

theorem pinOrderKeyBetween_of_not (h : ¬ Admissible lower upper text) :
    pinOrderKeyBetween lower upper text = .error "Invalid pin ordering bounds" :=
  if_pos (not_not.mp (mt admissible_iff.mpr h))

theorem admissible_of_ok (h : pinOrderKeyBetween lower upper text = .ok key) :
    Admissible lower upper text := by
  by_contra hnot
  rw [pinOrderKeyBetween_of_not hnot] at h
  simp at h

/-- **An allocated key is valid and lies between the bounds.** -/
theorem pinOrderKeyBetween_ok (h : pinOrderKeyBetween lower upper text = .ok key) :
    validPinOrderKey key = true ∧ Between lower upper key := by
  have hadm := admissible_of_ok h
  unfold pinOrderKeyBetween at h
  rw [if_neg (admissible_iff.mp hadm)] at h
  split at h
  · cases h
  · rename_i digits halloc
    have hkey := between_allocate hadm.nonce.ascii _ hadm.bounds halloc
    split_ifs at h with hlen
    cases h
    refine ⟨validPinOrderKey_iff.mpr ?_, fun l hl => ?_, fun u hu => ?_⟩
    · rw [String.toList_ofList]
      refine ⟨fun he => ?_, hlen, hkey.digits, ?_⟩
      · have hlast := hkey.last
        rw [he] at hlast
        cases hlast
      · rw [hkey.last]
        decide
    · rw [String.lt_iff_toList_lt, String.toList_ofList]
      obtain rfl := Option.mem_def.mp hl
      exact hkey.above
    · rw [String.lt_iff_toList_lt, String.toList_ofList]
      obtain rfl := Option.mem_def.mp hu
      exact hkey.below _ rfl

end Requests

end Zeron.Sidebar
