import Zeron.Lib.Utf8
import Zeron.Sidebar.OrderKey

/-!
# Order keys on the phone

The phone allocates order keys by itself (`PinOrder`, `apps/ios/Zeron/Sync/RegistryCore.swift`),
over the bytes of the texts and with an index into both bounds.

* `Swift.valid`, `Swift.between`: the source;
* `allocate_total`: with passes enough the loop ends; `length_allocate`: where it needs more, the
  key is longer than the passes it was given;
* `nonceDigits_inj`: the digits of a nonce tell it; `between_eq`: both loops allocate one key;
* **`order_keys`**: a key strictly between the bounds, or none that is short enough; one nonce for
  one key; the same key on both platforms.
-/

namespace Zeron.Sidebar

abbrev Bytes : Type := List UInt8

namespace Swift

/-- `PinOrder.valid`. -/
def valid (key : String) : Bool :=
  key.toList ≠ [] && (utf8 key.toList).length ≤ 8192 && key.toList.getLast? ≠ some '0' &&
    (utf8 key.toList).all fun b => (48 ≤ b && b ≤ 57) || (97 ≤ b && b ≤ 102)

def hex : Bytes := utf8 "0123456789abcdef".toList

/-- The nested function `digit`. -/
def digit (b : UInt8) : ℕ := if b ≤ 57 then (b - 48).toNat else (b - 97 + 10).toNat

/-- The digits of the nonce. -/
def nonceBytes (bytes : Bytes) : Bytes :=
  (List.range 149).flatMap fun j =>
    let byte := bytes.getD j 0
    [hex.getD (byte >>> 4).toNat 0, hex.getD (byte &&& 15).toNat 0]

/-- The loop of `PinOrder.between`. -/
def betweenFrom (bytes loBytes : Bytes) : ℕ → ℕ → Option Bytes → Bytes → Option Bytes
  | 0, _, _, _ => none
  | passes + 1, i, hiBytes, result =>
    let lo := (loBytes[i]?.map digit).getD 0
    let hi := (hiBytes.bind fun b => b[i]?.map digit).getD 16
    if lo + 1 < hi then
      let result := result ++ [hex.getD ((lo + hi) / 2) 0] ++ nonceBytes bytes ++ [56]
      if result.length ≤ 8192 then some result else none
    else betweenFrom bytes loBytes passes (i + 1) (if lo ≠ hi then none else hiBytes)
      (result ++ [hex.getD lo 0])

/-- `PinOrder.between`. A result is ASCII. -/
def between (lower upper : Option String) (nonce : String) : Option String :=
  let bytes := utf8 nonce.toList
  if (lower.map valid).getD true && (upper.map valid).getD true &&
      (lower.all fun a => upper.all fun b => decide (a < b)) && bytes ≠ [] &&
      bytes.length ≤ 149 && bytes.all fun b => 0 < b && b < 128 then
    (betweenFrom bytes (utf8 ((lower.map String.toList).getD [])) 8192 0
      (upper.map fun u => utf8 u.toList) []).map fun result =>
        String.ofList (result.map fun b => Char.ofNat b.toNat)
  else none

end Swift

/-! ## The loop ends -/

section Loop

variable {nonce lower key : List Char} {upper : Option (List Char)} {passes few : ℕ}

/-- The loop's bounds on one digit. -/
def lowDigit (lower : List Char) : ℕ := (lower.head?.map digit).getD 0

def highDigit (upper : Option (List Char)) : ℕ := ((upper.bind List.head?).map digit).getD 16

/-- The upper bound of the next pass. -/
def nextUpper (lower : List Char) (upper : Option (List Char)) : Option (List Char) :=
  if lowDigit lower ≠ highDigit upper then none else upper.map List.tail

theorem allocate_room (h : lowDigit lower + 1 < highDigit upper) :
    allocate nonce (passes + 1) lower upper =
      some (Nat.digitChar ((lowDigit lower + highDigit upper) / 2) ::
        (nonceDigits nonce ++ ['8'])) :=
  if_pos h

theorem allocate_next (h : ¬ lowDigit lower + 1 < highDigit upper) :
    allocate nonce (passes + 1) lower upper =
      (allocate nonce passes lower.tail (nextUpper lower upper)).map
        (Nat.digitChar (lowDigit lower) :: ·) :=
  if_neg h

theorem Bounds.next (h : Bounds lower upper) : Bounds lower.tail (nextUpper lower upper) := by
  unfold nextUpper
  split_ifs with hne
  · exact h.tail_open
  have heq := not_ne_iff.mp hne
  cases upper with
  | none =>
    have hlt := h.digits_le.1
    change lowDigit lower = 16 at heq
    change lowDigit lower < 16 at hlt
    omega
  | some u =>
    obtain ⟨hhex, -, hlt⟩ := h.above u rfl
    cases u with
    | nil => exact absurd hlt (List.not_lt_nil _)
    | cons c u =>
      have hc := hhex c List.mem_cons_self
      cases lower with
      | nil =>
        change 0 = digit c at heq
        obtain rfl : c = '0' := by rw [← digitChar_digit hc, ← heq]; rfl
        exact h.tail_zero
      | cons d l =>
        change digit d = digit c at heq
        have hd := h.digits d List.mem_cons_self
        obtain rfl : d = c := by rw [← digitChar_digit hd, heq, digitChar_digit hc]
        exact h.tail_equal

theorem Bounds.shorter (h : Bounds lower upper) (hfull : ¬ lowDigit lower + 1 < highDigit upper) :
    lower.tail.length + ((nextUpper lower upper).map List.length).getD 0 <
      lower.length + (upper.map List.length).getD 0 := by
  have hnext : ((nextUpper lower upper).map List.length).getD 0 ≤
      (upper.map List.length).getD 0 - 1 := by
    unfold nextUpper
    split_ifs
    · simp
    · cases upper <;> simp
  cases lower with
  | cons d l =>
    simp only [List.tail_cons, List.length_cons]
    omega
  | nil =>
    cases upper with
    | none =>
      exfalso
      apply hfull
      decide
    | some u =>
      have hpos : 0 < u.length := by
        have hlt := (h.above u rfl).2.2
        cases u with
        | nil => exact absurd hlt (List.not_lt_nil _)
        | cons c u => exact Nat.succ_pos _
      simp only [Option.map_some, Option.getD_some] at hnext ⊢
      simp only [List.tail_nil, List.length_nil]
      omega

/-- **The loop ends**: the bounds run out, or differ. -/
theorem allocate_total (nonce : List Char) (h : Bounds lower upper) :
    ∃ passes key, allocate nonce passes lower upper = some key := by
  induction hn : lower.length + (upper.map List.length).getD 0 using Nat.strong_induction_on
    generalizing lower upper with
  | _ n ih =>
    subst hn
    by_cases hroom : lowDigit lower + 1 < highDigit upper
    · exact ⟨1, _, allocate_room hroom⟩
    · obtain ⟨passes, key, hkey⟩ := ih _ (h.shorter hroom) h.next rfl
      exact ⟨passes + 1, _, by rw [allocate_next hroom, hkey, Option.map_some]⟩

theorem length_allocate (h : allocate nonce passes lower upper = some key)
    (hfew : allocate nonce few lower upper = none) : few < key.length := by
  induction few generalizing passes lower upper key with
  | zero =>
    cases passes with
    | zero => simp [allocate] at h
    | succ passes =>
      by_cases hroom : lowDigit lower + 1 < highDigit upper
      · rw [allocate_room hroom, Option.some_inj] at h
        simp [← h]
      · rw [allocate_next hroom, Option.map_eq_some_iff] at h
        obtain ⟨rest, -, rfl⟩ := h
        simp
  | succ few ih =>
    by_cases hroom : lowDigit lower + 1 < highDigit upper
    · simp [allocate_room hroom] at hfew
    · cases passes with
      | zero => simp [allocate] at h
      | succ passes =>
        rw [allocate_next hroom, Option.map_eq_some_iff] at h
        obtain ⟨rest, hrest, rfl⟩ := h
        rw [allocate_next hroom, Option.map_eq_none_iff] at hfew
        simpa using ih hrest hfew

theorem allocate_suffix (h : allocate nonce passes lower upper = some key) :
    nonceDigits nonce ++ ['8'] <:+ key := by
  induction passes generalizing lower upper key with
  | zero => simp [allocate] at h
  | succ passes ih =>
    by_cases hroom : lowDigit lower + 1 < highDigit upper
    · rw [allocate_room hroom, Option.some_inj] at h
      exact h ▸ List.suffix_cons _ _
    · rw [allocate_next hroom, Option.map_eq_some_iff] at h
      obtain ⟨rest, hrest, rfl⟩ := h
      exact (ih hrest).trans (List.suffix_cons _ _)

end Loop

/-! ## The nonce -/

theorem length_nonceDigits (nonce : List Char) : (nonceDigits nonce).length = 298 := by
  simp [nonceDigits, List.length_flatMap, nonceBytes]

variable {nonce nonce' : List Char}

/-- The byte of the nonce at a place, padded with zeros. -/
def byteAt (nonce : List Char) (i : ℕ) : ℕ := (nonce[i]?.map Char.toNat).getD 0

theorem byteAt_lt (h : ∀ c ∈ nonce, c.toNat < 128) (i : ℕ) : byteAt nonce i < 128 := by
  unfold byteAt
  cases hi : nonce[i]? with
  | none => simp
  | some c => simpa using h c (List.mem_of_getElem? hi)

theorem eq_of_flatMap_eq {ι α : Type} {l : List ι} {f g : ι → List α}
    (hlen : ∀ i ∈ l, (f i).length = (g i).length) (h : l.flatMap f = l.flatMap g) :
    ∀ i ∈ l, f i = g i := by
  induction l with
  | nil => simp
  | cons i l ih =>
    rw [List.forall_mem_cons] at hlen ⊢
    rw [List.flatMap_cons, List.flatMap_cons] at h
    obtain ⟨hi, hl⟩ := List.append_inj h hlen.1
    exact ⟨hi, ih hlen.2 hl⟩

theorem byteAt_of_digits (he : nonceDigits nonce = nonceDigits nonce') {i : ℕ} (hi : i < 149)
    (h : ∀ c ∈ nonce, c.toNat < 128) (h' : ∀ c ∈ nonce', c.toNat < 128) :
    byteAt nonce i = byteAt nonce' i := by
  have hpair := eq_of_flatMap_eq (fun _ _ => by simp) he i (List.mem_range.mpr hi)
  have hlt := byteAt_lt h i
  have hlt' := byteAt_lt h' i
  have hdigit : ∀ {a b : ℕ}, a < 16 → b < 16 → Nat.digitChar a = Nat.digitChar b → a = b := by
    intro a b ha hb hab
    rw [← digit_digitChar a ha, hab, digit_digitChar b hb]
  simp only [List.cons.injEq, and_true] at hpair
  have hhigh : byteAt nonce i / 16 = byteAt nonce' i / 16 :=
    hdigit (by omega) (by omega) hpair.1
  have hlow : byteAt nonce i % 16 = byteAt nonce' i % 16 :=
    hdigit (by omega) (by omega) hpair.2
  omega

/-- **The digits of a nonce tell it.** -/
theorem nonceDigits_inj (h : ValidNonce nonce) (h' : ValidNonce nonce')
    (he : nonceDigits nonce = nonceDigits nonce') : nonce = nonce' := by
  have hzero : ∀ {nonce : List Char} {i : ℕ} {c : Char}, ValidNonce nonce → nonce[i]? = some c →
      c.toNat ≠ 0 := by
    intro nonce i c hv hc h0
    obtain rfl : c = '\x00' := Char.toNat_inj.mp h0
    exact hv.noNul (List.mem_of_getElem? hc)
  ext i : 1
  by_cases hi : i < 149
  · have hbyte := byteAt_of_digits he hi h.ascii h'.ascii
    unfold byteAt at hbyte
    cases hc : nonce[i]? with
    | none =>
      cases hc' : nonce'[i]? with
      | none => rfl
      | some c' =>
        simp only [hc, hc', Option.map_none, Option.map_some, Option.getD_none,
          Option.getD_some] at hbyte
        exact absurd hbyte.symm (hzero h' hc')
    | some c =>
      cases hc' : nonce'[i]? with
      | none =>
        simp only [hc, hc', Option.map_none, Option.map_some, Option.getD_none,
          Option.getD_some] at hbyte
        exact absurd hbyte (hzero h hc)
      | some c' =>
        simp only [hc, hc', Option.map_some, Option.getD_some] at hbyte
        rw [Char.toNat_inj.mp hbyte]
  · have hs := h.short
    have hs' := h'.short
    rw [List.getElem?_eq_none (by omega), List.getElem?_eq_none (by omega)]

/-! ## The key -/

variable {lower upper : Option String} {text key : String}

/-- The digits of a key, without the limit on their number. -/
def keyDigits (lower upper : Option String) (text : String) (passes : ℕ) : Option (List Char) :=
  allocate text.toList passes ((lower.map String.toList).getD []) (upper.map String.toList)

theorem pinOrderKeyBetween_cases (h : Admissible lower upper text) :
    (∃ digits, keyDigits lower upper text maxPinOrderKeyBytes = some digits ∧
      digits.length ≤ maxPinOrderKeyBytes ∧
      pinOrderKeyBetween lower upper text = .ok (String.ofList digits)) ∨
    (∀ digits, keyDigits lower upper text maxPinOrderKeyBytes = some digits →
        maxPinOrderKeyBytes < digits.length) ∧
      pinOrderKeyBetween lower upper text = .error "Pin ordering key is too long" := by
  cases hkey : keyDigits lower upper text maxPinOrderKeyBytes with
  | none =>
    right
    refine ⟨by simp, ?_⟩
    unfold keyDigits at hkey
    unfold pinOrderKeyBetween
    rw [if_neg (admissible_iff.mp h), hkey]
  | some digits =>
    have hkey' := hkey
    unfold keyDigits at hkey'
    unfold pinOrderKeyBetween
    rw [if_neg (admissible_iff.mp h), hkey']
    by_cases hlen : digits.length ≤ maxPinOrderKeyBytes
    · exact Or.inl ⟨digits, rfl, hlen, if_pos hlen⟩
    · right
      refine ⟨fun digits' he => ?_, if_neg hlen⟩
      rw [← Option.some_inj.mp he]
      omega

/-- **A request in the limits fails only where the key would be too long.** -/
theorem too_long (h : Admissible lower upper text)
    (he : ∀ digits, keyDigits lower upper text maxPinOrderKeyBytes = some digits →
      maxPinOrderKeyBytes < digits.length) :
    ∃ passes digits, keyDigits lower upper text passes = some digits ∧
      maxPinOrderKeyBytes < digits.length := by
  obtain ⟨passes, digits, hdigits⟩ := allocate_total text.toList h.bounds
  cases hfew : keyDigits lower upper text maxPinOrderKeyBytes with
  | some digits => exact ⟨_, digits, hfew, he digits hfew⟩
  | none => exact ⟨passes, digits, hdigits, length_allocate hdigits hfew⟩

/-- **One nonce for one key**, whatever the bounds. -/
theorem nonce_of_key {lower' upper' : Option String} {text' : String}
    (h : pinOrderKeyBetween lower upper text = .ok key)
    (h' : pinOrderKeyBetween lower' upper' text' = .ok key) : text = text' := by
  have hdigits : ∀ {lower upper : Option String} {text : String},
      pinOrderKeyBetween lower upper text = .ok key →
        ValidNonce text.toList ∧ nonceDigits text.toList ++ ['8'] <:+ key.toList := by
    intro lower upper text h
    have hadm := admissible_of_ok h
    refine ⟨hadm.nonce, ?_⟩
    rcases pinOrderKeyBetween_cases hadm with ⟨digits, hdigits, -, he⟩ | ⟨-, he⟩
    · rw [h, Except.ok.injEq] at he
      rw [he, String.toList_ofList]
      exact allocate_suffix hdigits
    · simp [h] at he
  obtain ⟨hnonce, hsuffix⟩ := hdigits h
  obtain ⟨hnonce', hsuffix'⟩ := hdigits h'
  have hlen : (nonceDigits text.toList ++ ['8']).length =
      (nonceDigits text'.toList ++ ['8']).length := by
    simp [length_nonceDigits]
  have heq := List.append_cancel_right
    ((List.suffix_of_suffix_length_le hsuffix hsuffix' hlen.le).eq_of_length hlen)
  exact String.toList_inj.mp (nonceDigits_inj hnonce hnonce' heq)

/-! ## The phone -/

/-- The byte of an ASCII character. -/
def byteOf (c : Char) : UInt8 := UInt8.ofNat c.toNat

theorem toNat_byteOf {c : Char} (h : c.toNat < 128) : (byteOf c).toNat = c.toNat := by
  simp only [byteOf, UInt8.toNat_ofNat']
  omega

theorem ofNat_byteOf {c : Char} (h : c.toNat < 128) : Char.ofNat (byteOf c).toNat = c := by
  rw [toNat_byteOf h, Char.ofNat_toNat]

theorem ascii_of_hex {c : Char} (h : isHexDigit c = true) : c.toNat < 128 := by
  rw [isHexDigit_iff] at h
  omega

theorem digit_byteOf {c : Char} (h : isHexDigit c = true) : Swift.digit (byteOf c) = digit c := by
  have hnat := toNat_byteOf (ascii_of_hex h)
  rw [digit_of_hex h]
  rw [isHexDigit_iff] at h
  have hle : byteOf c ≤ 57 ↔ c.toNat ≤ 57 := by
    rw [UInt8.le_iff_toNat_le, hnat]
    rfl
  unfold Swift.digit
  simp only [hle]
  split_ifs
  · rw [UInt8.toNat_sub_of_le _ _ (by rw [UInt8.le_iff_toNat_le, hnat]; change 48 ≤ _; omega), hnat]
    rfl
  · have h97 : (97 : UInt8) ≤ byteOf c := by
      rw [UInt8.le_iff_toNat_le, hnat]
      change 97 ≤ _
      omega
    rw [UInt8.toNat_add, UInt8.toNat_sub_of_le _ _ h97, hnat]
    change (c.toNat - 97 + 10) % 256 = _
    omega

theorem hex_getD : ∀ n < 16, Swift.hex.getD n 0 = byteOf (Nat.digitChar n) := by decide

theorem swift_valid_eq (key : String) : Swift.valid key = validPinOrderKey key := by
  have hhex : ((utf8 key.toList).all fun b => (48 ≤ b && b ≤ 57) || (97 ≤ b && b ≤ 102)) = true ↔
      ∀ c ∈ key.toList, isHexDigit c = true := by
    have hbyte : ∀ b : UInt8, ((48 ≤ b && b ≤ 57) || (97 ≤ b && b ≤ 102)) = true ↔
        48 ≤ b.toNat ∧ b.toNat ≤ 57 ∨ 97 ≤ b.toNat ∧ b.toNat ≤ 102 := by
      intro b
      simp only [Bool.or_eq_true, Bool.and_eq_true, decide_eq_true_eq, UInt8.le_iff_toNat_le]
      rfl
    simp only [List.all_eq_true, hbyte, isHexDigit_iff]
    constructor
    · intro hb
      have hascii := ascii_iff_utf8.mpr fun b hmem => by
        have := hb b hmem
        omega
      rw [utf8_ascii hascii] at hb
      intro c hc
      have := hb _ (List.mem_map_of_mem hc)
      rwa [show UInt8.ofNat c.toNat = byteOf c from rfl, toNat_byteOf (hascii c hc)] at this
    · intro hc
      have hascii : ∀ c ∈ key.toList, c.toNat < 128 := fun c hmem => by
        have := hc c hmem
        omega
      rw [utf8_ascii hascii]
      intro b hb
      obtain ⟨c, hmem, rfl⟩ := List.mem_map.mp hb
      rw [show UInt8.ofNat c.toNat = byteOf c from rfl, toNat_byteOf (hascii c hmem)]
      exact hc c hmem
  rw [Bool.eq_iff_iff, validPinOrderKey_iff]
  simp only [Swift.valid, Bool.and_eq_true, decide_eq_true_eq, hhex, ne_eq, decide_not,
    Bool.not_eq_eq_eq_not, Bool.not_true, decide_eq_false_iff_not]
  constructor
  · rintro ⟨⟨⟨hne, hlen⟩, hlast⟩, hall⟩
    rw [utf8_ascii fun c hc => ascii_of_hex (hall c hc), List.length_map] at hlen
    exact ⟨hne, hlen, hall, hlast⟩
  · rintro ⟨hne, hlen, hall, hlast⟩
    rw [utf8_ascii fun c hc => ascii_of_hex (hall c hc), List.length_map]
    exact ⟨⟨⟨hne, hlen⟩, hlast⟩, hall⟩

theorem nonceBytes_map (h : ∀ c ∈ nonce, c.toNat < 128) :
    Swift.nonceBytes (nonce.map byteOf) = (nonceDigits nonce).map byteOf := by
  have hbyte : ∀ j, ((nonce.map byteOf).getD j 0).toNat = byteAt nonce j := by
    intro j
    rw [List.getD_eq_getElem?_getD, List.getElem?_map]
    unfold byteAt
    cases hj : nonce[j]? with
    | none => rfl
    | some c => exact toNat_byteOf (h c (List.mem_of_getElem? hj))
  unfold Swift.nonceBytes nonceDigits
  rw [List.map_flatMap]
  refine List.flatMap_congr fun j _ => ?_
  have hlt := byteAt_lt h j
  have hhigh : (((nonce.map byteOf).getD j 0) >>> 4).toNat = byteAt nonce j / 16 := by
    rw [UInt8.toNat_shiftRight, hbyte, Nat.shiftRight_eq_div_pow]
    rfl
  have hlow : (((nonce.map byteOf).getD j 0) &&& 15).toNat = byteAt nonce j % 16 := by
    rw [UInt8.toNat_and, hbyte]
    exact Nat.and_two_pow_sub_one_eq_mod _ 4
  dsimp only
  rw [hhigh, hlow, hex_getD _ (by omega), hex_getD _ (by omega)]
  rfl

/-- **The phone's loop allocates the same digits**, behind those it has. -/
theorem betweenFrom_eq {lower : List Char} (h : ∀ c ∈ nonce, c.toNat < 128)
    (hlo : ∀ c ∈ lower, isHexDigit c = true) (passes : ℕ) :
    ∀ (i : ℕ) (upper : Option (List Char)) (result : Bytes),
      (∀ u ∈ upper, ∀ c ∈ u, isHexDigit c = true) →
      Swift.betweenFrom (nonce.map byteOf) (lower.map byteOf) passes i
          (upper.map (·.map byteOf)) result =
        ((allocate nonce passes (lower.drop i) (upper.map (·.drop i))).filter
          (result.length + ·.length ≤ 8192)).map (result ++ ·.map byteOf) := by
  induction passes with
  | zero => simp [Swift.betweenFrom, allocate]
  | succ passes ih =>
    intro i upper result hup
    have hlow : ((lower.map byteOf)[i]?.map Swift.digit).getD 0 = lowDigit (lower.drop i) := by
      unfold lowDigit
      rw [List.head?_drop, List.getElem?_map]
      cases hi : lower[i]? with
      | none => rfl
      | some c => exact digit_byteOf (hlo c (List.mem_of_getElem? hi))
    have hhigh : ((upper.map (·.map byteOf)).bind fun b => b[i]?.map Swift.digit).getD 16 =
        highDigit (upper.map (·.drop i)) := by
      cases upper with
      | none => rfl
      | some u =>
        unfold highDigit
        simp only [Option.map_some, Option.bind_some, List.head?_drop, List.getElem?_map]
        cases hi : u[i]? with
        | none => rfl
        | some c => exact digit_byteOf (hup u rfl c (List.mem_of_getElem? hi))
    have hlow16 : lowDigit (lower.drop i) < 16 := by
      unfold lowDigit
      rw [List.head?_drop]
      cases hi : lower[i]? with
      | none => exact Nat.succ_pos 15
      | some c => exact digit_lt (hlo c (List.mem_of_getElem? hi))
    have hhigh16 : highDigit (upper.map (·.drop i)) ≤ 16 := by
      cases upper with
      | none => exact le_rfl
      | some u =>
        unfold highDigit
        simp only [Option.map_some, Option.bind_some, List.head?_drop]
        cases hi : u[i]? with
        | none => exact le_rfl
        | some c => exact (digit_lt (hup u rfl c (List.mem_of_getElem? hi))).le
    unfold Swift.betweenFrom
    simp only [hlow, hhigh]
    by_cases hroom : lowDigit (lower.drop i) + 1 < highDigit (upper.map (·.drop i))
    · rw [if_pos hroom, allocate_room hroom, hex_getD _ (by omega), nonceBytes_map h]
      simp only [Option.filter_some, List.length_append, List.length_cons, List.length_map,
        List.length_nil, decide_eq_true_eq, ← Nat.add_assoc, Nat.zero_add]
      split_ifs
      · simp [show (56 : UInt8) = byteOf '8' from rfl]
      · omega
      · omega
      · rfl
    · rw [if_neg hroom, allocate_next hroom, hex_getD _ hlow16, List.tail_drop]
      have hnext : nextUpper (lower.drop i) (upper.map (·.drop i)) =
          (if lowDigit (lower.drop i) ≠ highDigit (upper.map (·.drop i)) then none
            else upper).map (·.drop (i + 1)) := by
        unfold nextUpper
        split_ifs
        · rfl
        · cases upper <;> simp
      have hrest := ih (i + 1) (if lowDigit (lower.drop i) ≠ highDigit (upper.map (·.drop i)) then
        none else upper) (result ++ [byteOf (Nat.digitChar (lowDigit (lower.drop i)))])
      rw [← hnext, apply_ite (Option.map _)] at hrest
      rw [Option.map_none] at hrest
      rw [hrest]
      · cases allocate nonce passes (lower.drop (i + 1))
            (nextUpper (lower.drop i) (upper.map (·.drop i))) with
        | none => rfl
        | some key => simp [Option.filter_some, apply_ite, Nat.add_assoc, Nat.add_comm 1]
      · split_ifs
        · simp
        · exact hup

/-- The guard of `PinOrder.between`. -/
theorem swift_guard_iff : ((lower.map Swift.valid).getD true && (upper.map Swift.valid).getD true &&
      (lower.all fun a => upper.all fun b => decide (a < b)) && utf8 text.toList ≠ [] &&
      (utf8 text.toList).length ≤ 149 && (utf8 text.toList).all fun b => 0 < b && b < 128) = true ↔
    Admissible lower upper text := by
  have hvalid : ∀ {bound : Option String}, (bound.map Swift.valid).getD true = true ↔
      ∀ k ∈ bound, validPinOrderKey k = true := by
    intro bound
    cases bound <;> simp [swift_valid_eq]
  have hbytes : ∀ b : UInt8, (decide (0 < b) && decide (b < 128)) = true ↔
      b.toNat ≠ 0 ∧ b.toNat < 128 := by
    intro b
    simp only [Bool.and_eq_true, decide_eq_true_eq, UInt8.lt_iff_toNat_lt, ← Nat.pos_iff_ne_zero]
    rfl
  simp only [Bool.and_eq_true, hvalid, decide_eq_true_eq, ne_eq, Option.all_eq_true,
    List.all_eq_true, hbytes]
  constructor
  · rintro ⟨⟨⟨⟨⟨hlo, hup⟩, hlt⟩, hne⟩, hshort⟩, hall⟩
    have hascii := ascii_iff_utf8.mpr fun b hb => (hall b hb).2
    rw [utf8_ascii hascii] at hne hshort hall
    rw [List.length_map] at hshort
    refine ⟨hlo, hup, hlt, fun he => hne (by rw [he]; rfl), hshort, hascii, fun hnul => ?_⟩
    exact (hall _ (List.mem_map_of_mem hnul)).1 rfl
  · intro h
    refine ⟨⟨⟨⟨⟨h.validLower, h.validUpper⟩, h.ordered⟩, ?_⟩, ?_⟩, ?_⟩ <;>
      rw [utf8_ascii h.nonce.ascii]
    · simpa using h.nonce.nonempty
    · simpa using h.nonce.short
    · intro b hb
      obtain ⟨c, hc, rfl⟩ := List.mem_map.mp hb
      have hlt := h.nonce.ascii c hc
      rw [show UInt8.ofNat c.toNat = byteOf c from rfl, toNat_byteOf hlt]
      refine ⟨fun h0 => h.nonce.noNul ?_, hlt⟩
      rwa [← show c = '\x00' from Char.toNat_inj.mp h0]

/-- **Both platforms allocate the same key.** -/
theorem between_eq (lower upper : Option String) (text : String) :
    Swift.between lower upper text = (pinOrderKeyBetween lower upper text).toOption := by
  by_cases h : Admissible lower upper text
  · have hb := h.bounds
    have hloBytes : utf8 ((lower.map String.toList).getD []) =
        ((lower.map String.toList).getD []).map byteOf :=
      utf8_ascii fun c hc => ascii_of_hex (hb.digits c hc)
    have hupBytes : (upper.map fun u => utf8 u.toList) =
        (upper.map String.toList).map (·.map byteOf) := by
      cases upper with
      | none => rfl
      | some u =>
        exact congrArg some (utf8_ascii fun c hc => ascii_of_hex ((hb.above u.toList rfl).1 c hc))
    have hloop := betweenFrom_eq h.nonce.ascii hb.digits 8192 0 (upper.map String.toList) []
      fun u hu => (hb.above u hu).1
    simp only [List.drop_zero, Option.map_id', List.length_nil, Nat.zero_add, List.nil_append]
      at hloop
    unfold Swift.between
    dsimp only
    rw [if_pos (swift_guard_iff.mpr h), hloBytes, hupBytes,
      show utf8 text.toList = text.toList.map byteOf from utf8_ascii h.nonce.ascii, hloop]
    change ((keyDigits lower upper text maxPinOrderKeyBytes).filter _ |>.map _).map _ = _
    rcases pinOrderKeyBetween_cases h with ⟨digits, hdigits, hlen, he⟩ | ⟨hlong, he⟩
    · have hhex := (between_allocate h.nonce.ascii _ hb hdigits).digits
      rw [hdigits, he, Option.filter_some, if_pos (by simpa [maxPinOrderKeyBytes] using hlen)]
      simp only [Option.map_some, List.map_map, Except.toOption, Option.some_inj]
      congr 1
      conv_rhs => rw [← List.map_id digits]
      exact List.map_congr_left fun c hc => ofNat_byteOf (ascii_of_hex (hhex c hc))
    · rw [he]
      cases hdigits : keyDigits lower upper text maxPinOrderKeyBytes with
      | none => rfl
      | some digits =>
        have := hlong digits hdigits
        rw [Option.filter_some, if_neg (by simpa [maxPinOrderKeyBytes] using this)]
        rfl
  · rw [pinOrderKeyBetween_of_not h]
    exact if_neg (mt swift_guard_iff.mp h)

/-! ## Order keys -/

/-- **Order keys**: an admissible request gets a valid key strictly between its bounds, or its key
would be too long; no two nonces get one key; and the phone allocates what the others do. -/
theorem order_keys (lower upper : Option String) (nonce : String) :
    (Admissible lower upper nonce →
      (∃ key, pinOrderKeyBetween lower upper nonce = .ok key ∧ validPinOrderKey key = true ∧
        Between lower upper key) ∨
      pinOrderKeyBetween lower upper nonce = .error "Pin ordering key is too long" ∧
        ∃ passes digits, keyDigits lower upper nonce passes = some digits ∧
          maxPinOrderKeyBytes < digits.length) ∧
    (∀ lower' upper' nonce' key, nonce' ≠ nonce → pinOrderKeyBetween lower upper nonce = .ok key →
      pinOrderKeyBetween lower' upper' nonce' ≠ .ok key) ∧
    Swift.between lower upper nonce = (pinOrderKeyBetween lower upper nonce).toOption := by
  refine ⟨fun h => ?_, fun lower' upper' nonce' key hne hk hk' => ?_, between_eq lower upper nonce⟩
  · rcases pinOrderKeyBetween_cases h with ⟨digits, -, -, he⟩ | ⟨hlong, he⟩
    · exact Or.inl ⟨_, he, pinOrderKeyBetween_ok he⟩
    · exact Or.inr ⟨he, too_long h hlong⟩
  · exact hne (nonce_of_key hk' hk)

theorem order_keys_middle : (∃ key, pinOrderKeyBetween (some "1") (some "18") "a" = .ok key ∧
      validPinOrderKey key = true ∧ Between (some "1") (some "18") key) ∧
    Swift.between (some "1") (some "18") "a" =
      (pinOrderKeyBetween (some "1") (some "18") "a").toOption := by
  have h : Admissible (some "1") (some "18") "a" := admissible_iff.mpr (by decide +kernel)
  obtain ⟨hkey, -, hswift⟩ := order_keys (some "1") (some "18") "a"
  refine ⟨(hkey h).resolve_right fun hlong => ?_, hswift⟩
  exact absurd hlong.1 (by decide +kernel)

end Zeron.Sidebar
