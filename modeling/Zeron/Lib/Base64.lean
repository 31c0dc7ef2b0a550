import Mathlib

/-!
# Base64

The standard alphabet with padding, read back strictly: padding is required, and no bit may be left
over.

* `encode`, `decode`;
* **`decode_encode`**: bytes are read back;
* **`encode_of_decode`**: a text that is read is the one of its bytes.
-/

namespace Zeron.Base64

/-- The alphabet. -/
def digits : List Char :=
  "ABCDEFGHIJKLMNOPQRSTUVWXYZabcdefghijklmnopqrstuvwxyz0123456789+/".toList

def digit (n : ℕ) : Char := digits.getD n '='

def value (c : Char) : Option ℕ := digits.findIdx? (· = c)

/-- `BASE64.encode`. -/
def encode : List UInt8 → List Char
  | [] => []
  | [a] => [digit (a.toNat / 4), digit (a.toNat % 4 * 16), '=', '=']
  | [a, b] =>
    [digit (a.toNat / 4), digit (a.toNat % 4 * 16 + b.toNat / 16), digit (b.toNat % 16 * 4), '=']
  | a :: b :: c :: rest =>
    digit (a.toNat / 4) :: digit (a.toNat % 4 * 16 + b.toNat / 16) ::
      digit (b.toNat % 16 * 4 + c.toNat / 64) :: digit (c.toNat % 64) :: encode rest

/-- The bytes of a whole group. -/
def group (w x y z : ℕ) : List UInt8 :=
  [.ofNat (w * 4 + x / 16), .ofNat (x % 16 * 16 + y / 4), .ofNat (y % 4 * 64 + z)]

/-- Four characters; only the last may be padded. -/
def decodeGroup (last : Bool) (w x y z : Char) : Option (List UInt8) := do
  let w ← value w
  let x ← value x
  if last ∧ y = '=' ∧ z = '=' then
    if x % 16 = 0 then some [.ofNat (w * 4 + x / 16)] else none
  else
    let y ← value y
    if last ∧ z = '=' then
      if y % 4 = 0 then some [.ofNat (w * 4 + x / 16), .ofNat (x % 16 * 16 + y / 4)] else none
    else
      let z ← value z
      some (group w x y z)

/-- `BASE64.decode`. -/
def decode : List Char → Option (List UInt8)
  | [] => some []
  | w :: x :: y :: z :: rest => do
    let bytes ← decodeGroup rest.isEmpty w x y z
    let more ← decode rest
    some (bytes ++ more)
  | _ => none

/-! ## Digits -/

set_option maxRecDepth 4000 in
theorem value_digit : ∀ n < 64, value (digit n) = some n := by decide

set_option maxRecDepth 4000 in
theorem digit_ne_pad : ∀ n < 64, digit n ≠ '=' := by decide

theorem digit_of_value {c : Char} {n : ℕ} (h : value c = some n) : n < 64 ∧ digit n = c := by
  obtain ⟨hlt, hc, -⟩ := List.findIdx?_eq_some_iff_getElem.mp h
  refine ⟨hlt, ?_⟩
  rw [digit, List.getD_eq_getElem _ _ hlt]
  simpa using hc

theorem value_pad : value '=' = none := by decide

/-! ## Round trips -/

theorem length_encode (bytes : List UInt8) : (encode bytes).length = (bytes.length + 2) / 3 * 4 := by
  induction bytes using encode.induct with
  | case1 => rfl
  | case2 a => simp [encode]
  | case3 a b => simp [encode]
  | case4 a b c rest ih =>
    rw [encode]
    simp only [List.length_cons, ih]
    omega

theorem group_encode (a b c : UInt8) :
    group (a.toNat / 4) (a.toNat % 4 * 16 + b.toNat / 16) (b.toNat % 16 * 4 + c.toNat / 64)
      (c.toNat % 64) = [a, b, c] := by
  have ha := a.toNat_lt
  have hb := b.toNat_lt
  have hc := c.toNat_lt
  have h₁ : a.toNat / 4 * 4 + (a.toNat % 4 * 16 + b.toNat / 16) / 16 = a.toNat := by omega
  have h₂ : (a.toNat % 4 * 16 + b.toNat / 16) % 16 * 16 +
      (b.toNat % 16 * 4 + c.toNat / 64) / 4 = b.toNat := by omega
  have h₃ : (b.toNat % 16 * 4 + c.toNat / 64) % 4 * 64 + c.toNat % 64 = c.toNat := by omega
  rw [group, h₁, h₂, h₃, UInt8.ofNat_toNat, UInt8.ofNat_toNat, UInt8.ofNat_toNat]

theorem decodeGroup_digit (last : Bool) {w x y z : ℕ} (hw : w < 64) (hx : x < 64) (hy : y < 64)
    (hz : z < 64) :
    decodeGroup last (digit w) (digit x) (digit y) (digit z) = some (group w x y z) := by
  simp [decodeGroup, value_digit, digit_ne_pad, hw, hx, hy, hz]

/-- **Bytes are read back.** -/
theorem decode_encode (bytes : List UInt8) : decode (encode bytes) = some bytes := by
  induction bytes using encode.induct with
  | case1 => rfl
  | case2 a =>
    have ha := a.toNat_lt
    have hbyte : a.toNat / 4 * 4 + a.toNat % 4 = a.toNat := by omega
    have hw := value_digit (a.toNat / 4) (by omega)
    have hx := value_digit (a.toNat % 4 * 16) (by omega)
    simp [encode, decode, decodeGroup, hw, hx, hbyte, -UInt8.ofNat_add, -UInt8.ofNat_mul]
  | case3 a b =>
    have ha := a.toNat_lt
    have hb := b.toNat_lt
    have hbyte : a.toNat / 4 * 4 + (a.toNat % 4 * 16 + b.toNat / 16) / 16 = a.toNat := by omega
    have hbyte' : b.toNat / 16 % 16 * 16 + b.toNat % 16 = b.toNat := by omega
    have hfour : b.toNat % 16 * 4 % 4 = 0 := by omega
    have hw := value_digit (a.toNat / 4) (by omega)
    have hx := value_digit (a.toNat % 4 * 16 + b.toNat / 16) (by omega)
    have hy := value_digit (b.toNat % 16 * 4) (by omega)
    have hpad := digit_ne_pad (b.toNat % 16 * 4) (by omega)
    simp [encode, decode, decodeGroup, hw, hx, hy, hpad, hbyte, hbyte', hfour, -UInt8.ofNat_add,
      -UInt8.ofNat_mul]
  | case4 a b c rest ih =>
    have ha := a.toNat_lt
    have hb := b.toNat_lt
    have hc := c.toNat_lt
    rw [encode, decode, ih, decodeGroup_digit _ (by omega) (by omega) (by omega) (by omega),
      group_encode]
    rfl

theorem toNat_byte {n : ℕ} (h : n < 256) : (UInt8.ofNat n).toNat = n := UInt8.toNat_ofNat_of_lt' h

/-- A group that is read is the one of its bytes. -/
theorem encode_of_decodeGroup {last : Bool} {w x y z : Char} {bytes : List UInt8}
    (h : decodeGroup last w x y z = some bytes) :
    encode bytes = [w, x, y, z] ∧ (bytes.length = 3 ∨ last = true) := by
  rw [decodeGroup] at h
  obtain ⟨n, hvalue, hrest⟩ := Option.bind_eq_some_iff.mp h
  obtain ⟨m, hvalue', hbody⟩ := Option.bind_eq_some_iff.mp hrest
  obtain ⟨hn, hw⟩ := digit_of_value hvalue
  obtain ⟨hm, hx⟩ := digit_of_value hvalue'
  rw [← hw, ← hx]
  clear h hrest hvalue hvalue' hw hx
  by_cases hlast : last = true ∧ y = '=' ∧ z = '='
  · rw [if_pos hlast] at hbody
    obtain ⟨hlast, rfl, rfl⟩ := hlast
    split_ifs at hbody with hzero
    obtain rfl := Option.some.inj hbody
    have hbyte : (UInt8.ofNat (n * 4 + m / 16)).toNat = n * 4 + m / 16 :=
      toNat_byte (by omega)
    have hw : (n * 4 + m / 16) / 4 = n := by omega
    have hx : (n * 4 + m / 16) % 4 * 16 = m := by omega
    rw [encode, hbyte, hw, hx]
    exact ⟨rfl, Or.inr hlast⟩
  · rw [if_neg hlast] at hbody
    obtain ⟨k, hvalue, hrest⟩ := Option.bind_eq_some_iff.mp hbody
    obtain ⟨hk, hy⟩ := digit_of_value hvalue
    rw [← hy]
    clear hbody hvalue hy
    have hfirst : (UInt8.ofNat (n * 4 + m / 16)).toNat = n * 4 + m / 16 :=
      toNat_byte (by omega)
    have hsecond : (UInt8.ofNat (m % 16 * 16 + k / 4)).toNat = m % 16 * 16 + k / 4 :=
      toNat_byte (by omega)
    have hw : (n * 4 + m / 16) / 4 = n := by omega
    have hx : (n * 4 + m / 16) % 4 * 16 + (m % 16 * 16 + k / 4) / 16 = m := by omega
    by_cases hlast' : last = true ∧ z = '='
    · rw [if_pos hlast'] at hrest
      obtain ⟨hlast', rfl⟩ := hlast'
      split_ifs at hrest with hzero
      obtain rfl := Option.some.inj hrest
      have hy : (m % 16 * 16 + k / 4) % 16 * 4 = k := by omega
      rw [encode, hfirst, hsecond, hw, hx, hy]
      exact ⟨rfl, Or.inr hlast'⟩
    · rw [if_neg hlast'] at hrest
      obtain ⟨l, hvalue, hbytes⟩ := Option.bind_eq_some_iff.mp hrest
      obtain ⟨hl, rfl⟩ := digit_of_value hvalue
      obtain rfl := Option.some.inj hbytes
      have hthird : (UInt8.ofNat (k % 4 * 64 + l)).toNat = k % 4 * 64 + l :=
        toNat_byte (by omega)
      have hy : (m % 16 * 16 + k / 4) % 16 * 4 + (k % 4 * 64 + l) / 64 = k := by omega
      have hz : (k % 4 * 64 + l) % 64 = l := by omega
      rw [group, encode, hfirst, hsecond, hthird, hw, hx, hy, hz]
      exact ⟨rfl, Or.inl rfl⟩

/-- **A text that is read is the one of its bytes.** -/
theorem encode_of_decode {text : List Char} {bytes : List UInt8} (h : decode text = some bytes) :
    encode bytes = text := by
  induction text using decode.induct generalizing bytes with
  | case1 =>
    obtain rfl := Option.some.inj h
    rfl
  | case2 w x y z rest ih =>
    rw [decode] at h
    obtain ⟨first, hfirst, h⟩ := Option.bind_eq_some_iff.mp h
    obtain ⟨more, hmore, h⟩ := Option.bind_eq_some_iff.mp h
    obtain rfl := Option.some.inj h
    obtain ⟨hencode, hlen⟩ := encode_of_decodeGroup hfirst
    rcases hlen with hlen | hlast
    · obtain ⟨a, b, c, rfl⟩ := List.length_eq_three.mp hlen
      rw [encode, encode] at hencode
      rw [List.cons_append, List.cons_append, List.cons_append, List.nil_append, encode, ih hmore]
      simpa using hencode
    · obtain rfl := List.isEmpty_iff.mp hlast
      obtain rfl := Option.some.inj hmore
      rw [List.append_nil, hencode]
  | case3 text hnil hcons =>
    rw [decode] at h
    · cases h
    · exact hnil
    · exact hcons

end Zeron.Base64
