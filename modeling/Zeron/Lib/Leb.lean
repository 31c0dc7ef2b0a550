import Mathlib

/-!
# Unsigned LEB128

A number in groups of seven bits, the lowest first; every byte but the last has its high bit set.
A reader takes a bounded number of groups.

* `encode`, `decode`;
* **`decode_encode`**: a number that fits is read back, with the bytes behind it;
* `decode_take`, `decode_long`: a number that is cut, or that has too many groups, is refused.
-/

namespace Zeron.Leb

def encode (n : ℕ) : List UInt8 :=
  if n < 128 then [UInt8.ofNat n] else UInt8.ofNat (n % 128 + 128) :: encode (n / 128)
termination_by n
decreasing_by omega

/-- The number in at most `groups` groups at the front of some bytes, and the bytes behind it. -/
def decode : ℕ → List UInt8 → Option (ℕ × List UInt8)
  | 0, _ => none
  | _, [] => none
  | groups + 1, b :: bytes =>
    if b.toNat < 128 then some (b.toNat, bytes)
    else (decode groups bytes).map fun p => (b.toNat - 128 + 128 * p.1, p.2)

section

variable {n m groups : ℕ}

theorem encode_small (h : n < 128) : encode n = [UInt8.ofNat n] := by
  rw [encode, if_pos h]

theorem encode_large (h : ¬ n < 128) :
    encode n = UInt8.ofNat (n % 128 + 128) :: encode (n / 128) := by
  rw [encode, if_neg h]

theorem toNat_ofNat_group (n : ℕ) : (UInt8.ofNat (n % 128 + 128)).toNat = n % 128 + 128 := by
  have : n % 128 + 128 < 256 := by omega
  simp [Nat.mod_eq_of_lt this]

theorem decode_small {b : UInt8} (h : b.toNat < 128) (bytes : List UInt8) :
    decode (groups + 1) (b :: bytes) = some (b.toNat, bytes) := by
  rw [decode, if_pos h]

theorem decode_group (groups n : ℕ) (bytes : List UInt8) :
    decode (groups + 1) (UInt8.ofNat (n % 128 + 128) :: bytes) =
      (decode groups bytes).map fun p => (n % 128 + 128 * p.1, p.2) := by
  rw [decode, toNat_ofNat_group, if_neg (by omega), Nat.add_sub_cancel]

/-- **A number that fits is read back.** -/
theorem decode_encode (h : n < 128 ^ (groups + 1)) (bytes : List UInt8) :
    decode (groups + 1) (encode n ++ bytes) = some (n, bytes) := by
  induction groups generalizing n with
  | zero =>
    have hn : n < 128 := by simpa using h
    have hb : (UInt8.ofNat n).toNat = n := by simp [Nat.mod_eq_of_lt (by omega : n < 256)]
    rw [encode_small hn, List.singleton_append, decode_small (by omega), hb]
  | succ groups ih =>
    by_cases hn : n < 128
    · have hb : (UInt8.ofNat n).toNat = n := by simp [Nat.mod_eq_of_lt (by omega : n < 256)]
      rw [encode_small hn, List.singleton_append, decode_small (by omega), hb]
    · have hdiv : n / 128 < 128 ^ (groups + 1) := by
        rw [pow_succ] at h
        exact Nat.div_lt_of_lt_mul (by rwa [Nat.mul_comm])
      rw [encode_large hn, List.cons_append, decode_group, ih hdiv, Option.map_some,
        Nat.mod_add_div]

theorem decode_take (h : m < (encode n).length) : decode groups ((encode n).take m) = none := by
  induction groups generalizing n m with
  | zero => rfl
  | succ groups ih =>
    cases m with
    | zero => rfl
    | succ m =>
      by_cases hn : n < 128
      · rw [encode_small hn] at h
        simp at h
      · rw [encode_large hn, List.length_cons] at h
        rw [encode_large hn, List.take_succ_cons, decode_group, ih (by omega)]
        rfl

theorem decode_long (h : 128 ^ groups ≤ n) (hpos : 0 < groups) (bytes : List UInt8) :
    decode groups (encode n ++ bytes) = none := by
  induction groups generalizing n with
  | zero => rfl
  | succ groups ih =>
    have hn : ¬ n < 128 := by
      have := Nat.one_le_pow groups 128 (by omega)
      rw [pow_succ] at h
      omega
    rw [encode_large hn, List.cons_append, decode_group]
    cases groups with
    | zero => rfl
    | succ groups =>
      have hdiv : 128 ^ (groups + 1) ≤ n / 128 := by
        rw [Nat.le_div_iff_mul_le (by omega), ← pow_succ]
        exact h
      rw [ih hdiv (by omega)]
      rfl

end

end Zeron.Leb
