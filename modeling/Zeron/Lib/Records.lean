import Mathlib

/-!
# Length-prefixed records

* `leBytes`, `leValue`: a number as little-endian bytes; **`leValue_leBytes`**,
  **`leBytes_leValue`**;
* `record`, `records`: a body of records, each behind its length in four bytes;
* **`records_append`**: the records in front of a body; `records_take`: a record that is cut short
  ends the list.
-/

namespace Zeron.Records

/-- The low `w` bytes of a number, the lowest first. -/
def leBytes : ℕ → ℕ → List UInt8
  | 0, _ => []
  | w + 1, n => UInt8.ofNat (n % 256) :: leBytes w (n / 256)

def leValue : List UInt8 → ℕ
  | [] => 0
  | b :: bs => b.toNat + 256 * leValue bs

@[simp] theorem length_leBytes (w n : ℕ) : (leBytes w n).length = w := by
  induction w generalizing n with
  | zero => rfl
  | succ w ih => rw [leBytes, List.length_cons, ih]

/-- **The bytes of a number denote it**, up to their width. -/
theorem leValue_leBytes (w n : ℕ) : leValue (leBytes w n) = n % 256 ^ w := by
  induction w generalizing n with
  | zero => simp [leBytes, leValue, Nat.mod_one]
  | succ w ih =>
    rw [leBytes, leValue, ih, pow_succ, Nat.mul_comm (256 ^ w) 256, Nat.mod_mul]
    simp

theorem leValue_leBytes_of_lt {w n : ℕ} (h : n < 256 ^ w) : leValue (leBytes w n) = n := by
  rw [leValue_leBytes, Nat.mod_eq_of_lt h]

theorem leValue_take {w n : ℕ} (h : n < 256 ^ w) (rest : List UInt8) :
    leValue ((leBytes w n ++ rest).take w) = n := by
  rw [List.take_left' (length_leBytes w n), leValue_leBytes_of_lt h]

/-- **The bytes are those of the number they denote.** -/
theorem leBytes_leValue (bytes : List UInt8) : leBytes bytes.length (leValue bytes) = bytes := by
  induction bytes with
  | nil => rfl
  | cons b bytes ih =>
    have hb : b.toNat < 256 := b.toNat_lt
    rw [List.length_cons, leValue, leBytes, Nat.add_mul_mod_self_left, Nat.mod_eq_of_lt hb,
      Nat.add_mul_div_left _ _ (by omega), Nat.div_eq_of_lt hb, Nat.zero_add, ih,
      UInt8.ofNat_toNat]

theorem leValue_lt (bytes : List UInt8) : leValue bytes < 256 ^ bytes.length := by
  have h := leValue_leBytes bytes.length (leValue bytes)
  rw [leBytes_leValue] at h
  rw [h]
  exact Nat.mod_lt _ (by positivity)

theorem exists_leBytes {data : List UInt8} (h : 4 ≤ data.length) :
    ∃ n rest, n < 2 ^ 32 ∧ data = leBytes 4 n ++ rest := by
  have hfour : (data.take 4).length = 4 := List.length_take_of_le h
  have hlt := leValue_lt (data.take 4)
  have hle := leBytes_leValue (data.take 4)
  rw [hfour] at hlt hle
  refine ⟨leValue (data.take 4), data.drop 4, by omega, ?_⟩
  rw [hle, List.take_append_drop]

/-! ## Records -/

/-- Bytes behind their length. -/
def record (bytes : List UInt8) : List UInt8 := leBytes 4 bytes.length ++ bytes

/-- The records of a body, up to the first that is not whole. -/
def records (body : List UInt8) : List (List UInt8) :=
  if _h : 4 ≤ body.length then
    if leValue (body.take 4) ≤ body.length - 4 then
      (body.drop 4).take (leValue (body.take 4)) ::
        records ((body.drop 4).drop (leValue (body.take 4)))
    else []
  else []
termination_by body.length
decreasing_by
  simp only [List.length_drop]
  omega

theorem records_of_short {body : List UInt8} (h : body.length < 4) : records body = [] := by
  rw [records, dif_neg (by omega)]

theorem records_record {bytes : List UInt8} (h : bytes.length < 2 ^ 32) (rest : List UInt8) :
    records (record bytes ++ rest) = bytes :: records rest := by
  have htake : leValue ((record bytes ++ rest).take 4) = bytes.length := by
    rw [record, List.append_assoc]
    exact leValue_take (by omega) _
  have hdrop : (record bytes ++ rest).drop 4 = bytes ++ rest := by
    rw [record, List.append_assoc, List.drop_left' (length_leBytes 4 _)]
  have hlen : (record bytes ++ rest).length = 4 + bytes.length + rest.length := by
    simp [record, Nat.add_assoc]
  rw [records, dif_pos (by omega), htake, hdrop, if_pos (by omega), List.take_left,
    List.drop_left]

/-- **The records in front of a body.** -/
theorem records_append {frames : List (List UInt8)} (h : ∀ f ∈ frames, f.length < 2 ^ 32)
    (rest : List UInt8) : records (frames.flatMap record ++ rest) = frames ++ records rest := by
  induction frames with
  | nil => rfl
  | cons f frames ih =>
    rw [List.forall_mem_cons] at h
    rw [List.flatMap_cons, List.append_assoc, records_record h.1, ih h.2, List.cons_append]

theorem records_take {bytes : List UInt8} (h : bytes.length < 2 ^ 32) {n : ℕ}
    (hn : n < (record bytes).length) : records ((record bytes).take n) = [] := by
  have hlen : (record bytes).length = 4 + bytes.length := by simp [record]
  have hcut : ((record bytes).take n).length = n := List.length_take_of_le hn.le
  by_cases hshort : n < 4
  · exact records_of_short (by omega)
  · have htake : leValue (((record bytes).take n).take 4) = bytes.length := by
      rw [List.take_take, min_eq_left (by omega), record]
      exact leValue_take (by omega) _
    rw [records, dif_pos (by omega), htake, if_neg (by omega)]

end Zeron.Records
