import Zeron.Lib.Utf8

/-!
# Bytes that are nearly a text

* `maximalSubpart`: how many bytes one replacement character stands for;
* `fromUtf8Lossy`: a text from any bytes;
* `fromUtf8Lossy_ascii`, **`fromUtf8Lossy_utf8`**: ASCII and whole texts are kept.
-/

namespace Zeron

/-- Whether the second byte can follow the first one of a character of three or four bytes. -/
def secondFits (first second : ℕ) : Bool :=
  (if first = 0xE0 then 0xA0 ≤ second else if first = 0xF0 then 0x90 ≤ second else 0x80 ≤ second) &&
    (if first = 0xED then second ≤ 0x9F else if first = 0xF4 then second ≤ 0x8F else second ≤ 0xBF)

/-- The bytes behind `first` that belong to the same broken character. -/
def maximalSubpart (first : UInt8) (bytes : List UInt8) : ℕ :=
  match bytes with
  | [] => 0
  | second :: rest =>
    if 0xE0 ≤ first.toNat ∧ first.toNat ≤ 0xF4 ∧ secondFits first.toNat second.toNat then
      if first.toNat < 0xF0 then 1
      else if rest.head?.any fun third => 0x80 ≤ third.toNat ∧ third.toNat ≤ 0xBF then 2 else 1
    else 0

/-- The character at the head of `bytes`. -/
def headChar (bytes : List UInt8) : Option Char := bytes.toByteArray.utf8DecodeChar? 0

/-- `String::from_utf8_lossy`. -/
def fromUtf8Lossy : List UInt8 → List Char
  | [] => []
  | first :: bytes =>
    match headChar (first :: bytes) with
    | some c => c :: fromUtf8Lossy (bytes.drop (c.utf8Size - 1))
    | none => '\uFFFD' :: fromUtf8Lossy (bytes.drop (maximalSubpart first bytes))
  termination_by bytes => bytes.length
  decreasing_by all_goals simp only [List.length_drop, List.length_cons]; omega

@[simp] theorem fromUtf8Lossy_nil : fromUtf8Lossy [] = [] := by rw [fromUtf8Lossy]

theorem headChar_append (c : Char) (bytes : List UInt8) :
    headChar (String.utf8EncodeChar c ++ bytes) = some c := by
  have h := @ByteArray.utf8DecodeChar?_utf8EncodeChar_append bytes.toByteArray c
  rw [← List.toByteArray_append] at h
  exact h

theorem fromUtf8Lossy_append (c : Char) (bytes : List UInt8) :
    fromUtf8Lossy (String.utf8EncodeChar c ++ bytes) = c :: fromUtf8Lossy bytes := by
  have hhead := headChar_append c bytes
  have hlen := String.length_utf8EncodeChar c
  have hpos := c.utf8Size_pos
  cases he : String.utf8EncodeChar c with
  | nil =>
    rw [he, List.length_nil] at hlen
    omega
  | cons first rest =>
    rw [he, List.length_cons] at hlen
    rw [he, List.cons_append] at hhead
    rw [List.cons_append, fromUtf8Lossy, hhead]
    dsimp only
    rw [List.drop_left' (by omega)]

theorem fromUtf8Lossy_ascii {c : Char} (h : c.toNat < 128) (bytes : List UInt8) :
    fromUtf8Lossy (UInt8.ofNat c.toNat :: bytes) = c :: fromUtf8Lossy bytes := by
  have happend := fromUtf8Lossy_append c bytes
  rwa [utf8EncodeChar_ascii h] at happend

/-- **A text is kept.** -/
theorem fromUtf8Lossy_utf8 (text : List Char) : fromUtf8Lossy (utf8 text) = text := by
  induction text with
  | nil => simp
  | cons c text ih => rw [utf8_cons, fromUtf8Lossy_append, ih]

theorem fromUtf8Lossy_of_fromUtf8 {bytes : List UInt8} {text : List Char}
    (h : fromUtf8 bytes = some text) : fromUtf8Lossy bytes = text := by
  rw [← utf8_of_fromUtf8 h, fromUtf8Lossy_utf8]

end Zeron
