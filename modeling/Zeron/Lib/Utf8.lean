import Mathlib

/-!
# Characters and their bytes

* `utf8`: the bytes of a text;
* `utf8EncodeChar_ascii`, `le_of_mem_utf8EncodeChar`: a character is ASCII if one of its bytes is;
* `utf8_ascii`: a text of ASCII has a byte for each character;
* **`utf8_injective`**: the bytes of a text tell it;
* `utf8_prefix_iff`: a text starts as another exactly if its bytes do.
-/

namespace Zeron

/-- The bytes of a text. -/
def utf8 (text : List Char) : List UInt8 := text.flatMap String.utf8EncodeChar

@[simp] theorem utf8_nil : utf8 [] = [] := rfl

@[simp] theorem utf8_cons (c : Char) (text : List Char) :
    utf8 (c :: text) = String.utf8EncodeChar c ++ utf8 text := rfl

@[simp] theorem utf8_append (text text' : List Char) :
    utf8 (text ++ text') = utf8 text ++ utf8 text' := List.flatMap_append

theorem utf8EncodeChar_ascii {c : Char} (h : c.toNat < 128) :
    String.utf8EncodeChar c = [UInt8.ofNat c.toNat] := by
  unfold String.utf8EncodeChar
  exact if_pos (Nat.le_of_lt_succ h)

theorem le_of_mem_utf8EncodeChar {c : Char} (h : 128 ≤ c.toNat) {b : UInt8}
    (hb : b ∈ String.utf8EncodeChar c) : 128 ≤ b.toNat := by
  have hne : ¬ c.val.toNat ≤ 0x7f := by
    intro hle
    exact absurd h (Nat.not_le.mpr (Nat.lt_succ_of_le hle))
  unfold String.utf8EncodeChar at hb
  simp only [hne, if_false] at hb
  split_ifs at hb <;> simp only [List.mem_cons, List.not_mem_nil, or_false] at hb <;>
    rcases hb with rfl | rfl | rfl | rfl <;> simp only [UInt8.toNat_ofNat'] <;> omega

theorem ascii_of_mem_utf8EncodeChar {c : Char} {b : UInt8} (hb : b ∈ String.utf8EncodeChar c)
    (h : b.toNat < 128) : c.toNat < 128 := by
  by_contra hc
  have := le_of_mem_utf8EncodeChar (Nat.not_lt.mp hc) hb
  omega

/-- **A text of ASCII has a byte for each character.** -/
theorem utf8_ascii {text : List Char} (h : ∀ c ∈ text, c.toNat < 128) :
    utf8 text = text.map fun c => UInt8.ofNat c.toNat := by
  induction text with
  | nil => rfl
  | cons c text ih =>
    rw [List.forall_mem_cons] at h
    rw [utf8_cons, utf8EncodeChar_ascii h.1, ih h.2]
    rfl

theorem ascii_iff_utf8 {text : List Char} :
    (∀ c ∈ text, c.toNat < 128) ↔ ∀ b ∈ utf8 text, b.toNat < 128 := by
  constructor
  · intro h b hb
    rw [utf8_ascii h] at hb
    obtain ⟨c, hc, rfl⟩ := List.mem_map.mp hb
    have := h c hc
    simp only [UInt8.toNat_ofNat']
    omega
  · intro h c hc
    have hne : String.utf8EncodeChar c ≠ [] := by
      intro he
      have hlen := congrArg List.length he
      rw [String.length_utf8EncodeChar, List.length_nil] at hlen
      exact absurd hlen (Char.utf8Size_pos c).ne'
    obtain ⟨b, hb⟩ := List.exists_mem_of_ne_nil _ hne
    exact ascii_of_mem_utf8EncodeChar hb (h b (List.mem_flatMap.mpr ⟨c, hc, hb⟩))

/-- `std::str::from_utf8`. -/
def fromUtf8 (bytes : List UInt8) : Option (List Char) :=
  (ByteArray.utf8Decode? ⟨bytes.toArray⟩).map Array.toList

theorem utf8Encode_eq (text : List Char) : text.utf8Encode = ⟨(utf8 text).toArray⟩ := by
  ext1
  exact List.data_toByteArray

/-- **The bytes of a text decode to it.** -/
theorem fromUtf8_utf8 (text : List Char) : fromUtf8 (utf8 text) = some text := by
  rw [fromUtf8, ← utf8Encode_eq, List.utf8Decode?_utf8Encode]
  rfl

/-- **What decodes is the bytes of its text.** -/
theorem utf8_of_fromUtf8 {bytes : List UInt8} {text : List Char} (h : fromUtf8 bytes = some text) :
    utf8 text = bytes := by
  obtain ⟨chars, hchars, rfl⟩ := Option.map_eq_some_iff.mp h
  have hsome : (ByteArray.utf8Decode? ⟨bytes.toArray⟩).isSome = true := by simp [hchars]
  have hencode := ByteArray.utf8Encode_get_utf8Decode? (h := hsome)
  rw [Option.get_of_eq_some hsome hchars, utf8Encode_eq, ByteArray.mk.injEq] at hencode
  simpa using hencode

theorem utf8_injective : Function.Injective utf8 := by
  intro a b h
  have hdecode := congrArg fromUtf8 h
  rwa [fromUtf8_utf8, fromUtf8_utf8, Option.some_inj] at hdecode

theorem eq_of_utf8EncodeChar_append {c d : Char} {x y : List UInt8}
    (h : String.utf8EncodeChar c ++ x = String.utf8EncodeChar d ++ y) : c = d := by
  have hdecode : ∀ (c : Char) (x : List UInt8),
      (String.utf8EncodeChar c ++ x).toByteArray.utf8DecodeChar? 0 = some c := by
    intro c x
    rw [List.toByteArray_append]
    exact ByteArray.utf8DecodeChar?_utf8EncodeChar_append
  have hc := hdecode c x
  rw [h, hdecode d y] at hc
  exact (Option.some_inj.mp hc).symm

/-- **A text starts as another exactly if its bytes do.** -/
theorem utf8_prefix_iff {a b : List Char} : utf8 a <+: utf8 b ↔ a <+: b := by
  constructor
  · intro h
    induction a generalizing b with
    | nil => exact List.nil_prefix
    | cons c a ih =>
      obtain ⟨rest, hrest⟩ := h
      cases b with
      | nil =>
        have hlen := congrArg List.length hrest
        have := c.utf8Size_pos
        simp only [utf8_cons, utf8_nil, List.length_append, String.length_utf8EncodeChar,
          List.length_nil] at hlen
        omega
      | cons d b =>
        rw [utf8_cons, utf8_cons, List.append_assoc] at hrest
        obtain rfl := eq_of_utf8EncodeChar_append hrest
        exact List.cons_prefix_cons.mpr ⟨rfl, ih ⟨rest, List.append_cancel_left hrest⟩⟩
  · rintro ⟨rest, rfl⟩
    exact ⟨utf8 rest, (utf8_append a rest).symm⟩

end Zeron
