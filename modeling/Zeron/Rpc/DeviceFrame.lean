import Zeron.Lib.Leb
import Zeron.Lib.Utf8

/-!
# Frames of a device room

`uleb128(header length) ‖ header JSON ‖ payload` (`crates/rpc/src/device_room.rs`).

* `lenBytes`, `readLen`: the two loops over the length; `lenBytes_eq`, `readLen_eq`: LEB128 in at
  most five groups;
* `encodeDeviceFrame`, `decodeDeviceFrame`, over a printer and a parser of headers;
* **`device_frames`**: round trip, no proper prefix, re-encoding; `length_refused`: the guard.
-/

namespace Zeron.Rpc

/-- The frame header. -/
structure DeviceFrameHeader where
  /-- Stream id. -/
  s : String
  /-- Stream kind. -/
  k : String
  /-- The client a host's frame goes to. -/
  «to» : Option String := none
  /-- The client a frame comes from. -/
  «from» : Option String := none
  deriving DecidableEq

/-! ## The header's text -/

/-- A character inside a JSON string. -/
def escapeChar (c : Char) : List Char :=
  if c = '"' then ['\\', '"']
  else if c = '\\' then ['\\', '\\']
  else if c.toNat = 8 then ['\\', 'b']
  else if c.toNat = 9 then ['\\', 't']
  else if c.toNat = 10 then ['\\', 'n']
  else if c.toNat = 12 then ['\\', 'f']
  else if c.toNat = 13 then ['\\', 'r']
  else if c.toNat < 0x20 then
    ['\\', 'u', '0', '0', Nat.digitChar (c.toNat / 16), Nat.digitChar (c.toNat % 16)]
  else [c]

def jsonString (s : String) : List Char := '"' :: s.toList.flatMap escapeChar ++ ['"']

/-- A routing field, left out if absent. -/
def routing (key : String) (value : Option String) : List Char :=
  value.elim [] fun v => ',' :: jsonString key ++ ':' :: jsonString v

/-- The text of a header, `{s, k, to?, from?}`. -/
def headerText (h : DeviceFrameHeader) : List Char :=
  '{' :: jsonString "s" ++ ':' :: jsonString h.s ++ ',' :: jsonString "k" ++
    ':' :: jsonString h.k ++ routing "to" h.«to» ++ routing "from" h.«from» ++ ['}']

/-- `serde_json::to_vec` of a header. -/
def headerJson (h : DeviceFrameHeader) : List UInt8 := utf8 (headerText h)

/-! ## The codec -/

/-- The loop over the length in `encode_device_frame`. -/
def lenBytes (n : ℕ) : List UInt8 :=
  if n >>> 7 = 0 then [UInt8.ofNat (n &&& 0x7f)]
  else (UInt8.ofNat (n &&& 0x7f) ||| 0x80) :: lenBytes (n >>> 7)
termination_by n
decreasing_by
  rw [Nat.shiftRight_eq_div_pow] at *
  omega

/-- The loop over the length in `decode_device_frame`. -/
def readLen (shift len : ℕ) : List UInt8 → Except String (ℕ × List UInt8)
  | [] => .error "device frame: truncated uleb128"
  | byte :: rest =>
    if shift ≥ 32 then .error "device frame: uleb128 overflow"
    else
      let len := len ||| (byte &&& 0x7f).toNat <<< shift
      if byte &&& 0x80 = 0 then .ok (len, rest) else readLen (shift + 7) len rest

section Codec

variable (print : DeviceFrameHeader → List UInt8)
  (parse : List UInt8 → Except String DeviceFrameHeader)

/-- `encode_device_frame`. -/
def encodeDeviceFrame (header : DeviceFrameHeader) (payload : List UInt8) : List UInt8 :=
  lenBytes (print header).length ++ (print header ++ payload)

/-- `decode_device_frame`; the payload is what remains behind the header. -/
def decodeDeviceFrame (bytes : List UInt8) : Except String (DeviceFrameHeader × List UInt8) :=
  match readLen 0 0 bytes with
  | .error e => .error e
  | .ok (len, rest) =>
    if rest.length < len then .error "device frame: truncated header"
    else match parse (rest.take len) with
      | .error e => .error ("device frame: bad header JSON: " ++ e)
      | .ok header => .ok (header, rest.drop len)

end Codec

/-! ## The length -/

theorem and_mask (n : ℕ) : n &&& 0x7f = n % 128 := Nat.and_two_pow_sub_one_eq_mod n 7

theorem shift_group (n : ℕ) : n >>> 7 = n / 128 := Nat.shiftRight_eq_div_pow n 7

theorem or_high : ∀ m < 128, UInt8.ofNat m ||| 0x80 = UInt8.ofNat (m + 128) := by decide

theorem and_high (b : UInt8) : b &&& 0x80 = 0 ↔ b.toNat < 128 := by
  have h : ∀ m : Fin 256, m.val &&& 0x80 = 0 ↔ m.val < 128 := by decide +kernel
  rw [← UInt8.toNat_inj, UInt8.toNat_and]
  exact h ⟨b.toNat, b.toNat_lt⟩

theorem and_low (b : UInt8) : (b &&& 0x7f).toNat = b.toNat % 128 := by
  rw [UInt8.toNat_and]
  exact and_mask b.toNat

theorem lenBytes_eq (n : ℕ) : lenBytes n = Leb.encode n := by
  induction n using Nat.strongRecOn with
  | ind n ih =>
    rw [lenBytes, and_mask, shift_group]
    by_cases hn : n < 128
    · rw [if_pos (by omega), Leb.encode_small hn, Nat.mod_eq_of_lt hn]
    · rw [if_neg (by omega), or_high _ (by omega), ih _ (by omega), Leb.encode_large hn]

theorem or_shift {len shift : ℕ} (hlen : len < 2 ^ shift) (m : ℕ) :
    len ||| m <<< shift = len + m * 2 ^ shift := by
  rw [Nat.or_comm, ← Nat.shiftLeft_add_eq_or_of_lt hlen, Nat.shiftLeft_eq, Nat.add_comm]

theorem readLen_eq (groups len : ℕ) (hgroups : groups ≤ 5) (hlen : len < 2 ^ (7 * (5 - groups)))
    (bytes : List UInt8) : (readLen (7 * (5 - groups)) len bytes).toOption =
      (Leb.decode groups bytes).map fun p => (len + p.1 * 2 ^ (7 * (5 - groups)), p.2) := by
  induction groups generalizing len bytes with
  | zero => cases bytes <;> rfl
  | succ groups ih =>
    cases bytes with
    | nil => rfl
    | cons b bytes =>
      have hshift : ¬ 7 * (5 - (groups + 1)) ≥ 32 := by omega
      have hnext : 7 * (5 - (groups + 1)) + 7 = 7 * (5 - groups) := by omega
      have hpow : 2 ^ (7 * (5 - groups)) = 128 * 2 ^ (7 * (5 - (groups + 1))) := by
        rw [← hnext, pow_add, Nat.mul_comm]
        rfl
      rw [readLen, if_neg hshift, or_shift hlen, and_low]
      by_cases hb : b.toNat < 128
      · rw [if_pos ((and_high b).mpr hb), Leb.decode_small hb, Nat.mod_eq_of_lt hb]
        rfl
      · have hb' := b.toNat_lt
        have hmod : b.toNat % 128 = b.toNat - 128 := by omega
        have hle : len + b.toNat % 128 * 2 ^ (7 * (5 - (groups + 1))) <
            2 ^ (7 * (5 - groups)) := by
          have : b.toNat % 128 ≤ 127 := by omega
          have := Nat.mul_le_mul_right (2 ^ (7 * (5 - (groups + 1)))) this
          omega
        rw [if_neg fun h => hb ((and_high b).mp h), hnext, ih _ (by omega) hle, Leb.decode,
          if_neg hb, Option.map_map, hmod]
        congr 1
        funext p
        simp only [Function.comp_apply, Prod.mk.injEq, and_true]
        rw [hpow]
        ring

theorem readLen_ok {bytes rest : List UInt8} {len : ℕ} :
    readLen 0 0 bytes = .ok (len, rest) ↔ Leb.decode 5 bytes = some (len, rest) := by
  have h := readLen_eq 5 0 le_rfl (by decide) bytes
  have hmap : (Leb.decode 5 bytes).map (fun p => (0 + p.1 * 2 ^ (7 * (5 - 5)), p.2)) =
      Leb.decode 5 bytes := by simp
  rw [hmap] at h
  rw [← h]
  cases readLen (7 * (5 - 5)) 0 bytes <;> simp [Except.toOption]

/-! ## Frames -/

section Frames

variable {print : DeviceFrameHeader → List UInt8}
  {parse : List UInt8 → Except String DeviceFrameHeader} {header : DeviceFrameHeader}

theorem decode_ok {bytes payload : List UInt8}
    (h : decodeDeviceFrame parse bytes = .ok (header, payload)) :
    ∃ len rest, Leb.decode 5 bytes = some (len, rest) ∧ len ≤ rest.length ∧
      parse (rest.take len) = .ok header ∧ payload = rest.drop len := by
  rw [decodeDeviceFrame] at h
  cases hlen : readLen 0 0 bytes with
  | error e =>
    rw [hlen] at h
    cases h
  | ok p =>
    rw [hlen] at h
    dsimp only at h
    split_ifs at h with hshort
    cases hparse : parse (p.2.take p.1) with
    | error e =>
      rw [hparse] at h
      cases h
    | ok header' =>
      rw [hparse] at h
      obtain ⟨rfl, rfl⟩ := Prod.mk.inj (Except.ok.inj h)
      exact ⟨p.1, p.2, readLen_ok.mp hlen, by omega, hparse, rfl⟩

theorem decode_encode (hparse : parse (print header) = .ok header)
    (hlen : (print header).length < 2 ^ 35) (payload : List UInt8) :
    decodeDeviceFrame parse (encodeDeviceFrame print header payload) = .ok (header, payload) := by
  have hread : readLen 0 0 (encodeDeviceFrame print header payload) =
      .ok ((print header).length, print header ++ payload) := by
    rw [readLen_ok, encodeDeviceFrame, lenBytes_eq]
    exact Leb.decode_encode (by omega) _
  rw [decodeDeviceFrame, hread]
  simp [hparse]

theorem decode_take {n : ℕ} {payload : List UInt8}
    (hn : n < (lenBytes (print header).length).length + (print header).length)
    (result : DeviceFrameHeader × List UInt8) :
    decodeDeviceFrame parse ((encodeDeviceFrame print header payload).take n) ≠ .ok result := by
  intro h
  obtain ⟨len, rest, hdecode, hle, -, -⟩ := decode_ok h
  rw [encodeDeviceFrame, lenBytes_eq] at hdecode
  rw [lenBytes_eq] at hn
  by_cases hcut : n < (Leb.encode (print header).length).length
  · rw [List.take_append_of_le_length hcut.le, Leb.decode_take hcut] at hdecode
    cases hdecode
  · rw [List.take_append, List.take_of_length_le (by omega)] at hdecode
    by_cases hlong : 128 ^ 5 ≤ (print header).length
    · rw [Leb.decode_long hlong (by omega)] at hdecode
      cases hdecode
    · rw [Leb.decode_encode (by omega)] at hdecode
      obtain ⟨rfl, rfl⟩ := Prod.mk.inj (Option.some.inj hdecode)
      rw [List.length_take] at hle
      omega

/-- **Device frames.** A header that the parser reads back, of fewer than `2 ^ 35` bytes: its frames
decode to it and their payload, and so does what was decoded as it, encoded again. No frame that is
cut in its length or its header decodes. -/
theorem device_frames (header : DeviceFrameHeader) (hparse : parse (print header) = .ok header) :
    ((print header).length < 2 ^ 35 → ∀ payload,
        decodeDeviceFrame parse (encodeDeviceFrame print header payload) =
          .ok (header, payload)) ∧
      (∀ payload n, n < (lenBytes (print header).length).length + (print header).length →
        ∀ result,
          decodeDeviceFrame parse ((encodeDeviceFrame print header payload).take n) ≠ .ok result) ∧
      ((print header).length < 2 ^ 35 → ∀ bytes payload,
        decodeDeviceFrame parse bytes = .ok (header, payload) →
          decodeDeviceFrame parse (encodeDeviceFrame print header payload) =
            .ok (header, payload)) :=
  ⟨fun hlen => decode_encode hparse hlen, fun _ _ hn => decode_take hn,
    fun hlen _ payload _ => decode_encode hparse hlen payload⟩

end Frames

theorem device_frames_term :
    decodeDeviceFrame
      (fun bytes => if bytes = headerJson { s := "a", k := "term" } then
        .ok { s := "a", k := "term" } else .error "unknown")
      (encodeDeviceFrame headerJson { s := "a", k := "term" } [1, 2]) =
        .ok ({ s := "a", k := "term" }, [1, 2]) :=
  (device_frames { s := "a", k := "term" } (if_pos rfl)).1 (by decide) [1, 2]

/-! ## The guard -/

theorem length_escape (text : List Char) : text.length ≤ (text.flatMap escapeChar).length := by
  induction text with
  | nil => simp
  | cons c text ih =>
    have hc : 1 ≤ (escapeChar c).length := by
      rw [escapeChar]
      split_ifs <;> simp
    rw [List.flatMap_cons, List.length_append, List.length_cons]
    omega

theorem length_le_headerJson (h : DeviceFrameHeader) :
    h.s.toList.length ≤ (headerJson h).length := by
  have hutf8 : ∀ text : List Char, text.length ≤ (utf8 text).length := by
    intro text
    induction text with
    | nil => simp
    | cons c text ih =>
      have hc : 1 ≤ (String.utf8EncodeChar c).length := by
        rw [String.length_utf8EncodeChar]
        exact c.utf8Size_pos
      rw [utf8_cons, List.length_append, List.length_cons]
      omega
  have htext : h.s.toList.length ≤ (headerText h).length := by
    have := length_escape h.s.toList
    simp only [headerText, jsonString, List.length_append, List.length_cons]
    omega
  exact htext.trans (hutf8 (headerText h))

/-- A stream id of `n` characters. -/
def longHeader (n : ℕ) : DeviceFrameHeader :=
  { s := String.ofList (List.replicate n 'a'), k := "rpc" }

theorem length_longHeader (n : ℕ) : n ≤ (headerJson (longHeader n)).length := by
  have hs : (longHeader n).s.toList.length = n := by
    rw [longHeader, String.toList_ofList, List.length_replicate]
  exact hs.symm.le.trans (length_le_headerJson (longHeader n))

/-- No parser gets to see a header behind a length of six groups. -/
theorem long_refused : ∀ parse payload,
    decodeDeviceFrame parse (encodeDeviceFrame headerJson (longHeader (128 ^ 5)) payload) ≠
      .ok (longHeader (128 ^ 5), payload) := by
  intro parse payload h
  obtain ⟨len, rest, hdecode, -⟩ := decode_ok h
  have hlong := length_longHeader (128 ^ 5)
  rw [encodeDeviceFrame, lenBytes_eq, Leb.decode_long hlong (by omega)] at hdecode
  cases hdecode

theorem length_refused :
    (fun bytes => if bytes = headerJson (longHeader (128 ^ 5)) then
        Except.ok (longHeader (128 ^ 5)) else .error "unknown")
      (headerJson (longHeader (128 ^ 5))) = .ok (longHeader (128 ^ 5)) ∧
    decodeDeviceFrame
      (fun bytes => if bytes = headerJson (longHeader (128 ^ 5)) then
        .ok (longHeader (128 ^ 5)) else .error "unknown")
      (encodeDeviceFrame headerJson (longHeader (128 ^ 5)) []) ≠ .ok (longHeader (128 ^ 5), []) :=
  ⟨if_pos rfl, long_refused _ []⟩

end Zeron.Rpc
