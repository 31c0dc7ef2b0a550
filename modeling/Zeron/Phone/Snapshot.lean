import Zeron.Lib.Records
import Zeron.Lib.Utf8

/-!
# The snapshot file of a chat

`c2_<id>.loro`: a magic, the cursor, two flags, the durable batches and the snapshot of the document
(`Zeron/Sync/DocDisk.swift`). An index out of range and a conversion that does not fit are traps.

* `saveChat2`, `loadChat2`, `chat2PendingOutboxCount`: the writer and the readers;
* `Layout`: the parts of a file in front of the snapshot;
* `readPush_spec`, `readOutbox_spec`: one batch, and all of them;
* `Wide`: files whose first batch lies in front of 2^32 bytes or more;
* **`snapshot_file`**: the round trip, and what the loader does with any bytes.
-/

namespace Zeron.Phone.DocDisk

open Records

abbrev Bytes := List UInt8

/-- How a reader stops: it traps, or returns `nil`. -/
inductive Stop where
  | trap
  | missing
  deriving DecidableEq

structure Push where
  batchId : List Char
  bytes : Bytes
  deriving DecidableEq

/-- What `loadChat2` returns. -/
structure Saved where
  cursor : UInt64
  verified : Bool
  firstContactQueued : Bool
  outbox : List Push
  bytes : ℕ
  deriving DecidableEq

def chat2Magic : Bytes := utf8 "C2SNAP02".toList
def chat2OutboxMagic : Bytes := utf8 "C2SNAP03".toList
def legacyChat2Magic : Bytes := utf8 "C2SNAP01".toList

/-! ## The writer -/

/-- `(verified ? 1 : 0) | (firstContactQueued ? 2 : 0)`. -/
def flags (verified firstContactQueued : Bool) : UInt8 :=
  (if verified then 1 else 0) ||| (if firstContactQueued then 2 else 0)

/-- A batch in the file. -/
def Push.field (push : Push) : Bytes := record (utf8 push.batchId) ++ record push.bytes

/-- The loop over the outbox; a length that does not fit ends it. -/
def appendOutbox : List Push → Bytes → Except Stop Bytes
  | [], data => .ok data
  | push :: outbox, data =>
    if (utf8 push.batchId).length < 2 ^ 32 ∧ push.bytes.length < 2 ^ 32 then
      appendOutbox outbox (data ++ push.field)
    else .error .missing

/-- `saveChat2ReturningBytes`: the bytes of the file. -/
def saveChat2 (snapshot : Bytes) (cursor : UInt64) (verified firstContactQueued : Bool)
    (outbox : List Push) : Except Stop Bytes :=
  if outbox.length < 2 ^ 32 then
    match appendOutbox outbox (chat2OutboxMagic ++ leBytes 8 cursor.toNat ++
        [flags verified firstContactQueued] ++ leBytes 4 outbox.length) with
    | .ok data => .ok (data ++ snapshot)
    | .error stop => .error stop
  else .error .trap

/-! ## The readers -/

def subdata (data : Bytes) (low high : ℕ) : Except Stop Bytes :=
  if low ≤ high ∧ high ≤ data.length then .ok ((data.drop low).take (high - low)) else .error .trap

def readUInt32LE (data : Bytes) (offset : ℕ) : Except Stop ℕ :=
  (subdata data offset (offset + 4)).map leValue

def readUInt32LEIfPresent (data : Bytes) (offset : ℕ) : Except Stop ℕ :=
  if offset + 4 ≤ data.length then readUInt32LE data offset else .error .missing

/-- `UInt32(data.count - offset)`. -/
def bytesLeft (data : Bytes) (offset : ℕ) : Except Stop ℕ :=
  if offset ≤ data.length ∧ data.length - offset < 2 ^ 32 then .ok (data.length - offset)
  else .error .trap

/-- The length at `offset`, at least `least`, and as many bytes behind it. -/
def readField (data : Bytes) (offset least : ℕ) : Except Stop (Bytes × ℕ) := do
  let length ← readUInt32LEIfPresent data offset
  if length < least then .error .missing
  else
    let left ← bytesLeft data (offset + 4)
    if left < length then .error .missing
    else
      let bytes ← subdata data (offset + 4) (offset + 4 + length)
      return (bytes, offset + 4 + length)

/-- `guard let`. -/
def present {α : Type} : Option α → Except Stop α
  | some a => .ok a
  | none => .error .missing

/-- The body of the loop over the outbox. -/
def readPush (data : Bytes) (offset : ℕ) : Except Stop (Push × ℕ) := do
  let (idBytes, offset) ← readField data offset 1
  let batchId ← present (fromUtf8 idBytes)
  let (bytes, offset) ← readField data offset 0
  return (⟨batchId, bytes⟩, offset)

def readOutbox (data : Bytes) : ℕ → ℕ → List Push → Except Stop (List Push × ℕ)
  | 0, offset, outbox => .ok (outbox, offset)
  | count + 1, offset, outbox => do
    let (push, offset) ← readPush data offset
    readOutbox data count offset (outbox ++ [push])

/-- `data[offset]`. -/
def byteAt (data : Bytes) (offset : ℕ) : Except Stop UInt8 :=
  match data[offset]? with
  | some b => .ok b
  | none => .error .trap

/-- The parts in front of the snapshot, and its offset. -/
def readChat2 (data : Bytes) : Except Stop (Saved × ℕ) :=
  if data.length < 16 then .error .missing
  else if data.take 8 ≠ legacyChat2Magic ∧ data.take 8 ≠ chat2Magic ∧
      data.take 8 ≠ chat2OutboxMagic then .error .missing
  else do
    let cursor := UInt64.ofNat (leValue (← subdata data 8 16))
    if data.take 8 = legacyChat2Magic then return (⟨cursor, false, false, [], data.length⟩, 16)
    else if data.take 8 = chat2OutboxMagic then
      if data.length < 21 then .error .missing
      else
        let flags ← byteAt data 16
        let count ← readUInt32LE data 17
        let (outbox, offset) ← readOutbox data count 21 []
        return (⟨cursor, flags &&& 1 ≠ 0, flags &&& 2 ≠ 0, outbox, data.length⟩, offset)
    else if data.length < 17 then .error .missing
    else
      let flags ← byteAt data 16
      return (⟨cursor, flags &&& 1 ≠ 0, false, [], data.length⟩, 17)

/-- What the importer is handed, and what is returned. -/
structure Load where
  handed : Option Bytes
  result : Except Stop Saved

def loadChat2 (importWith : Bytes → Bool) (data : Bytes) : Load :=
  match readChat2 data with
  | .error stop => ⟨none, .error stop⟩
  | .ok (saved, offset) =>
    if offset < data.length then
      match subdata data offset data.length with
      | .error stop => ⟨none, .error stop⟩
      | .ok snapshot =>
        ⟨some snapshot, if importWith snapshot then .ok saved else .error .missing⟩
    else ⟨none, .ok saved⟩

/-- The number of batches, from the first bytes of the file. -/
def chat2PendingOutboxCount (data : Bytes) : Except Stop ℕ :=
  let header := data.take 21
  if header.length < 8 then .ok 0
  else if header.take 8 ≠ chat2OutboxMagic then .ok 0
  else if header.length < 21 then .ok 0
  else readUInt32LE header 17

/-! ## One field -/

theorem subdata_of_drop {data bytes rest : Bytes} {low : ℕ} (h : data.drop low = bytes ++ rest)
    (hlow : low ≤ data.length) : subdata data low (low + bytes.length) = .ok bytes := by
  have hlen := congrArg List.length h
  rw [List.length_drop, List.length_append] at hlen
  rw [subdata, if_pos (by omega), Nat.add_sub_cancel_left, h, List.take_left]

theorem drop_add {data bytes rest : Bytes} {low : ℕ} (h : data.drop low = bytes ++ rest) :
    data.drop (low + bytes.length) = rest := by
  rw [← List.drop_drop, h, List.drop_left]

theorem readUInt32_of_drop {data rest : Bytes} {offset n : ℕ}
    (h : data.drop offset = leBytes 4 n ++ rest) (hn : n < 2 ^ 32) :
    readUInt32LE data offset = .ok n := by
  have hlow : offset ≤ data.length := by
    by_contra hc
    have hlen := congrArg List.length h
    rw [List.length_drop, List.length_append, length_leBytes] at hlen
    omega
  have hs := subdata_of_drop h hlow
  rw [length_leBytes] at hs
  rw [readUInt32LE, hs]
  exact congrArg Except.ok (leValue_leBytes_of_lt (by omega))

theorem readUInt32IfPresent_of_drop {data rest : Bytes} {offset n : ℕ}
    (h : data.drop offset = leBytes 4 n ++ rest) (hn : n < 2 ^ 32) :
    readUInt32LEIfPresent data offset = .ok n := by
  have hlen := congrArg List.length h
  rw [List.length_drop, List.length_append, length_leBytes] at hlen
  rw [readUInt32LEIfPresent, if_pos (by omega), readUInt32_of_drop h hn]

/-- The conversion behind the length does not trap. -/
def Near (data : Bytes) (offset : ℕ) : Prop := data.length < offset + 4 + 2 ^ 32

attribute [local simp] Near in
theorem readField_complete {data bytes rest : Bytes} {offset least : ℕ} (hnear : Near data offset)
    (h : data.drop offset = record bytes ++ rest) (hb : bytes.length < 2 ^ 32)
    (hl : least ≤ bytes.length) :
    readField data offset least = .ok (bytes, offset + (record bytes).length) := by
  rw [record, List.append_assoc] at h
  have hlen := congrArg List.length h
  have hbehind := drop_add h
  simp only [List.length_drop, List.length_append, length_leBytes] at hlen hbehind
  have hsub := subdata_of_drop hbehind (by omega)
  have hleft : bytesLeft data (offset + 4) = .ok (data.length - (offset + 4)) :=
    if_pos ⟨by omega, by unfold Near at hnear; omega⟩
  rw [readField, readUInt32IfPresent_of_drop h hb]
  show (if bytes.length < least then _ else _) = _
  rw [if_neg (by omega), hleft]
  show (if data.length - (offset + 4) < bytes.length then _ else _) = _
  rw [if_neg (by omega), hsub]
  simp [record, Nat.add_assoc]

theorem readField_sound {data : Bytes} {offset least : ℕ} (hnear : Near data offset) :
    readField data offset least = .error .missing ∨
      ∃ bytes rest, bytes.length < 2 ^ 32 ∧ least ≤ bytes.length ∧
        data.drop offset = record bytes ++ rest := by
  by_cases hlen : offset + 4 ≤ data.length
  · obtain ⟨n, rest, hn, h⟩ := exists_leBytes (show 4 ≤ (data.drop offset).length by
      rw [List.length_drop]
      omega)
    have hrest := congrArg List.length h
    rw [List.length_drop, List.length_append, length_leBytes] at hrest
    by_cases hleast : n < least
    · left
      rw [readField, readUInt32IfPresent_of_drop h hn]
      exact if_pos hleast
    · by_cases hfit : rest.length < n
      · left
        have hleft : bytesLeft data (offset + 4) = .ok rest.length := by
          rw [bytesLeft, if_pos ⟨by omega, by unfold Near at hnear; omega⟩]
          exact congrArg Except.ok (by omega)
        rw [readField, readUInt32IfPresent_of_drop h hn]
        show (if n < least then _ else _) = _
        rw [if_neg hleast, hleft]
        exact if_pos hfit
      · right
        have htake : (rest.take n).length = n := List.length_take_of_le (by omega)
        refine ⟨rest.take n, rest.drop n, by omega, by omega, ?_⟩
        rw [record, htake, List.append_assoc, List.take_append_drop, h]
  · left
    rw [readField, readUInt32LEIfPresent, if_neg hlen]
    rfl

/-! ## One batch -/

/-- A batch the file can hold. -/
def Push.Ok (push : Push) : Prop :=
  push.batchId ≠ [] ∧ (utf8 push.batchId).length < 2 ^ 32 ∧ push.bytes.length < 2 ^ 32

theorem readPush_complete {data rest : Bytes} {push : Push} {offset : ℕ} (hnear : Near data offset)
    (hok : push.Ok) (h : data.drop offset = push.field ++ rest) :
    readPush data offset = .ok (push, offset + push.field.length) := by
  obtain ⟨hne, hid, hbytes⟩ := hok
  rw [Push.field, List.append_assoc] at h
  have hpos : 1 ≤ (utf8 push.batchId).length := by
    rw [Nat.one_le_iff_ne_zero, Ne, List.length_eq_zero_iff]
    exact fun he => hne (utf8_injective he)
  have hnear' : Near data (offset + (record (utf8 push.batchId)).length) := by
    unfold Near at *
    omega
  rw [readPush, readField_complete hnear h hid hpos]
  show (present (fromUtf8 (utf8 push.batchId)) >>= _) = _
  rw [fromUtf8_utf8]
  show (readField data _ 0 >>= _) = _
  rw [readField_complete hnear' (drop_add h) hbytes (Nat.zero_le _)]
  simp [Push.field, Nat.add_assoc]

theorem readPush_sound {data : Bytes} {offset : ℕ} (hnear : Near data offset) :
    readPush data offset = .error .missing ∨
      ∃ push rest, Push.Ok push ∧ data.drop offset = push.field ++ rest := by
  rcases @readField_sound data offset 1 hnear with h | ⟨idBytes, rest, hid, hpos, hdrop⟩
  · left
    rw [readPush, h]
    rfl
  · have hread := readField_complete hnear hdrop hid hpos
    cases hutf : fromUtf8 idBytes with
    | none =>
      left
      rw [readPush, hread]
      show (present (fromUtf8 idBytes) >>= _) = _
      rw [hutf]
      rfl
    | some batchId =>
      have hbytes := utf8_of_fromUtf8 hutf
      have hnear' : Near data (offset + (record idBytes).length) := by
        unfold Near at *
        omega
      rcases @readField_sound data _ 0 hnear' with h | ⟨bytes, rest', hb, -, hdrop'⟩
      · left
        rw [readPush, hread]
        show (present (fromUtf8 idBytes) >>= _) = _
        rw [hutf]
        show (readField data _ 0 >>= _) = _
        rw [h]
        rfl
      · right
        refine ⟨⟨batchId, bytes⟩, rest', ⟨?_, by rwa [hbytes], hb⟩, ?_⟩
        · rintro rfl
          rw [← hbytes] at hpos
          simp at hpos
        · rw [Push.field, hbytes, List.append_assoc, ← hdrop', drop_add hdrop]
          exact hdrop

/-! ## The outbox -/

def fields (outbox : List Push) : Bytes := outbox.flatMap Push.field

theorem readOutbox_complete {data : Bytes} {outbox : List Push} {offset : ℕ} {rest : Bytes}
    (hnear : outbox ≠ [] → Near data offset) (hok : ∀ push ∈ outbox, push.Ok)
    (h : data.drop offset = fields outbox ++ rest) (before : List Push) :
    readOutbox data outbox.length offset before =
      .ok (before ++ outbox, offset + (fields outbox).length) := by
  induction outbox generalizing offset before with
  | nil => simp [readOutbox, fields]
  | cons push outbox ih =>
    have hnear₀ := hnear (by simp)
    rw [fields, List.flatMap_cons, List.append_assoc] at h
    have hnear' : outbox ≠ [] → Near data (offset + push.field.length) := fun _ => by
      unfold Near at *
      omega
    rw [List.length_cons, readOutbox, readPush_complete hnear₀ (hok push List.mem_cons_self) h]
    refine (ih hnear' (fun p hp => hok p (List.mem_cons_of_mem _ hp)) (drop_add h) _).trans ?_
    simp [fields, Nat.add_assoc]

theorem readOutbox_sound {data : Bytes} {count offset : ℕ} (hnear : 0 < count → Near data offset)
    (before : List Push) :
    readOutbox data count offset before = .error .missing ∨
      ∃ outbox rest, outbox.length = count ∧ (∀ push ∈ outbox, push.Ok) ∧
        data.drop offset = fields outbox ++ rest := by
  induction count generalizing offset before with
  | zero => exact .inr ⟨[], data.drop offset, rfl, by simp, by simp [fields]⟩
  | succ count ih =>
    have hnear₀ := hnear (Nat.succ_pos _)
    rcases readPush_sound hnear₀ with h | ⟨push, rest, hok, hdrop⟩
    · left
      rw [readOutbox, h]
      rfl
    · have hnear' : 0 < count → Near data (offset + push.field.length) := fun _ => by
        unfold Near at *
        omega
      rcases ih hnear' (before ++ [push]) with h | ⟨outbox, rest', hlen, hall, hdrop'⟩
      · left
        rw [readOutbox, readPush_complete hnear₀ hok hdrop]
        exact h
      · right
        refine ⟨push :: outbox, rest', by rw [List.length_cons, hlen], ?_, ?_⟩
        · rw [List.forall_mem_cons]
          exact ⟨hok, hall⟩
        · rw [hdrop, ← drop_add hdrop, hdrop']
          simp [fields]

/-! ## The parts in front of the snapshot -/

/-- The bytes in front of the snapshot, and what they say. -/
inductive Layout : Bytes → UInt64 → Bool → Bool → List Push → Prop where
  | legacy (cursor : UInt64) :
    Layout (legacyChat2Magic ++ leBytes 8 cursor.toNat) cursor false false []
  | plain (cursor : UInt64) (flags : UInt8) :
    Layout (chat2Magic ++ (leBytes 8 cursor.toNat ++ [flags])) cursor (flags &&& 1 ≠ 0) false []
  | outbox (cursor : UInt64) (flags : UInt8) (outbox : List Push) (len : outbox.length < 2 ^ 32)
    (ok : ∀ push ∈ outbox, push.Ok) :
    Layout (chat2OutboxMagic ++ (leBytes 8 cursor.toNat ++ ([flags] ++
      (leBytes 4 outbox.length ++ fields outbox))))
      cursor (flags &&& 1 ≠ 0) (flags &&& 2 ≠ 0) outbox

/-- A first batch in front of 2^32 bytes or more. -/
def Wide (data : Bytes) : Prop :=
  data.take 8 = chat2OutboxMagic ∧ 25 + 2 ^ 32 ≤ data.length ∧
    0 < leValue ((data.drop 17).take 4) ∧ 0 < leValue ((data.drop 21).take 4)

theorem magics : chat2Magic ≠ legacyChat2Magic ∧ chat2OutboxMagic ≠ legacyChat2Magic ∧
    chat2OutboxMagic ≠ chat2Magic := by decide +kernel

section Header

variable {data magic rest : Bytes} {cursor : UInt64}

theorem header_of_eq (hm : magic.length = 8)
    (h : data = magic ++ (leBytes 8 cursor.toNat ++ rest)) :
    data.take 8 = magic ∧ data.length = 16 + rest.length ∧
      subdata data 8 16 = .ok (leBytes 8 cursor.toNat) ∧ data.drop 16 = rest := by
  have hdrop : data.drop 8 = leBytes 8 cursor.toNat ++ rest := by
    rw [h, ← hm, List.drop_left]
  have hlen : data.length = 16 + rest.length := by
    rw [h]
    simp only [List.length_append, length_leBytes, hm]
    omega
  have hsub := subdata_of_drop hdrop (by omega)
  have hbehind := drop_add hdrop
  rw [length_leBytes] at hsub hbehind
  exact ⟨by rw [h, ← hm, List.take_left], hlen, hsub, hbehind⟩

theorem cursor_leValue (cursor : UInt64) :
    UInt64.ofNat (leValue (leBytes 8 cursor.toNat)) = cursor := by
  have hlt : cursor.toNat < 256 ^ 8 := cursor.toNat_lt
  rw [leValue_leBytes_of_lt hlt, UInt64.ofNat_toNat]

theorem exists_header (h : 16 ≤ data.length) :
    ∃ cursor : UInt64, ∃ rest, data = data.take 8 ++ (leBytes 8 cursor.toNat ++ rest) := by
  have height : ((data.drop 8).take 8).length = 8 := by
    rw [List.length_take, List.length_drop]
    omega
  have hlt := leValue_lt ((data.drop 8).take 8)
  have hle := leBytes_leValue ((data.drop 8).take 8)
  rw [height] at hlt hle
  refine ⟨UInt64.ofNat (leValue ((data.drop 8).take 8)), (data.drop 8).drop 8, ?_⟩
  rw [UInt64.toNat_ofNat', Nat.mod_eq_of_lt (show _ < 2 ^ 64 from hlt), hle, List.take_append_drop,
    List.take_append_drop]

theorem byteAt_of_drop {offset : ℕ} {b : UInt8} (h : data.drop offset = b :: rest) :
    byteAt data offset = .ok b := by
  have hget : data[offset]? = some b := by
    rw [← Nat.add_zero offset, ← List.getElem?_drop, h]
    rfl
  rw [byteAt, hget]

attribute [local simp] readChat2 in
theorem readChat2_legacy (h : data = legacyChat2Magic ++ (leBytes 8 cursor.toNat ++ rest)) :
    readChat2 data = .ok (⟨cursor, false, false, [], data.length⟩, 16) := by
  obtain ⟨htake, hlen, hsub, -⟩ := header_of_eq rfl h
  rw [readChat2, if_neg (by omega), if_neg (by simp [htake]), hsub]
  show (if data.take 8 = legacyChat2Magic then _ else _) = _
  rw [if_pos htake, cursor_leValue]
  rfl

theorem readChat2_plain {flags : UInt8}
    (h : data = chat2Magic ++ (leBytes 8 cursor.toNat ++ flags :: rest)) :
    readChat2 data = .ok (⟨cursor, flags &&& 1 ≠ 0, false, [], data.length⟩, 17) := by
  obtain ⟨htake, hlen, hsub, hdrop⟩ := header_of_eq rfl h
  rw [List.length_cons] at hlen
  rw [readChat2, if_neg (by omega), if_neg (by simp [htake]), hsub]
  show (if data.take 8 = legacyChat2Magic then _ else if data.take 8 = chat2OutboxMagic then _
    else if data.length < 17 then _ else _) = _
  rw [if_neg (htake ▸ magics.1), if_neg (htake ▸ magics.2.2.symm), if_neg (by omega),
    byteAt_of_drop hdrop, cursor_leValue]
  rfl

theorem readChat2_short (h : data = magic ++ (leBytes 8 cursor.toNat ++ rest))
    (hm : magic = chat2Magic ∧ rest.length < 1 ∨ magic = chat2OutboxMagic ∧ rest.length < 5) :
    readChat2 data = .error .missing := by
  have hlen8 : magic.length = 8 := by rcases hm with ⟨rfl, -⟩ | ⟨rfl, -⟩ <;> rfl
  obtain ⟨htake, hlen, hsub, -⟩ := header_of_eq hlen8 h
  have hknown : ¬ (data.take 8 ≠ legacyChat2Magic ∧ data.take 8 ≠ chat2Magic ∧
      data.take 8 ≠ chat2OutboxMagic) := by
    rw [htake]
    rcases hm with ⟨rfl, -⟩ | ⟨rfl, -⟩ <;> simp
  rw [readChat2, if_neg (by omega), if_neg hknown, hsub]
  show (if data.take 8 = legacyChat2Magic then _ else if data.take 8 = chat2OutboxMagic then
    if data.length < 21 then _ else _ else if data.length < 17 then _ else _) = _
  rcases hm with ⟨rfl, hshort⟩ | ⟨rfl, hshort⟩
  · rw [if_neg (htake ▸ magics.1), if_neg (htake ▸ magics.2.2.symm), if_pos (by omega)]
  · rw [if_neg (htake ▸ magics.2.1), if_pos htake, if_pos (by omega)]

theorem readChat2_outbox {flags : UInt8} {count : ℕ} (hc : count < 2 ^ 32)
    (h : data = chat2OutboxMagic ++
      (leBytes 8 cursor.toNat ++ flags :: (leBytes 4 count ++ rest))) :
    data.drop 17 = leBytes 4 count ++ rest ∧ data.drop 21 = rest ∧
      readChat2 data = (readOutbox data count 21 []).map fun read =>
        (⟨cursor, flags &&& 1 ≠ 0, flags &&& 2 ≠ 0, read.1, data.length⟩, read.2) := by
  obtain ⟨htake, hlen, hsub, hdrop⟩ := header_of_eq rfl h
  rw [List.length_cons, List.length_append, length_leBytes] at hlen
  have hcount : data.drop 17 = leBytes 4 count ++ rest := @drop_add _ [flags] _ _ hdrop
  have hrest : data.drop 21 = rest := by
    have hbehind := drop_add hcount
    rwa [length_leBytes] at hbehind
  refine ⟨hcount, hrest, ?_⟩
  rw [readChat2, if_neg (by omega), if_neg (by simp [htake]), hsub]
  show (if data.take 8 = legacyChat2Magic then _ else if data.take 8 = chat2OutboxMagic then
    if data.length < 21 then _ else _ else _) = _
  rw [if_neg (htake ▸ magics.2.1), if_pos htake, if_neg (by omega), byteAt_of_drop hdrop]
  show (readUInt32LE data 17 >>= _) = _
  rw [readUInt32_of_drop hcount hc, cursor_leValue]
  show (readOutbox data count 21 [] >>= _) = _
  cases readOutbox data count 21 [] <;> rfl

end Header

theorem leValue_drop {data rest : Bytes} {offset n : ℕ} (hn : n < 2 ^ 32)
    (h : data.drop offset = leBytes 4 n ++ rest) : leValue ((data.drop offset).take 4) = n := by
  rw [h]
  exact leValue_take (by omega) rest

theorem readChat2_complete {data front snapshot : Bytes} {cursor : UInt64}
    {verified firstContactQueued : Bool} {outbox : List Push} (hw : ¬ Wide data)
    (hl : Layout front cursor verified firstContactQueued outbox) (h : data = front ++ snapshot) :
    readChat2 data =
      .ok (⟨cursor, verified, firstContactQueued, outbox, data.length⟩, front.length) := by
  cases hl with
  | legacy =>
    have hdata : data = legacyChat2Magic ++ (leBytes 8 cursor.toNat ++ snapshot) := by
      rw [h, List.append_assoc]
    rw [readChat2_legacy hdata, List.length_append, length_leBytes]
    rfl
  | plain _ flags =>
    have hdata : data = chat2Magic ++ (leBytes 8 cursor.toNat ++ flags :: snapshot) := by
      rw [h]
      simp
    rw [readChat2_plain hdata, List.length_append, List.length_append, length_leBytes]
    rfl
  | outbox _ flags _ len ok =>
    have hdata : data = chat2OutboxMagic ++ (leBytes 8 cursor.toNat ++
        flags :: (leBytes 4 outbox.length ++ (fields outbox ++ snapshot))) := by
      rw [h]
      simp
    obtain ⟨hcount, hrest, hread⟩ := readChat2_outbox len hdata
    have hnear : outbox ≠ [] → Near data 21 := fun hne => by
      obtain ⟨push, rest, rfl⟩ := List.exists_cons_of_ne_nil hne
      obtain ⟨hid, hlt, -⟩ := ok push List.mem_cons_self
      have hfirst : data.drop 21 = leBytes 4 (utf8 push.batchId).length ++
          (utf8 push.batchId ++ (record push.bytes ++ (fields rest ++ snapshot))) := by
        rw [hrest]
        simp [fields, Push.field, record]
      have hpos : 0 < (utf8 push.batchId).length :=
        List.length_pos_iff.mpr fun he => hid (utf8_injective he)
      unfold Near
      by_contra hc
      refine hw ⟨(header_of_eq rfl hdata).1, by omega, ?_, ?_⟩
      · rw [leValue_drop len hcount]
        exact Nat.succ_pos _
      · rwa [leValue_drop hlt hfirst]
    rw [hread, readOutbox_complete hnear ok hrest]
    simp only [Except.map, List.nil_append, List.length_append, length_leBytes, List.length_cons,
      List.length_nil]
    congr 2
    show 21 + _ = 8 + _
    omega

theorem exists_count {rest : Bytes} (h : 5 ≤ rest.length) :
    ∃ flags count body, count < 2 ^ 32 ∧ rest = flags :: (leBytes 4 count ++ body) := by
  cases rest with
  | nil => simp at h
  | cons flags rest =>
    obtain ⟨count, body, hc, rfl⟩ := exists_leBytes (show 4 ≤ rest.length by
      rw [List.length_cons] at h
      omega)
    exact ⟨flags, count, body, hc, rfl⟩

theorem readOutbox_ends {data rest : Bytes} {count : ℕ} (hw : ¬ Wide data)
    (hm : data.take 8 = chat2OutboxMagic) (hc : count < 2 ^ 32)
    (hcount : data.drop 17 = leBytes 4 count ++ rest) :
    readOutbox data count 21 [] = .error .missing ∨
      ∃ outbox rest, outbox.length = count ∧ (∀ push ∈ outbox, push.Ok) ∧
        data.drop 21 = fields outbox ++ rest := by
  by_cases hnear : Near data 21
  · exact readOutbox_sound (fun _ => hnear) []
  · cases count with
    | zero => exact .inr ⟨[], data.drop 21, rfl, by simp, by simp [fields]⟩
    | succ count =>
      left
      unfold Near at hnear
      obtain ⟨n, body, hn, hfirst⟩ := exists_leBytes (show 4 ≤ (data.drop 21).length by
        rw [List.length_drop]
        omega)
      have hzero : n < 1 := by
        by_contra hpos
        refine hw ⟨hm, by omega, ?_, ?_⟩
        · rw [leValue_drop hc hcount]
          exact Nat.succ_pos _
        · rw [leValue_drop hn hfirst]
          omega
      have hfield : readField data 21 1 = .error .missing := by
        rw [readField, readUInt32IfPresent_of_drop hfirst hn]
        exact if_pos hzero
      rw [readOutbox, readPush, hfield]
      rfl

theorem readChat2_sound {data : Bytes} (hw : ¬ Wide data) :
    readChat2 data = .error .missing ∨
      ∃ front snapshot cursor verified firstContactQueued outbox,
        Layout front cursor verified firstContactQueued outbox ∧ data = front ++ snapshot := by
  by_cases hlen : data.length < 16
  · left
    rw [readChat2, if_pos hlen]
  · obtain ⟨cursor, rest, hdata⟩ := exists_header (Nat.not_lt.mp hlen)
    have hrest := congrArg List.length hdata
    simp only [List.length_append, length_leBytes, List.length_take] at hrest
    by_cases hlegacy : data.take 8 = legacyChat2Magic
    · rw [hlegacy] at hdata
      exact .inr ⟨_, rest, cursor, _, _, _, .legacy cursor, by rw [hdata, List.append_assoc]⟩
    · by_cases hplain : data.take 8 = chat2Magic
      · cases rest with
        | nil => exact .inl (readChat2_short hdata (.inl ⟨hplain, by simp⟩))
        | cons flags snapshot =>
          rw [hplain] at hdata
          refine .inr ⟨_, snapshot, cursor, _, _, _, .plain cursor flags, ?_⟩
          rw [hdata]
          simp
      · by_cases houtbox : data.take 8 = chat2OutboxMagic
        · by_cases hshort : rest.length < 5
          · exact .inl (readChat2_short hdata (.inr ⟨houtbox, hshort⟩))
          · obtain ⟨flags, count, body, hc, rfl⟩ := exists_count (Nat.not_lt.mp hshort)
            rw [houtbox] at hdata
            obtain ⟨hcount, hbody, hread⟩ := readChat2_outbox hc hdata
            rw [hread]
            rcases readOutbox_ends hw houtbox hc hcount with he | ⟨outbox, snapshot, hlen, hok, he⟩
            · left
              rw [he]
              rfl
            · refine .inr ⟨_, snapshot, cursor, _, _, outbox,
                .outbox cursor flags outbox (hlen ▸ hc) hok, ?_⟩
              rw [hdata, ← hbody, he, hlen]
              simp
        · left
          rw [readChat2, if_neg hlen, if_pos ⟨hlegacy, hplain, houtbox⟩]

theorem readChat2_wide {data : Bytes} (hw : Wide data) : readChat2 data = .error .trap := by
  obtain ⟨hm, hlen, hcount, hid⟩ := hw
  obtain ⟨cursor, rest, hdata⟩ := @exists_header data (by omega)
  have hrest := congrArg List.length hdata
  simp only [List.length_append, length_leBytes, List.length_take] at hrest
  obtain ⟨flags, count, body, hc, rfl⟩ := exists_count (show 5 ≤ rest.length by omega)
  rw [hm] at hdata
  obtain ⟨hdrop, hbody, hread⟩ := readChat2_outbox hc hdata
  rw [leValue_drop hc hdrop] at hcount
  obtain ⟨m, rfl⟩ := Nat.exists_eq_succ_of_ne_zero hcount.ne'
  obtain ⟨n, left, hn, hfirst⟩ := exists_leBytes (show 4 ≤ (data.drop 21).length by
    rw [List.length_drop]
    omega)
  rw [leValue_drop hn hfirst] at hid
  have htrap : readField data 21 1 = .error .trap := by
    have hleft : bytesLeft data (21 + 4) = .error .trap := if_neg (by omega)
    rw [readField, readUInt32IfPresent_of_drop hfirst hn]
    show (if n < 1 then _ else _) = _
    rw [if_neg (by omega), hleft]
    rfl
  rw [hread, readOutbox, readPush, htrap]
  rfl

/-! ## Whole files -/

/-- The loader on some bytes: it stays inside of them, hands what is behind the last field to the
importer, and returns nothing for a file without a whole front. -/
def Reads (importWith : Bytes → Bool) (data : Bytes) : Prop :=
  (∃ front snapshot cursor verified firstContactQueued outbox,
    Layout front cursor verified firstContactQueued outbox ∧ data = front ++ snapshot ∧
      loadChat2 importWith data =
        ⟨if snapshot = [] then none else some snapshot,
          if snapshot = [] ∨ importWith snapshot = true then
            .ok ⟨cursor, verified, firstContactQueued, outbox, data.length⟩
          else .error .missing⟩) ∨
  (¬ ∃ front cursor verified firstContactQueued outbox,
    Layout front cursor verified firstContactQueued outbox ∧ front <+: data) ∧
    loadChat2 importWith data = ⟨none, .error .missing⟩

theorem loadChat2_layout (importWith : Bytes → Bool) {data front snapshot : Bytes}
    {cursor : UInt64} {verified firstContactQueued : Bool} {outbox : List Push} (hw : ¬ Wide data)
    (hl : Layout front cursor verified firstContactQueued outbox) (h : data = front ++ snapshot) :
    loadChat2 importWith data =
      ⟨if snapshot = [] then none else some snapshot,
        if snapshot = [] ∨ importWith snapshot = true then
          .ok ⟨cursor, verified, firstContactQueued, outbox, data.length⟩
        else .error .missing⟩ := by
  have hlen := congrArg List.length h
  rw [List.length_append] at hlen
  rw [loadChat2, readChat2_complete hw hl h]
  dsimp only
  by_cases hs : snapshot = []
  · subst hs
    rw [if_neg (by simp at hlen; omega)]
    simp
  · have hpos := List.length_pos_iff.mpr hs
    have hsub : subdata data front.length data.length = .ok snapshot := by
      rw [subdata, if_pos ⟨by omega, le_refl _⟩, h, List.drop_left, List.length_append,
        Nat.add_sub_cancel_left, List.take_length]
    rw [if_pos (by omega), hsub]
    simp [hs]

theorem reads_of_not_wide (importWith : Bytes → Bool) {data : Bytes} (hw : ¬ Wide data) :
    Reads importWith data := by
  rcases readChat2_sound hw with he | ⟨front, snapshot, c, v, f, outbox, hl, h⟩
  · right
    constructor
    · rintro ⟨front, c, v, f, outbox, hl, snapshot, hs⟩
      rw [readChat2_complete hw hl hs.symm] at he
      cases he
    · rw [loadChat2, he]
  · exact .inl ⟨front, snapshot, c, v, f, outbox, hl, h, loadChat2_layout importWith hw hl h⟩

theorem loadChat2_wide (importWith : Bytes → Bool) {data : Bytes} (hw : Wide data) :
    loadChat2 importWith data = ⟨none, .error .trap⟩ := by
  rw [loadChat2, readChat2_wide hw]

theorem reads_iff (importWith : Bytes → Bool) (data : Bytes) :
    Reads importWith data ↔ ¬ Wide data := by
  refine ⟨fun h hw => ?_, reads_of_not_wide importWith⟩
  rcases h with ⟨front, snapshot, c, v, f, outbox, -, -, h⟩ | ⟨-, h⟩
  · rw [loadChat2_wide importWith hw] at h
    have hresult := congrArg Load.result h
    dsimp only at hresult
    split_ifs at hresult
    cases hresult
  · rw [loadChat2_wide importWith hw] at h
    cases h

/-! ## Files that were saved -/

theorem appendOutbox_ok {outbox : List Push} {data file : Bytes}
    (h : appendOutbox outbox data = .ok file) :
    file = data ++ fields outbox ∧ ∀ push ∈ outbox,
      (utf8 push.batchId).length < 2 ^ 32 ∧ push.bytes.length < 2 ^ 32 := by
  induction outbox generalizing data with
  | nil =>
    cases h
    simp [fields]
  | cons push outbox ih =>
    rw [appendOutbox] at h
    split_ifs at h with hfit
    obtain ⟨rfl, hall⟩ := ih h
    rw [List.forall_mem_cons]
    exact ⟨by simp [fields], hfit, hall⟩

/-- The bytes in front of the snapshot. -/
def front (cursor : UInt64) (verified firstContactQueued : Bool) (outbox : List Push) : Bytes :=
  chat2OutboxMagic ++ (leBytes 8 cursor.toNat ++ ([flags verified firstContactQueued] ++
    (leBytes 4 outbox.length ++ fields outbox)))

theorem layout_front {cursor : UInt64} (verified firstContactQueued : Bool) {outbox : List Push}
    (hlen : outbox.length < 2 ^ 32) (hok : ∀ push ∈ outbox, push.Ok) :
    Layout (front cursor verified firstContactQueued outbox) cursor verified firstContactQueued
      outbox := by
  have hl := Layout.outbox cursor (flags verified firstContactQueued) outbox hlen hok
  have hv : decide (flags verified firstContactQueued &&& 1 ≠ 0) = verified := by
    cases verified <;> cases firstContactQueued <;> rfl
  have hf : decide (flags verified firstContactQueued &&& 2 ≠ 0) = firstContactQueued := by
    cases verified <;> cases firstContactQueued <;> rfl
  rw [hv, hf] at hl
  exact hl

section Saved

variable {snapshot file : Bytes} {cursor : UInt64} {verified firstContactQueued : Bool}
  {outbox : List Push}

theorem saveChat2_ok (h : saveChat2 snapshot cursor verified firstContactQueued outbox = .ok file) :
    file = front cursor verified firstContactQueued outbox ++ snapshot ∧
      outbox.length < 2 ^ 32 ∧ ∀ push ∈ outbox,
        (utf8 push.batchId).length < 2 ^ 32 ∧ push.bytes.length < 2 ^ 32 := by
  unfold saveChat2 at h
  split_ifs at h with hlen
  cases ha : appendOutbox outbox (chat2OutboxMagic ++ leBytes 8 cursor.toNat ++
      [flags verified firstContactQueued] ++ leBytes 4 outbox.length) with
  | error stop =>
    rw [ha] at h
    cases h
  | ok data =>
    rw [ha] at h
    obtain ⟨rfl, hall⟩ := appendOutbox_ok ha
    cases h
    exact ⟨by simp [front], hlen, hall⟩

theorem front_eq : front cursor verified firstContactQueued outbox ++ snapshot =
    chat2OutboxMagic ++ (leBytes 8 cursor.toNat ++ flags verified firstContactQueued ::
      (leBytes 4 outbox.length ++ (fields outbox ++ snapshot))) := by
  simp [front]

theorem wide_front (hlen : outbox.length < 2 ^ 32) (hok : ∀ push ∈ outbox, push.Ok) :
    Wide (front cursor verified firstContactQueued outbox ++ snapshot) ↔ outbox ≠ [] ∧
      25 + 2 ^ 32 ≤ (front cursor verified firstContactQueued outbox ++ snapshot).length := by
  have hfile := @front_eq snapshot cursor verified firstContactQueued outbox
  obtain ⟨hcount, hbody, -⟩ := readChat2_outbox hlen hfile
  have hm := (header_of_eq rfl hfile).1
  rw [Wide, leValue_drop hlen hcount, hbody]
  cases outbox with
  | nil => simp
  | cons push outbox =>
    obtain ⟨hid, hlt, -⟩ := hok push List.mem_cons_self
    have hpos : 0 < (utf8 push.batchId).length :=
      List.length_pos_iff.mpr fun he => hid (utf8_injective he)
    have hfirst : leValue ((fields (push :: outbox) ++ snapshot).take 4) =
        (utf8 push.batchId).length := by
      have hf : fields (push :: outbox) ++ snapshot = leBytes 4 (utf8 push.batchId).length ++
          (utf8 push.batchId ++ (record push.bytes ++ (fields outbox ++ snapshot))) := by
        simp [fields, Push.field, record]
      rw [hf]
      exact leValue_take (by omega) _
    rw [hfirst]
    simp [hm, hpos]

theorem pendingCount_front (hlen : outbox.length < 2 ^ 32) :
    chat2PendingOutboxCount (front cursor verified firstContactQueued outbox ++ snapshot) =
      .ok outbox.length := by
  have hfile := @front_eq snapshot cursor verified firstContactQueued outbox
  obtain ⟨htake, hlength, -⟩ := header_of_eq rfl hfile
  obtain ⟨hcount, -, -⟩ := readChat2_outbox hlen hfile
  generalize front cursor verified firstContactQueued outbox ++ snapshot = file at *
  rw [List.length_cons, List.length_append, length_leBytes] at hlength
  have hheader : (file.take 21).length = 21 := List.length_take_of_le (by omega)
  have hmagic : (file.take 21).take 8 = chat2OutboxMagic := by
    rw [List.take_take]
    exact htake
  have hdrop : (file.take 21).drop 17 = leBytes 4 outbox.length ++ [] := by
    rw [List.drop_take, hcount, List.take_left' (length_leBytes 4 _), List.append_nil]
  unfold chat2PendingOutboxCount
  dsimp only
  rw [if_neg (by omega), if_neg (not_not.mpr hmagic), if_neg (by omega),
    readUInt32_of_drop hdrop hlen]

end Saved

/-- **The snapshot file.** A saved file is loaded again, unless its first batch lies in front of
2^32 bytes; and such files are the only ones that the loader does not read as it should. -/
theorem snapshot_file (importWith : Bytes → Bool) :
    (∀ snapshot cursor verified firstContactQueued outbox file, importWith snapshot = true →
      (∀ push ∈ outbox, Push.batchId push ≠ []) →
      saveChat2 snapshot cursor verified firstContactQueued outbox = .ok file →
        chat2PendingOutboxCount file = .ok outbox.length ∧
        (loadChat2 importWith file = ⟨if snapshot = [] then none else some snapshot,
            .ok ⟨cursor, verified, firstContactQueued, outbox, file.length⟩⟩ ↔
          outbox = [] ∨ file.length < 25 + 2 ^ 32)) ∧
      ∀ data, Reads importWith data ↔ ¬ Wide data := by
  refine ⟨fun snapshot cursor verified queued outbox file himport hids hsave => ?_,
    reads_iff importWith⟩
  obtain ⟨rfl, hlen, hfit⟩ := saveChat2_ok hsave
  have hok : ∀ push ∈ outbox, push.Ok := fun push hp => ⟨hids push hp, hfit push hp⟩
  refine ⟨pendingCount_front hlen, ?_⟩
  have hwide := @wide_front snapshot cursor verified queued outbox hlen hok
  have hcond : (outbox = [] ∨
      (front cursor verified queued outbox ++ snapshot).length < 25 + 2 ^ 32) ↔
      ¬ Wide (front cursor verified queued outbox ++ snapshot) := by
    rw [hwide, not_and_or, not_not, not_le]
  rw [hcond]
  constructor
  · intro h hw
    rw [loadChat2_wide importWith hw] at h
    have hresult := congrArg Load.result h
    cases hresult
  · intro hw
    rw [loadChat2_layout importWith hw (layout_front verified queued hlen hok) rfl]
    simp [himport]

/-- A file with one batch. -/
theorem snapshot_file_batch :
    chat2PendingOutboxCount (front 5 true false [⟨['b'], [1, 2]⟩] ++ [7]) = .ok 1 ∧
      (loadChat2 (fun _ => true) (front 5 true false [⟨['b'], [1, 2]⟩] ++ [7]) =
        ⟨some [7], .ok ⟨5, true, false, [⟨['b'], [1, 2]⟩], 33⟩⟩ ↔
          [(⟨['b'], [1, 2]⟩ : Push)] = [] ∨ 33 < 25 + 2 ^ 32) :=
  (snapshot_file fun _ => true).1 [7] 5 true false [⟨['b'], [1, 2]⟩] _ rfl (by simp) rfl

/-- A snapshot of 2^32 bytes behind a batch cannot be loaded. -/
theorem huge_snapshot :
    saveChat2 (List.replicate (2 ^ 32) 0) 0 false false [⟨['b'], []⟩] =
        .ok (front 0 false false [⟨['b'], []⟩] ++ List.replicate (2 ^ 32) 0) ∧
      loadChat2 (fun _ => true)
          (front 0 false false [⟨['b'], []⟩] ++ List.replicate (2 ^ 32) 0) =
        ⟨none, .error .trap⟩ := by
  have hok : ∀ push ∈ [(⟨['b'], []⟩ : Push)], push.Ok := by
    simp [Push.Ok, utf8_ascii]
  have hlen : (front 0 false false [⟨['b'], []⟩]).length = 30 := by decide +kernel
  constructor
  · generalize (List.replicate (2 ^ 32) 0 : Bytes) = snapshot
    rfl
  · refine loadChat2_wide _ ((wide_front (by simp) hok).mpr ⟨by simp, ?_⟩)
    rw [List.length_append, List.length_replicate, hlen]
    omega

end Zeron.Phone.DocDisk
