import Zeron.Registry.Row

/-!
# What the server accepts on the wire

`validateOp` of `edge/src/registry-core.ts`: the grammars of kinds, ids, fields and clocks, the
size of an op, and the rule for sidebar pins.

* `validateOp`: the checks in source order, with their error texts;
* **`validateOp_eq_none`**: an accepted op passes every check;
* **`hlcRe_encodeHlc`**: which encoded clocks are in the grammar;
* `ascii_of_hlcRe`: a clock in the grammar is ASCII.
-/

namespace Zeron.Registry

open Std (ExtTreeMap)

/-! ## Grammars -/

/-- `p{lo,hi}`, up to the end of the input. -/
def repeated (lo hi : ℕ) (p : Char → Bool) (l : List Char) : Bool :=
  decide (lo ≤ l.length) && decide (l.length ≤ hi) && l.all p

/-- `p{n}`: the rest of the input. -/
def eat : ℕ → (Char → Bool) → List Char → Option (List Char)
  | 0, _, l => some l
  | _ + 1, _, [] => none
  | n + 1, p, c :: l => if p c then eat n p l else none

def idRe (s : String) : Bool :=
  repeated 1 256 (fun c => c.isAlphanum || "_.:@/-".toList.contains c) s.toList

def kindRe (s : String) : Bool :=
  match s.toList with
  | [] => false
  | c :: l => c.isLower && repeated 0 31 Char.isAlphanum l

def fieldRe (s : String) : Bool :=
  match s.toList with
  | [] => false
  | c :: l => c.isAlpha && repeated 0 63 Char.isAlphanum l

/-- A character of a device id. -/
def isDeviceChar (c : Char) : Bool := c.isAlphanum || c == '_' || c == '-'

def hlcRe (s : Hlc) : Bool :=
  ((eat 13 Char.isDigit s.toList).bind fun l => (eat 1 (· == '-') l).bind fun l =>
    (eat 6 Char.isDigit l).bind fun l => eat 1 (· == '-') l).any (repeated 1 128 isDeviceChar)

/-- `/^[0-9a-f]*[1-9a-f]$/`. -/
def orderKeyRe (s : String) : Bool :=
  s.toList.all (fun c => c.isDigit || ('a' ≤ c && c ≤ 'f')) && s.toList.getLast?.any (· != '0')

/-! ## The checks -/

/-- Per-op serialized budget. -/
def maxOpBytes : ℕ := 16 * 1024

def OpKind.text : OpKind → String
  | .upsert => "upsert"
  | .update => "update"
  | .delete => "delete"

/-- An op on the wire, members in the order the client prints them. -/
def RowOp.toJson (op : RowOp) : Json :=
  .obj ([("kind", Json.str op.kind), ("id", .str op.id), ("op", .str op.op.text)] ++
    (op.set.map fun set => ("set", Json.obj set.toList)).toList ++ [("hlc", Json.str op.hlc)] ++
    (op.clocks.map fun clocks =>
      ("clocks", Json.obj (clocks.toList.map fun e => (e.1, .str e.2)))).toList)

def checkSet (op : RowOp) : Option String :=
  if op.op = .delete then if op.set.isSome then some "delete carries set" else none
  else match op.set with
    | none => some "missing set"
    | some set => (set.keys.find? (!fieldRe ·)).map ("bad field: " ++ ·)

def checkClocks (op : RowOp) : Option String :=
  match op.clocks with
  | none => none
  | some clocks => clocks.toList.findSome? fun e =>
    if !fieldRe e.1 then some ("bad clock field: " ++ e.1)
    else if !hlcRe e.2 then some ("bad clock: " ++ e.1)
    else none

/-- A sidebar pin has two fields. -/
def pinField (key : String) (value : Json) : Bool :=
  match value with
  | .bool _ => key = "pinned"
  | .str s => key = "orderKey" && decide ((s.toList.map Json.utf16).sum ≤ 8192) && orderKeyRe s
  | _ => false

def checkPins (op : RowOp) : Option String :=
  if op.kind ≠ "sidebarPins" then none
  else if op.op = .delete then some "pins use explicit membership, not row deletion"
  else if (op.set.getD ∅).toList.all fun e => pinField e.1 e.2 then none
  else some "invalid sidebar pin field"

/-- Structural validation for an op arriving off the wire: an error or `none`. -/
def validateOp (op : RowOp) : Option String :=
  (if !kindRe op.kind then some "bad kind" else none).or <|
  (if !idRe op.id then some "bad id" else none).or <|
  -- "bad op" cannot arise: `op.op` is one of the three kinds
  (if !hlcRe op.hlc then some "bad hlc" else none).or <|
  (checkSet op).or <| (checkClocks op).or <|
  (if op.toJson.textLen Json.utf16 > maxOpBytes then some "op too large" else none).or <|
  checkPins op

/-- What every accepted op satisfies. -/
structure RowOp.Valid (op : RowOp) : Prop where
  kind : kindRe op.kind = true
  id : idRe op.id = true
  hlc : hlcRe op.hlc = true
  set_delete : op.op = .delete → op.set = none
  set_write : op.op ≠ .delete → op.set.isSome = true
  fields : ∀ set, op.set = some set → ∀ k ∈ set, fieldRe k = true
  clocks : ∀ clocks, op.clocks = some clocks → ∀ (k : String) (h : Hlc), clocks[k]? = some h →
    fieldRe k = true ∧ hlcRe h = true
  size : op.toJson.textLen Json.utf16 ≤ maxOpBytes
  pins : op.kind = "sidebarPins" → op.op ≠ .delete ∧
    ∀ set, op.set = some set → ∀ (k : String) (v : Json), set[k]? = some v → pinField k v = true

theorem checkSet_eq_none {op : RowOp} : checkSet op = none ↔
    (op.op = .delete → op.set = none) ∧ (op.op ≠ .delete → op.set.isSome = true) ∧
      (op.op ≠ .delete → ∀ set, op.set = some set → ∀ k ∈ set, fieldRe k = true) := by
  unfold checkSet
  by_cases h : op.op = .delete
  · cases hs : op.set <;> simp [h]
  · cases hs : op.set with
    | none => simp [h]
    | some set => simp [h, ExtTreeMap.mem_keys]

theorem checkClocks_eq_none {op : RowOp} : checkClocks op = none ↔
    ∀ clocks, op.clocks = some clocks → ∀ (k : String) (h : Hlc), clocks[k]? = some h →
      fieldRe k = true ∧ hlcRe h = true := by
  unfold checkClocks
  cases hc : op.clocks with
  | none => simp
  | some clocks =>
    simp only [List.findSome?_eq_none_iff, Prod.forall, ExtTreeMap.mem_toList_iff_getElem?_eq_some,
      Option.some.injEq, forall_eq']
    refine forall₂_congr fun k h => imp_congr_right fun _ => ?_
    cases fieldRe k <;> cases hlcRe h <;> simp

theorem checkPins_eq_none {op : RowOp} : checkPins op = none ↔
    (op.kind = "sidebarPins" → op.op ≠ .delete ∧ ∀ set, op.set = some set →
      ∀ (k : String) (v : Json), set[k]? = some v → pinField k v = true) := by
  unfold checkPins
  by_cases hk : op.kind = "sidebarPins"
  · by_cases h : op.op = .delete
    · simp [hk, h]
    · cases hs : op.set with
      | none => simp [hk, h]
      | some set =>
        simp only [hk, h, if_false, Option.getD_some, List.all_eq_true,
          ExtTreeMap.mem_toList_iff_getElem?_eq_some, Prod.forall]
        split <;> simp_all
  · simp [hk]

/-- **Acceptance, check by check.** -/
theorem validateOp_eq_none {op : RowOp} : validateOp op = none ↔ op.Valid := by
  simp only [validateOp, Option.or_eq_none_iff, checkSet_eq_none, checkClocks_eq_none,
    checkPins_eq_none]
  constructor
  · rintro ⟨hk, hi, hh, ⟨hd, hw, hf⟩, hc, hs, hp⟩
    refine ⟨by simpa using hk, by simpa using hi, by simpa using hh, hd, hw, fun set hset => ?_,
      hc, by simpa using hs, hp⟩
    exact hf (fun h => by simp [hd h] at hset) set hset
  · rintro ⟨hk, hi, hh, hd, hw, hf, hc, hs, hp⟩
    exact ⟨by simp [hk], by simp [hi], by simp [hh], ⟨hd, hw, fun _ => hf⟩, hc, by simpa using hs,
      hp⟩

/-! ## Clocks in the grammar -/

theorem eat_append {p : Char → Bool} {l : List Char} (h : ∀ c ∈ l, p c = true) (r : List Char) :
    eat l.length p (l ++ r) = some r := by
  induction l with
  | nil => cases r <;> rfl
  | cons c l ih =>
    obtain ⟨hc, hl⟩ := List.forall_mem_cons.mp h
    simp only [List.length_cons, List.cons_append, eat, hc, if_true]
    exact ih hl

theorem of_eat : ∀ {n : ℕ} {p : Char → Bool} {l r : List Char}, eat n p l = some r →
    ∃ a, l = a ++ r ∧ a.length = n ∧ ∀ c ∈ a, p c = true
  | 0, _, l, r, h => ⟨[], by cases l <;> simpa [eat] using h, rfl, by simp⟩
  | n + 1, p, [], r, h => by simp [eat] at h
  | n + 1, p, c :: l, r, h => by
    simp only [eat] at h
    split_ifs at h with hc
    obtain ⟨a, rfl, hn, ha⟩ := of_eat h
    exact ⟨c :: a, rfl, by simp [hn], List.forall_mem_cons.mpr ⟨hc, ha⟩⟩

/-- A string is in the clock grammar iff it is 13 digits, 6 digits and a device. -/
theorem hlcRe_iff {s : Hlc} : hlcRe s = true ↔ ∃ ms counter device : List Char,
    s.toList = ms ++ '-' :: (counter ++ '-' :: device) ∧ ms.length = 13 ∧
    (∀ c ∈ ms, c.isDigit = true) ∧ counter.length = 6 ∧ (∀ c ∈ counter, c.isDigit = true) ∧
    1 ≤ device.length ∧ device.length ≤ 128 ∧ ∀ c ∈ device, isDeviceChar c = true := by
  constructor
  · intro h
    obtain ⟨device, h, hd⟩ := (Option.any_eq_true _ _).mp h
    obtain ⟨l₁, h₁, h⟩ := Option.bind_eq_some_iff.mp h
    obtain ⟨l₂, h₂, h⟩ := Option.bind_eq_some_iff.mp h
    obtain ⟨l₃, h₃, h₄⟩ := Option.bind_eq_some_iff.mp h
    obtain ⟨ms, hs, hms, hmsd⟩ := of_eat h₁
    obtain ⟨d₁, rfl, hd₁, hd₁d⟩ := of_eat h₂
    obtain ⟨counter, rfl, hcn, hcd⟩ := of_eat h₃
    obtain ⟨d₂, rfl, hd₂, hd₂d⟩ := of_eat h₄
    obtain ⟨c₁, rfl⟩ := List.length_eq_one_iff.mp hd₁
    obtain ⟨c₂, rfl⟩ := List.length_eq_one_iff.mp hd₂
    simp only [List.mem_singleton, forall_eq, beq_iff_eq] at hd₁d hd₂d
    subst hd₁d hd₂d
    simp only [repeated, Bool.and_eq_true, decide_eq_true_eq, List.all_eq_true] at hd
    exact ⟨ms, counter, device, by simpa using hs, hms, hmsd, hcn, hcd, hd.1.1, hd.1.2, hd.2⟩
  · rintro ⟨ms, counter, device, hs, hms, hmsd, hcn, hcd, hlo, hhi, hdev⟩
    have hdash : ∀ l, eat 1 (· == '-') ('-' :: l) = some l := fun l => by cases l <;> rfl
    rw [hlcRe, hs, ← hms, eat_append hmsd, Option.bind_some, hdash, Option.bind_some, ← hcn,
      eat_append hcd, Option.bind_some, hdash]
    simpa [repeated, hlo, hhi] using hdev

theorem ascii_of_isAlphanum {c : Char} (h : c.isAlphanum = true) : c.toNat < 128 := by
  simp only [Char.isAlphanum, Char.isAlpha, Char.isUpper, Char.isLower, Char.isDigit,
    Bool.or_eq_true, Bool.and_eq_true, decide_eq_true_eq, ge_iff_le, UInt32.le_iff_toNat_le] at h
  rw [Char.toNat]
  have : 'Z'.val.toNat = 90 := rfl
  have : 'z'.val.toNat = 122 := rfl
  have : '9'.val.toNat = 57 := rfl
  omega

theorem ascii_of_isDigit {c : Char} (h : c.isDigit = true) : c.toNat < 128 :=
  ascii_of_isAlphanum (by simp [Char.isAlphanum, h])

theorem ascii_of_isDeviceChar {c : Char} (h : isDeviceChar c = true) : c.toNat < 128 := by
  simp only [isDeviceChar, Bool.or_eq_true, beq_iff_eq] at h
  rcases h with (h | rfl) | rfl
  · exact ascii_of_isAlphanum h
  · decide
  · decide

theorem ascii_of_hlcRe {s : Hlc} (h : hlcRe s = true) : ∀ c ∈ s.toList, c.toNat < 128 := by
  obtain ⟨ms, counter, device, hs, -, hms, -, hcounter, -, -, hdev⟩ := hlcRe_iff.mp h
  intro c hc
  rw [hs] at hc
  simp only [List.mem_append, List.mem_cons] at hc
  rcases hc with hc | rfl | hc | rfl | hc
  · exact ascii_of_isDigit (hms c hc)
  · decide
  · exact ascii_of_isDigit (hcounter c hc)
  · decide
  · exact ascii_of_isDeviceChar (hdev c hc)

/-- **An encoded clock is in the grammar** while its parts fit their widths. -/
theorem hlcRe_encodeHlc {ms counter : ℕ} {device : String} (hms : ms < 10 ^ 13)
    (hc : counter < 10 ^ 6) (hdev : repeated 1 128 isDeviceChar device.toList = true) :
    hlcRe (encodeHlc ms counter device) = true := by
  simp only [repeated, Bool.and_eq_true, decide_eq_true_eq, List.all_eq_true] at hdev
  exact hlcRe_iff.mpr ⟨_, _, _, encodeHlc_toList ms counter device, length_zeroPad (by omega) hms,
    fun _ => isDigit_of_mem_zeroPad, length_zeroPad (by omega) hc, fun _ => isDigit_of_mem_zeroPad,
    hdev.1.1, hdev.1.2, hdev.2⟩

end Zeron.Registry
