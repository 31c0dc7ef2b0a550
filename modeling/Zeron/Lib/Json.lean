import Mathlib

/-!
# JSON values and the length of their text

Values as both serializers of the program (`serde_json` and `JSON.stringify`) print them: no
blanks, object members in the order given, numbers in decimal. `Json.textLen m` is the length of
that text, where `m` says what a character that is not escaped counts: `utf16` gives the
`.length` of a JavaScript string, `Char.utf8Size` the bytes on the wire.
-/

namespace Zeron

/-- A JSON value. -/
inductive Json where
  | null
  | bool (b : Bool)
  | num (n : ℤ)
  | str (s : String)
  | arr (items : List Json)
  | obj (members : List (String × Json))

namespace Json

mutual

/-- Equality of values is decidable. -/
def decEq : (a b : Json) → Decidable (a = b)
  | .null, .null => isTrue rfl
  | .bool a, .bool b => decidable_of_iff (a = b) (by simp)
  | .num a, .num b => decidable_of_iff (a = b) (by simp)
  | .str a, .str b => decidable_of_iff (a = b) (by simp)
  | .arr a, .arr b => @decidable_of_iff _ (a = b) (by simp) (decEqItems a b)
  | .obj a, .obj b => @decidable_of_iff _ (a = b) (by simp) (decEqMembers a b)
  | .null, .bool _ | .null, .num _ | .null, .str _ | .null, .arr _ | .null, .obj _
  | .bool _, .null | .bool _, .num _ | .bool _, .str _ | .bool _, .arr _ | .bool _, .obj _
  | .num _, .null | .num _, .bool _ | .num _, .str _ | .num _, .arr _ | .num _, .obj _
  | .str _, .null | .str _, .bool _ | .str _, .num _ | .str _, .arr _ | .str _, .obj _
  | .arr _, .null | .arr _, .bool _ | .arr _, .num _ | .arr _, .str _ | .arr _, .obj _
  | .obj _, .null | .obj _, .bool _ | .obj _, .num _ | .obj _, .str _ | .obj _, .arr _ =>
    isFalse (by simp)

def decEqItems : (a b : List Json) → Decidable (a = b)
  | [], [] => isTrue rfl
  | [], _ :: _ | _ :: _, [] => isFalse (by simp)
  | a :: as, b :: bs =>
    @decidable_of_iff _ (a = b ∧ as = bs) (by simp)
      (@instDecidableAnd _ _ (decEq a b) (decEqItems as bs))

def decEqMembers : (a b : List (String × Json)) → Decidable (a = b)
  | [], [] => isTrue rfl
  | [], _ :: _ | _ :: _, [] => isFalse (by simp)
  | (k, a) :: as, (l, b) :: bs =>
    @decidable_of_iff _ (k = l ∧ a = b ∧ as = bs) (by simp [and_assoc])
      (@instDecidableAnd _ _ inferInstance
        (@instDecidableAnd _ _ (decEq a b) (decEqMembers as bs)))

end

instance : DecidableEq Json := decEq

/-- `Value::is_null`, `value === null`. -/
def isNull : Json → Bool
  | .null => true
  | _ => false

/-- A field write's value: `null` clears the field. -/
def nonNull (v : Json) : Option Json := if v.isNull then none else some v

/-! ## Accessors -/

def asStr : Json → Option String
  | .str s => some s
  | _ => none

/-- Document integers are `i64`. -/
def asI64 : Json → Option ℤ
  | .num n => some n
  | _ => none

def asBool : Json → Option Bool
  | .bool b => some b
  | _ => none

/-- `from_value::<Vec<String>>`. -/
def asStrings : Json → Option (List String)
  | .arr items => items.mapM asStr
  | _ => none

theorem asStrings_strings (l : List String) : (Json.arr (l.map .str)).asStrings = some l := by
  induction l with
  | nil => rfl
  | cons s l ih =>
    simp only [asStrings, List.map_cons, List.mapM_cons, asStr] at ih ⊢
    rw [ih]
    rfl

mutual

/-- Every integer of the value is an `i64`; a document keeps any other as a double. -/
def inI64 : Json → Bool
  | .num n => -2 ^ 63 ≤ n && n < 2 ^ 63
  | .arr items => itemsInI64 items
  | .obj members => membersInI64 members
  | .null | .bool _ | .str _ => true

def itemsInI64 : List Json → Bool
  | [] => true
  | v :: vs => inI64 v && itemsInI64 vs

def membersInI64 : List (String × Json) → Bool
  | [] => true
  | (_, v) :: vs => inI64 v && membersInI64 vs

end

/-! ## Text length -/

/-- The UTF-16 code units of a character. -/
def utf16 (c : Char) : ℕ := if c.toNat < 0x10000 then 1 else 2

/-- The length of a character inside a JSON string. -/
def escapeLen (m : Char → ℕ) (c : Char) : ℕ :=
  if c = '"' ∨ c = '\\' then 2
  else if c.toNat = 8 ∨ c.toNat = 9 ∨ c.toNat = 10 ∨ c.toNat = 12 ∨ c.toNat = 13 then 2
  else if c.toNat < 0x20 then 6
  else m c

/-- The length of a JSON string literal, quotes included. -/
def strLen (m : Char → ℕ) (s : String) : ℕ := 2 + (s.toList.map (escapeLen m)).sum

/-- The length of a bracketed, comma-separated sequence whose entries have lengths `l`. -/
def seqLen : List ℕ → ℕ
  | [] => 2
  | l => 1 + (l.map (· + 1)).sum

mutual

/-- The length of the text of a value. -/
def textLen (m : Char → ℕ) : Json → ℕ
  | .null => 4
  | .bool true => 4
  | .bool false => 5
  | .num n => (toString n).length
  | .str s => strLen m s
  | .arr items => seqLen (itemLens m items)
  | .obj members => seqLen (memberLens m members)

def itemLens (m : Char → ℕ) : List Json → List ℕ
  | [] => []
  | v :: vs => textLen m v :: itemLens m vs

def memberLens (m : Char → ℕ) : List (String × Json) → List ℕ
  | [] => []
  | (k, v) :: vs => (strLen m k + 1 + textLen m v) :: memberLens m vs

end

theorem seqLen_eq {l : List ℕ} (h : l ≠ []) : seqLen l = 1 + (l.map (· + 1)).sum := by
  cases l with
  | nil => exact absurd rfl h
  | cons => rfl

@[simp] theorem itemLens_eq (m : Char → ℕ) (vs : List Json) :
    itemLens m vs = vs.map (textLen m) := by
  induction vs with
  | nil => rfl
  | cons v vs ih => rw [itemLens, ih, List.map_cons]

@[simp] theorem memberLens_eq (m : Char → ℕ) (vs : List (String × Json)) :
    memberLens m vs = vs.map fun e => strLen m e.1 + 1 + textLen m e.2 := by
  induction vs with
  | nil => rfl
  | cons v vs ih => rw [memberLens, ih, List.map_cons]

theorem strLen_replicate (m : Char → ℕ) (n : ℕ) (c : Char) :
    strLen m (String.ofList (List.replicate n c)) = 2 + n * escapeLen m c := by
  simp [strLen]

end Json

end Zeron
