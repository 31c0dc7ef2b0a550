import Zeron.Lib.Json

/-!
# Reading JSON as `serde` does

The decoders that `#[derive(Deserialize)]` generates, over values that are already parsed: a struct
is read from an object by name or from an array by position, an option from `null`, an internally
tagged enum from its tag and the rest.

* `record`, `Record.req`, `Record.opt`, `Record.bare`, `Record.defaulted`: structs and their fields;
* `list`, `nullable`, `i64`, `u64`, `unitVariant`, `tagged`: the other shapes;
* **`list_map`**: a list that was written is read back.
-/

namespace Zeron.Serde

open Json

variable {α : Type*}

/-! ## Values -/

/-- Numbers beyond 64 bits stand for doubles, which no integer reads. -/
def i64 : Json → Option ℤ
  | .num n => if -2 ^ 63 ≤ n ∧ n < 2 ^ 63 then some n else none
  | _ => none

def u64 : Json → Option ℕ
  | .num n => if 0 ≤ n ∧ n.toNat < 2 ^ 64 then some n.toNat else none
  | _ => none

def asArray : Json → Option (List Json)
  | .arr items => some items
  | _ => none

/-- `Vec<T>`. -/
def list (decode : Json → Option α) : Json → Option (List α)
  | .arr items => items.mapM decode
  | _ => none

/-- `Option<T>`. -/
def nullable (decode : Json → Option α) (v : Json) : Option (Option α) :=
  if v.isNull then some none else (decode v).map some

/-- A variant without fields, by `ofName`. -/
def unitVariant (ofName : String → Option α) : Json → Option α
  | .str name => ofName name
  | .obj [(name, .null)] => ofName name
  | _ => none

/-! ## Structs -/

/-- The fields of a struct, and whether they were given by position. -/
structure Record where
  members : List (String × Json)
  positional : Bool := false

/-- A struct with the given fields, in the order of their declaration. -/
def record (fields : List String) : Json → Option Record
  | .obj members => some { members }
  | .arr items =>
    if items.length ≤ fields.length then
      some { members := fields.zip items, positional := true }
    else none
  | _ => none

namespace Record

variable (r : Record) (key : String) (decode : Json → Option α)

def req : Option α := (r.members.lookup key).bind decode

/-- `#[serde(default)]`. -/
def defaulted (default : α) : Option α := (r.members.lookup key).elim (some default) decode

/-- `#[serde(default)]` on an option. -/
def opt : Option (Option α) := r.defaulted key (nullable decode) none

/-- An option without a default: it may be missing by name, not by position. -/
def bare : Option (Option α) :=
  if r.positional then r.req key (nullable decode) else r.opt key decode

end Record

/-- An internally tagged enum: its tag and the content of the variant. -/
def tagged (tag : String) : Json → Option (String × Json)
  | .obj members =>
    ((members.lookup tag).bind asStr).map fun kind => (kind, .obj (members.filter (·.1 != tag)))
  | .arr (kind :: rest) => kind.asStr.map fun kind => (kind, .arr rest)
  | _ => none

/-! ## What was written is read back -/

theorem i64_num {n : ℤ} (hmin : -2 ^ 63 ≤ n) (hmax : n < 2 ^ 63) : i64 (.num n) = some n :=
  if_pos ⟨hmin, hmax⟩

theorem u64_num (n : ℕ) : u64 (.num n) = some n ↔ n < 2 ^ 64 := by
  have hn : (0 : ℤ) ≤ n := Int.natCast_nonneg n
  rw [u64, Int.toNat_natCast]
  simp only [hn, true_and]
  split_ifs with h
  · exact iff_of_true rfl h
  · exact iff_of_false (by simp) h

theorem list_eq_some {decode : Json → Option α} {items : List Json} {l : List α} :
    list decode (.arr items) = some l ↔
      List.Forall₂ (fun item a => decode item = some a) items l := by
  rw [list]
  induction items generalizing l with
  | nil => simp [eq_comm]
  | cons item items ih =>
    rw [List.mapM_cons]
    cases hitem : decode item with
    | none => simp [List.forall₂_cons_left_iff, hitem]
    | some a =>
      simp [List.forall₂_cons_left_iff, hitem, Option.bind_eq_some_iff, ih, @eq_comm _ l]

/-- **A list is read back exactly if its values are.** -/
theorem list_map {encode : α → Json} {decode : Json → Option α} {l : List α} :
    list decode (.arr (l.map encode)) = some l ↔ ∀ a ∈ l, decode (encode a) = some a := by
  rw [list_eq_some, List.forall₂_map_left_iff, List.forall₂_same]

theorem defaulted_list {r : Record} {key : String} {decode : Json → Option α} {l : List α}
    (h : r.defaulted key (list decode) [] = some l) :
    (r.members.lookup key = none ∧ l = []) ∨
      ∃ items, r.members.lookup key = some (.arr items) ∧ list decode (.arr items) = some l := by
  rw [Record.defaulted] at h
  cases hv : r.members.lookup key with
  | none =>
    rw [hv] at h
    exact Or.inl ⟨rfl, (Option.some.inj h).symm⟩
  | some v =>
    rw [hv] at h
    cases v with
    | arr items => exact Or.inr ⟨items, rfl, h⟩
    | _ => cases h

theorem Record.bind_of_opt {r : Record} {key : String} {decode : Json → Option α} {o : Option α}
    (h : r.opt key decode = some o) (hnull : decode .null = none) :
    (r.members.lookup key).bind decode = o := by
  rw [Record.opt, Record.defaulted] at h
  cases hv : r.members.lookup key with
  | none =>
    rw [hv] at h
    exact Option.some.inj h
  | some v =>
    rw [hv] at h
    cases v with
    | null =>
      rw [← Option.some.inj h]
      exact hnull
    | _ =>
      obtain ⟨a, ha, rfl⟩ := Option.map_eq_some_iff.mp h
      exact ha

theorem tagged_cons {tag kind : String} {rest : List (String × Json)}
    (h : ∀ member ∈ rest, member.1 ≠ tag) :
    tagged tag (.obj ((tag, .str kind) :: rest)) = some (kind, .obj rest) := by
  have hrest : rest.filter (·.1 != tag) = rest :=
    List.filter_eq_self.mpr fun member hm => bne_iff_ne.mpr (h member hm)
  simp [tagged, asStr, hrest]

end Zeron.Serde
