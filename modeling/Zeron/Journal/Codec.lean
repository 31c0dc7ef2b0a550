import Zeron.Journal.Line

/-!
# The bytes of a run journal

* `validUtf8`, `lines`: what `BufRead::lines` makes of the bytes of a file;
* `Codec`: how lines are printed and parsed, and what the journal relies on;
* `readLines`; **`readLines_append`**, `readLines_line`, `readLines_torn`;
* `deltas`: the codec of an event that is a letter of text.
-/

namespace Zeron.Journal

abbrev Bytes := List UInt8

/-- A continuation byte. -/
def isCont (b : UInt8) : Bool := 0x80 ≤ b && b ≤ 0xBF

/-- Well-formed UTF-8. -/
def validUtf8 : Bytes → Bool
  | [] => true
  | a :: rest =>
    if a < 0x80 then validUtf8 rest
    else
      match rest with
      | [] => false
      | b :: rest =>
        if 0xC2 ≤ a && a ≤ 0xDF && isCont b then validUtf8 rest
        else
          match rest with
          | [] => false
          | c :: rest =>
            if (a = 0xE0 && 0xA0 ≤ b && b ≤ 0xBF || 0xE1 ≤ a && a ≤ 0xEC && isCont b ||
                a = 0xED && 0x80 ≤ b && b ≤ 0x9F || 0xEE ≤ a && a ≤ 0xEF && isCont b) &&
                isCont c then validUtf8 rest
            else
              match rest with
              | [] => false
              | d :: rest =>
                if (a = 0xF0 && 0x90 ≤ b && b ≤ 0xBF || 0xF1 ≤ a && a ≤ 0xF3 && isCont b ||
                    a = 0xF4 && 0x80 ≤ b && b ≤ 0x8F) && isCont c && isCont d then validUtf8 rest
                else false

theorem validUtf8_ascii {l : Bytes} (h : ∀ b ∈ l, b < 0x80) : validUtf8 l = true := by
  induction l with
  | nil => rfl
  | cons b l ih =>
    rw [List.forall_mem_cons] at h
    unfold validUtf8
    rw [if_pos h.1]
    exact ih h.2

/-! ## Lines -/

/-- `b'\n'`. -/
def newline : UInt8 := 10

/-- `b'\r'`. -/
def carriageReturn : UInt8 := 13

/-- A line without the carriage return before its newline. -/
def chomp (line : Bytes) : Bytes :=
  if line.getLast? = some carriageReturn then line.dropLast else line

/-- The lines of the bytes, of which the first one has begun with `cur`. -/
def linesFrom (cur : Bytes) : Bytes → List Bytes
  | [] => if cur = [] then [] else [cur]
  | b :: bytes =>
    if b = newline then chomp cur :: linesFrom [] bytes else linesFrom (cur ++ [b]) bytes

/-- `BufRead::lines`, without the errors. -/
def lines (bytes : Bytes) : List Bytes := linesFrom [] bytes

/-- The bytes are empty or end with a newline. -/
def Terminated (bytes : Bytes) : Prop := bytes = [] ∨ bytes.getLast? = some newline

instance (bytes : Bytes) : Decidable (Terminated bytes) := inferInstanceAs (Decidable (_ ∨ _))

section Lines

variable {cur a bytes : Bytes}

theorem linesFrom_nil (cur : Bytes) : linesFrom cur [] = if cur = [] then [] else [cur] := rfl

theorem linesFrom_cons (cur : Bytes) (b : UInt8) (bytes : Bytes) : linesFrom cur (b :: bytes) =
    if b = newline then chomp cur :: linesFrom [] bytes else linesFrom (cur ++ [b]) bytes := rfl

theorem linesFrom_of_notMem (h : newline ∉ a) (cur bytes : Bytes) :
    linesFrom cur (a ++ bytes) = linesFrom (cur ++ a) bytes := by
  induction a generalizing cur with
  | nil => simp
  | cons b a ih =>
    rw [List.mem_cons, not_or] at h
    rw [List.cons_append, linesFrom_cons, if_neg (Ne.symm h.1), ih h.2]
    simp

theorem lines_torn (h : newline ∉ a) (ha : a ≠ []) : lines a = [a] := by
  have hrest := linesFrom_of_notMem h [] []
  rw [List.append_nil, List.nil_append] at hrest
  unfold lines
  rw [hrest, linesFrom_nil, if_neg ha]

theorem lines_line (h : newline ∉ a) : lines (a ++ newline :: bytes) = chomp a :: lines bytes := by
  unfold lines
  rw [linesFrom_of_notMem h, List.nil_append, linesFrom_cons, if_pos rfl]

theorem linesFrom_concat (cur a bytes : Bytes) :
    linesFrom cur ((a ++ [newline]) ++ bytes) = linesFrom cur (a ++ [newline]) ++ lines bytes := by
  induction a generalizing cur with
  | nil => rfl
  | cons b a ih =>
    rw [List.cons_append, List.cons_append, linesFrom_cons, linesFrom_cons]
    split_ifs
    · rw [ih, List.cons_append]
    · exact ih _

theorem terminated_concat (a : Bytes) : Terminated (a ++ [newline]) := .inr (by simp)

theorem Terminated.cases (h : Terminated a) : a = [] ∨ ∃ b, a = b ++ [newline] :=
  h.imp_right fun h => ⟨a.dropLast, (List.dropLast_append_getLast? _ h).symm⟩

theorem lines_append (h : Terminated a) (bytes : Bytes) :
    lines (a ++ bytes) = lines a ++ lines bytes := by
  rcases h.cases with rfl | ⟨b, rfl⟩
  · rfl
  · exact linesFrom_concat [] b bytes

theorem chomp_of_notMem (h : carriageReturn ∉ a) : chomp a = a :=
  if_neg fun hlast => h (List.mem_of_getLast? hlast)

end Lines

/-! ## Printing and parsing -/

/-- `serde_json` on the lines of a journal: `decode` is none for a line that is blank or malformed.
A line is printed without line breaks, and no proper prefix of it parses. -/
structure Codec (ε : Type*) where
  encode : JournaledEvent ε → Bytes
  decode : Bytes → Option (JournaledEvent ε)
  decode_encode : ∀ x, decode (encode x) = some x
  decode_nil : decode [] = none
  decode_prefix : ∀ x n, n < (encode x).length → decode ((encode x).take n) = none
  newline_notMem : ∀ x, newline ∉ encode x
  carriageReturn_notMem : ∀ x, carriageReturn ∉ encode x
  validUtf8_encode : ∀ x, validUtf8 (encode x) = true

variable {ε : Type*} (c : Codec ε)

/-- `read_lines`; `none` is the error of a line that is not UTF-8. -/
def readLines (bytes : Bytes) : Option (List (JournaledEvent ε)) :=
  if (lines bytes).all validUtf8 then some ((lines bytes).filterMap c.decode) else none

section ReadLines

variable {c} {a bytes : Bytes} {log : List (JournaledEvent ε)}

theorem readLines_eq_some : readLines c a = some log ↔
    (∀ l ∈ lines a, validUtf8 l) ∧ (lines a).filterMap c.decode = log := by
  unfold readLines
  split_ifs with h
  · simpa using fun _ => by simpa using h
  · simpa using fun hall => absurd (List.all_eq_true.mpr hall) h

theorem readLines_nil : readLines c [] = some [] := rfl

/-- **Bytes after a newline are read on their own.** -/
theorem readLines_append (ha : Terminated a) (h : readLines c a = some log)
    {log' : List (JournaledEvent ε)} (h' : readLines c bytes = some log') :
    readLines c (a ++ bytes) = some (log ++ log') := by
  rw [readLines_eq_some] at h h' ⊢
  rw [lines_append ha, List.filterMap_append, h.2, h'.2]
  refine ⟨fun l hl => ?_, rfl⟩
  rcases List.mem_append.mp hl with hl | hl
  · exact h.1 l hl
  · exact h'.1 l hl

theorem readLines_line (hn : newline ∉ a) (hr : carriageReturn ∉ a) (hu : validUtf8 a = true) :
    readLines c (a ++ [newline]) = some (c.decode a).toList := by
  rw [readLines_eq_some, lines_line hn, chomp_of_notMem hr]
  have hnil : lines [] = [] := rfl
  rw [hnil]
  refine ⟨by simpa using hu, ?_⟩
  cases hd : c.decode a <;> simp [hd]

theorem readLines_torn (hn : newline ∉ a) (hu : validUtf8 a = true) (hd : c.decode a = none) :
    readLines c a = some [] := by
  by_cases ha : a = []
  · subst ha; rfl
  · rw [readLines_eq_some, lines_torn hn ha]
    exact ⟨by simpa using hu, by simp [hd]⟩

end ReadLines

/-! ## Text deltas of one letter -/

/-- A text delta of one letter. -/
inductive Delta where
  | a
  | b
  deriving DecidableEq, Repr

def ascii (s : String) : Bytes := s.toList.map fun ch => UInt8.ofNat ch.toNat

def opening : Bytes := ascii "\x7b\"seq\":"

/-- The rest of a line, after its number. -/
def Delta.rest : Delta → Bytes
  | .a => ascii ",\"event\":\x7b\"type\":\"textDelta\",\"text\":\"a\"\x7d\x7d"
  | .b => ascii ",\"event\":\x7b\"type\":\"textDelta\",\"text\":\"b\"\x7d\x7d"

/-- The decimal digits of a number. -/
def decimal (n : ℕ) : Bytes := (Nat.digits 10 n).reverse.map fun d => UInt8.ofNat (d + 48)

def isDigit (b : UInt8) : Bool := 48 ≤ b && b ≤ 57

def ofDecimal (l : Bytes) : ℕ := Nat.ofDigits 10 (l.reverse.map fun b => b.toNat - 48)

/-- The line of a delta. -/
def printDelta (x : JournaledEvent Delta) : Bytes := opening ++ (decimal x.seq ++ x.event.rest)

/-- The delta of a line. -/
def parseDelta (line : Bytes) : Option (JournaledEvent Delta) :=
  if opening <+: line then
    let l := line.drop opening.length
    let seq := ofDecimal (l.takeWhile isDigit)
    if l.dropWhile isDigit = Delta.a.rest then some { seq, event := .a }
    else if l.dropWhile isDigit = Delta.b.rest then some { seq, event := .b }
    else none
  else none

theorem decimal_digit {n : ℕ} {b : UInt8} (h : b ∈ decimal n) : isDigit b = true := by
  obtain ⟨d, hd, rfl⟩ := List.mem_map.mp h
  have hlt : d < 10 := Nat.digits_lt_base (by decide) (List.mem_reverse.mp hd)
  interval_cases d <;> rfl

theorem ofDecimal_decimal (n : ℕ) : ofDecimal (decimal n) = n := by
  unfold ofDecimal decimal
  simp only [List.map_reverse, List.reverse_reverse, List.map_map]
  have hid : ∀ d ∈ Nat.digits 10 n,
      ((fun b : UInt8 => b.toNat - 48) ∘ fun d => UInt8.ofNat (d + 48)) d = d := by
    intro d hd
    have hlt : d < 10 := Nat.digits_lt_base (by decide) hd
    interval_cases d <;> rfl
  rw [List.map_congr_left hid, List.map_id', Nat.ofDigits_digits]

/-- `}`. -/
def brace : UInt8 := 125

theorem opening_eq : opening =
    [123, 34, 115, 101, 113, 34, 58] := rfl

theorem rest_a : Delta.a.rest =
    [44, 34, 101, 118, 101, 110, 116, 34, 58, 123, 34, 116, 121, 112, 101, 34, 58, 34, 116,
     101, 120, 116, 68, 101, 108, 116, 97, 34, 44, 34, 116, 101, 120, 116, 34, 58, 34, 97, 34,
     125, 125] := rfl

theorem rest_b : Delta.b.rest =
    [44, 34, 101, 118, 101, 110, 116, 34, 58, 123, 34, 116, 121, 112, 101, 34, 58, 34, 116,
     101, 120, 116, 68, 101, 108, 116, 97, 34, 44, 34, 116, 101, 120, 116, 34, 58, 34, 98, 34,
     125, 125] := rfl

theorem rest_b_ne : Delta.b.rest ≠ Delta.a.rest := by
  rw [rest_a, rest_b]
  decide

theorem count_rest (e : Delta) : e.rest.count brace = 2 := by
  cases e with
  | a => rw [rest_a]; rfl
  | b => rw [rest_b]; rfl

theorem rest_ne (e : Delta) : ∃ l, e.rest = 44 :: l := by
  cases e with
  | a => exact ⟨_, rest_a⟩
  | b => exact ⟨_, rest_b⟩

theorem decimal_spans (n : ℕ) (e : Delta) :
    (decimal n ++ e.rest).takeWhile isDigit = decimal n ∧
      (decimal n ++ e.rest).dropWhile isDigit = e.rest := by
  obtain ⟨l, hl⟩ := rest_ne e
  have hall : ∀ b ∈ decimal n, isDigit b = true := fun b => decimal_digit
  rw [hl, List.takeWhile_append_of_pos hall, List.dropWhile_append_of_pos hall,
    List.takeWhile_cons_of_neg (by decide), List.dropWhile_cons_of_neg (by decide), List.append_nil]
  exact ⟨rfl, rfl⟩

theorem parse_print (x : JournaledEvent Delta) : parseDelta (printDelta x) = some x := by
  unfold parseDelta printDelta
  obtain ⟨htake, hdrop⟩ := decimal_spans x.seq x.event
  rw [if_pos (List.prefix_append _ _), List.drop_left]
  simp only [htake, hdrop, ofDecimal_decimal]
  obtain ⟨seq, e⟩ := x
  cases e with
  | a => exact if_pos rfl
  | b => exact (if_neg rest_b_ne).trans (if_pos rfl)

theorem count_print (x : JournaledEvent Delta) : (printDelta x).count brace = 2 := by
  have hdecimal : (decimal x.seq).count brace = 0 :=
    List.count_eq_zero.mpr fun h => absurd (decimal_digit h) (by decide)
  have hopening : opening.count brace = 0 := by rw [opening_eq]; rfl
  unfold printDelta
  rw [List.count_append, List.count_append, hopening, hdecimal, count_rest]

theorem count_parse {line : Bytes} {x : JournaledEvent Delta} (h : parseDelta line = some x) :
    2 ≤ line.count brace := by
  have hsub : ∀ e : Delta, (line.drop opening.length).dropWhile isDigit = e.rest →
      2 ≤ line.count brace := by
    intro e he
    have hle : e.rest.count brace ≤ line.count brace := by
      rw [← he]
      exact ((List.dropWhile_sublist _).trans (List.drop_sublist _ _)).count_le _
    rwa [count_rest] at hle
  unfold parseDelta at h
  by_cases ha : (line.drop opening.length).dropWhile isDigit = Delta.a.rest
  · exact hsub .a ha
  · by_cases hb : (line.drop opening.length).dropWhile isDigit = Delta.b.rest
    · exact hsub .b hb
    · simp [ha, hb] at h

theorem plain_opening : ∀ b ∈ opening, b ≠ newline ∧ b ≠ carriageReturn ∧ b < 0x80 := by
  rw [opening_eq]
  decide +kernel

theorem plain_rest (e : Delta) : ∀ b ∈ e.rest, b ≠ newline ∧ b ≠ carriageReturn ∧ b < 0x80 := by
  cases e with
  | a => rw [rest_a]; decide +kernel
  | b => rw [rest_b]; decide +kernel

theorem plain (x : JournaledEvent Delta) :
    ∀ b ∈ printDelta x, b ≠ newline ∧ b ≠ carriageReturn ∧ b < 0x80 := by
  intro b hb
  rcases List.mem_append.mp hb with hb | hb
  · exact plain_opening b hb
  · rcases List.mem_append.mp hb with hb | hb
    · have hdigit := decimal_digit hb
      unfold isDigit at hdigit
      simp only [Bool.and_eq_true, decide_eq_true_eq, UInt8.le_iff_toNat_le] at hdigit
      have hlt : b.toNat ≤ 57 := hdigit.2
      have hge : 48 ≤ b.toNat := hdigit.1
      refine ⟨?_, ?_, ?_⟩
      · rintro rfl; exact absurd hge (by decide)
      · rintro rfl; exact absurd hge (by decide)
      · exact UInt8.lt_iff_toNat_lt.mpr (Nat.lt_of_le_of_lt hlt (by decide))
    · exact plain_rest x.event b hb

/-- The codec of deltas of one letter. -/
def deltas : Codec Delta where
  encode := printDelta
  decode := parseDelta
  decode_encode := parse_print
  decode_nil := by decide
  decode_prefix := by
    intro x n hn
    by_contra hd
    obtain ⟨y, hy⟩ := Option.ne_none_iff_exists'.mp hd
    have htwo := count_parse hy
    -- the last brace of the line is beyond the prefix
    have hsplit :
        ((printDelta x).take n).count brace + ((printDelta x).drop n).count brace = 2 := by
      rw [← List.count_append, List.take_append_drop, count_print]
    have hlast : brace ∈ (printDelta x).drop n := by
      have hbrace : (printDelta x).getLast? = some brace := by
        have hrest : x.event.rest.getLast? = some brace := by cases x.event <;> decide
        unfold printDelta
        rw [List.getLast?_append, List.getLast?_append, hrest]
        rfl
      refine List.mem_of_getLast? ?_
      rw [List.getLast?_drop, if_neg (by omega), hbrace]
    have := List.count_pos_iff.mpr hlast
    omega
  newline_notMem := fun x h => (plain x newline h).1 rfl
  carriageReturn_notMem := fun x h => (plain x carriageReturn h).2.1 rfl
  validUtf8_encode := fun x => validUtf8_ascii fun b h => (plain x b h).2.2

end Zeron.Journal
