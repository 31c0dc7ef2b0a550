import Zeron.Session.Split

/-!
# Delta frames of a transcript

`crates/doc/src/transcript_delta.rs`: the frame from one transcript to the next, and its use.

* `SessionMessageEntry`, `TranscriptFrame`; `diffTranscript`, `applyTranscriptFrame`: the source;
* `change`: what a frame does about one entry of the next transcript;
* **`sliceFrom_append`**: a text is cut behind its prefix at a character boundary.
-/

namespace Zeron.Session

inductive MessageRole where
  | user
  | assistant
  | system
  deriving DecidableEq

inductive MessageStatus where
  | streaming
  | complete
  | aborted
  deriving DecidableEq

/-- One entry of a document's message list. -/
structure SessionMessageEntry where
  id : String
  role : MessageRole
  parts : List MessagePart
  /-- Epoch milliseconds. -/
  createdAt : ℤ
  deviceId : String
  status : Option MessageStatus := none
  continuationOf : Option String := none
  /-- Wall-clock length of an assistant turn. -/
  durationMs : Option ℤ := none
  deriving DecidableEq

/-! ## Frames -/

/-- An inserted or replaced entry, positioned after `after` (`none`: at the head). -/
structure TranscriptUpsert where
  after : Option String
  entry : SessionMessageEntry
  deriving DecidableEq

/-- A text-tail append to one part. -/
structure TextAppend where
  entry : String
  part : String
  text : String
  /-- Total text length of the part after the append. -/
  len : ℕ
  deriving DecidableEq

inductive TranscriptFrame where
  | reset (reset : List SessionMessageEntry)
  | delta (upsert : List TranscriptUpsert) (append : List TextAppend) (remove : List String)
      (count : ℕ)
  deriving DecidableEq

/-- `s[start..]`; off a character boundary it panics, which `sliceFrom_append` excludes. -/
def sliceFrom (s : String) (start : ℕ) : String :=
  match Cut.splitAtByte s.toList start with
  | some p => .ofList p.2
  | none => ""

/-- Two parts of one text-bodied kind: their ids and bodies. -/
def bodies : MessagePart → MessagePart → Option ((String × String) × (String × String))
  | .text pid pt, .text nid nt => some ((pid, pt), (nid, nt))
  | .reasoning pid pt, .reasoning nid nt => some ((pid, pt), (nid, nt))
  | _, _ => none

/-- The loop of `try_text_append`. -/
def tryParts (entry : String) : List (MessagePart × MessagePart) → Option TextAppend →
    Option TextAppend
  | [], append => append
  | (p, n) :: rest, append =>
    if p = n then tryParts entry rest append
    else match bodies p n with
      | none => none
      | some ((pid, pt), (nid, nt)) =>
        if pid ≠ nid ∨ ¬ pt.toList.isPrefixOf nt.toList ∨ append.isSome then none
        else tryParts entry rest
          (some { entry, part := nid, text := sliceFrom nt (len pt), len := len nt })

def tryTextAppend (prev next : SessionMessageEntry) : Option TextAppend :=
  if prev.id ≠ next.id ∨ prev.role ≠ next.role ∨ prev.createdAt ≠ next.createdAt ∨
      prev.deviceId ≠ next.deviceId ∨ prev.status ≠ next.status ∨
      prev.continuationOf ≠ next.continuationOf ∨ prev.parts.length ≠ next.parts.length then none
  else tryParts next.id (prev.parts.zip next.parts) none

/-- The map from ids to entries; a later entry takes the place of an earlier one. -/
def byId (l : List SessionMessageEntry) (id : String) : Option (SessionMessageEntry × ℕ) :=
  l.zipIdx.reverse.find? (·.1.id = id)

/-- The id of the entry before place `i`. -/
def before (l : List SessionMessageEntry) (i : ℕ) : Option String :=
  if i = 0 then none else l[i - 1]?.map (·.id)

/-- What the loop of `diff_transcript` does about an entry. -/
inductive Change where
  | skip
  | append (append : TextAppend)
  | upsert (upsert : TranscriptUpsert)
  deriving DecidableEq

def change (prev next : List SessionMessageEntry) (entry : SessionMessageEntry) (i : ℕ) : Change :=
  let after := before next i
  match byId prev entry.id with
  | some (prevEntry, prevIx) =>
    let prevAfter := before prev prevIx
    if prevEntry = entry ∧ prevAfter = after then .skip
    else if prevAfter = after then
      match tryTextAppend prevEntry entry with
      | some textAppend => .append textAppend
      | none => .upsert { after, entry }
    else .upsert { after, entry }
  | none => .upsert { after, entry }

def Change.upsert? : Change → Option TranscriptUpsert
  | .upsert u => some u
  | _ => none

def Change.append? : Change → Option TextAppend
  | .append a => some a
  | _ => none

/-- The loop of `diff_transcript`. -/
def changes (prev next : List SessionMessageEntry) : List Change :=
  next.zipIdx.map fun e => change prev next e.1 e.2

/-- The entries of `prev` that are not in `next`. -/
def removed (prev next : List SessionMessageEntry) : List String :=
  (prev.filter fun e => decide (e.id ∉ next.map (·.id))).map (·.id)

def diffTranscript (prev next : List SessionMessageEntry) : TranscriptFrame :=
  let upsert := (changes prev next).filterMap Change.upsert?
  let append := (changes prev next).filterMap Change.append?
  -- a delta touching most rows serializes like a reset but applies slower
  if max next.length 1 ≤ upsert.length * 2 ∧ 4 < next.length then .reset next
  else .delta upsert append (removed prev next) next.length

/-! ## Using a frame -/

/-- The first entry of that id is taken out. -/
def takeOut (current : List SessionMessageEntry) (id : String) : List SessionMessageEntry :=
  match current.findIdx? (·.id = id) with
  | some existing => current.eraseIdx existing
  | none => current

/-- An upsert: the entry is taken out and put behind its anchor. -/
def applyUpsert (current : List SessionMessageEntry) (u : TranscriptUpsert) :
    Except String (List SessionMessageEntry) :=
  let current := takeOut current u.entry.id
  match u.after with
  | none => .ok (current.insertIdx 0 u.entry)
  | some anchor =>
    match current.findIdx? (·.id = anchor) with
    | some ix => .ok (current.insertIdx (ix + 1) u.entry)
    | none => .error ("missing anchor " ++ anchor)

/-- The first text-bodied part of that id takes the text; its length then. -/
def pushText (part text : String) : List MessagePart → Option (List MessagePart × ℕ)
  | [] => none
  | .text id body :: parts =>
    if id = part then some (.text id (body ++ text) :: parts, len (body ++ text))
    else (pushText part text parts).map fun r => (.text id body :: r.1, r.2)
  | .reasoning id body :: parts =>
    if id = part then some (.reasoning id (body ++ text) :: parts, len (body ++ text))
    else (pushText part text parts).map fun r => (.reasoning id body :: r.1, r.2)
  | p :: parts => (pushText part text parts).map fun r => (p :: r.1, r.2)

/-- An append: the first entry of that id takes it. -/
def applyAppend (a : TextAppend) :
    List SessionMessageEntry → Except String (List SessionMessageEntry)
  | [] => .error ("missing append entry " ++ a.entry)
  | e :: es =>
    if e.id = a.entry then
      match pushText a.part a.text e.parts with
      | none => .error ("missing append part " ++ a.part)
      | some (parts, held) =>
        if held ≠ a.len then
          .error ("append length mismatch on " ++ a.entry ++ "#" ++ a.part ++ ": have " ++
            toString held ++ ", expected " ++ toString a.len)
        else .ok ({ e with parts } :: es)
    else (applyAppend a es).map (e :: ·)

def applyTranscriptFrame (current : List SessionMessageEntry) :
    TranscriptFrame → Except String (List SessionMessageEntry)
  | .reset reset => .ok reset
  | .delta upsert append remove count => do
    let current := if remove ≠ [] then current.filter fun e => decide (e.id ∉ remove) else current
    let current ← upsert.foldlM applyUpsert current
    let current ← append.foldlM (fun current a => applyAppend a current) current
    if current.length ≠ count then
      .error ("count mismatch: have " ++ toString current.length ++ ", expected " ++
        toString count)
    else .ok current

/-- **A text is cut behind its prefix at a character boundary.** -/
theorem sliceFrom_append (pt rest : String) : sliceFrom (pt ++ rest) (len pt) = rest := by
  rw [sliceFrom, String.toList_append,
    Cut.splitAtByte_eq_some.mpr ⟨rfl, show Cut.size pt.toList = len pt from rfl⟩]
  exact String.ofList_toList

end Zeron.Session
