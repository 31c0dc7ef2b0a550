import Zeron.Lib.Serde
import Zeron.Session.Segment
import Zeron.Session.Wire
import Zeron.Session.Delta

/-!
# Entries as a document holds them

How `crates/doc/src/schema.rs` reads message entries: strictly by the derived decoders, and field by
field where that fails.

* `toDocPartJson`, `fromDocPartJson`: a part map and back;
* `strictEntry`, `salvageEntry`, `entryFromJson`: the source, branch by branch;
* `codable_iff`: which parts come back;
* `salvage_of_strict`: the salvage agrees with the strict decoder;
* **`entries_kept`**: no object is dropped, and no part of it that can be read.
-/

namespace Zeron.Session

open Json Serde

/-! ## Wire types -/

def TodoItem.ofJson (v : Json) : Option TodoItem := do
  let r ← record ["text", "done"] v
  return { text := ← r.req "text" asStr, done := ← r.req "done" asBool }

/-- The content of a variant; an `input` of any shape. -/
def ToolCall.ofContent (kind : String) (content : Json) : Option ToolCall :=
  if kind = "exec" then do
    let r ← record ["command"] content
    return .exec (← r.req "command" asStr)
  else if kind = "readFile" then do
    let r ← record ["path"] content
    return .readFile (← r.req "path" asStr)
  else if kind = "writeFile" then do
    let r ← record ["path", "content"] content
    return .writeFile (← r.req "path" asStr) (← r.bare "content" asStr)
  else if kind = "editFile" then do
    let r ← record ["path", "old_string", "new_string"] content
    return .editFile (← r.req "path" asStr) (← r.bare "old_string" asStr)
      (← r.bare "new_string" asStr)
  else if kind = "applyPatch" then do
    let r ← record ["path"] content
    return .applyPatch (← r.bare "path" asStr)
  else if kind = "search" then do
    let r ← record ["pattern", "path"] content
    return .search (← r.req "pattern" asStr) (← r.bare "path" asStr)
  else if kind = "glob" then do
    let r ← record ["pattern"] content
    return .glob (← r.req "pattern" asStr)
  else if kind = "webFetch" then do
    let r ← record ["url", "prompt"] content
    return .webFetch (← r.req "url" asStr) (← r.bare "prompt" asStr)
  else if kind = "webSearch" then do
    let r ← record ["query"] content
    return .webSearch (← r.req "query" asStr)
  else if kind = "todo" then do
    let r ← record ["items"] content
    return .todo (← r.defaulted "items" (list TodoItem.ofJson) [])
  else if kind = "mcp" then do
    let r ← record ["server", "tool", "input"] content
    return .mcp (← r.req "server" asStr) (← r.req "tool" asStr) (← r.bare "input" some)
  else if kind = "unknown" then do
    let r ← record ["name", "input"] content
    return .unknown (← r.req "name" asStr) (← r.bare "input" some)
  else none

def ToolCall.ofJson (v : Json) : Option ToolCall := do
  let (kind, content) ← tagged "kind" v
  ofContent kind content

def ToolDiff.ofJson (v : Json) : Option ToolDiff := do
  let r ← record ["path", "oldText", "newText"] v
  return { path := ← r.req "path" asStr, oldText := ← r.opt "oldText" asStr
           newText := ← r.req "newText" asStr }

def ToolDiffStat.ofJson (v : Json) : Option ToolDiffStat := do
  let r ← record ["path", "additions", "deletions"] v
  return { path := ← r.req "path" asStr, additions := ← r.req "additions" u64
           deletions := ← r.req "deletions" u64 }

def UserInputQuestion.ofJson (v : Json) : Option UserInputQuestion := do
  let r ← record ["id", "header", "question", "options", "multiSelect"] v
  return { id := ← r.req "id" asStr, header := ← r.req "header" asStr
           question := ← r.req "question" asStr, options := ← r.req "options" (list asStr)
           multiSelect := ← r.defaulted "multiSelect" asBool false }

def MessageRole.ofName (s : String) : Option MessageRole :=
  if s = "user" then some .user
  else if s = "assistant" then some .assistant
  else if s = "system" then some .system
  else none

def MessageRole.ofJson : Json → Option MessageRole := unitVariant ofName

def MessageStatus.ofName (s : String) : Option MessageStatus :=
  if s = "streaming" then some .streaming
  else if s = "complete" then some .complete
  else if s = "aborted" then some .aborted
  else none

def MessageStatus.ofJson : Json → Option MessageStatus := unitVariant ofName

/-! ## Part maps -/

/-- `DocPartJson`: a part map, the values of nested types as they stand. -/
structure DocPartJson where
  id : String
  kind : String
  path : Option String
  name : Option String
  mimeType : Option String
  text : Option String
  reasoning : Option String
  call : Option Json
  isError : Option Bool
  questions : Option Json
  resolved : Option Bool
  message : Option String
  output : Option String
  diff : Option Json
  outputRef : Option String
  outputBytes : Option ℕ
  diffRef : Option String
  diffStats : Option Json
  subagentRef : Option String
  subagentStatus : Option String
  subagentTail : Option String
  deriving DecidableEq

/-- The fields in the order of their declaration. -/
def DocPartJson.fields : List String :=
  ["id", "kind", "path", "name", "mimeType", "text", "reasoning", "call", "isError", "questions",
    "resolved", "message", "output", "diff", "outputRef", "outputBytes", "diffRef", "diffStats",
    "subagentRef", "subagentStatus", "subagentTail"]

def DocPartJson.ofJson (v : Json) : Option DocPartJson := do
  let r ← record fields v
  return {
    id := ← r.req "id" asStr
    kind := ← r.req "kind" asStr
    path := ← r.opt "path" asStr
    name := ← r.opt "name" asStr
    mimeType := ← r.opt "mimeType" asStr
    text := ← r.opt "text" asStr
    reasoning := ← r.opt "reasoning" asStr
    call := ← r.opt "call" some
    isError := ← r.opt "isError" asBool
    questions := ← r.opt "questions" some
    resolved := ← r.opt "resolved" asBool
    message := ← r.opt "message" asStr
    output := ← r.opt "output" asStr
    diff := ← r.opt "diff" some
    outputRef := ← r.opt "outputRef" asStr
    outputBytes := ← r.opt "outputBytes" u64
    diffRef := ← r.opt "diffRef" asStr
    diffStats := ← r.opt "diffStats" some
    subagentRef := ← r.opt "subagentRef" asStr
    subagentStatus := ← r.opt "subagentStatus" asStr
    subagentTail := ← r.opt "subagentTail" asStr }

/-- The nested values through `to_value`. -/
def DocPart.encode (p : DocPart) : DocPartJson where
  id := p.id
  kind := p.kind
  path := p.path
  name := p.name
  mimeType := p.mimeType
  text := p.text
  reasoning := p.reasoning
  call := p.call.map ToolCall.toJson
  isError := p.isError
  questions := p.questions.map fun l => .arr (l.map UserInputQuestion.toJson)
  resolved := p.resolved
  message := p.message
  output := p.output
  diff := p.diff.map ToolDiff.toJson
  outputRef := p.outputRef
  outputBytes := p.outputBytes
  diffRef := p.diffRef
  diffStats := p.diffStats.map fun l => .arr (l.map ToolDiffStat.toJson)
  subagentRef := p.subagentRef
  subagentStatus := p.subagentStatus
  subagentTail := p.subagentTail

/-- `to_doc_part`. -/
def toDocPartJson (part : MessagePart) : DocPartJson := (toDocPart part).encode

/-- `from_doc_part`; what is malformed degrades to an empty text. -/
def fromDocPartJson (p : DocPartJson) : MessagePart :=
  if p.kind = "image" then imagePart p.id p.path p.name p.mimeType
  else if p.kind = "tool" then
    match p.call.bind ToolCall.ofJson with
    | some call => .tool p.id
      { call, isError := p.isError.getD false, resolved := p.isError.isSome, output := p.output
        diff := p.diff.bind ToolDiff.ofJson, outputRef := p.outputRef
        outputBytes := p.outputBytes, diffRef := p.diffRef
        diffStats := p.diffStats.bind (list ToolDiffStat.ofJson), subagentRef := p.subagentRef
        subagentStatus := p.subagentStatus.bind SubagentStatus.ofName
        subagentTail := p.subagentTail }
    | none => .text p.id ""
  else if p.kind = "input" then
    .input p.id p.id ((p.questions.bind (list UserInputQuestion.ofJson)).getD [])
      (p.resolved.getD false)
  else if p.kind = "error" then .error p.id (p.message.getD "")
  else if p.kind = "reasoning" then .reasoning p.id (p.reasoning.getD "")
  else .text p.id (p.text.getD "")

/-! ## Entries -/

/-- The strict branch of `entry_from_json`. -/
def strictEntry (v : Json) : Option SessionMessageEntry := do
  let r ← record ["id", "role", "parts", "createdAt", "deviceId", "status", "continuationOf",
    "durationMs"] v
  return {
    id := ← r.req "id" asStr
    role := ← r.req "role" MessageRole.ofJson
    parts := (← r.defaulted "parts" (list DocPartJson.ofJson) []).map fromDocPartJson
    createdAt := ← r.req "createdAt" i64
    deviceId := ← r.req "deviceId" asStr
    status := ← r.opt "status" MessageStatus.ofJson
    continuationOf := ← r.opt "continuationOf" asStr
    durationMs := ← r.opt "durationMs" i64 }

/-- A field that holds a string. -/
def strField (members : List (String × Json)) (key : String) : Option String :=
  (members.lookup key).bind asStr

/-- `salvage_part`: the kind is inferred from the content. -/
def salvagePart (part : Json) (entryId : String) (ix : ℕ) : Option MessagePart :=
  match part with
  | .obj members =>
    let id := (strField members "id").getD (entryId ++ "#recovered-" ++ toString ix)
    if strField members "kind" = some "image" then
      some (imagePart id (strField members "path") (strField members "name")
        (strField members "mimeType"))
    else match strField members "reasoning" with
    | some reasoning => some (.reasoning id reasoning)
    | none => match strField members "text" with
      | some text => some (.text id text)
      | none => match (members.lookup "call").bind ToolCall.ofJson with
        | some call => some (.tool id
          { call, isError := ((members.lookup "isError").bind asBool).getD false
            resolved := ((members.lookup "resolved").bind asBool).getD true
            output := strField members "output" })
        | none => (strField members "message").map (.error id)
  | _ => none

/-- What an entry shows of one of its parts. -/
def readPart (entryId : String) (ix : ℕ) (part : Json) : Option MessagePart :=
  match DocPartJson.ofJson part with
  | some p => some (fromDocPartJson p)
  | none => salvagePart part entryId ix

/-- The loop over the parts of an entry. -/
def salvageParts (entryId : String) : ℕ → List Json → List MessagePart
  | _, [] => []
  | ix, part :: rest => (readPart entryId ix part).toList ++ salvageParts entryId (ix + 1) rest

/-- The parts of an entry as they stand. -/
def rawParts (members : List (String × Json)) : List Json :=
  ((members.lookup "parts").bind asArray).getD []

/-- `{:016x}`. -/
def hex16 (n : UInt64) : String := String.ofList ((Nat.toDigits 16 n.toNat).leftpad 16 '0')

/-- `salvage_entry`, `hash` being the standard hash of a value's text. -/
def salvageEntry (hash : Json → UInt64) (v : Json) : Option SessionMessageEntry :=
  match v with
  | .obj members =>
    let id := (strField members "id").getD ("recovered-" ++ hex16 (hash v))
    some {
      id
      role := ((members.lookup "role").bind MessageRole.ofJson).getD .assistant
      parts := salvageParts id 0 (rawParts members)
      createdAt := ((members.lookup "createdAt").bind i64).getD 0
      deviceId := (strField members "deviceId").getD ""
      status := (members.lookup "status").bind MessageStatus.ofJson
      continuationOf := strField members "continuationOf"
      durationMs := (members.lookup "durationMs").bind i64 }
  | _ => none

/-- `entry_from_json`. -/
def entryFromJson (hash : Json → UInt64) (v : Json) : Option SessionMessageEntry :=
  match strictEntry v with
  | some e => some e
  | none => salvageEntry hash v

/-! ## What was written is read back -/

theorem ofJson_todoItem (t : TodoItem) : TodoItem.ofJson t.toJson = some t := rfl

theorem ofJson_toolDiff (d : ToolDiff) : ToolDiff.ofJson d.toJson = some d := by
  obtain ⟨path, oldText, newText⟩ := d
  cases oldText <;> rfl

theorem ofJson_toolDiffStat (s : ToolDiffStat) :
    ToolDiffStat.ofJson s.toJson = some s ↔ s.additions < 2 ^ 64 ∧ s.deletions < 2 ^ 64 := by
  have he : ToolDiffStat.ofJson s.toJson = (u64 (.num s.additions)).bind fun additions =>
      (u64 (.num s.deletions)).bind fun deletions =>
        some { path := s.path, additions, deletions } := rfl
  obtain ⟨path, additions, deletions⟩ := s
  rw [he, ← u64_num, ← u64_num]
  cases u64 (.num additions) <;> cases u64 (.num deletions) <;> simp

theorem ofJson_userInputQuestion (q : UserInputQuestion) :
    UserInputQuestion.ofJson q.toJson = some q := by
  have he : UserInputQuestion.ofJson q.toJson =
      (list asStr (.arr (q.options.map .str))).bind fun options => some { q with options } := rfl
  have hoptions : list asStr (.arr (q.options.map .str)) = some q.options :=
    list_map.mpr fun s _ => rfl
  rw [he, hoptions]
  rfl

/-- The input of a call, which may be any value. -/
def ToolCall.input : ToolCall → Option Json
  | .mcp _ _ input | .unknown _ input => input
  | _ => none

/-- The call with an explicit `null` input left out. -/
def ToolCall.dropNull : ToolCall → ToolCall
  | .mcp server tool input => .mcp server tool (input.bind nonNull)
  | .unknown name input => .unknown name (input.bind nonNull)
  | call => call

theorem ofJson_toolCall (call : ToolCall) : ToolCall.ofJson call.toJson = some call.dropNull := by
  cases call with
  | mcp server tool input | unknown name input =>
    cases input with
    | none => rfl
    | some v => cases v <;> rfl
  | editFile path oldString newString => cases oldString <;> cases newString <;> rfl
  | writeFile path text | applyPatch text | search pattern text | webFetch url text =>
    cases text <;> rfl
  | todo items =>
    have hitems : list TodoItem.ofJson (.arr (items.map TodoItem.toJson)) = some items :=
      list_map.mpr fun t _ => ofJson_todoItem t
    change (list TodoItem.ofJson (.arr (items.map TodoItem.toJson))).bind _ = _
    rw [hitems]
    rfl
  | _ => rfl

theorem bind_nonNull (input : Option Json) : input.bind nonNull = input ↔ input ≠ some .null := by
  cases input with
  | none => simp
  | some v => cases v <;> simp [nonNull, isNull]

theorem dropNull_eq_iff (call : ToolCall) : call.dropNull = call ↔ call.input ≠ some .null := by
  cases call <;> simp [ToolCall.dropNull, ToolCall.input, bind_nonNull]

/-- The part comes back from its part map: an image is a known one, a result's error is only told
once there is a result, and an input is left out instead of `null`. The counts are 64-bit. -/
def MessagePart.Codable : MessagePart → Prop
  | .image _ path name mimeType => path ≠ "" ∧ name ≠ "" ∧ mimeType ∈ imageTypes
  | .tool _ t => (t.isError → t.resolved) ∧ t.call.input ≠ some .null ∧
      ∀ stats, t.diffStats = some stats → ∀ s ∈ stats, s.additions < 2 ^ 64 ∧ s.deletions < 2 ^ 64
  | _ => True

theorem bind_diffStats (stats : Option (List ToolDiffStat)) :
    (stats.map fun l => Json.arr (l.map ToolDiffStat.toJson)).bind (list ToolDiffStat.ofJson) =
      stats ↔ ∀ l, stats = some l → ∀ s ∈ l, s.additions < 2 ^ 64 ∧ s.deletions < 2 ^ 64 := by
  cases stats with
  | none => simp
  | some l => simp [list_map, ofJson_toolDiffStat]

/-- **Which parts come back.** -/
theorem codable_iff (p : MessagePart) :
    fromDocPartJson (toDocPartJson p) = p.docId ↔ p.Codable := by
  cases p with
  | image id path name mimeType =>
    by_cases h : path ≠ "" ∧ name ≠ "" ∧ mimeType ∈ imageTypes
    · exact iff_of_true (if_pos h) h
    · exact iff_of_false (by simp [fromDocPartJson, toDocPartJson, toDocPart, DocPart.encode,
        imagePart, h, MessagePart.docId]) h
  | tool id t =>
    obtain ⟨call, isError, resolved, output, diff, outputRef, outputBytes, diffRef, diffStats,
      subagentRef, subagentStatus, subagentTail⟩ := t
    have hdiff : (diff.map ToolDiff.toJson).bind ToolDiff.ofJson = diff := by
      cases diff <;> simp [ofJson_toolDiff]
    have hresolved : ((if resolved then some isError else none).getD false = isError ∧
        (if resolved then some isError else none).isSome = resolved) ↔
          (isError → resolved) := by
      cases resolved <;> cases isError <;> simp
    simp only [fromDocPartJson, toDocPartJson, toDocPart, DocPart.encode, MessagePart.docId,
      MessagePart.Codable, Option.map_some, Option.bind_some, ofJson_toolCall, hdiff, bind_ofName,
      String.reduceEq, if_true, if_false, MessagePart.tool.injEq, ToolPart.mk.injEq, true_and,
      and_true, dropNull_eq_iff, bind_diffStats, ← hresolved]
    tauto
  | input id requestId questions resolved =>
    have hquestions : list UserInputQuestion.ofJson
        (.arr (questions.map UserInputQuestion.toJson)) = some questions :=
      list_map.mpr fun q _ => ofJson_userInputQuestion q
    simp [fromDocPartJson, toDocPartJson, toDocPart, DocPart.encode, MessagePart.docId,
      MessagePart.Codable, hquestions]
  | _ => simp [fromDocPartJson, toDocPartJson, toDocPart, DocPart.encode, MessagePart.docId,
      MessagePart.Codable]

/-- An image of an unknown type shows that it is unavailable; so does any other that does not
name its file. -/
example : fromDocPartJson (toDocPartJson (.image "i" "a.svg" "a" "image/svg+xml")) =
    .error "i" "Generated image unavailable" := by decide

/-! ## Salvage -/

section Salvage

variable (hash : Json → UInt64) {members : List (String × Json)} {e : SessionMessageEntry}

/-- The parts of an entry that are well formed. -/
def wellFormedParts (items : List Json) : List MessagePart :=
  items.filterMap fun part => (DocPartJson.ofJson part).map fromDocPartJson

theorem readPart_of_strict {part : Json} {p : DocPartJson} (h : DocPartJson.ofJson part = some p)
    (entryId : String) (ix : ℕ) : readPart entryId ix part = some (fromDocPartJson p) := by
  rw [readPart, h]

theorem salvageParts_of_strict {items : List Json} {parts : List DocPartJson}
    (h : list DocPartJson.ofJson (.arr items) = some parts) (entryId : String) (ix : ℕ) :
    salvageParts entryId ix items = parts.map fromDocPartJson := by
  rw [list_eq_some] at h
  induction h generalizing ix with
  | nil => rfl
  | cons hp _ ih => rw [salvageParts, readPart_of_strict hp, ih (ix + 1)]; rfl

theorem wellFormed_sublist (items : List Json) (entryId : String) (ix : ℕ) :
    (wellFormedParts items).Sublist (salvageParts entryId ix items) := by
  induction items generalizing ix with
  | nil => exact List.Sublist.slnil
  | cons part items ih =>
    rw [salvageParts]
    cases hp : DocPartJson.ofJson part with
    | some p =>
      have he : wellFormedParts (part :: items) = fromDocPartJson p :: wellFormedParts items := by
        simp [wellFormedParts, hp]
      rw [he, readPart_of_strict hp]
      exact (ih (ix + 1)).cons_cons (fromDocPartJson p)
    | none =>
      have he : wellFormedParts (part :: items) = wellFormedParts items := by
        simp [wellFormedParts, hp]
      rw [he]
      exact (ih (ix + 1)).trans (List.sublist_append_right ..)

/-- **The salvage agrees with the strict decoder.** -/
theorem salvage_of_strict (h : strictEntry (.obj members) = some e) :
    salvageEntry hash (.obj members) = some e := by
  simp only [strictEntry, record, Option.bind_eq_bind, Option.bind_some, Option.bind_eq_some_iff,
    Option.pure_def, Option.some.injEq] at h
  obtain ⟨id, hid, role, hrole, parts, hparts, createdAt, hcreated, deviceId, hdevice, status,
    hstatus, continuationOf, hcont, durationMs, hduration, rfl⟩ := h
  have hid' : strField members "id" = some id := hid
  have hrole' : (members.lookup "role").bind MessageRole.ofJson = some role := hrole
  have hcreated' : (members.lookup "createdAt").bind i64 = some createdAt := hcreated
  have hdevice' : strField members "deviceId" = some deviceId := hdevice
  have hread : salvageParts id 0 (rawParts members) = parts.map fromDocPartJson := by
    obtain ⟨hmissing, rfl⟩ | ⟨items, hitems, hlist⟩ := defaulted_list hparts
    · simp [rawParts, hmissing, salvageParts]
    · rw [rawParts, hitems]
      exact salvageParts_of_strict hlist id 0
  have hcont' : strField members "continuationOf" = continuationOf := Record.bind_of_opt hcont rfl
  have hstatus' := Record.bind_of_opt hstatus rfl
  have hduration' := Record.bind_of_opt hduration rfl
  simp only [salvageEntry, hid', hrole', hcreated', hdevice', hcont', hstatus', hduration',
    Option.getD_some, hread]

theorem entryFromJson_obj (members : List (String × Json)) :
    entryFromJson hash (.obj members) = salvageEntry hash (.obj members) := by
  rw [entryFromJson]
  cases h : strictEntry (.obj members) with
  | none => rfl
  | some e => exact (salvage_of_strict hash h).symm

/-- **The codec of entries.** A part comes back, an input under its request id, exactly if it is
codable; every object gives an entry with all its well-formed parts in order; and where the strict
decoder succeeds, the lenient path gives the same entry. -/
theorem entries_kept :
    (∀ p, fromDocPartJson (toDocPartJson p) = p.docId ↔ p.Codable) ∧
    (∀ members, ∃ e, entryFromJson hash (.obj members) = some e ∧
      (wellFormedParts (rawParts members)).Sublist e.parts) ∧
    ∀ members, strictEntry (.obj members) = none ∨
      strictEntry (.obj members) = salvageEntry hash (.obj members) := by
  refine ⟨codable_iff, fun members => ?_, fun members => ?_⟩
  · refine ⟨_, entryFromJson_obj hash members, ?_⟩
    exact wellFormed_sublist (rawParts members) _ 0
  · cases h : strictEntry (.obj members) with
    | none => exact Or.inl rfl
    | some e => exact Or.inr (salvage_of_strict hash h).symm

end Salvage

/-- A result's error that comes without the result is not told. -/
theorem error_untold : ¬ ∀ p, fromDocPartJson (toDocPartJson p) = p.docId := by
  intro h
  have hp := h (.tool "t" { call := .exec "ls", isError := true })
  revert hp
  decide

end Zeron.Session
