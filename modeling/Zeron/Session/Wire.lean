import Zeron.Session.Parts

/-!
# The JSON of a message part's fields

How `serde` writes the wire types of `crates/proto/src/agent.rs`.
-/

namespace Zeron.Session

open Json

/-- `skip_serializing_if = "Option::is_none"`. -/
def optional (key : String) (value : Option Json) : List (String × Json) :=
  value.toList.map fun v => (key, v)

def TodoItem.toJson (t : TodoItem) : Json := .obj [("text", .str t.text), ("done", .bool t.done)]

/-- Tagged by `kind`. -/
def ToolCall.toJson : ToolCall → Json
  | .exec command => .obj [("kind", .str "exec"), ("command", .str command)]
  | .readFile path => .obj [("kind", .str "readFile"), ("path", .str path)]
  | .writeFile path content =>
    .obj ([("kind", .str "writeFile"), ("path", .str path)] ++
      optional "content" (content.map .str))
  | .editFile path oldString newString =>
    .obj ([("kind", .str "editFile"), ("path", .str path)] ++
      optional "old_string" (oldString.map .str) ++ optional "new_string" (newString.map .str))
  | .applyPatch path => .obj (("kind", .str "applyPatch") :: optional "path" (path.map .str))
  | .search pattern path =>
    .obj ([("kind", .str "search"), ("pattern", .str pattern)] ++ optional "path" (path.map .str))
  | .glob pattern => .obj [("kind", .str "glob"), ("pattern", .str pattern)]
  | .webFetch url prompt =>
    .obj ([("kind", .str "webFetch"), ("url", .str url)] ++ optional "prompt" (prompt.map .str))
  | .webSearch query => .obj [("kind", .str "webSearch"), ("query", .str query)]
  | .todo items => .obj [("kind", .str "todo"), ("items", .arr (items.map TodoItem.toJson))]
  | .mcp server tool input =>
    .obj ([("kind", .str "mcp"), ("server", .str server), ("tool", .str tool)] ++
      optional "input" input)
  | .unknown name input =>
    .obj ([("kind", .str "unknown"), ("name", .str name)] ++ optional "input" input)

def ToolDiff.toJson (d : ToolDiff) : Json :=
  .obj ([("path", Json.str d.path)] ++ optional "oldText" (d.oldText.map .str) ++
    [("newText", Json.str d.newText)])

def ToolDiffStat.toJson (s : ToolDiffStat) : Json :=
  .obj [("path", .str s.path), ("additions", .num s.additions), ("deletions", .num s.deletions)]

def UserInputQuestion.toJson (q : UserInputQuestion) : Json :=
  .obj [("id", .str q.id), ("header", .str q.header), ("question", .str q.question),
    ("options", .arr (q.options.map .str)), ("multiSelect", .bool q.multiSelect)]

end Zeron.Session
