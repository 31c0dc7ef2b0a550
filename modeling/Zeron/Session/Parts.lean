import Zeron.Lib.Json

/-!
# Message parts and the event fold

What an agent's events make of an assistant message (`crates/doc/src/parts.rs`, with the wire types
of `crates/proto/src/agent.rs`).

* `ToolCall`, `MessagePart`, `AgentEvent`, `foldEvent`: the source, branch by branch;
* `MessagePart.docId`: the id an input part has in a document;
* `Refines`, `Extends`: parts that keep their place, kind, id and fields; **`extends_fold`**: every
  event but a turn boundary, a replaced image and a result that drops its stats only extends.
-/

namespace Zeron.Session

/-! ## Wire types -/

structure TodoItem where
  text : String
  done : Bool
  deriving DecidableEq

/-- A decoded tool invocation. -/
inductive ToolCall where
  | exec (command : String)
  | readFile (path : String)
  | writeFile (path : String) (content : Option String)
  | editFile (path : String) (oldString newString : Option String)
  | applyPatch (path : Option String)
  | search (pattern : String) (path : Option String)
  | glob (pattern : String)
  | webFetch (url : String) (prompt : Option String)
  | webSearch (query : String)
  | todo (items : List TodoItem)
  | mcp (server tool : String) (input : Option Json)
  | unknown (name : String) (input : Option Json)
  deriving DecidableEq

/-- `is_subagent_spawn`: the naming convention of spawn calls. -/
def ToolCall.isSubagentSpawn : ToolCall → Bool
  | .unknown name _ => spawnName name
  | .mcp _ tool _ => spawnName tool
  | _ => false
where
  spawnName (name : String) : Bool :=
    name = "Agent" || "Agent: ".toList.isPrefixOf name.toList

structure ToolDiff where
  path : String
  oldText : Option String
  newText : String
  deriving DecidableEq

structure ToolDiffStat where
  path : String
  additions : ℕ
  deletions : ℕ
  deriving DecidableEq

structure UserInputQuestion where
  id : String
  header : String
  question : String
  options : List String
  multiSelect : Bool
  deriving DecidableEq

inductive DoneStatus where
  | completed
  | interrupted
  | errored
  deriving DecidableEq

/-- The streaming event every harness emits. Events the fold passes over carry no data here. -/
inductive AgentEvent where
  | sessionStarted
  | turnStarted
  | textDelta (text : String)
  | generatedImage (id path name mimeType : String)
  | inlineImage
  | reasoningDelta (text : String)
  | assistantMessageCompleted
  | toolCall (id : String) (call : ToolCall)
  | toolResult (id : String) (isError : Bool) (output : Option String) (diff : Option ToolDiff)
  | toolDiffStats (id : String) (stats : List ToolDiffStat)
  | contextUsage
  | contextUsageSnapshot
  | usage
  | primeEvent
  | goalUpdate
  | availableCommands
  | error (message : String)
  | inputRequested (requestId : String) (questions : List UserInputQuestion)
  | inputResolved (requestId : String)
  | steered
  | done (status : DoneStatus) (error : Option String)
  | userMessage
  | subagent (parentToolUseId : String) (event : AgentEvent)

/-! ## Parts -/

/-- Lifecycle of a spawned subagent. -/
inductive SubagentStatus where
  | running
  | done
  | failed
  deriving DecidableEq

/-- The fields of a tool part besides its id. -/
structure ToolPart where
  call : ToolCall
  isError : Bool := false
  /-- True once a result arrived. -/
  resolved : Bool := false
  output : Option String := none
  diff : Option ToolDiff := none
  outputRef : Option String := none
  outputBytes : Option ℕ := none
  diffRef : Option String := none
  diffStats : Option (List ToolDiffStat) := none
  subagentRef : Option String := none
  subagentStatus : Option SubagentStatus := none
  subagentTail : Option String := none
  deriving DecidableEq

/-- One rendered part of an assistant message. -/
inductive MessagePart where
  | text (id text : String)
  | image (id path name mimeType : String)
  | reasoning (id text : String)
  | tool (id : String) (t : ToolPart)
  | input (id requestId : String) (questions : List UserInputQuestion) (resolved : Bool)
  | error (id message : String)
  deriving DecidableEq

def MessagePart.id : MessagePart → String
  | .text id _ | .image id _ _ _ | .reasoning id _ | .tool id _ | .input id _ _ _ | .error id _ => id

/-- Input parts key on their request id in a document. -/
def MessagePart.docId : MessagePart → MessagePart
  | .input _ requestId questions resolved => .input requestId requestId questions resolved
  | part => part

/-! ## The fold -/

/-- `text.lines().count()`. -/
def lineCount (s : String) : ℕ :=
  s.toList.count '\n' + if s.toList.getLast?.any (· ≠ '\n') then 1 else 0

/-- The first element `f` answers for, replaced by its answer. -/
def replaceFirst {α : Type} (f : α → Option α) : List α → Option (List α)
  | [] => none
  | a :: l =>
    match f a with
    | some b => some (b :: l)
    | none => (replaceFirst f l).map (a :: ·)

/-- Edit the tool parts under an id. -/
def editTool (id : String) (f : ToolPart → ToolPart) : MessagePart → MessagePart
  | .tool pid t => if pid = id then .tool pid (f t) else .tool pid t
  | part => part

section Fold

-- Added and deleted lines between two texts, as the line differ (`similar::TextDiff`) counts them.
variable (lineDiff : String → String → ℕ × ℕ)

/-- `diff_stat`. -/
def diffStat (diff : ToolDiff) : ToolDiffStat :=
  let (additions, deletions) := match diff.oldText with
    | none => (lineCount diff.newText, 0)
    | some old => lineDiff old diff.newText
  { path := diff.path, additions, deletions }

/-- The status a tagged event implies by itself. -/
def subagentStatusOf : AgentEvent → Option SubagentStatus
  | .done .errored _ => some .failed
  | .done _ _ => some .done
  | .userMessage | .steered => some .running
  | _ => none

/-- The chip of a spawn call after a tagged event: terminal states never regress by themselves. -/
def subagentChip (status : Option SubagentStatus) (t : ToolPart) : ToolPart :=
  if t.call.isSubagentSpawn then
    match status with
    | some s => { t with subagentStatus := some s }
    | none =>
      if t.subagentStatus = some .done ∨ t.subagentStatus = some .failed then t
      else { t with subagentStatus := some .running }
  else t

/-- `fold_event_into_parts`. -/
def foldEvent (out : List MessagePart) : AgentEvent → List MessagePart
  | .sessionStarted | .steered => []
  | .textDelta text =>
    match out.getLast? with
    | some (.text id tail) => out.dropLast ++ [.text id (tail ++ text)]
    | _ => out ++ [.text ("t" ++ toString out.length) text]
  | .generatedImage id path name mimeType =>
    let image := MessagePart.image id path name mimeType
    (replaceFirst (fun p => if p.id = id then some image else none) out).getD (out ++ [image])
  | .reasoningDelta text =>
    if text = "" then out
    else match out.getLast? with
      | some (.reasoning id tail) => out.dropLast ++ [.reasoning id (tail ++ text)]
      | _ => out ++ [.reasoning ("r" ++ toString out.length) text]
  | .toolCall id call =>
    (replaceFirst (fun
      | .tool pid t => if pid = id then some (.tool pid { t with call }) else none
      | _ => none) out).getD (out ++ [.tool id { call }])
  | .toolResult id isError _ diff =>
    -- The output is journal-only; of the diff only its stats enter the part.
    out.map (editTool id fun t => { t with
      isError, resolved := true, output := none, outputBytes := none, diff := none
      diffStats := diff.map fun d => [diffStat lineDiff d] })
  | .toolDiffStats id stats => out.map (editTool id fun t => { t with diffStats := some stats })
  | .inputRequested requestId questions =>
    let id := "in-" ++ requestId
    if out.any (·.id = id) then out else out ++ [.input id requestId questions false]
  | .inputResolved requestId =>
    out.map fun
      | .input id rid questions resolved =>
        .input id rid questions (if rid = requestId then true else resolved)
      | part => part
  | .error message | .done _ (some message) =>
    out ++ [.error ("e" ++ toString out.length) message]
  | .subagent parent event => out.map (editTool parent (subagentChip (subagentStatusOf event)))
  | .done _ none | .assistantMessageCompleted | .turnStarted | .inlineImage | .usage | .primeEvent
  | .goalUpdate | .contextUsage | .contextUsageSnapshot | .availableCommands | .userMessage => out

/-- The parts of a whole sequence of events. -/
def foldEvents (events : List AgentEvent) : List MessagePart :=
  events.foldl (foldEvent lineDiff) []

end Fold

/-! ## Parts that stay -/

/-- No field of the part is lost. -/
structure ToolPart.Keeps (t t' : ToolPart) : Prop where
  resolved : t.resolved → t'.resolved
  output : t.output.isSome → t'.output.isSome
  diff : t.diff.isSome → t'.diff.isSome
  outputRef : t.outputRef.isSome → t'.outputRef.isSome
  outputBytes : t.outputBytes.isSome → t'.outputBytes.isSome
  diffRef : t.diffRef.isSome → t'.diffRef.isSome
  diffStats : t.diffStats.isSome → t'.diffStats.isSome
  subagentRef : t.subagentRef.isSome → t'.subagentRef.isSome
  subagentStatus : t.subagentStatus.isSome → t'.subagentStatus.isSome
  subagentTail : t.subagentTail.isSome → t'.subagentTail.isSome

theorem ToolPart.Keeps.refl (t : ToolPart) : t.Keeps t :=
  ⟨id, id, id, id, id, id, id, id, id, id⟩

theorem ToolPart.Keeps.trans {t t' t'' : ToolPart} (h : t.Keeps t') (h' : t'.Keeps t'') :
    t.Keeps t'' where
  resolved := h'.resolved ∘ h.resolved
  output := h'.output ∘ h.output
  diff := h'.diff ∘ h.diff
  outputRef := h'.outputRef ∘ h.outputRef
  outputBytes := h'.outputBytes ∘ h.outputBytes
  diffRef := h'.diffRef ∘ h.diffRef
  diffStats := h'.diffStats ∘ h.diffStats
  subagentRef := h'.subagentRef ∘ h.subagentRef
  subagentStatus := h'.subagentStatus ∘ h.subagentStatus
  subagentTail := h'.subagentTail ∘ h.subagentTail

/-- The same part later: its kind, its id and its fields are still there. -/
def Refines : MessagePart → MessagePart → Prop
  | .text id _, .text id' _ => id = id'
  | .image id _ _ _, .image id' _ _ _ => id = id'
  | .reasoning id _, .reasoning id' _ => id = id'
  | .tool id t, .tool id' t' => id = id' ∧ t.Keeps t'
  | .input _ rid _ _, .input _ rid' _ _ => rid = rid'
  | .error id _, .error id' _ => id = id'
  | _, _ => False

theorem Refines.refl (p : MessagePart) : Refines p p := by
  cases p with
  | tool id t => exact ⟨rfl, .refl t⟩
  | _ => rfl

theorem Refines.trans {p q r : MessagePart} (h : Refines p q) (h' : Refines q r) : Refines p r := by
  cases p <;> cases q <;> try exact h.elim
  all_goals cases r <;> try exact h'.elim
  case tool.tool.tool => exact ⟨h.1.trans h'.1, h.2.trans h'.2⟩
  all_goals exact Eq.trans h h'

/-- Every part of `old` is still in its place in `new`. -/
def Extends : List MessagePart → List MessagePart → Prop
  | [], _ => True
  | _ :: _, [] => False
  | p :: old, q :: new => Refines p q ∧ Extends old new

theorem Extends.append (l extra : List MessagePart) : Extends l (l ++ extra) := by
  induction l with
  | nil => trivial
  | cons p l ih => exact ⟨.refl p, ih⟩

theorem Extends.refl (l : List MessagePart) : Extends l l := by simpa using Extends.append l []

theorem Extends.trans {l l' l'' : List MessagePart} (h : Extends l l') (h' : Extends l' l'') :
    Extends l l'' := by
  induction l generalizing l' l'' with
  | nil => trivial
  | cons p l ih =>
    cases l' with
    | nil => exact h.elim
    | cons q l' =>
      cases l'' with
      | nil => exact h'.elim
      | cons r l'' => exact ⟨h.1.trans h'.1, ih h.2 h'.2⟩

theorem Extends.map {l : List MessagePart} {f : MessagePart → MessagePart}
    (h : ∀ p ∈ l, Refines p (f p)) : Extends l (l.map f) := by
  induction l with
  | nil => trivial
  | cons p l ih =>
    exact ⟨h p List.mem_cons_self, ih fun q hq => h q (List.mem_cons_of_mem _ hq)⟩

theorem Extends.last {l : List MessagePart} {p q : MessagePart} (hl : l.getLast? = some p)
    (h : Refines p q) : Extends l (l.dropLast ++ [q]) := by
  induction l with
  | nil => cases hl
  | cons a l ih =>
    cases l with
    | nil =>
      obtain rfl : a = p := by simpa using hl
      exact ⟨h, trivial⟩
    | cons b l => exact ⟨.refl a, ih hl⟩

theorem Extends.replaceFirst {l l' : List MessagePart} {f : MessagePart → Option MessagePart}
    (h : ∀ p q, p ∈ l → f p = some q → Refines p q) (hl : replaceFirst f l = some l') :
    Extends l l' := by
  induction l generalizing l' with
  | nil => cases hl
  | cons p l ih =>
    rw [Session.replaceFirst] at hl
    cases hp : f p with
    | some q =>
      rw [hp] at hl
      obtain rfl := Option.some.inj hl
      exact ⟨h p q List.mem_cons_self hp, .refl l⟩
    | none =>
      rw [hp] at hl
      obtain ⟨l₁, hl₁, rfl⟩ := Option.map_eq_some_iff.mp hl
      exact ⟨.refl p, ih (fun a b ha => h a b (List.mem_cons_of_mem _ ha)) hl₁⟩

theorem refines_editTool {id : String} {f : ToolPart → ToolPart} {p : MessagePart}
    (h : ∀ t, p = .tool id t → t.Keeps (f t)) : Refines p (editTool id f p) := by
  cases p with
  | tool pid t =>
    simp only [editTool]
    split_ifs with hid
    · exact ⟨rfl, h t (by rw [hid])⟩
    · exact .refl _
  | _ => exact .refl _

/-- The event resets the accumulator, replaces another part by an image, or takes a field from a
tool part. -/
def AgentEvent.Rewrites (out : List MessagePart) : AgentEvent → Prop
  | .sessionStarted | .steered => True
  | .generatedImage id _ _ _ =>
    ∃ p ∈ out, p.id = id ∧ ∀ pid path name mimeType, p ≠ .image pid path name mimeType
  | .toolResult id _ _ diff => ∃ t, .tool id t ∈ out ∧
    (t.output.isSome ∨ t.outputBytes.isSome ∨ t.diff.isSome ∨ (t.diffStats.isSome ∧ diff = none))
  | _ => False

/-- **Every other event only extends the fold.** -/
theorem extends_fold (lineDiff : String → String → ℕ × ℕ) {out : List MessagePart}
    {event : AgentEvent} (h : ¬ event.Rewrites out) : Extends out (foldEvent lineDiff out event) := by
  cases event with
  | sessionStarted => exact absurd trivial h
  | steered => exact absurd trivial h
  | textDelta text =>
    simp only [foldEvent]
    split
    · rename_i id tail hlast
      exact .last hlast rfl
    · exact .append _ _
  | generatedImage id path name mimeType =>
    simp only [foldEvent]
    cases hrep : replaceFirst
        (fun p => if p.id = id then some (.image id path name mimeType) else none) out with
    | none => exact .append _ _
    | some out' =>
      refine .replaceFirst (fun p q hp hq => ?_) hrep
      split_ifs at hq with hid
      obtain rfl := Option.some.inj hq
      cases p with
      | image pid _ _ _ => exact hid
      | _ => exact absurd ⟨_, hp, hid, fun _ _ _ _ hp' => (by cases hp')⟩ h
  | reasoningDelta text =>
    simp only [foldEvent]
    split_ifs
    · exact .refl _
    · split
      · rename_i id tail hlast
        exact .last hlast rfl
      · exact .append _ _
  | toolCall id call =>
    simp only [foldEvent]
    generalize hrep : replaceFirst _ out = rep
    cases rep with
    | none => exact .append _ _
    | some out' =>
      refine .replaceFirst (fun p q _ hq => ?_) hrep
      cases p with
      | tool pid t =>
        simp only [Option.ite_none_right_eq_some, Option.some.injEq] at hq
        obtain ⟨-, rfl⟩ := hq
        exact ⟨rfl, by constructor <;> exact fun h => h⟩
      | _ => cases hq
  | toolResult id isError output diff =>
    refine .map fun p hp => refines_editTool fun t ht => ?_
    obtain ⟨houtput, hbytes, hdiff, hstats⟩ : t.output.isSome = false ∧
        t.outputBytes.isSome = false ∧ t.diff.isSome = false ∧
        (t.diffStats.isSome → diff.isSome) := by
      have hkeep : ¬ (t.output.isSome ∨ t.outputBytes.isSome ∨ t.diff.isSome ∨
          (t.diffStats.isSome ∧ diff = none)) := fun hloss => h ⟨t, ht ▸ hp, hloss⟩
      simpa [← Option.isSome_iff_ne_none] using hkeep
    constructor <;> simp_all
  | toolDiffStats id stats =>
    refine .map fun p _ => refines_editTool fun t _ => ?_
    constructor <;> simp
  | error message => exact .append _ _
  | inputRequested requestId questions =>
    simp only [foldEvent]
    split_ifs
    · exact .refl _
    · exact .append _ _
  | inputResolved requestId =>
    refine .map fun p _ => ?_
    cases p with
    | input id rid questions resolved => rfl
    | _ => exact .refl _
  | done status error =>
    cases error with
    | none => exact .refl _
    | some message => exact .append _ _
  | subagent parent event =>
    refine .map fun p _ => refines_editTool fun t _ => ?_
    simp only [subagentChip]
    split
    · cases subagentStatusOf event with
      | some s => constructor <;> simp
      | none =>
        simp only
        split
        · exact .refl t
        · constructor <;> simp
    · exact .refl t
  | _ => exact .refl _

end Zeron.Session
