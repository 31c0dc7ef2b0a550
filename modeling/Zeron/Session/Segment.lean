import Zeron.Session.Parts

/-!
# The segment writer

`SegmentWriter` (`crates/doc/src/schema.rs`) keeps a message's parts in a document in step with the
fold: it compares the folded parts with what it wrote before and patches the part maps.

* `DocPart`, `toDocPart`, `fromDocPart`: a part map, what is written for a part and what it reads
  back as;
* `SegmentWriter.sync`, `updatePartFields`: the source, branch by branch;
* `sync_steady`: a sync over maps that are as first written patches each one by
  `updatePartFields`;
* **`segment_mirrors`**: every sync of a run leaves the fold in the document exactly when no synced
  part disappears, changes its kind or id or loses a field, and every part can be read back.
-/

namespace Zeron.Session

/-! ## Part maps -/

/-- `DocPartJson`, the fields of a part map. -/
structure DocPart where
  id : String
  kind : String
  path : Option String := none
  name : Option String := none
  mimeType : Option String := none
  /-- A text container. -/
  text : Option String := none
  /-- A text container. -/
  reasoning : Option String := none
  call : Option ToolCall := none
  isError : Option Bool := none
  questions : Option (List UserInputQuestion) := none
  resolved : Option Bool := none
  message : Option String := none
  output : Option String := none
  diff : Option ToolDiff := none
  outputRef : Option String := none
  outputBytes : Option ℕ := none
  diffRef : Option String := none
  diffStats : Option (List ToolDiffStat) := none
  subagentRef : Option String := none
  subagentStatus : Option String := none
  subagentTail : Option String := none
  deriving DecidableEq

def SubagentStatus.name : SubagentStatus → String
  | .running => "running"
  | .done => "done"
  | .failed => "failed"

def SubagentStatus.ofName (s : String) : Option SubagentStatus :=
  if s = "running" then some .running
  else if s = "done" then some .done
  else if s = "failed" then some .failed
  else none

@[simp] theorem SubagentStatus.ofName_name (s : SubagentStatus) : ofName s.name = some s := by
  cases s <;> decide

/-- `to_doc_part`. -/
def toDocPart : MessagePart → DocPart
  | .image id path name mimeType =>
    { id, kind := "image", path := some path, name := some name, mimeType := some mimeType }
  | .text id text => { id, kind := "text", text := some text }
  | .reasoning id text => { id, kind := "reasoning", reasoning := some text }
  | .tool id t =>
    { id, kind := "tool", call := some t.call
      -- Its presence is the resolution marker.
      isError := if t.resolved then some t.isError else none
      output := t.output, diff := t.diff, outputRef := t.outputRef, outputBytes := t.outputBytes
      diffRef := t.diffRef, diffStats := t.diffStats, subagentRef := t.subagentRef
      subagentStatus := t.subagentStatus.map SubagentStatus.name
      subagentTail := t.subagentTail }
  | .input _ requestId questions resolved =>
    { id := requestId, kind := "input", questions := some questions, resolved := some resolved }
  | .error id message => { id, kind := "error", message := some message }

/-- What an input reads back as: an explicit `null` as no input. `none` for an input with an
integer that only a double holds, which reads back as another value. -/
def rereadInput : Option Json → Option (Option Json)
  | none | some .null => some none
  | some v => if v.inI64 then some (some v) else none

/-- What a call reads back as from its stored value. -/
def rereadCall : ToolCall → Option ToolCall
  | .mcp server tool input => (rereadInput input).map (.mcp server tool)
  | .unknown name input => (rereadInput input).map (.unknown name)
  | call => some call

/-- Line counts beyond an `i64` are stored as doubles, which no counter reads. -/
def ToolDiffStat.fits (s : ToolDiffStat) : Bool := s.additions < 2 ^ 63 && s.deletions < 2 ^ 63

def imageTypes : List String := ["image/png", "image/jpeg", "image/webp", "image/gif"]

/-- `image_part`. -/
def imagePart (id : String) : Option String → Option String → Option String → MessagePart
  | some path, some name, some mimeType =>
    if path ≠ "" ∧ name ≠ "" ∧ mimeType ∈ imageTypes then .image id path name mimeType
    else .error id "Generated image unavailable"
  | _, _, _ => .error id "Generated image unavailable"

/-- `from_doc_part` on the stored map. `none` where the map reads back as no part of this model:
a byte count stored as a negative number fails the strict parse of the entry, and a call may hold
doubles. -/
def fromDocPart (p : DocPart) : Option MessagePart :=
  if p.outputBytes.any (2 ^ 63 ≤ ·) then none
  else if p.kind = "image" then some (imagePart p.id p.path p.name p.mimeType)
  else if p.kind = "tool" then
    match p.call with
    | none => some (.text p.id "")
    | some call => (rereadCall call).map fun call => .tool p.id
      { call, isError := p.isError.getD false, resolved := p.isError.isSome, output := p.output
        diff := p.diff, outputRef := p.outputRef, outputBytes := p.outputBytes
        diffRef := p.diffRef, diffStats := p.diffStats.filter (·.all ToolDiffStat.fits)
        subagentRef := p.subagentRef
        subagentStatus := p.subagentStatus.bind SubagentStatus.ofName
        subagentTail := p.subagentTail }
  else if p.kind = "input" then
    some (.input p.id p.id (p.questions.getD []) (p.resolved.getD false))
  else if p.kind = "error" then some (.error p.id (p.message.getD ""))
  else if p.kind = "reasoning" then some (.reasoning p.id (p.reasoning.getD ""))
  else some (.text p.id (p.text.getD ""))

/-- The parts an entry reads back as. -/
def readParts (parts : List DocPart) : Option (List MessagePart) := parts.mapM fromDocPart

/-! ## The writer -/

/-- `update_part_fields`: every field the part has is written; none is ever deleted, and a text is
written only into an existing container. -/
def updatePartFields (map : DocPart) (part : MessagePart) : DocPart :=
  let p := toDocPart part
  { map with
    path := p.path.or map.path
    name := p.name.or map.name
    mimeType := p.mimeType.or map.mimeType
    call := p.call.or map.call
    isError := p.isError.or map.isError
    questions := p.questions.or map.questions
    resolved := p.resolved.or map.resolved
    message := p.message.or map.message
    output := p.output.or map.output
    diff := p.diff.or map.diff
    outputRef := p.outputRef.or map.outputRef
    outputBytes := p.outputBytes.or map.outputBytes
    diffRef := p.diffRef.or map.diffRef
    diffStats := p.diffStats.or map.diffStats
    subagentRef := p.subagentRef.or map.subagentRef
    subagentStatus := p.subagentStatus.or map.subagentStatus
    subagentTail := p.subagentTail.or map.subagentTail
    text := map.text.map p.text.getD
    reasoning := map.reasoning.map p.reasoning.getD }

/-- The text containers of a part map. -/
inductive Body where
  | text
  | reasoning
  deriving DecidableEq

def Body.name : Body → String
  | .text => "text"
  | .reasoning => "reasoning"

def DocPart.body (p : DocPart) : Body → Option String
  | .text => p.text
  | .reasoning => p.reasoning

def DocPart.withBody (p : DocPart) (text : String) : Body → DocPart
  | .text => { p with text := some text }
  | .reasoning => { p with reasoning := some text }

/-- What `new` adds to `old`, where it starts with it. -/
def delta (old new : String) : Option String :=
  if old.toList.isPrefixOf new.toList then some (String.ofList (new.toList.drop old.toList.length))
  else none

/-- Trailing growth of a text-bodied part. -/
def grown : MessagePart → MessagePart → Option (Body × String)
  | .text _ old, .text _ new => (delta old new).map (.text, ·)
  | .reasoning _ old, .reasoning _ new => (delta old new).map (.reasoning, ·)
  | _, _ => none

/-- A streaming entry: the mirror of what was written, and the part maps in the document. -/
structure SegmentWriter where
  written : List MessagePart
  parts : List DocPart

/-- `begin`: no parts yet. -/
def SegmentWriter.begin : SegmentWriter := { written := [], parts := [] }

/-- One turn of the loop in `sync`. -/
def SegmentWriter.syncPart (w : SegmentWriter) (i : ℕ) (part : MessagePart) :
    Except String SegmentWriter :=
  match w.written[i]? with
  | none => .ok { written := w.written ++ [part], parts := w.parts ++ [toDocPart part] }
  | some prev =>
    if prev = part then .ok w
    else match grown prev part with
      | some (body, delta) =>
        if delta = "" then .ok { w with written := w.written.set i part }
        else match w.parts[i]? with
          | none => .error ("part map missing at " ++ toString i)
          | some map =>
            match map.body body with
            | none => .error (body.name ++ " part missing LoroText")
            | some text =>
              .ok { written := w.written.set i part
                    parts := w.parts.set i (map.withBody (text ++ delta) body) }
      | none =>
        match w.parts[i]? with
        | none => .error ("part map missing at " ++ toString i)
        | some map =>
          .ok { written := w.written.set i part
                parts := w.parts.set i (updatePartFields map part) }

/-- The loop in `sync`; an error leaves what was written before it. -/
def SegmentWriter.syncFrom (w : SegmentWriter) (i : ℕ) :
    List MessagePart → SegmentWriter × Except String Unit
  | [] => (w, .ok ())
  | part :: rest =>
    match w.syncPart i part with
    | .error e => (w, .error e)
    | .ok w => w.syncFrom (i + 1) rest

/-- `sync`: the folded segment so far, patched into the document. -/
def SegmentWriter.sync (w : SegmentWriter) (folded : List MessagePart) :
    SegmentWriter × Except String Unit :=
  w.syncFrom 0 folded

/-! ## What a part map reads back as -/

/-- The call survives the document: no explicit `null` input, no integer beyond an `i64`. -/
def ToolCall.Readable : ToolCall → Prop
  | .mcp _ _ input | .unknown _ input => ∀ v, input = some v → v ≠ .null ∧ v.inI64 = true
  | _ => True

/-- The part survives the document. -/
def MessagePart.Readable : MessagePart → Prop
  | .image _ path name mimeType => path ≠ "" ∧ name ≠ "" ∧ mimeType ∈ imageTypes
  | .tool _ t => (∀ n, t.outputBytes = some n → n < 2 ^ 63) ∧ t.call.Readable ∧
      (t.isError → t.resolved) ∧ ∀ stats, t.diffStats = some stats → stats.all ToolDiffStat.fits
  | _ => True

theorem rereadInput_eq (input : Option Json) :
    rereadInput input = some input ↔ ∀ v, input = some v → v ≠ .null ∧ v.inI64 = true := by
  cases input with
  | none => simp [rereadInput]
  | some v => cases v <;> simp [rereadInput]

theorem rereadCall_eq (call : ToolCall) : rereadCall call = some call ↔ call.Readable := by
  cases call with
  | mcp server tool input =>
    rw [ToolCall.Readable, ← rereadInput_eq]
    simp [rereadCall]
  | unknown name input =>
    rw [ToolCall.Readable, ← rereadInput_eq]
    simp [rereadCall]
  | _ => simp [rereadCall, ToolCall.Readable]

theorem read_tool {p : DocPart} {call : ToolCall} (hkind : p.kind = "tool")
    (hcall : p.call = some call) (id : String) (t : ToolPart) :
    fromDocPart p = some (.tool id t) ↔ (∀ n, p.outputBytes = some n → n < 2 ^ 63) ∧
      rereadCall call = some t.call ∧ p.id = id ∧ p.isError.getD false = t.isError ∧
      p.isError.isSome = t.resolved ∧ p.output = t.output ∧ p.diff = t.diff ∧
      p.outputRef = t.outputRef ∧ p.outputBytes = t.outputBytes ∧ p.diffRef = t.diffRef ∧
      p.diffStats.filter (·.all ToolDiffStat.fits) = t.diffStats ∧ p.subagentRef = t.subagentRef ∧
      p.subagentStatus.bind SubagentStatus.ofName = t.subagentStatus ∧
      p.subagentTail = t.subagentTail := by
  obtain ⟨call', isError, resolved, output, diff, outputRef, bytes, diffRef, stats, ref, status,
    tail⟩ := t
  have hbytes : p.outputBytes.any (2 ^ 63 ≤ ·) = false ↔ ∀ n, p.outputBytes = some n → n < 2 ^ 63 := by
    cases p.outputBytes <;> simp
  rw [← hbytes]
  by_cases hb : p.outputBytes.any (2 ^ 63 ≤ ·) = true
  · simp only [fromDocPart, hb, if_true]
    simp
  · simp only [fromDocPart, hb, hkind, hcall]
    cases rereadCall call <;> simp [and_left_comm]

theorem filter_fits (stats : Option (List ToolDiffStat)) :
    stats.filter (·.all ToolDiffStat.fits) = stats ↔
      ∀ l, stats = some l → l.all ToolDiffStat.fits := by
  cases stats with
  | none => simp
  | some l => simp [Option.filter]

@[simp] theorem bind_ofName (status : Option SubagentStatus) :
    (status.map SubagentStatus.name).bind SubagentStatus.ofName = status := by
  cases status <;> simp

/-- **Reading back what is pushed.** -/
theorem read_toDocPart (p : MessagePart) :
    fromDocPart (toDocPart p) = some p.docId ↔ p.Readable := by
  cases p with
  | image id path name mimeType =>
    by_cases h : path ≠ "" ∧ name ≠ "" ∧ mimeType ∈ imageTypes
    · simp [fromDocPart, toDocPart, imagePart, MessagePart.docId, MessagePart.Readable, h]
    · simp [fromDocPart, toDocPart, imagePart, MessagePart.docId, MessagePart.Readable, h]
  | tool id t =>
    change fromDocPart (toDocPart (.tool id t)) = some (.tool id t) ↔ _
    rw [read_tool rfl rfl, rereadCall_eq]
    have hresolved : (if t.resolved then some t.isError else none).getD false = t.isError ↔
        (t.isError → t.resolved) := by
      cases t.resolved <;> cases t.isError <;> simp
    have hsome : (if t.resolved then some t.isError else none).isSome = t.resolved := by
      cases t.resolved <;> rfl
    simp [toDocPart, MessagePart.Readable, hresolved, hsome, filter_fits]
  | _ => simp [fromDocPart, toDocPart, MessagePart.docId, MessagePart.Readable]

/-! ## Patching a part map -/

theorem or_eq_left_iff {α : Type} (a b : Option α) : a.or b = a ↔ (b.isSome → a.isSome) := by
  cases a <;> cases b <;> simp

theorem update_refines {p q : MessagePart} (h : Refines p q) :
    updatePartFields (toDocPart p) q = toDocPart q := by
  cases p <;> cases q <;> try exact h.elim
  case tool.tool id t id' t' =>
    obtain ⟨rfl, h⟩ := h
    have hresolved : (if t'.resolved then some t'.isError else none).or
        (if t.resolved then some t.isError else none) =
          if t'.resolved then some t'.isError else none := by
      rw [or_eq_left_iff]
      have hr := h.resolved
      revert hr
      cases t.resolved <;> cases t'.resolved <;> simp
    have hstatus : (t'.subagentStatus.map SubagentStatus.name).or
        (t.subagentStatus.map SubagentStatus.name) =
          t'.subagentStatus.map SubagentStatus.name := by
      rw [or_eq_left_iff]
      simpa using h.subagentStatus
    simp only [updatePartFields, toDocPart, hresolved, hstatus,
      (or_eq_left_iff _ _).mpr h.output, (or_eq_left_iff _ _).mpr h.diff,
      (or_eq_left_iff _ _).mpr h.outputRef, (or_eq_left_iff _ _).mpr h.outputBytes,
      (or_eq_left_iff _ _).mpr h.diffRef, (or_eq_left_iff _ _).mpr h.diffStats,
      (or_eq_left_iff _ _).mpr h.subagentRef, (or_eq_left_iff _ _).mpr h.subagentTail]
    rfl
  all_goals
    obtain rfl : _ = _ := h
    rfl

theorem tool_of_read {p : DocPart} {call : ToolCall} (hkind : p.kind = "tool")
    (hcall : p.call = some call) {r : MessagePart} (h : fromDocPart p = some r) :
    ∃ t, r = .tool p.id t := by
  by_cases hb : p.outputBytes.any (2 ^ 63 ≤ ·) = true
  · simp only [fromDocPart, hb, if_true] at h
    cases h
  · simp only [fromDocPart, hb, hkind, hcall] at h
    obtain ⟨call', -, rfl⟩ := Option.map_eq_some_iff.mp (by simpa using h)
    exact ⟨_, rfl⟩

theorem keeps_of_read {id id' : String} {t t' : ToolPart} (ht : (MessagePart.tool id t).Readable)
    (h : fromDocPart (updatePartFields (toDocPart (.tool id t)) (.tool id' t')) =
      some (.tool id' t')) : id = id' ∧ t.Keeps t' := by
  obtain ⟨-, -, hid, -, hresolved, houtput, hdiff, horef, hbytes, hdref, hstats, hsref, hstatus,
    htail⟩ := (read_tool rfl rfl id' t').mp h
  refine ⟨hid, ⟨?_, (or_eq_left_iff _ _).mp houtput, (or_eq_left_iff _ _).mp hdiff,
    (or_eq_left_iff _ _).mp horef, (or_eq_left_iff _ _).mp hbytes, (or_eq_left_iff _ _).mp hdref, ?_,
    (or_eq_left_iff _ _).mp hsref, ?_, (or_eq_left_iff _ _).mp htail⟩⟩
  · intro hr
    simpa [updatePartFields, toDocPart, hr] using hresolved
  · intro hs
    obtain ⟨l, hl⟩ := Option.isSome_iff_exists.mp hs
    have hfits : l.all ToolDiffStat.fits := ht.2.2.2 l hl
    cases hnew : t'.diffStats with
    | some _ => rfl
    | none => simp [updatePartFields, toDocPart, hnew, hl, Option.filter, hfits] at hstats
  · intro hs
    obtain ⟨s, hs⟩ := Option.isSome_iff_exists.mp hs
    cases hnew : t'.subagentStatus with
    | some _ => rfl
    | none => simp [updatePartFields, toDocPart, hnew, hs] at hstatus

theorem refines_of_read {p q : MessagePart} (hp : p.Readable)
    (h : fromDocPart (updatePartFields (toDocPart p) q) = some q.docId) : Refines p q := by
  cases p with
  | tool id t =>
    cases q with
    | tool id' t' => exact keeps_of_read hp h
    | _ =>
      obtain ⟨t', ht'⟩ := tool_of_read rfl rfl h
      cases ht'
  | image id path name mimeType =>
    obtain ⟨hpath, hname, hmime⟩ := hp
    cases q with
    | image id' path' name' mime' =>
      simp only [fromDocPart, updatePartFields, toDocPart, imagePart, MessagePart.docId,
        Option.some_or] at h
      split_ifs at h <;> simp at h
      exact h
    | _ =>
      simp [fromDocPart, updatePartFields, toDocPart, imagePart, MessagePart.docId, hpath, hname,
        hmime] at h
  | _ =>
    cases q <;> simp [fromDocPart, updatePartFields, toDocPart, MessagePart.docId] at h
    all_goals exact h

/-- **Reading back what is patched**: the new part, exactly when nothing was lost. -/
theorem read_update {p q : MessagePart} (hp : p.Readable) :
    fromDocPart (updatePartFields (toDocPart p) q) = some q.docId ↔ Refines p q ∧ q.Readable := by
  constructor
  · intro h
    have hrefines : Refines p q := refines_of_read hp h
    rw [update_refines hrefines] at h
    exact ⟨hrefines, (read_toDocPart q).mp h⟩
  · rintro ⟨hrefines, hq⟩
    rw [update_refines hrefines]
    exact (read_toDocPart q).mpr hq

/-! ## A sync over maps as first written -/

theorem delta_append {old new d : String} (h : delta old new = some d) : old ++ d = new := by
  unfold delta at h
  split_ifs at h with hprefix
  obtain rfl := Option.some.inj h
  obtain ⟨rest, hrest⟩ := List.isPrefixOf_iff_prefix.mp hprefix
  apply String.toList_injective
  rw [String.toList_append, String.toList_ofList, ← hrest, List.drop_left]

theorem grown_update {p q : MessagePart} {body : Body} {d : String}
    (h : grown p q = some (body, d)) : ∃ text, (toDocPart p).body body = some text ∧
      (toDocPart p).withBody (text ++ d) body = updatePartFields (toDocPart p) q := by
  cases p <;> cases q <;> simp only [grown] at h <;> try cases h
  case text.text id old id' new =>
    obtain ⟨d', hd, heq⟩ := Option.map_eq_some_iff.mp h
    obtain ⟨rfl, rfl⟩ := Prod.mk.inj heq
    exact ⟨old, rfl, by rw [delta_append hd]; rfl⟩
  case reasoning.reasoning id old id' new =>
    obtain ⟨d', hd, heq⟩ := Option.map_eq_some_iff.mp h
    obtain ⟨rfl, rfl⟩ := Prod.mk.inj heq
    exact ⟨old, rfl, by rw [delta_append hd]; rfl⟩

theorem withBody_self {p : DocPart} {body : Body} {text : String} (h : p.body body = some text) :
    p.withBody text body = p := by
  cases body with
  | text =>
    simp only [DocPart.body] at h
    simp only [DocPart.withBody, ← h]
  | reasoning =>
    simp only [DocPart.body] at h
    simp only [DocPart.withBody, ← h]

theorem set_self {α : Type} {l : List α} {i : ℕ} {a : α} (h : l[i]? = some a) : l.set i a = l := by
  apply List.ext_getElem?
  intro j
  by_cases hij : i = j
  · subst hij
    rw [List.getElem?_set_self (List.getElem?_eq_some_iff.mp h).1, h]
  · rw [List.getElem?_set_ne hij]

theorem syncPart_steady {w : SegmentWriter} {i : ℕ} {p : MessagePart} (q : MessagePart)
    (hw : w.written[i]? = some p) (hd : w.parts[i]? = some (toDocPart p)) :
    w.syncPart i q = .ok ⟨w.written.set i q, w.parts.set i (updatePartFields (toDocPart p) q)⟩ := by
  simp only [SegmentWriter.syncPart, hw, hd]
  split_ifs with heq
  · subst heq
    rw [update_refines (.refl p), set_self hw, set_self hd]
  · cases hg : grown p q with
    | none => rfl
    | some g =>
      obtain ⟨body, d⟩ := g
      obtain ⟨text, hbody, hupdate⟩ := grown_update hg
      simp only [hbody]
      split_ifs with hempty
      · rw [hempty, String.append_empty, withBody_self hbody] at hupdate
        rw [← hupdate, set_self hd]
      · rw [hupdate]

/-- The maps after a sync of `new` over maps of `old`. -/
def patched : List MessagePart → List MessagePart → List DocPart
  | old, [] => old.map toDocPart
  | [], new => new.map toDocPart
  | p :: old, q :: new => updatePartFields (toDocPart p) q :: patched old new

/-- **A sync over maps as first written** never fails and patches each of them. -/
theorem sync_steady (old new : List MessagePart) :
    (⟨old, old.map toDocPart⟩ : SegmentWriter).sync new =
      (⟨new ++ old.drop new.length, patched old new⟩, .ok ()) := by
  -- The loop has done `done`, whose maps are `docs`.
  have hloop (done : List MessagePart) (docs : List DocPart) (hlen : docs.length = done.length) :
      (⟨done ++ old, docs ++ old.map toDocPart⟩ : SegmentWriter).syncFrom done.length new =
        (⟨done ++ (new ++ old.drop new.length), docs ++ patched old new⟩, .ok ()) := by
    induction new generalizing done docs old with
    | nil => simp [SegmentWriter.syncFrom, patched]
    | cons q new ih =>
      cases old with
      | nil =>
        have hstep : (⟨done ++ [], docs ++ [].map toDocPart⟩ : SegmentWriter).syncPart
            done.length q = .ok ⟨(done ++ [q]) ++ [], (docs ++ [toDocPart q]) ++ [].map toDocPart⟩ := by
          simp [SegmentWriter.syncPart]
        have hrest := ih [] (done ++ [q]) (docs ++ [toDocPart q]) (by simp [hlen])
        rw [List.length_append, List.length_singleton] at hrest
        rw [SegmentWriter.syncFrom, hstep]
        refine hrest.trans ?_
        cases new <;> simp [patched]
      | cons p old =>
        have hstep : (⟨done ++ p :: old, docs ++ (p :: old).map toDocPart⟩ : SegmentWriter).syncPart
            done.length q = .ok ⟨(done ++ [q]) ++ old,
              (docs ++ [updatePartFields (toDocPart p) q]) ++ old.map toDocPart⟩ := by
          rw [syncPart_steady (p := p) q (by simp) (by simp [← hlen])]
          simp [← hlen]
        have hrest := ih old (done ++ [q]) (docs ++ [updatePartFields (toDocPart p) q])
          (by simp [hlen])
        rw [List.length_append, List.length_singleton] at hrest
        rw [SegmentWriter.syncFrom, hstep]
        refine hrest.trans ?_
        simp [patched]
  exact hloop [] [] rfl

theorem patched_extends {old new : List MessagePart} (h : Extends old new) :
    patched old new = new.map toDocPart := by
  induction old generalizing new with
  | nil => cases new <;> rfl
  | cons p old ih =>
    cases new with
    | nil => exact h.elim
    | cons q new => rw [patched, update_refines h.1, ih h.2, List.map_cons]

theorem readParts_cons (d : DocPart) (ds : List DocPart) (p : MessagePart)
    (ps : List MessagePart) : readParts (d :: ds) = some (p :: ps) ↔
      fromDocPart d = some p ∧ readParts ds = some ps := by
  simp [readParts, List.mapM_cons, Option.bind_eq_some_iff]

theorem readParts_cons_nil (d : DocPart) (ds : List DocPart) : readParts (d :: ds) ≠ some [] := by
  simp [readParts, List.mapM_cons, Option.bind_eq_some_iff]

theorem Extends.length_le {old new : List MessagePart} (h : Extends old new) :
    old.length ≤ new.length := by
  induction old generalizing new with
  | nil => exact Nat.zero_le _
  | cons p old ih =>
    cases new with
    | nil => exact h.elim
    | cons q new => exact Nat.succ_le_succ (ih h.2)

/-- **Reading back a sync**: the new parts, exactly when every old one is still there and every new
one can be read back. -/
theorem read_patched {old : List MessagePart} (hold : ∀ p ∈ old, p.Readable)
    (new : List MessagePart) : readParts (patched old new) = some (new.map MessagePart.docId) ↔
      Extends old new ∧ ∀ q ∈ new, q.Readable := by
  induction new generalizing old with
  | nil =>
    cases old with
    | nil => simp [patched, readParts, Extends]
    | cons p old => simpa [patched, Extends] using readParts_cons_nil _ _
  | cons q new ih =>
    cases old with
    | nil =>
      have hrest := ih hold
      have hnil (l : List MessagePart) : Extends [] l := trivial
      rw [patched_extends (hnil _)] at hrest ⊢
      rw [List.map_cons, List.map_cons, readParts_cons, read_toDocPart, hrest]
      simp [Extends]
    | cons p old =>
      obtain ⟨hp, hold⟩ := List.forall_mem_cons.mp hold
      rw [patched, List.map_cons, readParts_cons, read_update hp, ih hold, List.forall_mem_cons,
        Extends]
      tauto

/-! ## Runs -/

/-- An event is folded, or the writer syncs. -/
inductive SegmentAct where
  | event (e : AgentEvent)
  | sync

/-- A streaming segment: the parts folded so far, those of the last sync, and the writer. -/
structure Segment where
  folded : List MessagePart
  synced : List MessagePart
  writer : SegmentWriter

def Segment.start : Segment := { folded := [], synced := [], writer := .begin }

section Runs

variable (lineDiff : String → String → ℕ × ℕ)

def Segment.step (s : Segment) : SegmentAct → Segment
  | .event e => { s with folded := foldEvent lineDiff s.folded e }
  | .sync => { s with synced := s.folded, writer := (s.writer.sync s.folded).1 }

/-- `P` holds of the segment at every sync of a run. -/
def AtSyncs (P : Segment → Prop) : Segment → List SegmentAct → Prop
  | _, [] => True
  | s, .event e :: acts => AtSyncs P (s.step lineDiff (.event e)) acts
  | s, .sync :: acts => P s ∧ AtSyncs P (s.step lineDiff .sync) acts

/-- A sync here succeeds, and the document then reads back as the fold. -/
def Segment.Mirrors (s : Segment) : Prop :=
  (s.writer.sync s.folded).2 = .ok () ∧
    readParts (s.writer.sync s.folded).1.parts = some (s.folded.map MessagePart.docId)

/-- Every part of the last sync is still there, and every part can be read back. -/
def Segment.Kept (s : Segment) : Prop :=
  Extends s.synced s.folded ∧ ∀ q ∈ s.folded, q.Readable

/-- The maps are as the parts of the last sync were first written. -/
structure Segment.Steady (s : Segment) : Prop where
  writer : s.writer = ⟨s.synced, s.synced.map toDocPart⟩
  readable : ∀ p ∈ s.synced, p.Readable

theorem mirrors_iff {s : Segment} (h : s.Steady) : s.Mirrors ↔ s.Kept := by
  rw [Segment.Mirrors, h.writer, sync_steady]
  exact (and_iff_right rfl).trans (read_patched h.readable s.folded)

theorem steady_sync {s : Segment} (h : s.Steady) (hkept : s.Kept) :
    (s.step lineDiff .sync).Steady := by
  refine ⟨?_, hkept.2⟩
  have hdrop : s.synced.drop s.folded.length = [] :=
    List.drop_eq_nil_of_le hkept.1.length_le
  change (s.writer.sync s.folded).1 = _
  rw [h.writer, sync_steady, hdrop, patched_extends hkept.1, List.append_nil]
  rfl

theorem atSyncs_iff {s : Segment} (h : s.Steady) (acts : List SegmentAct) :
    AtSyncs lineDiff Segment.Mirrors s acts ↔ AtSyncs lineDiff Segment.Kept s acts := by
  induction acts generalizing s with
  | nil => exact Iff.rfl
  | cons a acts ih =>
    cases a with
    | event e => exact ih ⟨h.writer, h.readable⟩
    | sync =>
      rw [AtSyncs, AtSyncs, mirrors_iff h]
      exact and_congr_right fun hkept => ih (steady_sync lineDiff h hkept)

/-- **The segment writer mirrors the fold** at every sync of a run, exactly when from one sync to
the next no part disappears, changes its kind or id or loses a field, and every part survives the
document. -/
theorem segment_mirrors (acts : List SegmentAct) :
    AtSyncs lineDiff Segment.Mirrors .start acts ↔ AtSyncs lineDiff Segment.Kept .start acts :=
  atSyncs_iff lineDiff ⟨rfl, by simp [Segment.start]⟩ acts

end Runs

/-- A result without a diff takes the stats that a sync has written; the next sync leaves them in
the document. -/
theorem stale_stats : ¬ ([.event (.toolCall "a" (.exec "ls")),
    .event (.toolDiffStats "a" [⟨"f", 1, 0⟩]), .sync,
    .event (.toolResult "a" false none none)].foldl
      (Segment.step fun _ _ => (0, 0)) .start).Mirrors := by
  rintro ⟨-, hread⟩
  revert hread
  decide +kernel

end Zeron.Session
