import Mathlib

/-!
# The command ledger of a session document

`commands.rs` and the ledger half of `schema.rs`: the entries, the evaluation of a pending one, and
the three operations of the document on them.

* `SessionCommandEntry`, `evaluateCommand`;
* `Doc`: the command list and the ids of the transcript's entries;
* `Doc.queueCommand`, `Doc.setCommandStatus`, `Doc.writeUserMessage`, and `Doc.deliver`, a row that
  an import brings.
-/

namespace Zeron.Command

/-- `COMMAND_DEFAULT_TTL_MS`. -/
def commandDefaultTtlMs : ℤ := 24 * 60 * 60 * 1000

inductive SessionCommandKind where
  | run
  | steer
  | interrupt
  | respondInput
  deriving DecidableEq, Repr

inductive SessionCommandStatus where
  | pending
  | applied
  | rejected
  | expired
  | superseded
  | cancelled
  deriving DecidableEq, Repr

/-- `SessionCommandPayload`; of a run's request, the prompt. -/
inductive SessionCommandPayload where
  | run (prompt messageId : String)
  | steer (prompt : String) (messageId : Option String)
  | interrupt
  | respondInput (requestId : String)
  deriving DecidableEq, Repr

def SessionCommandPayload.kind : SessionCommandPayload → SessionCommandKind
  | .run _ _ => .run
  | .steer _ _ => .steer
  | .interrupt => .interrupt
  | .respondInput _ => .respondInput

/-- The id of the user message a command sends. -/
def SessionCommandPayload.messageId : SessionCommandPayload → Option String
  | .run _ messageId => some messageId
  | .steer _ messageId => messageId
  | _ => none

/-- `CommandBasedOn`. -/
structure CommandBasedOn where
  turnId : Option String
  deriving DecidableEq, Repr

/-- `SessionCommandEntry`. -/
structure SessionCommandEntry where
  id : String
  payload : SessionCommandPayload
  issuedBy : String
  issuedAt : ℤ
  basedOn : Option CommandBasedOn
  expiresAt : Option ℤ
  status : SessionCommandStatus
  resolution : Option String
  deriving DecidableEq, Repr

namespace SessionCommandEntry

def kind (entry : SessionCommandEntry) : SessionCommandKind := entry.payload.kind

def messageId (entry : SessionCommandEntry) : Option String := entry.payload.messageId

def effectiveExpiry (entry : SessionCommandEntry) : ℤ :=
  entry.expiresAt.getD (entry.issuedAt + commandDefaultTtlMs)

end SessionCommandEntry

inductive CommandDisposition where
  | skip
  | expired
  | superseded
  | execute
  deriving DecidableEq, Repr

/-- `EvaluationContext`. -/
structure EvaluationContext where
  isProcessed : String → Bool
  nowMs : ℤ
  entries : List SessionCommandEntry
  currentTurnId : Option String
  turnIsPast : String → Bool

/-- `evaluate_command`. -/
def evaluateCommand (entry : SessionCommandEntry) (cx : EvaluationContext) : CommandDisposition :=
  if cx.isProcessed entry.id then .skip
  else if cx.nowMs ≥ entry.effectiveExpiry then .expired
  else if entry.kind = .interrupt ∧ ∃ other ∈ cx.entries, other.id ≠ entry.id ∧
      other.kind = entry.kind ∧ other.status = .pending ∧ other.issuedAt > entry.issuedAt then
    .superseded
  else
    match entry.kind, entry.basedOn.bind (·.turnId) with
    | .interrupt, some turnId =>
      if cx.currentTurnId ≠ some turnId ∧ cx.turnIsPast turnId then .superseded else .execute
    | _, _ => .execute

/-! ## The document -/

/-- What the command plane reads of a session document: the ledger, and the ids of the
transcript's entries in order. -/
structure Doc where
  commands : List SessionCommandEntry
  messages : List String
  deriving DecidableEq, Repr

namespace Doc

/-- `queue_command`; the resolution is not stored. -/
def queueCommand (doc : Doc) (entry : SessionCommandEntry) : Doc :=
  { doc with commands := doc.commands ++ [{ entry with resolution := none }] }

/-- The first row under an id is rewritten. -/
def setFirst (id : String) (f : SessionCommandEntry → SessionCommandEntry) :
    List SessionCommandEntry → Option (List SessionCommandEntry)
  | [] => none
  | c :: rest => if c.id = id then some (f c :: rest) else (setFirst id f rest).map (c :: ·)

/-- `set_command_status`; `none` is "command not found". -/
def setCommandStatus (doc : Doc) (id : String) (status : SessionCommandStatus)
    (resolution : Option String) : Option Doc :=
  (setFirst id (fun c => { c with status, resolution := resolution.or c.resolution })
    doc.commands).map fun commands => { doc with commands }

/-- `write_user_message`. -/
def writeUserMessage (doc : Doc) (messageId : String) : Doc :=
  { doc with
    messages := if messageId ∈ doc.messages then doc.messages else doc.messages ++ [messageId] }

/-- A row of another replica's document arrives. A row that is not there is added; a pending row
takes the outcome that the other replica has seen. -/
def deliver (doc : Doc) (row : SessionCommandEntry) : Doc :=
  { doc with
    commands :=
      if row.id ∈ doc.commands.map (·.id) then
        doc.commands.map fun c =>
          if c.id = row.id ∧ c.status = .pending ∧ row.status ≠ .pending then
            { c with status := row.status, resolution := row.resolution }
          else c
      else doc.commands ++ [row] }

/-- The ids of the rows. -/
def ids (doc : Doc) : List String := doc.commands.map (·.id)

/-- A row of the document has the status. -/
def Shows (doc : Doc) (id : String) (status : SessionCommandStatus) : Prop :=
  ∃ c ∈ doc.commands, c.id = id ∧ c.status = status

instance (doc : Doc) (id : String) (status : SessionCommandStatus) :
    Decidable (doc.Shows id status) :=
  inferInstanceAs (Decidable (∃ c ∈ doc.commands, c.id = id ∧ c.status = status))

section SetFirst

variable {id : String} {f : SessionCommandEntry → SessionCommandEntry}
  {l l' : List SessionCommandEntry}

theorem setFirst_eq_none (h : setFirst id f l = none) : ∀ c ∈ l, c.id ≠ id := by
  induction l with
  | nil => simp
  | cons c rest ih =>
    unfold setFirst at h
    split at h
    · cases h
    · rw [Option.map_eq_none_iff] at h
      exact List.forall_mem_cons.mpr ⟨‹_›, ih h⟩

theorem setFirst_split (h : setFirst id f l = some l') :
    ∃ pre c post, l = pre ++ c :: post ∧ c.id = id ∧ l' = pre ++ f c :: post := by
  induction l generalizing l' with
  | nil => cases h
  | cons c rest ih =>
    unfold setFirst at h
    split at h
    · cases h
      exact ⟨[], c, rest, rfl, ‹_›, rfl⟩
    · rw [Option.map_eq_some_iff] at h
      obtain ⟨rest', hrest, rfl⟩ := h
      obtain ⟨pre, d, post, rfl, hd, rfl⟩ := ih hrest
      exact ⟨c :: pre, d, post, rfl, hd, rfl⟩

end SetFirst

section SetStatus

variable {doc doc' : Doc} {id : String} {status : SessionCommandStatus} {resolution : Option String}

/-- **What an outcome write does**: one row under the id takes the status. -/
theorem setCommandStatus_split (h : doc.setCommandStatus id status resolution = some doc') :
    doc'.messages = doc.messages ∧ ∃ (pre : List SessionCommandEntry) (c : SessionCommandEntry)
      (post : List SessionCommandEntry), doc.commands = pre ++ c :: post ∧ c.id = id ∧
      doc'.commands =
        pre ++ { c with status, resolution := resolution.or c.resolution } :: post := by
  rw [setCommandStatus, Option.map_eq_some_iff] at h
  obtain ⟨commands, hset, rfl⟩ := h
  exact ⟨rfl, setFirst_split hset⟩

theorem setCommandStatus_isSome (h : id ∈ doc.ids) (status : SessionCommandStatus)
    (resolution : Option String) : ∃ doc', doc.setCommandStatus id status resolution = some doc' := by
  obtain ⟨c, hc, hid⟩ := List.mem_map.mp h
  rw [setCommandStatus]
  cases hset : setFirst id (fun c => { c with status, resolution := resolution.or c.resolution })
    doc.commands with
  | none => exact absurd hid (setFirst_eq_none hset c hc)
  | some commands => exact ⟨_, rfl⟩

theorem ids_setCommandStatus (h : doc.setCommandStatus id status resolution = some doc') :
    doc'.ids = doc.ids := by
  obtain ⟨-, pre, c, post, hsplit, -, hsplit'⟩ := setCommandStatus_split h
  rw [ids, ids, hsplit, hsplit']
  simp

theorem shows_setCommandStatus (h : doc.setCommandStatus id status resolution = some doc') :
    doc'.Shows id status := by
  obtain ⟨-, pre, c, post, -, hid, hsplit'⟩ := setCommandStatus_split h
  refine ⟨{ c with status, resolution := resolution.or c.resolution }, ?_, hid, rfl⟩
  rw [hsplit']
  exact List.mem_append_right _ List.mem_cons_self

theorem shows_setCommandStatus_of_ne (h : doc.setCommandStatus id status resolution = some doc')
    {id' : String} (hne : id' ≠ id) {status' : SessionCommandStatus} (hs : doc.Shows id' status') :
    doc'.Shows id' status' := by
  obtain ⟨-, pre, c, post, hsplit, hid, hsplit'⟩ := setCommandStatus_split h
  obtain ⟨d, hd, hdid, hdstatus⟩ := hs
  refine ⟨d, ?_, hdid, hdstatus⟩
  have hdc : d ≠ c := by
    rintro rfl
    exact hne (hdid.symm.trans hid)
  rw [hsplit, List.mem_append, List.mem_cons] at hd
  rw [hsplit', List.mem_append, List.mem_cons]
  exact hd.imp_right fun hd => .inr (hd.resolve_left hdc)

end SetStatus

/-! ## Imports -/

section Deliver

variable {doc : Doc} {row c : SessionCommandEntry}

theorem deliver_of_mem (h : row.id ∈ doc.ids) :
    (doc.deliver row).commands = doc.commands.map fun c =>
      if c.id = row.id ∧ c.status = .pending ∧ row.status ≠ .pending then
        { c with status := row.status, resolution := row.resolution }
      else c := if_pos h

theorem deliver_of_notMem (h : row.id ∉ doc.ids) :
    (doc.deliver row).commands = doc.commands ++ [row] := if_neg h

theorem mem_deliver (hc : c ∈ (doc.deliver row).commands) :
    c ∈ doc.commands ∨ (c = row ∧ row.id ∉ doc.ids) ∨
      ∃ d ∈ doc.commands, d.id = row.id ∧ d.status = .pending ∧ row.status ≠ .pending ∧
        c = { d with status := row.status, resolution := row.resolution } := by
  by_cases hrow : row.id ∈ doc.ids
  · rw [deliver_of_mem hrow] at hc
    obtain ⟨d, hd, rfl⟩ := List.mem_map.mp hc
    split
    · rename_i h
      exact .inr (.inr ⟨d, hd, h.1, h.2.1, h.2.2, rfl⟩)
    · exact .inl hd
  · rw [deliver_of_notMem hrow] at hc
    rcases List.mem_append.mp hc with hc | hc
    · exact .inl hc
    · exact .inr (.inl ⟨List.mem_singleton.mp hc, hrow⟩)

theorem mem_deliver_or (row : SessionCommandEntry) (hc : c ∈ doc.commands) :
    c ∈ (doc.deliver row).commands ∨
      (c.id = row.id ∧ c.status = .pending ∧ row.status ≠ .pending) := by
  by_cases hrow : row.id ∈ doc.ids
  · rw [deliver_of_mem hrow]
    by_cases h : c.id = row.id ∧ c.status = .pending ∧ row.status ≠ .pending
    · exact .inr h
    · exact .inl (List.mem_map.mpr ⟨c, hc, if_neg h⟩)
  · rw [deliver_of_notMem hrow]
    exact .inl (List.mem_append_left _ hc)

theorem nodup_deliver (h : doc.ids.Nodup) (row : SessionCommandEntry) :
    (doc.deliver row).ids.Nodup := by
  by_cases hrow : row.id ∈ doc.ids
  · rw [ids, deliver_of_mem hrow, List.map_map]
    refine (List.map_congr_left fun c _ => ?_ : _ = doc.ids) ▸ h
    rw [Function.comp_apply]
    split <;> rfl
  · rw [ids, deliver_of_notMem hrow, List.map_append]
    exact List.nodup_append.mpr ⟨h, List.nodup_singleton _, by
      rintro id hid _ hid' rfl
      rw [List.mem_singleton.mp hid'] at hid
      exact hrow hid⟩

theorem ids_deliver {id : String} (h : id ∈ doc.ids) : id ∈ (doc.deliver row).ids := by
  obtain ⟨c, hc, rfl⟩ := List.mem_map.mp h
  by_cases hrow : row.id ∈ doc.ids
  · rw [ids, deliver_of_mem hrow]
    refine List.mem_map.mpr ⟨_, List.mem_map_of_mem hc, ?_⟩
    split <;> rfl
  · rw [ids, deliver_of_notMem hrow]
    exact List.mem_map.mpr ⟨c, List.mem_append_left _ hc, rfl⟩

theorem mem_deliver_of_mem (hc : c ∈ doc.commands) (hstatus : c.status ≠ .pending) :
    c ∈ (doc.deliver row).commands := by
  by_cases hrow : row.id ∈ doc.ids
  · rw [deliver_of_mem hrow]
    exact List.mem_map.mpr ⟨c, hc, if_neg fun h => hstatus h.2.1⟩
  · rw [deliver_of_notMem hrow]
    exact List.mem_append_left _ hc

theorem shows_deliver {id : String} {status : SessionCommandStatus} (hstatus : status ≠ .pending)
    (h : doc.Shows id status) : (doc.deliver row).Shows id status := by
  obtain ⟨c, hc, hid, rfl⟩ := h
  exact ⟨c, mem_deliver_of_mem hc hstatus, hid, rfl⟩

end Deliver

end Doc

end Zeron.Command
