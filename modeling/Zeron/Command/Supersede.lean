import Zeron.Command.Entry

/-!
# Interrupts and their successors

`drain_commands` alone: no other call drains, relays or retries beside it.

* `drain`: the loop over the rows, with the dispositions it comes to;
* `queue`: the rows that it evaluates; `judged`: their dispositions, from the rows alone;
  **`drain_eq_judged`**;
* **`interrupt_heard_iff`**: when a drain executes an interrupt;
* `moot_successor_wins`: a newer interrupt whose turn is past.
-/

namespace Zeron.Command

/-- What a pass of the loop reads beside the rows, and whether an execution succeeds. -/
structure Reading where
  nowMs : ℤ
  messages : List String
  ok : Bool

/-- The context of an evaluation. -/
def Reading.context (r : Reading) (processed : Finset String)
    (commands : List SessionCommandEntry) : EvaluationContext where
  isProcessed := fun id => decide (id ∈ processed)
  nowMs := r.nowMs
  entries := commands
  currentTurnId := r.messages.getLast?
  turnIsPast := fun turnId => decide (turnId ∈ r.messages)

/-- `resolve_command`: the first row under the id takes the status. -/
def resolve (id : String) (status : SessionCommandStatus) (resolution : Option String)
    (commands : List SessionCommandEntry) : List SessionCommandEntry :=
  (Doc.setFirst id (fun c => { c with status, resolution := resolution.or c.resolution })
    commands).getD commands

/-- A pending row that the ledger has. -/
def SessionCommandEntry.Dead (processed : Finset String) (c : SessionCommandEntry) : Prop :=
  c.status = .pending ∧ c.id ∈ processed

/-- A pending row that the ledger does not have. -/
def SessionCommandEntry.Due (processed : Finset String) (c : SessionCommandEntry) : Prop :=
  c.status = .pending ∧ c.id ∉ processed

instance (processed : Finset String) : DecidablePred (SessionCommandEntry.Dead processed) :=
  fun _ => inferInstanceAs (Decidable (_ ∧ _))

instance (processed : Finset String) : DecidablePred (SessionCommandEntry.Due processed) :=
  fun _ => inferInstanceAs (Decidable (_ ∧ _))

/-- The dead-command sweep. -/
def sweep (processed : Finset String) (commands : List SessionCommandEntry) :
    List SessionCommandEntry :=
  (commands.filter (·.Dead processed)).foldl (fun commands c => resolve c.id .rejected
    (some "interrupted before completion — retry to send again") commands) commands

/-- The status a disposition ends in. -/
def CommandDisposition.status (ok : Bool) : CommandDisposition → SessionCommandStatus
  | .expired => .expired
  | .superseded => .superseded
  | .execute => if ok then .applied else .rejected
  | .skip => .rejected

/-- `drain_commands`, with the rows it evaluates and their dispositions; `k` counts the passes of
the loop. -/
def drain (reading : ℕ → Reading) : ℕ → ℕ → List SessionCommandEntry → Finset String →
    List (SessionCommandEntry × CommandDisposition)
  | 0, _, _, _ => []
  | fuel + 1, k, commands, processed =>
    match commands.find? (·.Due processed) with
    | none => []
    | some entry =>
      let disposition := evaluateCommand entry ((reading k).context processed commands)
      (entry, disposition) :: drain reading fuel (k + 1)
        (resolve entry.id (disposition.status (reading k).ok) none (sweep processed commands))
        (insert entry.id processed)

/-- A drain of all rows. -/
def drained (reading : ℕ → Reading) (processed : Finset String)
    (commands : List SessionCommandEntry) : List (SessionCommandEntry × CommandDisposition) :=
  drain reading commands.length 0 commands processed

/-! ## The rows that are left -/

def pending (commands : List SessionCommandEntry) : List SessionCommandEntry :=
  commands.filter (·.status = .pending)

/-- The rows that a drain evaluates, in order. -/
def queue (processed : Finset String) (commands : List SessionCommandEntry) :
    List SessionCommandEntry :=
  commands.filter (·.Due processed)

@[simp]
theorem pending_append (l l' : List SessionCommandEntry) :
    pending (l ++ l') = pending l ++ pending l' := List.filter_append ..

theorem pending_cons_of_eq {c : SessionCommandEntry} {l : List SessionCommandEntry}
    (h : c.status = .pending) : pending (c :: l) = c :: pending l :=
  List.filter_cons_of_pos (decide_eq_true h)

theorem pending_cons_of_ne {c : SessionCommandEntry} {l : List SessionCommandEntry}
    (h : c.status ≠ .pending) : pending (c :: l) = pending l :=
  List.filter_cons_of_neg (by simpa using h)

section Resolve

variable {id : String} {status : SessionCommandStatus} {resolution : Option String}
  {commands : List SessionCommandEntry}

theorem ids_resolve (id : String) (status : SessionCommandStatus) (resolution : Option String)
    (commands : List SessionCommandEntry) :
    (resolve id status resolution commands).map (·.id) = commands.map (·.id) := by
  unfold resolve
  cases h : Doc.setFirst id (fun c => { c with status, resolution := resolution.or c.resolution })
    commands with
  | none => rfl
  | some commands' =>
    obtain ⟨pre, c, post, rfl, -, rfl⟩ := Doc.setFirst_split h
    simp

theorem pending_resolve (hids : (commands.map (·.id)).Nodup) (hs : status ≠ .pending) :
    pending (resolve id status resolution commands) = (pending commands).filter (·.id ≠ id) := by
  unfold resolve
  cases h : Doc.setFirst id (fun c => { c with status, resolution := resolution.or c.resolution })
    commands with
  | none =>
    symm
    refine List.filter_eq_self.mpr fun c hc => ?_
    simpa using Doc.setFirst_eq_none h c (List.mem_of_mem_filter hc)
  | some commands' =>
    obtain ⟨pre, c, post, rfl, rfl, rfl⟩ := Doc.setFirst_split h
    have hother : ∀ l : List SessionCommandEntry, (∀ d ∈ l, d.id ≠ c.id) →
        (pending l).filter (·.id ≠ c.id) = pending l := fun l hl =>
      List.filter_eq_self.mpr fun d hd => by simpa using hl d (List.mem_of_mem_filter hd)
    rw [List.map_append, List.map_cons, List.nodup_append, List.nodup_cons] at hids
    obtain ⟨-, ⟨hpost, -⟩, hpre⟩ := hids
    have hpre' : ∀ d ∈ pre, d.id ≠ c.id := fun d hd =>
      hpre _ (List.mem_map_of_mem hd) _ List.mem_cons_self
    have hpost' : ∀ d ∈ post, d.id ≠ c.id := fun d hd heq =>
      hpost (heq ▸ List.mem_map_of_mem hd)
    rw [Option.getD_some, pending_append, pending_cons_of_ne hs, pending_append,
      List.filter_append, hother pre hpre']
    by_cases hc : c.status = .pending
    · rw [pending_cons_of_eq hc, List.filter_cons_of_neg (by simp), hother post hpost']
    · rw [pending_cons_of_ne hc, hother post hpost']

theorem pending_foldl_resolve (hs : status ≠ .pending) (rows : List SessionCommandEntry)
    (hids : (commands.map (·.id)).Nodup) :
    pending (rows.foldl (fun commands c => resolve c.id status resolution commands) commands) =
      (pending commands).filter fun c => ∀ d ∈ rows, c.id ≠ d.id := by
  induction rows generalizing commands with
  | nil => simp
  | cons d rows ih =>
    rw [List.foldl_cons, ih (by rwa [ids_resolve]), pending_resolve hids hs, List.filter_filter]
    refine List.filter_congr fun c _ => ?_
    simp [Bool.and_comm]

end Resolve

theorem ids_foldl_resolve (status : SessionCommandStatus) (resolution : Option String)
    (rows commands : List SessionCommandEntry) :
    (rows.foldl (fun commands c => resolve c.id status resolution commands) commands).map (·.id) =
      commands.map (·.id) := by
  induction rows generalizing commands with
  | nil => rfl
  | cons d rows ih => rw [List.foldl_cons, ih, ids_resolve]

section Sweep

variable {processed : Finset String} {commands rest : List SessionCommandEntry}
  {entry : SessionCommandEntry}

theorem mem_pending {c : SessionCommandEntry} :
    c ∈ pending commands ↔ c ∈ commands ∧ c.status = .pending := by
  simp [pending]

theorem queue_eq (processed : Finset String) (commands : List SessionCommandEntry) :
    queue processed commands = (pending commands).filter (·.id ∉ processed) := by
  rw [queue, pending, List.filter_filter]
  refine List.filter_congr fun c _ => ?_
  rw [Bool.eq_iff_iff, decide_eq_true_iff]
  simp [SessionCommandEntry.Due, and_comm]

theorem pending_sweep (hids : (commands.map (·.id)).Nodup) :
    pending (sweep processed commands) = queue processed commands := by
  rw [sweep, pending_foldl_resolve (by decide) _ hids, queue_eq]
  refine List.filter_congr fun c hc => ?_
  rw [decide_eq_decide]
  constructor
  · intro h hp
    exact h c (List.mem_filter.mpr ⟨(mem_pending.mp hc).1,
      decide_eq_true ⟨(mem_pending.mp hc).2, hp⟩⟩) rfl
  · intro h d hd heq
    have hdead : d.Dead processed := of_decide_eq_true (List.mem_filter.mp hd).2
    exact h (heq ▸ hdead.2)

theorem nodup_queue (hids : (commands.map (·.id)).Nodup) :
    ((queue processed commands).map (·.id)).Nodup :=
  hids.sublist (List.filter_sublist.map _)

/-- **What a pass leaves**: of the rows that are pending, those that the drain has yet to evaluate.
The dead rows are gone after the first pass. -/
theorem pending_pass (hids : (commands.map (·.id)).Nodup)
    (hq : queue processed commands = entry :: rest) {status : SessionCommandStatus}
    (hs : status ≠ .pending) :
    pending (resolve entry.id status none (sweep processed commands)) = rest ∧
      queue (insert entry.id processed)
        (resolve entry.id status none (sweep processed commands)) = rest := by
  have hnodup : ((queue processed commands).map (·.id)).Nodup := nodup_queue hids
  rw [hq, List.map_cons, List.nodup_cons] at hnodup
  have hrest : ∀ c ∈ rest, c.id ≠ entry.id := fun c hc heq =>
    hnodup.1 (heq ▸ List.mem_map_of_mem hc)
  have hpending : pending (resolve entry.id status none (sweep processed commands)) = rest := by
    rw [pending_resolve (by rwa [sweep, ids_foldl_resolve]) hs, pending_sweep hids, hq,
      List.filter_cons_of_neg (by simp)]
    exact List.filter_eq_self.mpr fun c hc => by simpa using hrest c hc
  refine ⟨hpending, ?_⟩
  rw [queue_eq, hpending]
  refine List.filter_eq_self.mpr fun c hc => ?_
  have hc' : c ∈ queue processed commands := hq ▸ List.mem_cons_of_mem _ hc
  have hfresh : c.id ∉ processed := (of_decide_eq_true (List.mem_filter.mp hc').2 : c.Due _).2
  simpa using ⟨hrest c hc, hfresh⟩

end Sweep

/-! ## The dispositions of a drain -/

/-- What becomes of an entry, with these rows pending beside it. -/
def judge (r : Reading) (rivals : List SessionCommandEntry) (entry : SessionCommandEntry) :
    CommandDisposition :=
  evaluateCommand entry (r.context ∅ rivals)

/-- The entry would be executed if it were the only one. -/
def SessionCommandEntry.Alone (r : Reading) (entry : SessionCommandEntry) : Prop :=
  judge r [entry] entry = .execute

/-- The entry is an interrupt, and the other one is a newer interrupt. -/
def SessionCommandEntry.Newer (entry other : SessionCommandEntry) : Prop :=
  other.id ≠ entry.id ∧ other.kind = .interrupt ∧ other.issuedAt > entry.issuedAt

/-- The dispositions of a queue, where each entry has those behind it as rivals. -/
def judged (reading : ℕ → Reading) : ℕ → List SessionCommandEntry →
    List (SessionCommandEntry × CommandDisposition)
  | _, [] => []
  | k, entry :: rest =>
    (entry, judge (reading k) (entry :: rest) entry) :: judged reading (k + 1) rest

section Judge

variable {r : Reading} {processed : Finset String} {commands : List SessionCommandEntry}
  {entry : SessionCommandEntry}

theorem evaluate_eq_judge (h : entry.id ∉ processed) :
    evaluateCommand entry (r.context processed commands) = judge r (pending commands) entry := by
  have hrival : (∃ other ∈ commands, other.id ≠ entry.id ∧ other.kind = entry.kind ∧
      other.status = .pending ∧ other.issuedAt > entry.issuedAt) ↔
      ∃ other ∈ pending commands, other.id ≠ entry.id ∧ other.kind = entry.kind ∧
        other.status = .pending ∧ other.issuedAt > entry.issuedAt := by
    simp only [mem_pending]
    grind
  simp only [judge, evaluateCommand, Reading.context, hrival, h, decide_false, Finset.notMem_empty,
    decide_eq_true_eq]

theorem judge_eq_execute_iff {rivals : List SessionCommandEntry} (h : entry.kind = .interrupt) :
    judge r rivals entry = .execute ↔
      entry.Alone r ∧ ∀ other ∈ rivals, other.status = .pending → ¬entry.Newer other := by
  unfold SessionCommandEntry.Alone judge evaluateCommand SessionCommandEntry.Newer
  simp only [Reading.context, Finset.notMem_empty, decide_false, h]
  by_cases hexp : r.nowMs ≥ entry.effectiveExpiry
  · simp [hexp]
  · by_cases hrival : ∃ other ∈ rivals, other.id ≠ entry.id ∧ other.kind = .interrupt ∧
      other.status = .pending ∧ other.issuedAt > entry.issuedAt
    · simp only [hexp, hrival]
      grind
    · simp only [hexp, hrival]
      grind

theorem judge_ne_superseded {rivals : List SessionCommandEntry} (h : entry.kind ≠ .interrupt) :
    judge r rivals entry ≠ .superseded := by
  unfold judge evaluateCommand
  grind [Reading.context]

end Judge

section Drain

variable {reading : ℕ → Reading} {processed : Finset String}
  {commands : List SessionCommandEntry}

theorem status_ne_pending (ok : Bool) (d : CommandDisposition) : d.status ok ≠ .pending := by
  cases d <;> cases ok <;> decide

theorem drain_succ (fuel k : ℕ) {entry : SessionCommandEntry} {rest : List SessionCommandEntry}
    (hq : queue processed commands = entry :: rest) :
    drain reading (fuel + 1) k commands processed =
      (entry, judge (reading k) (pending commands) entry) ::
        drain reading fuel (k + 1)
          (resolve entry.id ((judge (reading k) (pending commands) entry).status (reading k).ok)
            none (sweep processed commands)) (insert entry.id processed) := by
  have hfind : commands.find? (·.Due processed) = some entry := by
    rw [← List.head?_filter]
    exact congrArg List.head? hq
  have hfresh : entry.id ∉ processed :=
    (of_decide_eq_true (List.mem_filter.mp (hq ▸ List.mem_cons_self :
      entry ∈ queue processed commands)).2 : entry.Due _).2
  rw [drain, hfind]
  simp only [evaluate_eq_judge hfresh]

theorem drain_eq_judged (fuel k : ℕ) {rest : List SessionCommandEntry}
    (hids : (commands.map (·.id)).Nodup) (hq : queue processed commands = rest)
    (hp : pending commands = rest) (hfuel : rest.length ≤ fuel) :
    drain reading fuel k commands processed = judged reading k rest := by
  induction rest generalizing fuel k commands processed with
  | nil =>
    have hfind : commands.find? (·.Due processed) = none := by
      rw [← List.head?_filter]
      exact congrArg List.head? hq
    cases fuel with
    | zero => rfl
    | succ fuel => rw [drain, hfind, judged]
  | cons entry rest ih =>
    obtain ⟨fuel, rfl⟩ : ∃ n, fuel = n + 1 := Nat.exists_eq_succ_of_ne_zero (by
      rintro rfl
      simp at hfuel)
    obtain ⟨hp', hq'⟩ := pending_pass hids hq
      (status_ne_pending (reading k).ok (judge (reading k) (pending commands) entry))
    rw [drain_succ fuel k hq, judged,
      ih fuel (k + 1) (by rwa [ids_resolve, sweep, ids_foldl_resolve]) hq' hp'
        (by simpa using hfuel), hp]

/-- **A drain, from the rows alone**: the first row that it evaluates has every pending row as a
rival, each later one those behind it. -/
theorem drained_eq (hids : (commands.map (·.id)).Nodup) :
    drained reading processed commands =
      match queue processed commands with
      | [] => []
      | entry :: rest =>
        (entry, judge (reading 0) (pending commands) entry) :: judged reading 1 rest := by
  have hlen : (queue processed commands).length ≤ commands.length := List.length_filter_le ..
  cases hq : queue processed commands with
  | nil =>
    have hfind : commands.find? (·.Due processed) = none := by
      rw [← List.head?_filter]
      exact congrArg List.head? hq
    rw [drained]
    cases commands with
    | nil => rfl
    | cons c commands => rw [List.length_cons, drain, hfind]
  | cons entry rest =>
    rw [hq] at hlen
    obtain ⟨fuel, hfuel⟩ : ∃ n, commands.length = n + 1 := Nat.exists_eq_succ_of_ne_zero (by
      intro h
      simp [h] at hlen)
    obtain ⟨hp', hq'⟩ := pending_pass hids hq
      (status_ne_pending (reading 0).ok (judge (reading 0) (pending commands) entry))
    rw [drained, hfuel, drain_succ fuel 0 hq,
      drain_eq_judged fuel 1 (by rwa [ids_resolve, sweep, ids_foldl_resolve]) hq' hp'
        (by rw [List.length_cons] at hlen; omega)]

end Drain

/-! ## Interrupts -/

section Interrupt

variable {reading : ℕ → Reading} {processed : Finset String}
  {commands : List SessionCommandEntry}

/-- There is an interrupt that would be executed if it were the only entry. -/
def Wanted (reading : ℕ → Reading) (processed : Finset String)
    (commands : List SessionCommandEntry) : Prop :=
  ∃ e ∈ queue processed commands, e.kind = .interrupt ∧ ∀ k, e.Alone (reading k)

/-- There is an interrupt that would be executed if it were the only entry in its turn, with no
newer one among the rows behind it and, if it is the first row of the drain, among the dead rows. -/
def Heard (reading : ℕ → Reading) (processed : Finset String)
    (commands : List SessionCommandEntry) : Prop :=
  ∃ (pre : List SessionCommandEntry) (e : SessionCommandEntry) (post : List SessionCommandEntry),
    queue processed commands = pre ++ e :: post ∧ e.kind = .interrupt ∧ e.Alone (reading pre.length) ∧
    (∀ other ∈ post, ¬e.Newer other) ∧
    (pre = [] → ∀ other ∈ commands, other.Dead processed → ¬e.Newer other)

/-- A drain executes an interrupt. -/
def Interrupted (reading : ℕ → Reading) (processed : Finset String)
    (commands : List SessionCommandEntry) : Prop :=
  ∃ x ∈ drained reading processed commands, x.1.kind = .interrupt ∧ x.2 = .execute

theorem mem_judged {k : ℕ} {rest : List SessionCommandEntry}
    {x : SessionCommandEntry × CommandDisposition} :
    x ∈ judged reading k rest ↔ ∃ (pre : List SessionCommandEntry) (e : SessionCommandEntry)
      (post : List SessionCommandEntry), rest = pre ++ e :: post ∧
      x = (e, judge (reading (k + pre.length)) (e :: post) e) := by
  induction rest generalizing k with
  | nil => simp [judged]
  | cons entry rest ih =>
    rw [judged, List.mem_cons, ih]
    constructor
    · rintro (rfl | ⟨pre, e, post, rfl, rfl⟩)
      · exact ⟨[], entry, rest, rfl, rfl⟩
      · refine ⟨entry :: pre, e, post, rfl, ?_⟩
        rw [List.length_cons, Nat.add_right_comm, Nat.add_assoc]
    · rintro ⟨pre, e, post, heq, rfl⟩
      cases pre with
      | nil =>
        cases heq
        exact .inl rfl
      | cons c pre =>
        cases heq
        refine .inr ⟨pre, e, post, rfl, ?_⟩
        rw [List.length_cons, Nat.add_right_comm, Nat.add_assoc]

theorem pending_of_mem_queue {c : SessionCommandEntry} (h : c ∈ queue processed commands) :
    c ∈ commands ∧ c.status = .pending ∧ c.id ∉ processed :=
  ⟨List.mem_of_mem_filter h, (of_decide_eq_true (List.mem_filter.mp h).2 : c.Due processed)⟩

theorem judge_behind_iff {r : Reading} {pre post : List SessionCommandEntry}
    {e : SessionCommandEntry} (hq : queue processed commands = pre ++ e :: post)
    (hkind : e.kind = .interrupt) :
    judge r (e :: post) e = .execute ↔ e.Alone r ∧ ∀ other ∈ post, ¬e.Newer other := by
  have hpending : ∀ other ∈ post, other.status = .pending := fun other hother =>
    (pending_of_mem_queue (hq ▸ List.mem_append_right _ (List.mem_cons_of_mem _ hother))).2.1
  rw [judge_eq_execute_iff hkind, List.forall_mem_cons]
  refine and_congr_right fun _ => ⟨fun h other hother => h.2 other hother (hpending other hother),
    fun h => ⟨fun _ hnewer => hnewer.1 rfl, fun other hother _ => h other hother⟩⟩

theorem judge_first_iff {r : Reading} {post : List SessionCommandEntry}
    {e : SessionCommandEntry} (hq : queue processed commands = e :: post)
    (hkind : e.kind = .interrupt) :
    judge r (pending commands) e = .execute ↔ e.Alone r ∧ (∀ other ∈ post, ¬e.Newer other) ∧
      ∀ other ∈ commands, other.Dead processed → ¬e.Newer other := by
  rw [judge_eq_execute_iff hkind]
  refine and_congr_right fun _ => ⟨fun h => ⟨fun other hother => ?_, fun other hother hdead => ?_⟩,
    fun h other hother hpending => ?_⟩
  · obtain ⟨hmem, hpending, -⟩ :=
      pending_of_mem_queue (hq ▸ List.mem_cons_of_mem _ hother : other ∈ queue processed commands)
    exact h other (mem_pending.mpr ⟨hmem, hpending⟩) hpending
  · exact h other (mem_pending.mpr ⟨hother, hdead.1⟩) hdead.1
  · have hmem := (mem_pending.mp hother).1
    by_cases hp : other.id ∈ processed
    · exact h.2 other hmem ⟨hpending, hp⟩
    · have hother' : other ∈ queue processed commands :=
        List.mem_filter.mpr ⟨hmem, decide_eq_true ⟨hpending, hp⟩⟩
      rw [hq, List.mem_cons] at hother'
      rcases hother' with rfl | hother'
      · exact fun hnewer => hnewer.1 rfl
      · exact h.1 other hother'

/-- **When a drain executes an interrupt.** -/
theorem interrupted_iff (hids : (commands.map (·.id)).Nodup) :
    Interrupted reading processed commands ↔ Heard reading processed commands := by
  unfold Interrupted Heard
  rw [drained_eq hids]
  cases hq : queue processed commands with
  | nil => simp
  | cons entry rest =>
    simp only [List.mem_cons, mem_judged]
    constructor
    · rintro ⟨x, rfl | ⟨pre, e, post, rfl, rfl⟩, hkind, hx⟩
      · obtain ⟨halone, hpost, hdead⟩ := (judge_first_iff hq hkind).mp hx
        exact ⟨[], entry, rest, rfl, hkind, halone, hpost, fun _ => hdead⟩
      · have hq' : queue processed commands = (entry :: pre) ++ e :: post := hq
        obtain ⟨halone, hpost⟩ := (judge_behind_iff hq' hkind).mp hx
        refine ⟨entry :: pre, e, post, rfl, hkind, ?_, hpost, fun h => (by cases h)⟩
        rwa [List.length_cons, Nat.add_comm]
    · rintro ⟨pre, e, post, heq, hkind, halone, hpost, hdead⟩
      cases pre with
      | nil =>
        cases heq
        exact ⟨_, .inl rfl, hkind, (judge_first_iff hq hkind).mpr ⟨halone, hpost, hdead rfl⟩⟩
      | cons c pre =>
        cases heq
        refine ⟨_, .inr ⟨pre, e, post, rfl, rfl⟩, hkind, ?_⟩
        have hq' : queue processed commands = (entry :: pre) ++ e :: post := hq
        refine (judge_behind_iff hq' hkind).mpr ⟨?_, hpost⟩
        rwa [List.length_cons, Nat.add_comm] at halone

/-- **Interrupts and their successors.** A drain gives up no message of a user for another, and an
interrupt that would be executed alone, or another one, is executed exactly when one of those that
would be has no newer one behind it. -/
theorem interrupt_heard_iff (hids : (commands.map (·.id)).Nodup) :
    (∀ x ∈ drained reading processed commands, x.1.kind ≠ .interrupt → x.2 ≠ .superseded) ∧
      ((Wanted reading processed commands → Interrupted reading processed commands) ↔
        (Wanted reading processed commands → Heard reading processed commands)) := by
  refine ⟨?_, by rw [interrupted_iff hids]⟩
  rw [drained_eq hids]
  cases queue processed commands with
  | nil => simp
  | cons entry rest =>
    simp only [List.forall_mem_cons, mem_judged]
    refine ⟨judge_ne_superseded, ?_⟩
    rintro _ ⟨pre, e, post, -, rfl⟩ hkind
    exact judge_ne_superseded hkind

end Interrupt

/-- A drain of one interrupt, after a run that the ledger has. -/
theorem interrupt_heard_iff_one :
    let commands : List SessionCommandEntry :=
      [{ id := "r", payload := .run "hi" "m1", issuedBy := "d1", issuedAt := 1, basedOn := none,
         expiresAt := none, status := .applied, resolution := none },
       { id := "a", payload := .interrupt, issuedBy := "d1", issuedAt := 2, basedOn := none,
         expiresAt := none, status := .pending, resolution := none }]
    let reading : ℕ → Reading := fun _ => { nowMs := 5, messages := ["m1"], ok := true }
    (∀ x ∈ drained reading {"r"} commands, x.1.kind ≠ .interrupt → x.2 ≠ .superseded) ∧
      ((Wanted reading {"r"} commands → Interrupted reading {"r"} commands) ↔
        (Wanted reading {"r"} commands → Heard reading {"r"} commands)) :=
  interrupt_heard_iff (by decide)

/-! ## A newer interrupt that is moot -/

/-- Two devices stop a run. The first aims at the turn that runs; the second has not seen it yet and
aims at the turn before. -/
def crossed : List SessionCommandEntry :=
  [{ id := "a", payload := .interrupt, issuedBy := "d1", issuedAt := 1,
     basedOn := some { turnId := some "t2" }, expiresAt := none, status := .pending,
     resolution := none },
   { id := "b", payload := .interrupt, issuedBy := "d2", issuedAt := 2,
     basedOn := some { turnId := some "t1" }, expiresAt := none, status := .pending,
     resolution := none }]

/-- The drain finds both turns in the transcript, the second one last. -/
def secondTurn : ℕ → Reading := fun _ => { nowMs := 5, messages := ["t1", "t2"], ok := true }

/-- **Neither is executed**: the first yields to the second, whose turn is past. -/
theorem moot_successor_wins : Wanted secondTurn ∅ crossed ∧ ¬Interrupted secondTurn ∅ crossed ∧
    (drained secondTurn ∅ crossed).map (fun x => (x.1.id, x.2)) =
      [("a", .superseded), ("b", .superseded)] := by
  have hrun : (drained secondTurn ∅ crossed).map (fun x => (x.1.id, x.2)) =
      [("a", .superseded), ("b", .superseded)] := by decide
  refine ⟨⟨_, List.mem_filter.mpr ⟨List.mem_cons_self, by decide⟩, rfl, fun _ => by rfl⟩, ?_, hrun⟩
  rintro ⟨x, hx, -, hexec⟩
  have hmem : (x.1.id, x.2) ∈ [("a", CommandDisposition.superseded), ("b", .superseded)] :=
    hrun ▸ List.mem_map_of_mem (f := fun x => (x.1.id, x.2)) hx
  rw [hexec] at hmem
  revert hmem
  simp

end Zeron.Command
