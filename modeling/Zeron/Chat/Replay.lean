import Mathlib

/-!
# Replaying a document in bounded rows

`publication_updates` cuts the history of a document into the updates of a first outbox
(`engine/src/chat2_host.rs`). The export of the CRDT library is a parameter.

* `split`, `publicationUpdates`: the source;
* `IdSpan.ops`, `Bounded`: the operations of a span, and the room an update may take;
* **`publicationUpdates_covers`**: the updates carry every operation of every peer once, in order.
-/

namespace Zeron.Chat.Replay

/-- The counters of one peer from `start` to before `stop`. -/
structure IdSpan where
  peer : UInt64
  start : ℤ
  stop : ℤ
  deriving DecidableEq

/-- `VersionVector`: the counter after each peer's last operation. -/
abbrev VersionVector := AList fun _ : UInt64 => ℤ

/-- `updatesInRange` is `export` with `ExportMode::updates_in_range`. -/
def split (updatesInRange : IdSpan → Except String (List UInt8)) (limit : ℕ) (peer : UInt64)
    (start stop : ℤ) (out : List (List UInt8)) : Except String (List (List UInt8)) :=
  (updatesInRange ⟨peer, start, stop⟩).bind fun bytes =>
    if bytes.length ≤ limit ∨ stop - start ≤ 1 then .ok (out ++ [bytes])
    else
      let middle := start + (stop - start) / 2
      (split updatesInRange limit peer start middle out).bind
        (split updatesInRange limit peer middle stop)
termination_by (stop - start).toNat

def publicationUpdates (updatesInRange : IdSpan → Except String (List UInt8)) (limit : ℕ)
    (vv : VersionVector) : Except String (List (List UInt8)) :=
  (vv.entries.mergeSort fun a b => decide (a.1 ≤ b.1)).foldlM
    (fun out x => if 0 < x.2 then split updatesInRange limit x.1 0 x.2 out else .ok out) []

/-! ## Spans -/

/-- The operations of a span. -/
def IdSpan.ops (span : IdSpan) : List (UInt64 × ℤ) :=
  (List.range (span.stop - span.start).toNat).map fun k : ℕ => (span.peer, span.start + (k : ℤ))

variable {peer : UInt64} {start middle stop : ℤ}

/-- **Two spans that meet have the operations of one.** -/
theorem ops_append (h : start ≤ middle) (h' : middle ≤ stop) :
    (IdSpan.mk peer start middle).ops ++ (IdSpan.mk peer middle stop).ops =
      (IdSpan.mk peer start stop).ops := by
  have hlen : (stop - start).toNat = (middle - start).toNat + (stop - middle).toNat := by omega
  have hmid : start + ((middle - start).toNat : ℤ) = middle := by omega
  simp only [IdSpan.ops]
  rw [hlen, List.range_add, List.map_append, List.map_map]
  congr 1
  apply List.map_congr_left
  intro k _
  show (peer, middle + (k : ℤ)) = (peer, start + (((middle - start).toNat + k : ℕ) : ℤ))
  rw [Nat.cast_add, ← add_assoc, hmid]

theorem ops_of_le (h : stop ≤ start) : (IdSpan.mk peer start stop).ops = [] := by
  have hlen : (stop - start).toNat = 0 := by omega
  simp only [IdSpan.ops, hlen, List.range_zero, List.map_nil]

theorem fst_of_mem_ops {span : IdSpan} {op : UInt64 × ℤ} (h : op ∈ span.ops) :
    op.1 = span.peer := by
  obtain ⟨k, -, rfl⟩ := List.mem_map.mp h
  rfl

theorem filter_ops (span : IdSpan) (peer : UInt64) :
    span.ops.filter (·.1 = peer) = if span.peer = peer then span.ops else [] := by
  by_cases h : span.peer = peer
  · rw [if_pos h, List.filter_eq_self]
    intro op hop
    exact decide_eq_true ((fst_of_mem_ops hop).trans h)
  · rw [if_neg h, List.filter_eq_nil_iff]
    intro op hop heq
    exact h ((fst_of_mem_ops hop).symm.trans (of_decide_eq_true heq))

/-! ## The updates -/

section

variable {updatesInRange : IdSpan → Except String (List UInt8)} {limit : ℕ}
  {content : List UInt8 → List (UInt64 × ℤ)} {vv : VersionVector} {out out' : List (List UInt8)}

variable (updatesInRange limit) in
/-- The update is the export of a span, within the limit or of a single operation. -/
def Bounded (bytes : List UInt8) : Prop :=
  ∃ span : IdSpan, updatesInRange span = .ok bytes ∧ 0 ≤ span.start ∧ span.start < span.stop ∧
    (bytes.length ≤ limit ∨ span.stop = span.start + 1)

variable (updatesInRange limit content) in
/-- What rows add to an outbox: the operations, in updates that are bounded. -/
structure Carries (ops : List (UInt64 × ℤ)) (out out' : List (List UInt8)) : Prop where
  content : out'.flatMap content = out.flatMap content ++ ops
  bounded : ∀ bytes ∈ out', bytes ∈ out ∨ Bounded updatesInRange limit bytes

theorem Carries.trans {ops ops' : List (UInt64 × ℤ)} {out'' : List (List UInt8)}
    (h : Carries updatesInRange limit content ops out out')
    (h' : Carries updatesInRange limit content ops' out' out'') :
    Carries updatesInRange limit content (ops ++ ops') out out'' where
  content := by rw [h'.content, h.content, List.append_assoc]
  bounded bytes hb := by
    rcases h'.bounded bytes hb with hold | hnew
    · exact h.bounded bytes hold
    · exact Or.inr hnew

theorem Carries.refl (out : List (List UInt8)) :
    Carries updatesInRange limit content [] out out where
  content := by rw [List.append_nil]
  bounded bytes hb := Or.inl hb

section Exact

variable (hexact : ∀ span bytes, updatesInRange span = .ok bytes → content bytes = span.ops)
include hexact

/-- **A span that is split is carried whole.** -/
theorem split_carries (hs : 0 ≤ start) (hlt : start < stop)
    (h : split updatesInRange limit peer start stop out = .ok out') :
    Carries updatesInRange limit content (IdSpan.mk peer start stop).ops out out' := by
  induction hn : (stop - start).toNat using Nat.strong_induction_on
    generalizing start stop out out' with
  | _ n ih =>
    rw [split] at h
    cases hb : updatesInRange ⟨peer, start, stop⟩ with
    | error e =>
      rw [hb] at h
      cases h
    | ok bytes =>
      rw [hb] at h
      simp only [Except.bind] at h
      by_cases hfit : bytes.length ≤ limit ∨ stop - start ≤ 1
      · rw [if_pos hfit, Except.ok.injEq] at h
        subst h
        refine ⟨?_, fun b hmem => ?_⟩
        · rw [List.flatMap_append, List.flatMap_singleton, hexact _ _ hb]
        · rcases List.mem_append.mp hmem with hold | hnew
          · exact Or.inl hold
          · rw [List.mem_singleton.mp hnew]
            refine Or.inr ⟨_, hb, hs, hlt, hfit.imp id fun h1 => ?_⟩
            show stop = start + 1
            omega
      · -- both halves are shorter, and neither is empty
        rw [if_neg hfit] at h
        have hleft : start < start + (stop - start) / 2 := by omega
        have hright : start + (stop - start) / 2 < stop := by omega
        cases hl : split updatesInRange limit peer start (start + (stop - start) / 2) out with
        | error e =>
          rw [hl] at h
          cases h
        | ok half =>
          rw [hl] at h
          rw [← ops_append hleft.le hright.le]
          exact (ih _ (by omega) hs hleft hl rfl).trans
            (ih _ (by omega) (hs.trans hleft.le) hright h rfl)

theorem foldlM_carries {entries : List (Sigma fun _ : UInt64 => ℤ)}
    (h : entries.foldlM (fun out x =>
      if 0 < x.2 then split updatesInRange limit x.1 0 x.2 out else .ok out) out = .ok out') :
    Carries updatesInRange limit content
      (entries.flatMap fun x => (IdSpan.mk x.1 0 x.2).ops) out out' := by
  induction entries generalizing out with
  | nil =>
    cases h
    exact .refl _
  | cons x entries ih =>
    rw [List.foldlM_cons] at h
    rw [List.flatMap_cons]
    by_cases hx : 0 < x.2
    · rw [if_pos hx] at h
      cases hs : split updatesInRange limit x.1 0 x.2 out with
      | error e =>
        rw [hs] at h
        cases h
      | ok next =>
        rw [hs] at h
        exact (split_carries hexact le_rfl hx hs).trans (ih h)
    · rw [if_neg hx] at h
      rw [ops_of_le (not_lt.mp hx)]
      exact ih h

end Exact

theorem filter_history {entries : List (Sigma fun _ : UInt64 => ℤ)} (hn : entries.NodupKeys)
    (peer : UInt64) :
    (entries.flatMap fun x => (IdSpan.mk x.1 0 x.2).ops).filter (·.1 = peer) =
      (IdSpan.mk peer 0 ((entries.dlookup peer).getD 0)).ops := by
  induction entries with
  | nil => exact (ops_of_le le_rfl).symm
  | cons x entries ih =>
    obtain ⟨p, n⟩ := x
    rw [List.nodupKeys_cons] at hn
    rw [List.flatMap_cons, List.filter_append, filter_ops]
    by_cases hp : p = peer
    · subst hp
      rw [if_pos rfl, ih hn.2, List.dlookup_cons_eq, List.dlookup_eq_none.mpr hn.1]
      rw [Option.getD_none, ops_of_le le_rfl, List.append_nil]
      rfl
    · rw [if_neg hp, List.nil_append, ih hn.2, List.dlookup_cons_ne _ _ (Ne.symm hp)]

theorem split_ok (htotal : ∀ span, ∃ bytes, updatesInRange span = .ok bytes) :
    ∃ out', split updatesInRange limit peer start stop out = .ok out' := by
  induction hn : (stop - start).toNat using Nat.strong_induction_on
    generalizing start stop out with
  | _ n ih =>
    obtain ⟨bytes, hb⟩ := htotal ⟨peer, start, stop⟩
    rw [split, hb]
    simp only [Except.bind]
    by_cases hfit : bytes.length ≤ limit ∨ stop - start ≤ 1
    · exact ⟨_, if_pos hfit⟩
    · rw [if_neg hfit]
      obtain ⟨half, hl⟩ := @ih _ (by omega) start (start + (stop - start) / 2) out rfl
      rw [hl]
      exact ih _ (by omega) rfl

theorem publicationUpdates_ok (htotal : ∀ span, ∃ bytes, updatesInRange span = .ok bytes) :
    ∃ out, publicationUpdates updatesInRange limit vv = .ok out := by
  have hall : ∀ entries : List (Sigma fun _ : UInt64 => ℤ), ∀ out : List (List UInt8),
      ∃ out', entries.foldlM (fun out x =>
        if 0 < x.2 then split updatesInRange limit x.1 0 x.2 out else .ok out) out =
          (.ok out' : Except String _) := by
    intro entries
    induction entries with
    | nil => exact fun out => ⟨out, rfl⟩
    | cons x entries ih =>
      intro out
      rw [List.foldlM_cons]
      by_cases hx : 0 < x.2
      · obtain ⟨next, hs⟩ := @split_ok x.1 0 x.2 updatesInRange limit out htotal
        rw [if_pos hx, hs]
        exact ih next
      · rw [if_neg hx]
        exact ih out
  exact hall _ _

/-- **The splitting ends, and its updates carry, for each peer, the operations of the document from
the first to the last, each once and in order**; an update is one span, within the limit or of a
single operation. -/
theorem publicationUpdates_covers
    (hexact : ∀ span bytes, updatesInRange span = .ok bytes → content bytes = span.ops) :
    ((∀ span, ∃ bytes, updatesInRange span = .ok bytes) →
      ∃ out, publicationUpdates updatesInRange limit vv = .ok out) ∧
    ∀ out, publicationUpdates updatesInRange limit vv = .ok out →
      (∀ peer, (out.flatMap content).filter (·.1 = peer) =
        (IdSpan.mk peer 0 ((vv.lookup peer).getD 0)).ops) ∧
      ∀ bytes ∈ out, Bounded updatesInRange limit bytes := by
  refine ⟨publicationUpdates_ok, fun out h => ?_⟩
  have hc := foldlM_carries hexact h
  have hperm := List.mergeSort_perm vv.entries fun a b => decide (a.1 ≤ b.1)
  have hn : (vv.entries.mergeSort fun a b => decide (a.1 ≤ b.1)).NodupKeys :=
    (List.perm_nodupKeys hperm).mpr vv.nodupKeys
  refine ⟨fun peer => ?_, fun bytes hb => (hc.bounded bytes hb).resolve_left List.not_mem_nil⟩
  rw [hc.content, List.flatMap_nil, List.nil_append, filter_history hn peer]
  rw [List.perm_dlookup peer hn hperm]
  rfl

end

/-! ## What was published before -/

/-- An export with a byte for each operation of the peer 1. -/
def sampleExport (span : IdSpan) : Except String (List UInt8) :=
  if span.peer = 1 ∧ 0 ≤ span.start ∧ span.stop ≤ 256 then
    .ok (span.ops.map fun op => UInt8.ofNat op.2.toNat)
  else .error "unknown span"

def sampleContent (bytes : List UInt8) : List (UInt64 × ℤ) :=
  bytes.map fun b => (1, (b.toNat : ℤ))

def sampleVector (stop : ℤ) : VersionVector := AList.singleton 1 stop

theorem sample_exact (span : IdSpan) (bytes : List UInt8) (h : sampleExport span = .ok bytes) :
    sampleContent bytes = span.ops := by
  unfold sampleExport at h
  split_ifs at h with hs
  cases h
  rw [sampleContent, List.map_map]
  refine (List.map_congr_left fun op hop => ?_).trans (List.map_id _)
  have hpeer := (fst_of_mem_ops hop).trans hs.1
  obtain ⟨k, hk, rfl⟩ := List.mem_map.mp hop
  have hk' := List.mem_range.mp hk
  have hbyte : (span.start + (k : ℤ)).toNat % 256 = (span.start + (k : ℤ)).toNat :=
    Nat.mod_eq_of_lt (by omega)
  have hback : ((span.start + (k : ℤ)).toNat : ℤ) = span.start + k := by omega
  simp only [Function.comp_apply, UInt8.toNat_ofNat', Nat.reducePow, hbyte, hback, id_eq]
  rw [← hpeer]

theorem sample_updates :
    publicationUpdates sampleExport 1 (sampleVector 2) = .ok [[0], [1]] := by
  have hwhole : split sampleExport 1 1 0 2 [] = .ok [[0], [1]] := by
    have hexport : sampleExport ⟨1, 0, 2⟩ = .ok [0, 1] := by decide
    have hleft : sampleExport ⟨1, 0, 1⟩ = .ok [0] := by decide
    have hright : sampleExport ⟨1, 1, 2⟩ = .ok [1] := by decide
    rw [split, hexport]
    show (split sampleExport 1 1 0 1 []).bind (split sampleExport 1 1 1 2) = _
    rw [split, hleft]
    show split sampleExport 1 1 1 2 [[0]] = _
    rw [split, hright]
    rfl
  have hsorted : ((sampleVector 2).entries.mergeSort fun a b => decide (a.1 ≤ b.1)) =
      [⟨1, 2⟩] := List.mergeSort_singleton _
  rw [publicationUpdates, hsorted]
  show (split sampleExport 1 1 0 2 []).bind (Except.ok ·) = _
  rw [hwhole]
  rfl

theorem publicationUpdates_sample :
    (([[0], [1]] : List (List UInt8)).flatMap sampleContent).filter (·.1 = 1) =
        (IdSpan.mk 1 0 (((sampleVector 2).lookup 1).getD 0)).ops ∧
      ∀ bytes ∈ ([[0], [1]] : List (List UInt8)), Bounded sampleExport 1 bytes := by
  have h := (@publicationUpdates_covers sampleExport 1 sampleContent (sampleVector 2)
    sample_exact).2 _ sample_updates
  exact ⟨h.1 1, h.2⟩

/-- What was published before is sent again. -/
theorem publicationUpdates_repeats :
    ¬ ∀ (frontier vv : VersionVector) (limit : ℕ) (out : List (List UInt8)),
      publicationUpdates sampleExport limit vv = .ok out → ∀ peer,
        (out.flatMap sampleContent).filter (·.1 = peer) =
          (IdSpan.mk peer ((frontier.lookup peer).getD 0) ((vv.lookup peer).getD 0)).ops := by
  intro h
  have h1 := congrArg List.length
    (h (sampleVector 1) (sampleVector 2) 1 [[0], [1]] sample_updates 1)
  revert h1
  decide

end Zeron.Chat.Replay
