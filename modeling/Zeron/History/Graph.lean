import Mathlib

/-!
# The history graph

`layout_graph` draws the commits of `git log --topo-order` as rows with lanes between them
(`ui/src/history.rs`).

* `ActiveLane`, `laneIndex`, `layoutRow`, `layoutGraph`: the source; a lookup that fails is `none`;
* `Ordered`: distinct shas, parents behind their children;
* `Lanes`: what holds of the active lanes between two rows; `Draws`: what a row does with them;
* `Joined`: a path of segments from one row to another;
* **`layoutGraph_draws`**: such a path is drawn exactly from a commit to its parents.
-/

namespace Zeron.History

/-! ## Commits -/

inductive RefKind where
  | branch
  | remote
  | tag
  deriving DecidableEq

/-- `GitHistoryRef`. -/
structure Ref where
  kind : RefKind
  label : String
  deriving DecidableEq

/-- `GitHistoryCommit`. -/
structure Commit where
  sha : String
  parentShas : List String
  refs : List Ref
  deriving DecidableEq

/-! ## The layout -/

structure ActiveLane where
  id : ℕ
  colorId : ℕ
  targetSha : String
  deriving DecidableEq

inductive SegmentShape where
  | through
  | incoming
  | outgoing
  deriving DecidableEq

structure GraphSegment where
  fromLane : ℕ
  toLane : ℕ
  colorId : ℕ
  shape : SegmentShape
  deriving DecidableEq

structure GraphRow where
  sha : String
  nodeLane : ℕ
  nodeColorId : ℕ
  segments : List GraphSegment
  isHead : Bool
  deriving DecidableEq

structure GraphLayout where
  rows : List GraphRow
  maxLaneCount : ℕ
  deriving DecidableEq

def laneIndex (lanes : List ActiveLane) (id : ℕ) : Option ℕ := lanes.findIdx? (·.id = id)

/-- The variables of the loop over the commits. -/
structure Walk where
  activeLanes : List ActiveLane
  nextLaneId : ℕ
  nextColorId : ℕ
  maxLaneCount : ℕ
  rows : List GraphRow

/-- The variables of the loop over the parents of a commit. -/
structure Parents where
  nextLanes : List ActiveLane
  outgoing : List (ℕ × ℕ)
  nextLaneId : ℕ
  nextColorId : ℕ
  parentOffset : ℕ

/-- A parent behind the first. -/
def Parents.add (nodeLane : ℕ) (primaryOutgoingId : Option ℕ) (s : Parents) (parentSha : String) :
    Option Parents :=
  match s.nextLanes.find? (·.targetSha = parentSha) with
  | some existing => some { s with outgoing := s.outgoing ++ [(existing.id, existing.colorId)] }
  | none =>
    let lane := ActiveLane.mk s.nextLaneId s.nextColorId parentSha
    let primaryIndex :=
      primaryOutgoingId.elim (some (min nodeLane s.nextLanes.length)) (laneIndex s.nextLanes)
    primaryIndex.map fun primaryIndex => {
      nextLanes :=
        s.nextLanes.insertIdx (min (primaryIndex + s.parentOffset) s.nextLanes.length) lane
      outgoing := s.outgoing ++ [(lane.id, lane.colorId)]
      nextLaneId := s.nextLaneId + 1
      nextColorId := s.nextColorId + 1
      parentOffset := s.parentOffset + 1 }

/-- The positions of the lanes that lead to a commit. -/
def incoming (lanes : List ActiveLane) (sha : String) : List ℕ :=
  lanes.zipIdx.filterMap fun x => if x.1.targetSha = sha then some x.2 else none

/-- `resolved_ids`. -/
def resolvedIds (lanes : List ActiveLane) (sha : String) : List ℕ :=
  (incoming lanes sha).filterMap fun index => lanes[index]?.map (·.id)

/-- The lanes without the resolved ones, with the lane of the first parent, and its id. -/
def Walk.openFirst (s : Walk) (commit : Commit) (nodeLane nodeColorId nextColorId : ℕ)
    (primaryLane : Option ActiveLane) : Parents × Option ℕ :=
  let remaining := s.activeLanes.filter (·.id ∉ resolvedIds s.activeLanes commit.sha)
  match commit.parentShas.head? with
  | none => (⟨remaining, [], s.nextLaneId, nextColorId, 1⟩, none)
  | some firstParent =>
    let id := (primaryLane.map (·.id)).getD s.nextLaneId
    (⟨remaining.insertIdx (min nodeLane remaining.length) ⟨id, nodeColorId, firstParent⟩,
      [(id, nodeColorId)], if primaryLane.isSome then s.nextLaneId else s.nextLaneId + 1,
      nextColorId, 1⟩, some id)

def throughSegments (before next : List ActiveLane) (sha : String) : Option (List GraphSegment) :=
  (before.zipIdx.filter fun x => x.1.id ∉ resolvedIds before sha).mapM fun x =>
    (laneIndex next x.1.id).map fun toLane => ⟨x.2, toLane, x.1.colorId, .through⟩

def incomingSegments (before : List ActiveLane) (sha : String) (nodeLane : ℕ) :
    Option (List GraphSegment) :=
  (incoming before sha).mapM fun fromLane =>
    before[fromLane]?.map fun lane => ⟨fromLane, nodeLane, lane.colorId, .incoming⟩

def outgoingSegments (next : List ActiveLane) (nodeLane : ℕ) (outgoing : List (ℕ × ℕ)) :
    Option (List GraphSegment) :=
  outgoing.mapM fun x =>
    (laneIndex next x.1).map fun toLane => ⟨nodeLane, toLane, x.2, .outgoing⟩

/-- The body of the loop over the commits. -/
def layoutRow (headSha : Option String) (s : Walk) (commit : Commit) : Option Walk := do
  let before := s.activeLanes
  let primaryIncoming := (incoming before commit.sha).head?
  let nodeLane := primaryIncoming.getD before.length
  let primaryLane := primaryIncoming.bind (before[·]?)
  let nodeColorId := (primaryLane.map (·.colorId)).getD s.nextColorId
  let nextColorId := if primaryLane.isSome then s.nextColorId else s.nextColorId + 1
  let first := s.openFirst commit nodeLane nodeColorId nextColorId primaryLane
  let parents ← (commit.parentShas.drop 1).foldlM (Parents.add nodeLane first.2) first.1
  let through ← throughSegments before parents.nextLanes commit.sha
  let into ← incomingSegments before commit.sha nodeLane
  let out ← outgoingSegments parents.nextLanes nodeLane parents.outgoing
  return {
    activeLanes := parents.nextLanes
    nextLaneId := parents.nextLaneId
    nextColorId := parents.nextColorId
    maxLaneCount :=
      max (max (max s.maxLaneCount before.length) parents.nextLanes.length) (nodeLane + 1)
    rows := s.rows ++ [{
      sha := commit.sha
      nodeLane
      nodeColorId
      segments := through ++ into ++ out
      isHead := headSha = some commit.sha }] }

def layoutGraph (commits : List Commit) (headSha : Option String) : Option GraphLayout :=
  (commits.foldlM (layoutRow headSha) ⟨[], 0, 0, 0, []⟩).map fun s => ⟨s.rows, s.maxLaneCount⟩

/-! ## Lookups -/

section Lookups

variable {α β : Type*} {f : α → Option β}

theorem mapM_some {as : List α} (h : ∀ a ∈ as, ∃ b, f a = some b) :
    ∃ bs, as.mapM f = some bs ∧ (∀ b ∈ bs, ∃ a ∈ as, f a = some b) ∧
      ∀ a ∈ as, ∃ b ∈ bs, f a = some b := by
  induction as with
  | nil => exact ⟨[], rfl, by simp, by simp⟩
  | cons a as ih =>
    obtain ⟨b, hb⟩ := h a List.mem_cons_self
    obtain ⟨bs, hbs, hof, hto⟩ := ih fun a' ha' => h a' (List.mem_cons_of_mem _ ha')
    refine ⟨b :: bs, ?_, ?_, ?_⟩
    · rw [List.mapM_cons, hb, hbs]
      rfl
    · rw [List.forall_mem_cons]
      refine ⟨⟨a, List.mem_cons_self, hb⟩, fun b' hb' => ?_⟩
      obtain ⟨a', ha', hf⟩ := hof b' hb'
      exact ⟨a', List.mem_cons_of_mem _ ha', hf⟩
    · rw [List.forall_mem_cons]
      refine ⟨⟨b, List.mem_cons_self, hb⟩, fun a' ha' => ?_⟩
      obtain ⟨b', hb', hf⟩ := hto a' ha'
      exact ⟨b', List.mem_cons_of_mem _ hb', hf⟩

variable {lanes : List ActiveLane} {lane : ActiveLane} {id i : ℕ} {sha : String}

/-- What holds of the active lanes between two rows. -/
structure Lanes (lanes : List ActiveLane) (nextLaneId : ℕ) : Prop where
  nodup : (lanes.map (·.id)).Nodup
  fresh : ∀ lane ∈ lanes, lane.id < nextLaneId

theorem eq_of_id (h : (lanes.map (·.id)).Nodup) {lane' : ActiveLane} (hl : lane ∈ lanes)
    (hl' : lane' ∈ lanes) (he : lane.id = lane'.id) : lane = lane' :=
  List.inj_on_of_nodup_map h hl hl' he

/-- **The lane is found where it is.** -/
theorem laneIndex_eq (h : (lanes.map (·.id)).Nodup) (hl : lane ∈ lanes) :
    ∃ i, laneIndex lanes lane.id = some i ∧ lanes[i]? = some lane := by
  cases hi : laneIndex lanes lane.id with
  | none =>
    rw [laneIndex, List.findIdx?_eq_none_iff] at hi
    exact absurd (hi lane hl) (by simp)
  | some i =>
    obtain ⟨hlt, hid, -⟩ := List.findIdx?_eq_some_iff_getElem.mp hi
    refine ⟨i, rfl, ?_⟩
    rw [List.getElem?_eq_getElem hlt, eq_of_id h (List.getElem_mem hlt) hl (of_decide_eq_true hid)]

theorem mem_incoming :
    i ∈ incoming lanes sha ↔ ∃ lane, lanes[i]? = some lane ∧ lane.targetSha = sha := by
  simp only [incoming, List.mem_filterMap, Prod.exists, List.mem_zipIdx_iff_getElem?]
  constructor
  · rintro ⟨lane, j, hj, hs⟩
    split_ifs at hs with ht
    cases hs
    exact ⟨lane, hj, ht⟩
  · rintro ⟨lane, hi, ht⟩
    exact ⟨lane, i, hi, if_pos ht⟩

theorem mem_resolvedIds (h : (lanes.map (·.id)).Nodup) (hl : lane ∈ lanes) :
    lane.id ∈ resolvedIds lanes sha ↔ lane.targetSha = sha := by
  simp only [resolvedIds, List.mem_filterMap, mem_incoming, Option.map_eq_some_iff]
  constructor
  · rintro ⟨i, ⟨lane', hi, ht⟩, lane'', hi', hid⟩
    rw [hi] at hi'
    cases hi'
    rwa [← eq_of_id h (List.mem_of_getElem? hi) hl hid]
  · intro ht
    obtain ⟨i, hi⟩ := List.mem_iff_getElem?.mp hl
    exact ⟨i, ⟨lane, hi, ht⟩, lane, hi, rfl⟩

end Lookups

/-! ## The lanes of a row -/

section Row

variable {lanes before next : List ActiveLane} {lane : ActiveLane} {n : ℕ} {sha : String}

theorem Lanes.insert (h : Lanes lanes n) (hlane : ∀ l ∈ lanes, l.id ≠ lane.id) {m : ℕ}
    (hm : lane.id < m) (hn : n ≤ m) {i : ℕ} (hi : i ≤ lanes.length) :
    Lanes (lanes.insertIdx i lane) m where
  nodup := by
    rw [List.Perm.nodup_iff ((List.perm_insertIdx lane lanes hi).map _), List.map_cons,
      List.nodup_cons]
    refine ⟨fun hmem => ?_, h.nodup⟩
    obtain ⟨l, hl, he⟩ := List.mem_map.mp hmem
    exact hlane l hl he
  fresh l hl := by
    rcases List.eq_or_mem_of_mem_insertIdx hl with rfl | hl
    · exact hm
    · exact (h.fresh l hl).trans_le hn

/-- What the loop over the parents keeps: the lanes that remain, and lanes for exactly the parents
so far. -/
structure Opened (remaining : List ActiveLane) (parents : List String) (primary : Option ℕ)
    (s : Parents) : Prop where
  lanes : Lanes s.nextLanes s.nextLaneId
  remains : remaining ⊆ s.nextLanes
  sound : ∀ x ∈ s.outgoing, ∃ lane ∈ s.nextLanes, lane.id = x.1 ∧ lane.targetSha ∈ parents
  complete : ∀ p ∈ parents, ∃ x ∈ s.outgoing, ∃ lane ∈ s.nextLanes,
    lane.id = x.1 ∧ lane.targetSha = p
  primary : ∀ id, primary = some id → ∃ lane ∈ s.nextLanes, lane.id = id

variable {remaining : List ActiveLane} {parents : List String} {primary : Option ℕ} {s : Parents}
  {nodeLane : ℕ}

theorem Opened.join (h : Opened remaining parents primary s) (hl : lane ∈ s.nextLanes)
    (hsha : lane.targetSha = sha) :
    Opened remaining (parents ++ [sha]) primary
      { s with outgoing := s.outgoing ++ [(lane.id, lane.colorId)] } where
  lanes := h.lanes
  remains := h.remains
  sound x hx := by
    rcases List.mem_append.mp hx with hx | hx
    · obtain ⟨l, hl, hid, hp⟩ := h.sound x hx
      exact ⟨l, hl, hid, List.mem_append_left _ hp⟩
    · rw [List.mem_singleton.mp hx]
      exact ⟨lane, hl, rfl, List.mem_append_right _ (List.mem_singleton.mpr hsha)⟩
  complete p hp := by
    rcases List.mem_append.mp hp with hp | hp
    · obtain ⟨x, hx, hrest⟩ := h.complete p hp
      exact ⟨x, List.mem_append_left _ hx, hrest⟩
    · rw [List.mem_singleton.mp hp]
      exact ⟨_, List.mem_append_right _ List.mem_cons_self, lane, hl, rfl, hsha⟩
  primary := h.primary

theorem Opened.insert (h : Opened remaining parents primary s) {i color m k : ℕ}
    (hi : i ≤ s.nextLanes.length) :
    Opened remaining (parents ++ [sha]) primary
      ⟨s.nextLanes.insertIdx i ⟨s.nextLaneId, color, sha⟩,
        s.outgoing ++ [(s.nextLaneId, color)], s.nextLaneId + 1, m, k⟩ where
  lanes := h.lanes.insert (fun l hl => (h.lanes.fresh l hl).ne) (Nat.lt_succ_self _)
    (Nat.le_succ _) hi
  remains := fun l hl => (List.mem_insertIdx hi).mpr (Or.inr (h.remains hl))
  sound x hx := by
    rcases List.mem_append.mp hx with hx | hx
    · obtain ⟨l, hl, hid, hp⟩ := h.sound x hx
      exact ⟨l, (List.mem_insertIdx hi).mpr (Or.inr hl), hid, List.mem_append_left _ hp⟩
    · rw [List.mem_singleton.mp hx]
      exact ⟨_, (List.mem_insertIdx hi).mpr (Or.inl rfl), rfl,
        List.mem_append_right _ List.mem_cons_self⟩
  complete p hp := by
    rcases List.mem_append.mp hp with hp | hp
    · obtain ⟨x, hx, l, hl, hrest⟩ := h.complete p hp
      exact ⟨x, List.mem_append_left _ hx, l, (List.mem_insertIdx hi).mpr (Or.inr hl), hrest⟩
    · rw [List.mem_singleton.mp hp]
      exact ⟨_, List.mem_append_right _ List.mem_cons_self, _,
        (List.mem_insertIdx hi).mpr (Or.inl rfl), rfl, rfl⟩
  primary id hid := by
    obtain ⟨l, hl, he⟩ := h.primary id hid
    exact ⟨l, (List.mem_insertIdx hi).mpr (Or.inr hl), he⟩

/-- **A parent behind the first.** -/
theorem opened_add (h : Opened remaining parents primary s) :
    ∃ s', s.add nodeLane primary sha = some s' ∧
      Opened remaining (parents ++ [sha]) primary s' := by
  unfold Parents.add
  cases hf : s.nextLanes.find? (·.targetSha = sha) with
  | some existing =>
    exact ⟨_, rfl, h.join (List.mem_of_find?_eq_some hf)
      (by simpa using List.find?_some hf)⟩
  | none =>
    obtain ⟨index, hindex⟩ : ∃ index, primary.elim (some (min nodeLane s.nextLanes.length))
        (laneIndex s.nextLanes) = some index := by
      cases hp : primary with
      | none => exact ⟨_, rfl⟩
      | some id =>
        obtain ⟨l, hl, rfl⟩ := h.primary id hp
        obtain ⟨i, hi, -⟩ := laneIndex_eq h.lanes.nodup hl
        exact ⟨i, hi⟩
    dsimp only
    rw [hindex]
    exact ⟨_, rfl, h.insert (Nat.min_le_right _ _)⟩

theorem opened_foldlM (h : Opened remaining parents primary s) (shas : List String) :
    ∃ s', shas.foldlM (Parents.add nodeLane primary) s = some s' ∧
      Opened remaining (parents ++ shas) primary s' := by
  induction shas generalizing parents s with
  | nil => exact ⟨s, rfl, by rwa [List.append_nil]⟩
  | cons sha shas ih =>
    obtain ⟨s₁, hs₁, h₁⟩ := @opened_add sha remaining parents primary s nodeLane h
    obtain ⟨s', hs', h'⟩ := ih h₁
    refine ⟨s', ?_, ?_⟩
    · rw [List.foldlM_cons, hs₁]
      exact hs'
    · rwa [List.append_assoc] at h'

theorem primaryLane_spec (h : (incoming lanes sha).head?.bind (lanes[·]?) = some lane) :
    lane ∈ lanes ∧ lane.targetSha = sha := by
  obtain ⟨i, hi, hl⟩ := Option.bind_eq_some_iff.mp h
  obtain ⟨lane', hl', ht⟩ := mem_incoming.mp (List.mem_of_mem_head? hi)
  rw [hl] at hl'
  cases hl'
  exact ⟨List.mem_of_getElem? hl, ht⟩

theorem mem_remaining (h : (lanes.map (·.id)).Nodup) :
    lane ∈ lanes.filter (·.id ∉ resolvedIds lanes sha) ↔
      lane ∈ lanes ∧ lane.targetSha ≠ sha := by
  rw [List.mem_filter]
  refine and_congr_right fun hl => ?_
  rw [decide_eq_true_iff, mem_resolvedIds h hl]

theorem opened_openFirst {w : Walk} (h : Lanes w.activeLanes w.nextLaneId) (commit : Commit)
    {nodeColorId nextColorId : ℕ} {primaryLane : Option ActiveLane}
    (hp : ∀ lane ∈ primaryLane, lane ∈ w.activeLanes ∧ lane.targetSha = commit.sha) :
    Opened (w.activeLanes.filter (·.id ∉ resolvedIds w.activeLanes commit.sha))
      (commit.parentShas.take 1)
      (w.openFirst commit nodeLane nodeColorId nextColorId primaryLane).2
      (w.openFirst commit nodeLane nodeColorId nextColorId primaryLane).1 := by
  have hrest : Lanes (w.activeLanes.filter (·.id ∉ resolvedIds w.activeLanes commit.sha))
      w.nextLaneId :=
    ⟨h.nodup.sublist (List.filter_sublist.map _), fun l hl => h.fresh l (List.mem_filter.mp hl).1⟩
  unfold Walk.openFirst
  cases hs : commit.parentShas with
  | nil =>
    exact {
      lanes := hrest
      remains := List.Subset.refl _
      sound := fun x hx => absurd hx List.not_mem_nil
      complete := fun p hp => absurd hp List.not_mem_nil
      primary := fun id hid => by cases hid }
  | cons firstParent others =>
    dsimp only [List.head?_cons]
    generalize hrem :
      w.activeLanes.filter (·.id ∉ resolvedIds w.activeLanes commit.sha) = remaining at hrest
    have hpos : min nodeLane remaining.length ≤ remaining.length := Nat.min_le_right _ _
    refine {
      lanes := ?_
      remains := fun l hl => (List.mem_insertIdx hpos).mpr (Or.inr hl)
      sound := fun x hx => ?_
      complete := fun p hp => ?_
      primary := fun id hid =>
        ⟨_, (List.mem_insertIdx hpos).mpr (Or.inl rfl), Option.some.inj hid⟩ }
    · cases hl : primaryLane with
      | none =>
        exact hrest.insert (fun l hl => (hrest.fresh l hl).ne) (Nat.lt_succ_self _)
          (Nat.le_succ _) hpos
      | some lane =>
        -- its own lane is among the resolved ones
        obtain ⟨hmem, htarget⟩ := hp lane hl
        have hlt : (ActiveLane.mk lane.id nodeColorId firstParent).id < w.nextLaneId :=
          h.fresh lane hmem
        refine hrest.insert (fun l hl he => ?_) hlt le_rfl hpos
        rw [← hrem, mem_remaining h.nodup] at hl
        have hsame : l.id = lane.id := he
        exact hl.2 (eq_of_id h.nodup hl.1 hmem hsame ▸ htarget)
    · rw [List.mem_singleton.mp hx]
      exact ⟨_, (List.mem_insertIdx hpos).mpr (Or.inl rfl), rfl, List.mem_cons_self⟩
    · rw [List.mem_singleton.mp hp]
      exact ⟨_, List.mem_cons_self, _, (List.mem_insertIdx hpos).mpr (Or.inl rfl), rfl, rfl⟩

/-! ## The segments of a row -/

theorem laneIndex_of_mem {i : ℕ} (hn : (next.map (·.id)).Nodup) (hl : lane ∈ next)
    (hi : laneIndex next lane.id = some i) : next[i]? = some lane := by
  obtain ⟨j, hj, hnext⟩ := laneIndex_eq hn hl
  rw [hi] at hj
  cases hj
  exact hnext

theorem throughSegments_spec (hb : (before.map (·.id)).Nodup) (hn : (next.map (·.id)).Nodup)
    (hrest : ∀ lane ∈ before, lane.targetSha ≠ sha → lane ∈ next) :
    ∃ segs, throughSegments before next sha = some segs ∧
      (∀ seg ∈ segs, seg.shape = .through ∧ ∃ lane, before[seg.fromLane]? = some lane ∧
        lane.targetSha ≠ sha ∧ next[seg.toLane]? = some lane) ∧
      ∀ i lane, before[i]? = some lane → lane.targetSha ≠ sha → ∃ seg ∈ segs, seg.fromLane = i := by
  have hmem : ∀ x : ActiveLane × ℕ,
      x ∈ before.zipIdx.filter (fun x => x.1.id ∉ resolvedIds before sha) ↔
        before[x.2]? = some x.1 ∧ x.1.targetSha ≠ sha := by
    intro x
    rw [List.mem_filter, List.mem_zipIdx_iff_getElem?]
    refine and_congr_right fun hx => ?_
    rw [decide_eq_true_iff, mem_resolvedIds hb (List.mem_of_getElem? hx)]
  obtain ⟨segs, hsegs, hof, hto⟩ := @mapM_some _ _
    (fun x : ActiveLane × ℕ => (laneIndex next x.1.id).map fun toLane =>
      GraphSegment.mk x.2 toLane x.1.colorId .through) _ fun x hx => by
    obtain ⟨hl, ht⟩ := (hmem x).mp hx
    obtain ⟨i, hi, -⟩ := laneIndex_eq hn (hrest _ (List.mem_of_getElem? hl) ht)
    exact ⟨_, Option.map_eq_some_iff.mpr ⟨i, hi, rfl⟩⟩
  refine ⟨segs, hsegs, fun seg hseg => ?_, fun i lane hi ht => ?_⟩
  · obtain ⟨x, hx, hs⟩ := hof seg hseg
    obtain ⟨toLane, hto, rfl⟩ := Option.map_eq_some_iff.mp hs
    obtain ⟨hl, ht⟩ := (hmem x).mp hx
    exact ⟨rfl, x.1, hl, ht, laneIndex_of_mem hn (hrest _ (List.mem_of_getElem? hl) ht) hto⟩
  · obtain ⟨seg, hseg, hs⟩ := hto (lane, i) ((hmem _).mpr ⟨hi, ht⟩)
    obtain ⟨toLane, -, rfl⟩ := Option.map_eq_some_iff.mp hs
    exact ⟨_, hseg, rfl⟩

theorem incomingSegments_spec (before : List ActiveLane) (sha : String) (nodeLane : ℕ) :
    ∃ segs, incomingSegments before sha nodeLane = some segs ∧
      (∀ seg ∈ segs, seg.shape = .incoming ∧ seg.toLane = nodeLane ∧
        ∃ lane, before[seg.fromLane]? = some lane ∧ lane.targetSha = sha) ∧
      ∀ i lane, before[i]? = some lane → lane.targetSha = sha → ∃ seg ∈ segs, seg.fromLane = i := by
  obtain ⟨segs, hsegs, hof, hto⟩ := @mapM_some _ _
    (fun fromLane => before[fromLane]?.map fun lane =>
      GraphSegment.mk fromLane nodeLane lane.colorId .incoming) (incoming before sha) fun i hi => by
    obtain ⟨lane, hl, -⟩ := mem_incoming.mp hi
    exact ⟨_, Option.map_eq_some_iff.mpr ⟨lane, hl, rfl⟩⟩
  refine ⟨segs, hsegs, fun seg hseg => ?_, fun i lane hi ht => ?_⟩
  · obtain ⟨i, hi, hs⟩ := hof seg hseg
    obtain ⟨lane, hl, rfl⟩ := Option.map_eq_some_iff.mp hs
    exact ⟨rfl, rfl, mem_incoming.mp hi⟩
  · obtain ⟨seg, hseg, hs⟩ := hto i (mem_incoming.mpr ⟨lane, hi, ht⟩)
    obtain ⟨lane', -, rfl⟩ := Option.map_eq_some_iff.mp hs
    exact ⟨_, hseg, rfl⟩

theorem outgoingSegments_spec (hn : (next.map (·.id)).Nodup) {outgoing : List (ℕ × ℕ)}
    (hlanes : ∀ x ∈ outgoing, ∃ lane ∈ next, lane.id = x.1) :
    ∃ segs, outgoingSegments next nodeLane outgoing = some segs ∧
      (∀ seg ∈ segs, seg.shape = .outgoing ∧ seg.fromLane = nodeLane ∧
        ∃ x ∈ outgoing, ∀ lane ∈ next, lane.id = x.1 → next[seg.toLane]? = some lane) ∧
      ∀ x ∈ outgoing, ∃ seg ∈ segs, ∀ lane ∈ next, lane.id = x.1 →
        next[seg.toLane]? = some lane := by
  obtain ⟨segs, hsegs, hof, hto⟩ := @mapM_some _ _ (fun x : ℕ × ℕ => (laneIndex next x.1).map
      fun toLane => GraphSegment.mk nodeLane toLane x.2 .outgoing) outgoing fun x hx => by
    obtain ⟨lane, hl, hid⟩ := hlanes x hx
    obtain ⟨i, hi, -⟩ := laneIndex_eq hn hl
    exact ⟨_, Option.map_eq_some_iff.mpr ⟨i, hid ▸ hi, rfl⟩⟩
  refine ⟨segs, hsegs, fun seg hseg => ?_, fun x hx => ?_⟩
  · obtain ⟨x, hx, hs⟩ := hof seg hseg
    obtain ⟨toLane, hi, rfl⟩ := Option.map_eq_some_iff.mp hs
    exact ⟨rfl, rfl, x, hx, fun lane hl hid => laneIndex_of_mem hn hl (hid ▸ hi)⟩
  · obtain ⟨seg, hseg, hs⟩ := hto x hx
    obtain ⟨toLane, hi, rfl⟩ := Option.map_eq_some_iff.mp hs
    exact ⟨_, hseg, fun lane hl hid => laneIndex_of_mem hn hl (hid ▸ hi)⟩

/-- **What a row does with the lanes**: `before` are the active lanes above it, `next` those below,
and no lane is at `width`. -/
structure Draws (before next : List ActiveLane) (commit : Commit) (width : ℕ) (row : GraphRow) :
    Prop where
  sha : row.sha = commit.sha
  /-- A lane that leads elsewhere goes on as it is. -/
  goesOn : ∀ i lane, before[i]? = some lane → lane.targetSha ≠ commit.sha →
    ∃ seg ∈ row.segments, seg.shape = .through ∧ seg.fromLane = i
  through : ∀ seg ∈ row.segments, seg.shape = .through → ∃ lane, before[seg.fromLane]? = some lane ∧
    lane.targetSha ≠ commit.sha ∧ next[seg.toLane]? = some lane
  arrives : ∀ i lane, before[i]? = some lane → lane.targetSha = commit.sha →
    ∃ seg ∈ row.segments, seg.shape = .incoming ∧ seg.fromLane = i
  incoming : ∀ seg ∈ row.segments, seg.shape = .incoming → seg.toLane = row.nodeLane ∧
    ∃ lane, before[seg.fromLane]? = some lane ∧ lane.targetSha = commit.sha
  leaves : ∀ p ∈ commit.parentShas, ∃ seg ∈ row.segments, seg.shape = .outgoing ∧
    ∃ lane, next[seg.toLane]? = some lane ∧ lane.targetSha = p
  outgoing : ∀ seg ∈ row.segments, seg.shape = .outgoing → seg.fromLane = row.nodeLane ∧
    ∃ lane, next[seg.toLane]? = some lane ∧ lane.targetSha ∈ commit.parentShas
  node : row.nodeLane < width
  before_le : before.length ≤ width
  next_le : next.length ≤ width

variable {commit : Commit}

/-- **A row**: no lookup fails, and it is drawn. -/
theorem layoutRow_draws (headSha : Option String) {w : Walk}
    (h : Lanes w.activeLanes w.nextLaneId) (commit : Commit) :
    ∃ w' row, layoutRow headSha w commit = some w' ∧ Lanes w'.activeLanes w'.nextLaneId ∧
      w'.rows = w.rows ++ [row] ∧ w.maxLaneCount ≤ w'.maxLaneCount ∧
      Draws w.activeLanes w'.activeLanes commit w'.maxLaneCount row := by
  unfold layoutRow
  dsimp only
  generalize hnode : (incoming w.activeLanes commit.sha).head?.getD w.activeLanes.length = nodeLane
  generalize hprimary : (incoming w.activeLanes commit.sha).head?.bind (w.activeLanes[·]?) =
    primaryLane
  generalize (primaryLane.map (·.colorId)).getD w.nextColorId = nodeColorId
  generalize (if primaryLane.isSome then w.nextColorId else w.nextColorId + 1) = nextColorId
  have hfirst := @opened_openFirst nodeLane w h commit nodeColorId nextColorId primaryLane
    fun lane hl => primaryLane_spec (hprimary.trans hl)
  obtain ⟨parents, hparents, hopened⟩ := @opened_foldlM _ _ _ _ nodeLane hfirst
    (commit.parentShas.drop 1)
  rw [List.take_append_drop] at hopened
  have hrest : ∀ lane ∈ w.activeLanes, lane.targetSha ≠ commit.sha → lane ∈ parents.nextLanes :=
    fun lane hl ht => hopened.remains ((mem_remaining h.nodup).mpr ⟨hl, ht⟩)
  have hn := hopened.lanes.nodup
  obtain ⟨through, hthrough, hthroughOf, hthroughTo⟩ := throughSegments_spec h.nodup hn hrest
  obtain ⟨into, hinto, hintoOf, hintoTo⟩ :=
    incomingSegments_spec w.activeLanes commit.sha nodeLane
  obtain ⟨out, hout, houtOf, houtTo⟩ := @outgoingSegments_spec _ nodeLane hn _ fun x hx => by
    obtain ⟨lane, hl, hid, -⟩ := hopened.sound x hx
    exact ⟨lane, hl, hid⟩
  rw [hparents]
  simp only [Option.bind_eq_bind, Option.bind_some, hthrough, hinto, hout]
  -- a segment is in one of the three lists, by its shape
  have hshape : ∀ seg ∈ through ++ into ++ out, (seg.shape = .through → seg ∈ through) ∧
      (seg.shape = .incoming → seg ∈ into) ∧ (seg.shape = .outgoing → seg ∈ out) := by
    intro seg hseg
    rcases List.mem_append.mp hseg with hseg | hseg
    · rcases List.mem_append.mp hseg with hseg | hseg
      · simp [(hthroughOf seg hseg).1, hseg]
      · simp [(hintoOf seg hseg).1, hseg]
    · simp [(houtOf seg hseg).1, hseg]
  have hleft : ∀ seg ∈ through, seg ∈ through ++ into ++ out := fun seg hseg =>
    List.mem_append_left _ (List.mem_append_left _ hseg)
  have hmiddle : ∀ seg ∈ into, seg ∈ through ++ into ++ out := fun seg hseg =>
    List.mem_append_left _ (List.mem_append_right _ hseg)
  have hright : ∀ seg ∈ out, seg ∈ through ++ into ++ out := fun seg hseg =>
    List.mem_append_right _ hseg
  refine ⟨_, _, rfl, hopened.lanes, rfl, ?_, ?_⟩
  · dsimp only
    omega
  refine {
    sha := rfl
    goesOn := fun i lane hi ht => ?_
    through := fun seg hseg hs => (hthroughOf seg ((hshape seg hseg).1 hs)).2
    arrives := fun i lane hi ht => ?_
    incoming := fun seg hseg hs => (hintoOf seg ((hshape seg hseg).2.1 hs)).2
    leaves := fun p hp => ?_
    outgoing := fun seg hseg hs => ?_
    node := ?_
    before_le := ?_
    next_le := ?_ }
  · obtain ⟨seg, hseg, hfrom⟩ := hthroughTo i lane hi ht
    exact ⟨seg, hleft seg hseg, (hthroughOf seg hseg).1, hfrom⟩
  · obtain ⟨seg, hseg, hfrom⟩ := hintoTo i lane hi ht
    exact ⟨seg, hmiddle seg hseg, (hintoOf seg hseg).1, hfrom⟩
  · obtain ⟨x, hx, lane, hl, hid, ht⟩ := hopened.complete p hp
    obtain ⟨seg, hseg, hto⟩ := houtTo x hx
    exact ⟨seg, hright seg hseg, (houtOf seg hseg).1, lane, hto lane hl hid, ht⟩
  · obtain ⟨-, hfrom, x, hx, hto⟩ := houtOf seg ((hshape seg hseg).2.2 hs)
    obtain ⟨lane, hl, hid, ht⟩ := hopened.sound x hx
    exact ⟨hfrom, lane, hto lane hl hid, ht⟩
  all_goals
    dsimp only
    omega

end Row

/-! ## The walk over the commits -/

/-- **The order of `git log --topo-order`**: distinct shas, and a parent in the list comes after its
children. -/
structure Ordered (commits : List Commit) : Prop where
  distinct : (commits.map (·.sha)).Nodup
  later : ∀ (i : ℕ) (c : Commit), commits[i]? = some c → ∀ (j : ℕ) (p : Commit),
    commits[j]? = some p → p.sha ∈ c.parentShas → i < j

/-- A path from row `i` down to row `j`: a segment out of the node of `i`, a segment through each
row between, and a segment into the node of `j`; `lane m` is where it enters row `m`. -/
def Joined (rows : List GraphRow) (i j : ℕ) : Prop :=
  i < j ∧ ∃ lane : ℕ → ℕ,
    (∃ row ∈ rows[i]?, ∃ seg ∈ row.segments, seg.shape = .outgoing ∧
      seg.fromLane = row.nodeLane ∧ seg.toLane = lane (i + 1)) ∧
    (∀ m, i < m → m < j → ∃ row ∈ rows[m]?, ∃ seg ∈ row.segments, seg.shape = .through ∧
      seg.fromLane = lane m ∧ seg.toLane = lane (m + 1)) ∧
    ∃ row ∈ rows[j]?, ∃ seg ∈ row.segments, seg.shape = .incoming ∧
      seg.fromLane = lane j ∧ seg.toLane = row.nodeLane

/-- The rows of the commits, with the active lanes above each of them. -/
structure Drawn (commits : List Commit) (rows : List GraphRow) (width : ℕ)
    (above : ℕ → List ActiveLane) : Prop where
  length : rows.length = commits.length
  distinct : ∀ m, ((above m).map (·.id)).Nodup
  draws : ∀ m c, commits[m]? = some c → ∃ row, rows[m]? = some row ∧
    Draws (above m) (above (m + 1)) c width row

section Run

variable {commits : List Commit} {rows : List GraphRow} {width : ℕ} {above : ℕ → List ActiveLane}
  {i j m : ℕ} {c p : Commit}

theorem Draws.mono {before next : List ActiveLane} {row : GraphRow} {width' : ℕ}
    (h : Draws before next c width row) (hle : width ≤ width') :
    Draws before next c width' row where
  __ := h
  node := h.node.trans_le hle
  before_le := h.before_le.trans hle
  next_le := h.next_le.trans hle

/-- **The run.** -/
theorem foldlM_drawn (headSha : Option String) (commits : List Commit) :
    ∃ w above, commits.foldlM (layoutRow headSha) ⟨[], 0, 0, 0, []⟩ = some w ∧
      Lanes w.activeLanes w.nextLaneId ∧ above commits.length = w.activeLanes ∧
      Drawn commits w.rows w.maxLaneCount above := by
  induction commits using List.reverseRecOn with
  | nil =>
    refine ⟨_, fun _ => [], rfl, ⟨List.nodup_nil, by simp⟩, rfl, rfl, fun _ => List.nodup_nil,
      fun m c hc => ?_⟩
    rw [List.getElem?_nil] at hc
    cases hc
  | append_singleton commits commit ih =>
    obtain ⟨w, above, hw, hlanes, habove, hdrawn⟩ := ih
    obtain ⟨w', row, hw', hlanes', hrows, hwidth, hdraws⟩ := layoutRow_draws headSha hlanes commit
    refine ⟨w', Function.update above (commits.length + 1) w'.activeLanes, ?_, hlanes', ?_, ?_⟩
    · rw [List.foldlM_append, hw]
      exact (bind_pure _).trans hw'
    · rw [List.length_append, List.length_singleton, Function.update_self]
    · refine ⟨?_, fun m => ?_, fun m c hc => ?_⟩
      · rw [hrows, List.length_append, List.length_append, hdrawn.length]
        rfl
      · by_cases hm : m = commits.length + 1
        · rw [hm, Function.update_self]
          exact hlanes'.nodup
        · rw [Function.update_of_ne hm]
          exact hdrawn.distinct m
      · rcases Nat.lt_trichotomy m commits.length with hlt | rfl | hgt
        · rw [List.getElem?_append_left hlt] at hc
          obtain ⟨row', hrow, hd⟩ := hdrawn.draws m c hc
          refine ⟨row', ?_, ?_⟩
          · rw [hrows, List.getElem?_append_left (hdrawn.length ▸ hlt), hrow]
          · rw [Function.update_of_ne (by omega), Function.update_of_ne (by omega)]
            exact hd.mono hwidth
        · rw [List.getElem?_concat_length] at hc
          cases hc
          refine ⟨row, ?_, ?_⟩
          · rw [hrows, ← hdrawn.length, List.getElem?_concat_length]
          · rw [Function.update_self, Function.update_of_ne (by omega), habove]
            exact hdraws
        · rw [List.getElem?_eq_none (by simp; omega)] at hc
          cases hc

theorem Draws.within {before next : List ActiveLane} {row : GraphRow}
    (h : Draws before next c width row) {seg : GraphSegment} (hseg : seg ∈ row.segments) :
    seg.fromLane < width ∧ seg.toLane < width := by
  have hlt : ∀ {lanes : List ActiveLane} {k : ℕ} {lane : ActiveLane}, lanes[k]? = some lane →
      lanes.length ≤ width → k < width := fun hk hle =>
    (List.getElem?_eq_some_iff.mp hk).1.trans_le hle
  cases hs : seg.shape with
  | through =>
    obtain ⟨lane, hfrom, -, hto⟩ := h.through seg hseg hs
    exact ⟨hlt hfrom h.before_le, hlt hto h.next_le⟩
  | incoming =>
    obtain ⟨hto, lane, hfrom, -⟩ := h.incoming seg hseg hs
    exact ⟨hlt hfrom h.before_le, hto ▸ h.node⟩
  | outgoing =>
    obtain ⟨hfrom, lane, hto, -⟩ := h.outgoing seg hseg hs
    exact ⟨hfrom ▸ h.node, hlt hto h.next_le⟩

theorem Drawn.parent_of_joined (h : Drawn commits rows width above) (hc : commits[i]? = some c)
    (hp : commits[j]? = some p) (hj : Joined rows i j) : p.sha ∈ c.parentShas := by
  obtain ⟨hij, lane, ⟨rowi, hrowi, out, hout, hshape, -, hstart⟩, hthrough, rowj, hrowj, seg, hseg,
    hinto, hfrom, -⟩ := hj
  have hfollow : ∀ m, i + 1 ≤ m → m ≤ j →
      ∃ l, (above m)[lane m]? = some l ∧ l.targetSha ∈ c.parentShas := by
    intro m hm
    induction m, hm using Nat.le_induction with
    | base =>
      intro _
      obtain ⟨row, hrow, hd⟩ := h.draws i c hc
      cases hrowi.symm.trans hrow
      obtain ⟨-, l, hl, ht⟩ := hd.outgoing out hout hshape
      exact ⟨l, hstart ▸ hl, ht⟩
    | succ m hm ih =>
      intro hle
      obtain ⟨l, hl, ht⟩ := ih (by omega)
      obtain ⟨row, hrow, seg, hseg, hs, hfrom, hto⟩ := hthrough m hm (by omega)
      have hlen := (List.getElem?_eq_some_iff.mp hp).1
      obtain ⟨row', hrow', hd⟩ := h.draws m _ (List.getElem?_eq_getElem (by omega))
      cases hrow.symm.trans hrow'
      -- the segment goes on with the same lane
      obtain ⟨l', hl', -, hnext⟩ := hd.through seg hseg hs
      rw [hfrom, hl] at hl'
      cases hl'
      exact ⟨l, hto ▸ hnext, ht⟩
  obtain ⟨l, hl, ht⟩ := hfollow j hij le_rfl
  obtain ⟨row, hrow, hd⟩ := h.draws j p hp
  cases hrowj.symm.trans hrow
  obtain ⟨-, l', hl', ht'⟩ := hd.incoming seg hseg hinto
  rw [hfrom, hl] at hl'
  cases hl'
  exact ht' ▸ ht

/-- To a parent a path leads. -/
theorem Drawn.joined_of_parent (h : Drawn commits rows width above) (ho : Ordered commits)
    (hc : commits[i]? = some c) (hp : commits[j]? = some p) (hmem : p.sha ∈ c.parentShas) :
    Joined rows i j := by
  have hij := ho.later i c hc j p hp hmem
  have hlen := (List.getElem?_eq_some_iff.mp hp).1
  obtain ⟨rowi, hrowi, hdi⟩ := h.draws i c hc
  obtain ⟨out, hout, hshape, l, hl, ht⟩ := hdi.leaves p.sha hmem
  -- the lane of the parent goes on, from row to row
  have hfollow : ∀ m, i + 1 ≤ m → m ≤ j → ∃ lane : ℕ → ℕ, lane (i + 1) = out.toLane ∧
      (∀ m', i < m' → m' < m → ∃ row ∈ rows[m']?, ∃ seg ∈ row.segments, seg.shape = .through ∧
        seg.fromLane = lane m' ∧ seg.toLane = lane (m' + 1)) ∧ (above m)[lane m]? = some l := by
    intro m hm
    induction m, hm using Nat.le_induction with
    | base => exact fun _ => ⟨fun _ => out.toLane, rfl, fun m' h1 h2 => by omega, hl⟩
    | succ m hm ih =>
      intro hle
      obtain ⟨lane, hstart, hthrough, hat⟩ := ih (by omega)
      obtain ⟨row, hrow, hd⟩ := h.draws m _ (List.getElem?_eq_getElem (by omega))
      have hne : l.targetSha ≠ commits[m].sha := by
        rw [ht]
        intro he
        have hidx : (commits.map (·.sha))[j]? = (commits.map (·.sha))[m]? := by
          rw [List.getElem?_map, List.getElem?_map, hp, List.getElem?_eq_getElem (by omega)]
          exact congrArg some he
        have := (List.getElem?_inj (by simpa using hlen) ho.distinct).mp hidx
        omega
      obtain ⟨seg, hseg, hs, hfrom⟩ := hd.goesOn (lane m) l hat hne
      obtain ⟨l', hl', -, hnext⟩ := hd.through seg hseg hs
      rw [hfrom, hat] at hl'
      cases hl'
      refine ⟨Function.update lane (m + 1) seg.toLane, ?_, fun m' h1 h2 => ?_, ?_⟩
      · rw [Function.update_of_ne (by omega)]
        exact hstart
      · rcases Nat.lt_succ_iff_lt_or_eq.mp h2 with hlt | rfl
        · rw [Function.update_of_ne (by omega), Function.update_of_ne (by omega)]
          exact hthrough m' h1 hlt
        · rw [Function.update_of_ne (by omega), Function.update_self]
          exact ⟨row, hrow, seg, hseg, hs, hfrom, rfl⟩
      · rw [Function.update_self]
        exact hnext
  obtain ⟨lane, hstart, hthrough, hat⟩ := hfollow j hij le_rfl
  obtain ⟨rowj, hrowj, hdj⟩ := h.draws j p hp
  obtain ⟨seg, hseg, hs, hfrom⟩ := hdj.arrives (lane j) l hat ht
  exact ⟨hij, lane, ⟨rowi, hrowi, out, hout, hshape, (hdi.outgoing out hout hshape).1, hstart.symm⟩,
    hthrough, rowj, hrowj, seg, hseg, hs, hfrom, (hdj.incoming seg hseg hs).1⟩

end Run

/-- **The graph draws exactly the ancestry.** The layout never fails; it has a row for each commit,
within the lanes it counts; between two rows the active lanes have distinct ids; and a path of
segments joins two rows exactly if the lower commit is a parent of the upper. -/
theorem layoutGraph_draws {commits : List Commit} (ho : Ordered commits)
    (headSha : Option String) :
    ∃ layout, layoutGraph commits headSha = some layout ∧
      layout.rows.map (·.sha) = commits.map (·.sha) ∧
      (∀ row ∈ layout.rows, ∀ seg ∈ row.segments,
        seg.fromLane < layout.maxLaneCount ∧ seg.toLane < layout.maxLaneCount) ∧
      (∀ n, ∃ w, (commits.take n).foldlM (layoutRow headSha) ⟨[], 0, 0, 0, []⟩ = some w ∧
        (w.activeLanes.map (·.id)).Nodup) ∧
      ∀ i j c p, commits[i]? = some c → commits[j]? = some p →
        (Joined layout.rows i j ↔ p.sha ∈ c.parentShas) := by
  obtain ⟨w, above, hw, -, -, hdrawn⟩ := foldlM_drawn headSha commits
  refine ⟨⟨w.rows, w.maxLaneCount⟩, ?_, ?_, fun row hrow seg hseg => ?_, fun n => ?_,
    fun i j c p hc hp => ⟨hdrawn.parent_of_joined hc hp, hdrawn.joined_of_parent ho hc hp⟩⟩
  · rw [layoutGraph, hw]
    rfl
  · refine List.ext_getElem? fun m => ?_
    rw [List.getElem?_map, List.getElem?_map]
    cases hm : commits[m]? with
    | none =>
      have hlen : w.rows.length ≤ m := by
        rw [hdrawn.length]
        exact List.getElem?_eq_none_iff.mp hm
      rw [List.getElem?_eq_none hlen]
      rfl
    | some c =>
      obtain ⟨row, hrow, hd⟩ := hdrawn.draws m c hm
      rw [hrow]
      exact congrArg some hd.sha
  · obtain ⟨m, hm⟩ := List.mem_iff_getElem?.mp hrow
    have hlen : m < commits.length := hdrawn.length ▸ (List.getElem?_eq_some_iff.mp hm).1
    obtain ⟨row', hrow', hd⟩ := hdrawn.draws m _ (List.getElem?_eq_getElem hlen)
    cases hm.symm.trans hrow'
    exact hd.within hseg
  · obtain ⟨w', -, hw', hlanes, -, -⟩ := foldlM_drawn headSha (commits.take n)
    exact ⟨w', hw', hlanes.nodup⟩

/-- A merge, its first parent, and their common parent. -/
def sampleCommits : List Commit :=
  [⟨"m", ["a", "b"], []⟩, ⟨"a", ["b"], []⟩, ⟨"b", [], []⟩]

theorem sample_ordered : Ordered sampleCommits where
  distinct := by decide
  later i c hc j p hp hmem := by
    have hi := (List.getElem?_eq_some_iff.mp hc).1
    have hj := (List.getElem?_eq_some_iff.mp hp).1
    rw [show sampleCommits.length = 3 from rfl] at hi hj
    interval_cases i <;> interval_cases j <;> cases hc <;> cases hp <;> revert hmem <;> decide

theorem layoutGraph_sample : ∃ layout, layoutGraph sampleCommits none = some layout ∧
    layout.rows.map (·.sha) = ["m", "a", "b"] ∧ Joined layout.rows 0 2 := by
  obtain ⟨layout, hlayout, hrows, -, -, hjoined⟩ := layoutGraph_draws sample_ordered none
  exact ⟨layout, hlayout, hrows, (hjoined 0 2 _ _ rfl rfl).mpr (by decide)⟩

end Zeron.History
