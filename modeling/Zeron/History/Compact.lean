import Zeron.History.Graph
import Zeron.Lib.Dag

/-!
# Compacting the history

What `ui/src/history.rs` does to show a part of the commits: `compact_commits_to_visible` and
`collapse_branch_runs`. The loop of `nearest_visible_parents` is given fuel.

* `Frame`, `Search`, `step`, `nearestVisibleParents`, `compactCommitsToVisible`,
  `collapseBranchRuns`: the source; the set `seen` of a frame is the set of what is `resolved`;
* `graph`: the commits as a graph whose leaves are visible or not loaded;
* `Leads`, **`frame_leads`**: what the loop does with a frame;
* **`compact_ancestry`**, **`collapse_hides`**.
-/

namespace Zeron.History

open Dag

/-! ## Nearest visible parents -/

section

variable (commits : List Commit) (visible : Finset String)

/-- `by_sha`: the last commit of the sha. -/
def bySha (sha : String) : Option Commit := commits.reverse.find? (·.sha = sha)

/-- `visible.contains(sha) || !by_sha.contains_key(sha)`. -/
def shown (sha : String) : Bool := sha ∈ visible || (bySha commits sha).isNone

structure Frame where
  sha : String
  nextParent : ℕ
  resolved : List String

def Frame.new (sha : String) : Frame := ⟨sha, 0, []⟩

def Frame.extend (frame : Frame) (parents : List String) : Frame :=
  { frame with resolved := Dag.extend frame.resolved parents }

abbrev Memo := AList fun _ : String => List String

/-- The variables of the loop, with the top of the stack first. -/
structure Search where
  stack : List Frame
  visiting : Finset String
  memo : Memo

/-- The last frame is taken off the stack. -/
def Search.pop (frame : Frame) (frames : List Frame) (visiting : Finset String) (memo : Memo) :
    Search ⊕ (List String × Memo) :=
  let memo := memo.insert frame.sha frame.resolved
  match frames with
  | caller :: frames =>
    .inl ⟨caller.extend frame.resolved :: frames, visiting.erase frame.sha, memo⟩
  | [] => .inr (frame.resolved, memo)

/-- The body of the loop; `none` is a failed lookup. -/
def Search.step (s : Search) : Option (Search ⊕ (List String × Memo)) :=
  match s.stack with
  | [] => none
  | frame :: frames => do
    let parents := (← bySha commits frame.sha).parentShas
    match parents[frame.nextParent]? with
    | none => some (pop frame frames s.visiting s.memo)
    | some parent =>
      let frame := { frame with nextParent := frame.nextParent + 1 }
      let resolved :=
        if shown commits visible parent then some [parent]
        else (s.memo.lookup parent).or (if parent ∈ s.visiting then some [] else none)
      match resolved with
      | some resolved => some (.inl { s with stack := frame.extend resolved :: frames })
      | none =>
        some (.inl { s with
          stack := .new parent :: frame :: frames
          visiting := insert parent s.visiting })

def Search.run : ℕ → Search → Option (List String × Memo)
  | 0, _ => none
  | fuel + 1, s =>
    match s.step commits visible with
    | none => none
    | some (.inl s) => run fuel s
    | some (.inr result) => some result

def nearestVisibleParents (fuel : ℕ) (sha : String) (memo : Memo) :
    Option (List String × Memo) :=
  if shown commits visible sha then some ([sha], memo)
  else
    match memo.lookup sha with
    | some cached => some (cached, memo)
    | none => Search.run commits visible fuel ⟨[.new sha], {sha}, memo⟩

/-- The parents of one commit, behind those that are there. -/
def compactParents (fuel : ℕ) : List String → List String → Memo → Option (List String × Memo)
  | [], acc, memo => some (acc, memo)
  | parent :: parents, acc, memo => do
    let (resolved, memo) ← nearestVisibleParents commits visible fuel parent memo
    compactParents fuel parents (Dag.extend acc resolved) memo

def compactFrom (fuel : ℕ) : List Commit → Memo → Option (List Commit)
  | [], _ => some []
  | commit :: rest, memo => do
    let (parentShas, memo) ← compactParents commits visible fuel commit.parentShas [] memo
    let rest ← compactFrom fuel rest memo
    return { commit with parentShas } :: rest

def compactCommitsToVisible (fuel : ℕ) : Option (List Commit) :=
  compactFrom commits visible fuel (commits.filter (·.sha ∈ visible)) ∅

end

/-! ## Collapsed branches -/

/-- `branch_ref_key`. -/
def branchRefKey (reference : Ref) : Option String :=
  match reference.kind with
  | .branch => some ("local:" ++ reference.label)
  | .remote => some ("remote:" ++ reference.label)
  | .tag => none

/-- `colors_by_ref`: the color of the last commit that has the ref. -/
def colorsByRef (collapsedRefs : Finset String) :
    List (Commit × GraphRow) → AList fun _ : String => ℕ :=
  List.foldl (fun colors x => x.1.refs.foldl (fun colors reference =>
    match branchRefKey reference with
    | some key => if key ∈ collapsedRefs then colors.insert key x.2.nodeColorId else colors
    | none => colors) colors) ∅

/-- The commit is hidden. -/
def hides (commits : List Commit) (collapsedRefs : Finset String)
    (colors : AList fun _ : String => ℕ) (x : Commit × GraphRow) : Bool :=
  let isSelectedTip := x.1.refs.any fun reference =>
    (branchRefKey reference).any (· ∈ collapsedRefs)
  let isJunction := x.1.parentShas.length ≠ 1 ∨
    1 < (commits.flatMap (·.parentShas)).count x.1.sha
  x.2.nodeColorId ∈ colors.entries.map (·.2) && !isSelectedTip && x.1.refs.isEmpty && !isJunction

/-- One more for each ref of the color. -/
def countHidden (colors : AList fun _ : String => ℕ) (counts : AList fun _ : String => ℕ)
    (color : ℕ) : AList fun _ : String => ℕ :=
  colors.entries.foldl (fun counts x =>
    if x.2 = color then counts.insert x.1 ((counts.lookup x.1).getD 0 + 1) else counts) counts

/-- The commits that are left, and the hidden counts of the refs. -/
def collapseBranchRuns (fuel : ℕ) (commits : List Commit) (collapsedRefs : Finset String)
    (headSha : Option String) : Option (List Commit × AList fun _ : String => ℕ) :=
  if collapsedRefs = ∅ ∨ commits = [] then some (commits, ∅)
  else do
    let sourceGraph ← layoutGraph commits headSha
    let drawn := commits.zip sourceGraph.rows
    let colors := colorsByRef collapsedRefs drawn
    if colors.entries = [] then return (commits, ∅)
    let hidden := drawn.filter (hides commits collapsedRefs colors)
    let visible := ((drawn.filter fun x => !hides commits collapsedRefs colors x).map
      (·.1.sha)).toFinset
    let hiddenCounts := hidden.foldl (fun counts x => countHidden colors counts x.2.nodeColorId) ∅
    let left ← compactCommitsToVisible commits visible fuel
    return (left, hiddenCounts)

/-! ## The commits as a graph -/

section Loaded

variable {commits : List Commit} {visible : Finset String} {sha : String} {c : Commit}

theorem bySha_spec (ho : Ordered commits) :
    bySha commits sha = some c ↔ c ∈ commits ∧ c.sha = sha := by
  unfold bySha
  constructor
  · intro h
    exact ⟨List.mem_reverse.mp (List.mem_of_find?_eq_some h), by simpa using List.find?_some h⟩
  · rintro ⟨hc, rfl⟩
    cases h : commits.reverse.find? (·.sha = c.sha) with
    | none => exact absurd (List.find?_eq_none.mp h c (List.mem_reverse.mpr hc)) (by simp)
    | some c' =>
      have hc' := List.mem_reverse.mp (List.mem_of_find?_eq_some h)
      have hsha : c'.sha = c.sha := by simpa using List.find?_some h
      rw [List.inj_on_of_nodup_map ho.distinct hc' hc hsha]

variable (commits) in
/-- The place of a commit from the end; 0 if it is not loaded. -/
def height (sha : String) : ℕ := commits.length - commits.findIdx (·.sha = sha)

theorem findIdx_sha (ho : Ordered commits) {i : ℕ} (hi : commits[i]? = some c) :
    commits.findIdx (·.sha = c.sha) = i := by
  obtain ⟨hlt, he⟩ := List.getElem?_eq_some_iff.mp hi
  rw [List.findIdx_eq hlt]
  refine ⟨by simp [he], fun j hj => ?_⟩
  rw [decide_eq_false_iff_not, ← he]
  intro hsha
  have hsame : (commits.map (·.sha))[j]? = (commits.map (·.sha))[i]? := by
    rw [List.getElem?_map, List.getElem?_map, List.getElem?_eq_getElem (by omega),
      List.getElem?_eq_getElem hlt]
    exact congrArg some hsha
  have := (List.getElem?_inj (by rw [List.length_map]; omega) ho.distinct).mp hsame
  omega

/-- **A parent is lower.** -/
theorem height_lt (ho : Ordered commits) (hc : c ∈ commits) {parent : String}
    (hp : parent ∈ c.parentShas) : height commits parent < height commits c.sha := by
  obtain ⟨i, hi⟩ := List.mem_iff_getElem?.mp hc
  have hlen := (List.getElem?_eq_some_iff.mp hi).1
  rw [height, height, findIdx_sha ho hi]
  by_cases hlt : commits.findIdx (·.sha = parent) < commits.length
  · have hsha : commits[commits.findIdx (·.sha = parent)].sha = parent := by
      simpa using List.findIdx_getElem (w := hlt)
    have hbelow := ho.later i c hi _ _ (List.getElem?_eq_getElem hlt) (by rw [hsha]; exact hp)
    omega
  · omega

variable (visible) in
/-- The commits whose leaves are visible or not loaded. -/
def graph (ho : Ordered commits) : Graph String where
  next sha := if shown commits visible sha then none else (bySha commits sha).map (·.parentShas)
  rank := height commits
  descends := by
    intro a bs h b hb
    split_ifs at h with hs
    obtain ⟨c, hc, rfl⟩ := Option.map_eq_some_iff.mp h
    obtain ⟨hmem, rfl⟩ := (bySha_spec ho).mp hc
    exact height_lt ho hmem hb

section Search

variable (ho : Ordered commits)

theorem next_shown {ho : Ordered commits} (h : shown commits visible sha = true) :
    (graph visible ho).next sha = none := if_pos h

theorem next_hidden {ho : Ordered commits} (h : shown commits visible sha = false)
    (hc : bySha commits sha = some c) : (graph visible ho).next sha = some c.parentShas := by
  show (if shown commits visible sha then none else _) = _
  rw [h, if_neg Bool.false_ne_true, hc]
  rfl

theorem exists_hidden (h : shown commits visible sha = false) :
    ∃ c, bySha commits sha = some c := by
  rw [shown, Bool.or_eq_false_iff] at h
  exact Option.isSome_iff_exists.mp (by simpa using h.2)

variable (visible) in
/-- The nearest visible parents of a sha. -/
def nearest (sha : String) : List String := firsts ((graph visible ho).walk sha)

variable (visible) in
/-- The memo holds nothing but nearest visible parents. -/
def MemoGood (memo : Memo) : Prop :=
  ∀ sha list, memo.lookup sha = some list → list = nearest visible ho sha

end Search

/-! ## The loop -/

section Loop

variable (commits visible) in
/-- The loop comes from one state to another, whatever the fuel. -/
def Leads (s s' : Search) : Prop :=
  ∃ n, ∀ fuel, Search.run commits visible (n + fuel) s = Search.run commits visible fuel s'

theorem Leads.refl (s : Search) : Leads commits visible s s := ⟨0, fun fuel => by rw [Nat.zero_add]⟩

theorem Leads.trans {s s' s'' : Search} (h : Leads commits visible s s')
    (h' : Leads commits visible s' s'') : Leads commits visible s s'' := by
  obtain ⟨n, hn⟩ := h
  obtain ⟨n', hn'⟩ := h'
  exact ⟨n + n', fun fuel => by rw [Nat.add_assoc, hn, hn']⟩

theorem Leads.step {s s' : Search} (h : s.step commits visible = some (.inl s')) :
    Leads commits visible s s' := by
  refine ⟨1, fun fuel => ?_⟩
  rw [Nat.add_comm, Search.run, h]

variable {frames : List Frame} {visiting : Finset String} {memo : Memo} {k : ℕ}
  {resolved list : List String} {parent : String}

theorem step_resolved (hc : bySha commits sha = some c) (hk : c.parentShas[k]? = some parent)
    (h : (if shown commits visible parent then some [parent]
      else (memo.lookup parent).or (if parent ∈ visiting then some [] else none)) = some list) :
    (Search.mk (⟨sha, k, resolved⟩ :: frames) visiting memo).step commits visible =
      some (.inl ⟨⟨sha, k + 1, Dag.extend resolved list⟩ :: frames, visiting, memo⟩) := by
  simp only [Search.step, hc, Option.bind_eq_bind, Option.bind_some, hk, h]
  rfl

theorem step_push (hc : bySha commits sha = some c) (hk : c.parentShas[k]? = some parent)
    (h : (if shown commits visible parent then some [parent]
      else (memo.lookup parent).or (if parent ∈ visiting then some [] else none)) = none) :
    (Search.mk (⟨sha, k, resolved⟩ :: frames) visiting memo).step commits visible =
      some (.inl ⟨.new parent :: ⟨sha, k + 1, resolved⟩ :: frames, insert parent visiting,
        memo⟩) := by
  simp only [Search.step, hc, Option.bind_eq_bind, Option.bind_some, hk, h]

theorem step_pop (hc : bySha commits sha = some c) {caller : Frame} :
    (Search.mk (⟨sha, c.parentShas.length, resolved⟩ :: caller :: frames) visiting memo).step
        commits visible =
      some (.inl ⟨caller.extend resolved :: frames, visiting.erase sha,
        memo.insert sha resolved⟩) := by
  have hk : c.parentShas[c.parentShas.length]? = none := List.getElem?_eq_none le_rfl
  simp only [Search.step, hc, Option.bind_eq_bind, Option.bind_some, hk]
  rfl

theorem step_last (hc : bySha commits sha = some c) :
    (Search.mk [⟨sha, c.parentShas.length, resolved⟩] visiting memo).step commits visible =
      some (.inr (resolved, memo.insert sha resolved)) := by
  have hk : c.parentShas[c.parentShas.length]? = none := List.getElem?_eq_none le_rfl
  simp only [Search.step, hc, Option.bind_eq_bind, Option.bind_some, hk]
  rfl

section Frames

variable {ho : Ordered commits}

theorem MemoGood.insert (h : MemoGood visible ho memo) :
    MemoGood visible ho (memo.insert sha (nearest visible ho sha)) := by
  intro sha' list hl
  by_cases he : sha' = sha
  · subst he
    rw [AList.lookup_insert] at hl
    exact (Option.some.inj hl).symm
  · rw [AList.lookup_insert_ne he] at hl
    exact h sha' list hl

theorem nearest_shown (h : shown commits visible sha = true) :
    nearest visible ho sha = [sha] := by
  rw [nearest, Graph.walk_leaf (next_shown h)]
  rfl

variable (visible) in
/-- What a frame has resolved behind its first parents. -/
def resolvedTo (ho : Ordered commits) (c : Commit) (k : ℕ) : List String :=
  firsts ((c.parentShas.take k).flatMap (graph visible ho).walk)

theorem resolvedTo_succ (hk : c.parentShas[k]? = some parent) :
    resolvedTo visible ho c (k + 1) =
      Dag.extend (resolvedTo visible ho c k) (nearest visible ho parent) := by
  rw [resolvedTo, resolvedTo, nearest, extend_firsts, firsts, firsts, ← extend_append,
    List.take_add_one, hk, Option.toList_some, List.flatMap_append, List.flatMap_singleton]

theorem resolvedTo_length (hs : shown commits visible sha = false)
    (hc : bySha commits sha = some c) :
    resolvedTo visible ho c c.parentShas.length = nearest visible ho sha := by
  rw [resolvedTo, List.take_length, nearest, Graph.walk_node (next_hidden hs hc)]

/-- One parent of a frame, if the loop comes to the end of a frame of the parent's. -/
theorem parent_leads (hc : bySha commits sha = some c) (hp : c.parentShas[k]? = some parent)
    (hm : MemoGood visible ho memo) (hnot : parent ∉ visiting)
    (hrec : ∀ cp frames, shown commits visible parent = false → bySha commits parent = some cp →
      ∃ memo', MemoGood visible ho memo' ∧ Leads commits visible
        ⟨⟨parent, 0, resolvedTo visible ho cp 0⟩ :: frames, insert parent visiting, memo⟩
        ⟨⟨parent, cp.parentShas.length, nearest visible ho parent⟩ :: frames,
          insert parent visiting, memo'⟩) :
    ∃ memo', MemoGood visible ho memo' ∧ Leads commits visible
      ⟨⟨sha, k, resolvedTo visible ho c k⟩ :: frames, visiting, memo⟩
      ⟨⟨sha, k + 1, resolvedTo visible ho c (k + 1)⟩ :: frames, visiting, memo'⟩ := by
  rw [resolvedTo_succ hp]
  cases hsp : shown commits visible parent with
  | true =>
    rw [nearest_shown hsp]
    exact ⟨memo, hm, .step (step_resolved hc hp (by rw [hsp]; rfl))⟩
  | false =>
    cases hl : memo.lookup parent with
    | some list =>
      rw [← hm parent list hl]
      exact ⟨memo, hm, .step (step_resolved hc hp (by rw [hsp, hl]; rfl))⟩
    | none =>
      obtain ⟨cp, hcp⟩ := exists_hidden hsp
      obtain ⟨memo', hm', hleads⟩ :=
        hrec cp (⟨sha, k + 1, resolvedTo visible ho c k⟩ :: frames) hsp hcp
      have hpush := @step_push commits visible sha c frames visiting memo k
        (resolvedTo visible ho c k) parent hc hp (by rw [hsp, hl, if_neg hnot]; rfl)
      have hpop := @step_pop commits visible parent cp frames (insert parent visiting) memo'
        (nearest visible ho parent) hcp ⟨sha, k + 1, resolvedTo visible ho c k⟩
      rw [Finset.erase_insert hnot] at hpop
      exact ⟨_, hm'.insert, (Leads.step hpush).trans (hleads.trans (.step hpop))⟩

/-- **What the loop does with a frame**: it comes to the end of the parents, with the nearest
visible ones, and leaves the frames below as they are. -/
theorem frame_leads (hs : shown commits visible sha = false) (hc : bySha commits sha = some c)
    (hk : k ≤ c.parentShas.length) (hm : MemoGood visible ho memo)
    (hv : ∀ v ∈ visiting, height commits sha ≤ height commits v) :
    ∃ memo', MemoGood visible ho memo' ∧ Leads commits visible
      ⟨⟨sha, k, resolvedTo visible ho c k⟩ :: frames, visiting, memo⟩
      ⟨⟨sha, c.parentShas.length, nearest visible ho sha⟩ :: frames, visiting, memo'⟩ := by
  induction hn : height commits sha using Nat.strong_induction_on
    generalizing sha c k frames visiting memo with
  | _ n ih =>
    induction hd : c.parentShas.length - k generalizing k memo with
    | zero =>
      have hend : k = c.parentShas.length := by omega
      rw [hend, resolvedTo_length hs hc]
      exact ⟨memo, hm, .refl _⟩
    | succ d ihk =>
      obtain ⟨parent, hp⟩ : ∃ parent, c.parentShas[k]? = some parent :=
        ⟨_, List.getElem?_eq_getElem (by omega)⟩
      obtain ⟨hcm, rfl⟩ := (bySha_spec ho).mp hc
      -- a parent is lower than all that is on the stack
      have hlow := height_lt ho hcm (List.mem_of_getElem? hp)
      have hnot : parent ∉ visiting := fun hmem => absurd (hv parent hmem) (by omega)
      have hv' : ∀ v ∈ insert parent visiting, height commits parent ≤ height commits v := by
        intro v hmem
        rcases Finset.mem_insert.mp hmem with rfl | hmem
        · exact le_rfl
        · exact hlow.le.trans (hv v hmem)
      obtain ⟨memo₁, hm₁, hleads⟩ := parent_leads hc hp hm hnot fun cp frames hsp hcp =>
        ih _ (hn ▸ hlow) hsp hcp (Nat.zero_le _) hm hv' rfl
      obtain ⟨memo', hm', hrest⟩ := ihk (k := k + 1) (by omega) hm₁ (by omega)
      exact ⟨memo', hm', hleads.trans hrest⟩

/-- **The nearest visible parents are found**, with enough fuel. -/
theorem nearestVisibleParents_eq (hm : MemoGood visible ho memo) (sha : String) :
    ∃ memo' bound, MemoGood visible ho memo' ∧ ∀ fuel, bound ≤ fuel →
      nearestVisibleParents commits visible fuel sha memo =
        some (nearest visible ho sha, memo') := by
  cases hs : shown commits visible sha with
  | true =>
    refine ⟨memo, 0, hm, fun fuel _ => ?_⟩
    rw [nearestVisibleParents, hs, if_pos rfl, nearest_shown hs]
  | false =>
    cases hl : memo.lookup sha with
    | some cached =>
      refine ⟨memo, 0, hm, fun fuel _ => ?_⟩
      rw [nearestVisibleParents, hs, if_neg Bool.false_ne_true, hl, ← hm sha cached hl]
    | none =>
      obtain ⟨c, hc⟩ := exists_hidden hs
      obtain ⟨memo', hm', n, hleads⟩ := @frame_leads commits visible sha c [] {sha} memo 0 ho hs hc
        (Nat.zero_le _) hm (fun v hv => (Finset.mem_singleton.mp hv).symm ▸ le_rfl)
      refine ⟨memo'.insert sha (nearest visible ho sha), n + 1, hm'.insert, fun fuel hf => ?_⟩
      obtain ⟨rest, rfl⟩ : ∃ rest, fuel = n + (rest + 1) := ⟨fuel - n - 1, by omega⟩
      rw [nearestVisibleParents, hs, if_neg Bool.false_ne_true, hl]
      show Search.run commits visible (n + (rest + 1)) _ = _
      refine (hleads (rest + 1)).trans ?_
      rw [Search.run, step_last hc]

theorem compactParents_eq (hm : MemoGood visible ho memo) (parents acc : List String) :
    ∃ memo' bound, MemoGood visible ho memo' ∧ ∀ fuel, bound ≤ fuel →
      compactParents commits visible fuel parents acc memo =
        some (Dag.extend acc (parents.flatMap (graph visible ho).walk), memo') := by
  induction parents generalizing acc memo with
  | nil => exact ⟨memo, 0, hm, fun _ _ => rfl⟩
  | cons parent parents ih =>
    obtain ⟨memo₁, bound₁, hm₁, h₁⟩ := nearestVisibleParents_eq hm parent
    obtain ⟨memo', bound', hm', h'⟩ := ih hm₁ (Dag.extend acc (nearest visible ho parent))
    refine ⟨memo', max bound₁ bound', hm', fun fuel hf => ?_⟩
    rw [compactParents, h₁ fuel (le_of_max_le_left hf)]
    refine (h' fuel (le_of_max_le_right hf)).trans ?_
    rw [List.flatMap_cons, nearest, extend_firsts, extend_append]

variable (visible ho) in
/-- A commit with its nearest visible ancestors for parents. -/
def compacted (c : Commit) : Commit :=
  { c with parentShas := firsts (c.parentShas.flatMap (graph visible ho).walk) }

theorem compactFrom_eq (hm : MemoGood visible ho memo) (list : List Commit) :
    ∃ bound, ∀ fuel, bound ≤ fuel →
      compactFrom commits visible fuel list memo = some (list.map (compacted visible ho)) := by
  induction list generalizing memo with
  | nil => exact ⟨0, fun _ _ => rfl⟩
  | cons c list ih =>
    obtain ⟨memo₁, bound₁, hm₁, h₁⟩ := compactParents_eq hm c.parentShas []
    obtain ⟨bound', h'⟩ := ih hm₁
    refine ⟨max bound₁ bound', fun fuel hf => ?_⟩
    rw [compactFrom, h₁ fuel (le_of_max_le_left hf)]
    show (compactFrom commits visible fuel list memo₁).bind _ = _
    rw [h' fuel (le_of_max_le_right hf)]
    rfl

variable (visible ho) in
/-- **The compacted history.** -/
theorem compactCommitsToVisible_eq : ∃ bound, ∀ fuel, bound ≤ fuel →
    compactCommitsToVisible commits visible fuel =
      some ((commits.filter (·.sha ∈ visible)).map (compacted visible ho)) :=
  compactFrom_eq (fun sha list hl => by cases hl) _

end Frames

end Loop

/-! ## Ancestry -/

section Ancestry

variable {ho : Ordered commits} {a b x y : String}

/-- `b` is a listed parent of `a`. -/
def ParentOf (list : List Commit) (a b : String) : Prop :=
  ∃ c ∈ list, c.sha = a ∧ b ∈ c.parentShas

variable (commits visible) in
/-- A step from a hidden commit to a parent. -/
def HiddenStep (a b : String) : Prop := ParentOf commits a b ∧ a ∉ visible

theorem not_loaded_iff (ho : Ordered commits) :
    (bySha commits a).isNone = true ↔ a ∉ commits.map (·.sha) := by
  cases h : bySha commits a with
  | none =>
    refine iff_of_true rfl fun hmem => ?_
    obtain ⟨c, hc, rfl⟩ := List.mem_map.mp hmem
    rw [(bySha_spec ho).mpr ⟨hc, rfl⟩] at h
    cases h
  | some c =>
    obtain ⟨hc, rfl⟩ := (bySha_spec ho).mp h
    exact iff_of_false Bool.false_ne_true fun hmem => hmem (List.mem_map_of_mem hc)

theorem shown_iff (ho : Ordered commits) :
    shown commits visible a = true ↔ a ∈ visible ∨ a ∉ commits.map (·.sha) := by
  rw [shown, Bool.or_eq_true, decide_eq_true_iff, not_loaded_iff ho]

theorem next_iff : (graph visible ho).Next a b ↔ HiddenStep commits visible a b := by
  constructor
  · rintro ⟨bs, hbs, hb⟩
    have hbs' : (if shown commits visible a then none
        else (bySha commits a).map (·.parentShas)) = some bs := hbs
    split_ifs at hbs' with hs
    obtain ⟨c, hc, rfl⟩ := Option.map_eq_some_iff.mp hbs'
    obtain ⟨hmem, rfl⟩ := (bySha_spec ho).mp hc
    exact ⟨⟨c, hmem, rfl, hb⟩, fun hv => hs ((shown_iff ho).mpr (Or.inl hv))⟩
  · rintro ⟨⟨c, hmem, rfl, hb⟩, hv⟩
    have hs : shown commits visible c.sha = false := by
      rw [Bool.eq_false_iff, Ne, shown_iff ho, not_or, not_not]
      exact ⟨hv, List.mem_map_of_mem hmem⟩
    exact ⟨_, next_hidden hs ((bySha_spec ho).mpr ⟨hmem, rfl⟩), hb⟩

theorem next_eq_none : (graph visible ho).next a = none ↔ shown commits visible a = true := by
  cases hs : shown commits visible a with
  | true => simp [next_shown hs]
  | false =>
    obtain ⟨c, hc⟩ := exists_hidden hs
    simp [next_hidden hs hc]

theorem mem_walk_iff : b ∈ (graph visible ho).walk a ↔
    Relation.ReflTransGen (HiddenStep commits visible) a b ∧
      (b ∈ visible ∨ b ∉ commits.map (·.sha)) := by
  have hrel : (graph visible ho).Next = HiddenStep commits visible := by
    funext a b
    exact propext next_iff
  rw [Graph.mem_walk, next_eq_none, shown_iff ho, hrel]

theorem mem_compacted {c : Commit} : b ∈ (compacted visible ho c).parentShas ↔
    ∃ p ∈ c.parentShas, Relation.ReflTransGen (HiddenStep commits visible) p b ∧
      (b ∈ visible ∨ b ∉ commits.map (·.sha)) := by
  show b ∈ firsts _ ↔ _
  rw [mem_firsts, List.mem_flatMap]
  simp only [mem_walk_iff]

variable (visible) in
/-- The history `compact_commits_to_visible` returns. -/
def compactHistory (ho : Ordered commits) : List Commit :=
  (commits.filter (·.sha ∈ visible)).map (compacted visible ho)

theorem parentOf_compacted : ParentOf (compactHistory visible ho) a b ↔ a ∈ visible ∧
    ∃ p, ParentOf commits a p ∧ Relation.ReflTransGen (HiddenStep commits visible) p b ∧
      (b ∈ visible ∨ b ∉ commits.map (·.sha)) := by
  constructor
  · rintro ⟨c', hc', rfl, hb⟩
    obtain ⟨c, hc, rfl⟩ := List.mem_map.mp hc'
    obtain ⟨hmem, hv⟩ := List.mem_filter.mp hc
    rw [mem_compacted] at hb
    obtain ⟨p, hp, hrest⟩ := hb
    exact ⟨of_decide_eq_true hv, p, ⟨c, hmem, rfl, hp⟩, hrest⟩
  · rintro ⟨hv, p, ⟨c, hmem, rfl, hp⟩, hrest⟩
    exact ⟨_, List.mem_map_of_mem (List.mem_filter.mpr ⟨hmem, decide_eq_true hv⟩), rfl,
      by rw [mem_compacted]; exact ⟨p, hp, hrest⟩⟩

theorem transGen_of_compacted (h : ParentOf (compactHistory visible ho) a b) :
    Relation.TransGen (ParentOf commits) a b := by
  rw [parentOf_compacted] at h
  obtain ⟨-, p, hp, hpath, -⟩ := h
  have hle : HiddenStep commits visible ≤ ParentOf commits := fun _ _ hstep => hstep.1
  exact .head' hp (Relation.ReflTransGen.mono hle _ _ hpath)

/-- Towards a commit that is visible, the first one that is shown goes on in the compacted
history. -/
theorem path_compacted (hpath : Relation.ReflTransGen (ParentOf commits) a b) (hb : b ∈ visible) :
    ∃ x, Relation.ReflTransGen (HiddenStep commits visible) a x ∧
      (x ∈ visible ∨ x ∉ commits.map (·.sha)) ∧
      Relation.ReflTransGen (ParentOf (compactHistory visible ho)) x b := by
  induction hpath using Relation.ReflTransGen.head_induction_on with
  | refl => exact ⟨b, .refl, Or.inl hb, .refl⟩
  | @head a' c' hstep _ ih =>
    obtain ⟨x, hhidden, hx, hrest⟩ := ih
    by_cases hv : a' ∈ visible
    · exact ⟨a', .refl, Or.inl hv,
        .head (by rw [parentOf_compacted]; exact ⟨hv, c', hstep, hhidden, hx⟩) hrest⟩
    · exact ⟨x, .head ⟨hstep, hv⟩ hhidden, hx, hrest⟩

/-- **Ancestry is kept.** -/
theorem ancestor_iff (ha : a ∈ visible) (hb : b ∈ visible) :
    Relation.TransGen (ParentOf (compactHistory visible ho)) a b ↔
      Relation.TransGen (ParentOf commits) a b := by
  constructor
  · intro h
    exact h.trans_induction_on (fun h => transGen_of_compacted h) fun _ _ h₁ h₂ => h₁.trans h₂
  · intro h
    obtain ⟨p, hp, hpath⟩ := Relation.TransGen.head'_iff.mp h
    obtain ⟨x, hhidden, hx, hrest⟩ := @path_compacted commits visible ho p b hpath hb
    exact .head' (by rw [parentOf_compacted]; exact ⟨ha, p, hp, hhidden, hx⟩) hrest

end Ancestry

end Loaded

/-! ## Collapsing -/

section Collapse

variable {commits : List Commit} {collapsedRefs : Finset String}
  {colors counts : AList fun _ : String => ℕ} {key : String} {color : ℕ}

/-- The count of a ref. -/
def countOf (counts : AList fun _ : String => ℕ) (key : String) : ℕ := (counts.lookup key).getD 0

theorem countOf_insert (other : String) (n : ℕ) :
    countOf (counts.insert other n) key = if key = other then n else countOf counts key := by
  unfold countOf
  split_ifs with h
  · rw [h, AList.lookup_insert]
    rfl
  · rw [AList.lookup_insert_ne h]

theorem countOf_countHidden : countOf (countHidden colors counts color) key =
    countOf counts key + if colors.lookup key = some color then 1 else 0 := by
  obtain ⟨entries, hn⟩ := colors
  show countOf (entries.foldl _ counts) key =
    countOf counts key + if entries.dlookup key = some color then 1 else 0
  induction entries generalizing counts with
  | nil => simp
  | cons x entries ih =>
    obtain ⟨k, v⟩ := x
    rw [List.nodupKeys_cons] at hn
    rw [List.foldl_cons, ih hn.2]
    by_cases hk : key = k
    · subst hk
      have hnone : ¬ (none : Option ℕ) = some color := by simp
      rw [List.dlookup_cons_eq, List.dlookup_eq_none.mpr hn.1, if_neg hnone]
      by_cases hv : v = color
      · rw [if_pos hv, countOf_insert, if_pos rfl, if_pos (by rw [hv])]
        rfl
      · rw [if_neg hv, if_neg (fun h => hv (Option.some.inj h))]
    · rw [List.dlookup_cons_ne _ _ hk]
      by_cases hv : v = color
      · rw [if_pos hv, countOf_insert, if_neg hk]
      · rw [if_neg hv]

theorem countOf_foldl (hc : colors.lookup key = some color) (hidden : List (Commit × GraphRow)) :
    countOf (hidden.foldl (fun counts x => countHidden colors counts x.2.nodeColorId) counts) key =
      countOf counts key + (hidden.filter (·.2.nodeColorId = color)).length := by
  induction hidden generalizing counts with
  | nil => simp
  | cons x hidden ih =>
    rw [List.foldl_cons, ih, countOf_countHidden, hc]
    by_cases hx : x.2.nodeColorId = color
    · rw [List.filter_cons_of_pos (by simpa using hx), List.length_cons, if_pos (by rw [hx])]
      omega
    · rw [List.filter_cons_of_neg (by simpa using hx),
        if_neg fun h => hx (Option.some.inj h).symm, Nat.add_zero]

theorem of_hides {x : Commit × GraphRow} (h : hides commits collapsedRefs colors x = true) :
    x.1.refs = [] ∧ x.1.parentShas.length = 1 ∧
      (commits.filter (x.1.sha ∈ ·.parentShas)).length ≤ 1 := by
  simp only [hides, Bool.and_eq_true, Bool.not_eq_true', decide_eq_false_iff_not, not_or, not_not,
    not_lt] at h
  obtain ⟨⟨-, hrefs⟩, hparents, hchildren⟩ := h
  refine ⟨List.isEmpty_iff.mp hrefs, hparents, le_trans ?_ hchildren⟩
  clear hparents hchildren hrefs
  induction commits with
  | nil => simp
  | cons c commits ih =>
    rw [List.flatMap_cons, List.count_append]
    by_cases hc : x.1.sha ∈ c.parentShas
    · rw [List.filter_cons_of_pos (by simpa using hc), List.length_cons]
      have := List.count_pos_iff.mpr hc
      omega
    · rw [List.filter_cons_of_neg (by simpa using hc)]
      omega

variable {rows : List GraphRow} {x : Commit × GraphRow}

theorem eq_of_sha (ho : Ordered commits) {y : Commit × GraphRow} (hx : x ∈ commits.zip rows)
    (hy : y ∈ commits.zip rows) (hsha : y.1.sha = x.1.sha) : y = x := by
  obtain ⟨i, hi⟩ := List.mem_iff_getElem?.mp hx
  obtain ⟨j, hj⟩ := List.mem_iff_getElem?.mp hy
  rw [List.getElem?_zip_eq_some] at hi hj
  have hlt := (List.getElem?_eq_some_iff.mp hj.1).1
  have hsame : (commits.map (·.sha))[j]? = (commits.map (·.sha))[i]? := by
    rw [List.getElem?_map, List.getElem?_map, hi.1, hj.1]
    exact congrArg some hsha
  have hij := (List.getElem?_inj (by rw [List.length_map]; omega) ho.distinct).mp hsame
  subst hij
  exact Prod.ext (Option.some.inj (hj.1.symm.trans hi.1)) (Option.some.inj (hj.2.symm.trans hi.2))

/-- The commits that are not hidden. -/
def visibleShas (commits : List Commit) (collapsedRefs : Finset String)
    (colors : AList fun _ : String => ℕ) (drawn : List (Commit × GraphRow)) : Finset String :=
  ((drawn.filter fun x => !hides commits collapsedRefs colors x).map (·.1.sha)).toFinset

/-- **The commits that are dropped are the hidden ones.** -/
theorem dropped_iff (ho : Ordered commits) (hx : x ∈ commits.zip rows) :
    x.1.sha ∉ (compactHistory (visibleShas commits collapsedRefs colors (commits.zip rows)) ho).map
        (·.sha) ↔ hides commits collapsedRefs colors x = true := by
  have hmem : x.1 ∈ commits := (List.of_mem_zip hx).1
  have hleft : x.1.sha ∈ (compactHistory (visibleShas commits collapsedRefs colors
      (commits.zip rows)) ho).map (·.sha) ↔
      x.1.sha ∈ visibleShas commits collapsedRefs colors (commits.zip rows) := by
    rw [compactHistory, List.map_map]
    constructor
    · intro h
      obtain ⟨c, hc, hsha⟩ := List.mem_map.mp h
      have hv := of_decide_eq_true (List.mem_filter.mp hc).2
      rwa [show c.sha = x.1.sha from hsha] at hv
    · exact fun h => List.mem_map.mpr
        ⟨x.1, List.mem_filter.mpr ⟨hmem, decide_eq_true h⟩, rfl⟩
  rw [hleft, visibleShas, List.mem_toFinset]
  constructor
  · intro h
    by_contra hn
    exact h (List.mem_map_of_mem (List.mem_filter.mpr ⟨hx, by simpa using hn⟩))
  · intro hh h
    obtain ⟨y, hy, hsha⟩ := List.mem_map.mp h
    obtain ⟨hy, hshow⟩ := List.mem_filter.mp hy
    rw [eq_of_sha ho hx hy hsha, hh] at hshow
    exact absurd hshow (by simp)

variable (commits collapsedRefs) in
/-- What a collapse may drop, and what it counts, over the source graph. -/
structure Collapsed (rows : List GraphRow) (left : List Commit)
    (counts : AList fun _ : String => ℕ) : Prop where
  dropped : ∀ c ∈ commits, c.sha ∉ left.map (·.sha) → c.refs = [] ∧ c.parentShas.length = 1 ∧
    (commits.filter (c.sha ∈ ·.parentShas)).length ≤ 1
  counted : ∀ key color, (colorsByRef collapsedRefs (commits.zip rows)).lookup key = some color →
    countOf counts key = ((commits.zip rows).filter fun x =>
      x.1.sha ∉ left.map (·.sha) ∧ x.2.nodeColorId = color).length

theorem collapsed_self (rows : List GraphRow) : Collapsed commits collapsedRefs rows commits ∅ where
  dropped c hc h := absurd (List.mem_map_of_mem hc) h
  counted key color _ := by
    have hnone : (commits.zip rows).filter (fun x =>
        x.1.sha ∉ commits.map (·.sha) ∧ x.2.nodeColorId = color) = [] := by
      rw [List.filter_eq_nil_iff]
      intro x hx
      have := List.mem_map_of_mem (f := (·.sha)) (List.of_mem_zip hx).1
      simp [this]
    rw [hnone]
    rfl

/-- **What `collapse_branch_runs` drops and counts.** -/
theorem collapseBranchRuns_spec (ho : Ordered commits) (headSha : Option String)
    (collapsedRefs : Finset String) {layout : GraphLayout}
    (hl : layoutGraph commits headSha = some layout) :
    ∃ bound, ∀ fuel, bound ≤ fuel → ∃ left counts,
      collapseBranchRuns fuel commits collapsedRefs headSha = some (left, counts) ∧
        Collapsed commits collapsedRefs layout.rows left counts := by
  have hlen : commits.length = layout.rows.length := by
    obtain ⟨layout', hl', hshas, -⟩ := layoutGraph_draws ho headSha
    rw [hl] at hl'
    cases hl'
    rw [← List.length_map (·.sha), ← hshas, List.length_map]
  unfold collapseBranchRuns
  by_cases hempty : collapsedRefs = ∅ ∨ commits = []
  · refine ⟨0, fun fuel _ => ⟨commits, ∅, if_pos hempty, collapsed_self _⟩⟩
  obtain ⟨bound, hbound⟩ := compactCommitsToVisible_eq (visibleShas commits collapsedRefs
    (colorsByRef collapsedRefs (commits.zip layout.rows)) (commits.zip layout.rows)) ho
  refine ⟨bound, fun fuel hf => ?_⟩
  rw [if_neg hempty, hl]
  simp only [Option.bind_eq_bind, Option.bind_some]
  by_cases hcolors : (colorsByRef collapsedRefs (commits.zip layout.rows)).entries = []
  · exact ⟨commits, ∅, if_pos hcolors, collapsed_self _⟩
  rw [if_neg hcolors]
  have hcompact := hbound fuel hf
  unfold visibleShas at hcompact
  rw [hcompact]
  generalize hleft : (commits.filter _).map (compacted _ ho) = left
  have hleft' : compactHistory (visibleShas commits collapsedRefs
      (colorsByRef collapsedRefs (commits.zip layout.rows)) (commits.zip layout.rows)) ho = left :=
    hleft
  have hdropped : ∀ x ∈ commits.zip layout.rows, x.1.sha ∉ left.map (·.sha) ↔
      hides commits collapsedRefs (colorsByRef collapsedRefs (commits.zip layout.rows)) x = true :=
    fun x hx => hleft' ▸ dropped_iff ho hx
  refine ⟨left, _, rfl, fun c hc hdrop => ?_, fun key color hcolor => ?_⟩
  · obtain ⟨i, hi⟩ := List.mem_iff_getElem?.mp hc
    have hlt := (List.getElem?_eq_some_iff.mp hi).1
    have hrow := List.getElem?_eq_getElem (hlen ▸ hlt : i < layout.rows.length)
    have hx := List.mem_of_getElem? (List.getElem?_zip_eq_some (z := (c, _)) |>.mpr ⟨hi, hrow⟩)
    exact of_hides ((hdropped _ hx).mp hdrop)
  · have hzero : countOf ∅ key = 0 := rfl
    rw [countOf_foldl hcolor, hzero, Nat.zero_add, List.filter_filter]
    congr 1
    refine List.filter_congr fun x hx => ?_
    rw [Bool.eq_iff_iff, Bool.and_eq_true, decide_eq_true_iff, decide_eq_true_iff, hdropped x hx,
      and_comm]

end Collapse

/-- **Compacting keeps ancestry.** With enough fuel the visible commits come back in their order;
the parents of each are, without duplicates, what is visible or not loaded and reached from it
through hidden commits only, in the order of a depth-first walk; and a visible commit is an ancestor of
another exactly if it was one. A collapse drops commits without refs, with one parent and at most
one child, and counts them for their refs. -/
theorem compact_keeps_ancestry {commits : List Commit} (ho : Ordered commits) :
    (∀ visible : Finset String,
      (∃ bound, ∀ fuel, bound ≤ fuel →
        compactCommitsToVisible commits visible fuel = some (compactHistory visible ho)) ∧
      (compactHistory visible ho).map (·.sha) =
        (commits.map (·.sha)).filter (· ∈ visible) ∧
      (∀ c : Commit, (compacted visible ho c).parentShas.Nodup ∧
        (compacted visible ho c).parentShas =
          firsts (c.parentShas.flatMap (graph visible ho).walk) ∧
        ∀ b, b ∈ (compacted visible ho c).parentShas ↔
          ∃ p ∈ c.parentShas, Relation.ReflTransGen (HiddenStep commits visible) p b ∧
            (b ∈ visible ∨ b ∉ commits.map (·.sha))) ∧
      ∀ a ∈ visible, ∀ b ∈ visible,
        (Relation.TransGen (ParentOf (compactHistory visible ho)) a b ↔
          Relation.TransGen (ParentOf commits) a b)) ∧
    ∀ (headSha : Option String) (collapsedRefs : Finset String),
      ∃ layout, layoutGraph commits headSha = some layout ∧
        ∃ bound, ∀ fuel, bound ≤ fuel → ∃ left counts,
          collapseBranchRuns fuel commits collapsedRefs headSha = some (left, counts) ∧
            Collapsed commits collapsedRefs layout.rows left counts := by
  refine ⟨fun visible => ⟨compactCommitsToVisible_eq visible ho, ?_, fun c => ⟨nodup_firsts _, rfl,
    fun b => mem_compacted⟩, fun a ha b hb => ancestor_iff ha hb⟩, fun headSha collapsedRefs => ?_⟩
  · rw [compactHistory, List.map_map, List.filter_map]
    rfl
  · obtain ⟨layout, hl, -⟩ := layoutGraph_draws ho headSha
    exact ⟨layout, hl, collapseBranchRuns_spec ho headSha collapsedRefs hl⟩

/-- Without its first parent the merge has the common parent, once. -/
theorem compact_sample :
    (compacted {"m", "b"} sample_ordered ⟨"m", ["a", "b"], []⟩).parentShas.Nodup ∧
    (Relation.TransGen (ParentOf (compactHistory {"m", "b"} sample_ordered)) "m" "b" ↔
      Relation.TransGen (ParentOf sampleCommits) "m" "b") := by
  have h := (compact_keeps_ancestry sample_ordered).1 {"m", "b"}
  exact ⟨(h.2.2.1 _).1, h.2.2.2 "m" (by decide) "b" (by decide)⟩

end Zeron.History
