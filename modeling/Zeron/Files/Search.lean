import Zeron.Files.Paths
import Zeron.Lib.Cut
import Zeron.Lib.Top
import Zeron.Session.Queue

/-!
# Searching a workspace

The search by name and path, which keeps the best matches while it walks
(`engine/src/workspace_files.rs`).

* `workspaceSearchScore`, `compareMatches`, `searchLoop`, `searchWorkspace`: the source;
* `Walk`: what a walk of a directory tree yields;
* `le_antisymm`: the order is strict on the matches of a walk;
* **`search_top`**: the best of all matches are returned, in whatever order the walk visits them.
-/

namespace Zeron.Files

/-- `MAX_SEARCH_QUERY_CHARS`. -/
def maxSearchQueryChars : ℕ := 256

inductive EntryKind where
  | file
  | directory
  | symlink
  deriving DecidableEq

/-- `WorkspaceFileSearchMatch`. -/
structure SearchMatch where
  path : String
  name : String
  kind : EntryKind
  score : ℤ
  deriving DecidableEq

inductive FileType where
  | symlink
  | dir
  | file
  | other
  deriving DecidableEq

/-- An entry of a walk; the path is the one under the root. -/
structure WalkEntry where
  depth : ℕ
  relative : Option (List OsName)
  fileType : Option FileType
  fileName : OsName
  deriving DecidableEq

/-- What a walk yields next, and whether the search has been cancelled by then. -/
structure Visit where
  cancelled : Bool
  result : Except String WalkEntry

/-! ## Scores -/

/-- `str::find`: the byte where a text is found first. -/
def find (query : List Char) : List Char → Option ℕ
  | [] => if query = [] then some 0 else none
  | c :: text =>
    if query <+: c :: text then some 0 else (find query text).map (c.utf8Size + ·)

/-- The gaps before the last of the characters that are wanted one after another. -/
def gapsOf : List Char → List Char → Option ℕ
  | [], _ => some 0
  | _ :: _, [] => none
  | wanted :: query, c :: text =>
    if c = wanted then gapsOf query text else (gapsOf (wanted :: query) text).map (1 + ·)

section

variable (lower : String → String) (lossy : OsName → String)

/-- `workspace_search_score`; `lower` is `to_lowercase`. -/
def workspaceSearchScore (name path query : String) : Option ℤ :=
  if query = "" then some 0
  else
    let name := (lower name).toList
    let path := (lower path).toList
    let query := query.toList
    if name = query then some 10000
    else if query <+: name then some (8000 - Cut.size name)
    else
      match find query name with
      | some index => some (6000 - index - Cut.size name)
      | none =>
        match find query path with
        | some index => some (4000 - index - Cut.size path)
        | none => (gapsOf query path).map fun gaps => 2000 - gaps - Cut.size path

/-- `compare_workspace_search_matches`. -/
def compareMatches (left right : SearchMatch) : Ordering :=
  (compare right.score left.score).then
    ((compare (lower left.path) (lower right.path)).then (compare left.path right.path))

/-- `sort_by(compare_workspace_search_matches)`. -/
def le (left right : SearchMatch) : Bool := (compareMatches lower left right).isLE

/-! ## The search -/

/-- `validate_workspace_search_query`. -/
def validateQuery (query : String) : Except Error Unit :=
  if Session.trim query = "" then .error (.badParams "query must not be empty")
  else if maxSearchQueryChars < query.length then
    .error (.badParams s!"query must not exceed {maxSearchQueryChars} characters")
  else .ok ()

def FileType.kind : FileType → Option EntryKind
  | .symlink => some .symlink
  | .dir => some .directory
  | .file => some .file
  | .other => none

/-- What an entry contributes, in the body of the walk. -/
def matchOf (query : String) (entry : WalkEntry) : Except Error (Option SearchMatch) :=
  if entry.depth = 0 then .ok none
  else
    match entry.relative.filter (!containsGitComponent lossy ·),
      entry.fileType.bind FileType.kind with
    | some relative, some kind =>
      match pathToWire relative with
      | .error e => .error e
      | .ok path =>
        if isInternalTempWirePath path then .ok none
        else
          let name := toStringLossy lossy entry.fileName
          .ok ((workspaceSearchScore lower name path query).map fun score =>
            { path, name, kind, score })
    | _, _ => .ok none

/-- The walk in `search_workspace_blocking`, with the matches that are kept. -/
def searchLoop (query : String) (limit : ℕ) (kept : List SearchMatch) :
    List Visit → Except Error (List SearchMatch)
  | [] => .ok kept
  | visit :: visits =>
    if visit.cancelled then .error (.io "workspace search cancelled")
    else
      match visit.result with
      | .error message =>
        if kept = [] then .error (.io message) else searchLoop query limit kept visits
      | .ok entry =>
        match matchOf lower lossy query entry with
        | .error e => .error e
        | .ok none => searchLoop query limit kept visits
        | .ok (some found) =>
          searchLoop query limit (Top.push (le lower) limit kept found) visits

/-- `search_workspace_blocking`. -/
def searchWorkspace (query : String) (limit : ℕ) (visits : List Visit) :
    Except Error (List SearchMatch) := do
  validateQuery query
  if limit = 0 then return []
  let kept ← searchLoop lower lossy (lower query) limit [] visits
  return kept.mergeSort (le lower)

/-- The match of a visit. -/
def found (query : String) (visit : Visit) : Option SearchMatch :=
  match visit.result with
  | .error _ => none
  | .ok entry =>
    match matchOf lower lossy query entry with
    | .error _ => none
    | .ok o => o

/-- All scored matches of a walk. -/
def scored (query : String) (visits : List Visit) : List SearchMatch :=
  visits.filterMap (found lower lossy (lower query))

end

/-- The path of a visit. -/
def Visit.path (visit : Visit) : Option (List OsName) :=
  match visit.result with
  | .error _ => none
  | .ok entry => entry.relative

/-- A walk of a directory tree: names are without slashes, and no entry comes twice. -/
structure Walk where
  visits : List Visit
  isPath : ∀ visit ∈ visits, ∀ entry, visit.result = .ok entry → entry.depth ≠ 0 →
    ∀ path ∈ entry.relative, IsPath path
  nodup : (visits.filterMap Visit.path).Nodup

/-! ## The order -/

section

variable (lower : String → String) {lossy : OsName → String}

instance : Std.TransCmp (compareMatches lower) := by
  have hscore : Std.TransCmp fun a b => compareOn SearchMatch.score b a :=
    Std.TransCmp.opposite
  exact inferInstanceAs (Std.TransCmp (compareLex (fun a b => compareOn SearchMatch.score b a)
    (compareLex (compareOn fun a => lower a.path) (compareOn SearchMatch.path))))

theorem le_trans (a b c : SearchMatch) (hab : le lower a b) (hbc : le lower b c) : le lower a c :=
  Std.TransCmp.isLE_trans hab hbc

theorem le_total (a b : SearchMatch) : le lower a b || le lower b a := by
  rw [le, le, @Std.OrientedCmp.eq_swap _ (compareMatches lower) _ b a]
  cases compareMatches lower a b <;> rfl

theorem path_eq_of_le {a b : SearchMatch} (hab : le lower a b) (hba : le lower b a) :
    a.path = b.path := by
  have heq : compareMatches lower a b = .eq := Std.OrientedCmp.isLE_antisymm hab hba
  rw [compareMatches, Ordering.then_eq_eq, Ordering.then_eq_eq] at heq
  exact Std.LawfulEqCmp.eq_of_compare heq.2.2

end

/-! ## The matches of a walk -/

section

variable {lower : String → String} {lossy : OsName → String} {query : String} {limit : ℕ}
  {kept l : List SearchMatch} {visits : List Visit}

theorem matchOf_eq_some {entry : WalkEntry} {m : SearchMatch}
    (h : matchOf lower lossy query entry = .ok (some m)) :
    entry.depth ≠ 0 ∧ ∃ path, entry.relative = some path ∧ pathToWire path = .ok m.path := by
  rw [matchOf] at h
  split_ifs at h with hdepth
  · cases h
  · refine ⟨hdepth, ?_⟩
    split at h
    · rename_i relative kind hrelative _
      refine ⟨relative, Option.eq_some_of_filter_eq_some hrelative, ?_⟩
      cases hwire : pathToWire relative with
      | error e => simp only [hwire, reduceCtorEq] at h
      | ok path =>
        rw [hwire] at h
        dsimp only at h
        split_ifs at h
        · cases h
        · obtain ⟨score, -, rfl⟩ := Option.map_eq_some_iff.mp (Except.ok.inj h)
          rfl
    · cases h

theorem path_of_found {visit : Visit} {m : SearchMatch}
    (h : found lower lossy query visit = some m) :
    ∃ entry path, visit.result = .ok entry ∧ entry.depth ≠ 0 ∧ entry.relative = some path ∧
      pathToWire path = .ok m.path := by
  rw [found] at h
  cases hr : visit.result with
  | error message =>
    rw [hr] at h
    cases h
  | ok entry =>
    rw [hr] at h
    cases hm : matchOf lower lossy query entry with
    | error e => simp only [hm, reduceCtorEq] at h
    | ok o =>
      simp only [hm] at h
      obtain ⟨hdepth, path, hpath, hwire⟩ := matchOf_eq_some (hm.trans (congrArg _ h))
      exact ⟨entry, path, rfl, hdepth, hpath, hwire⟩

theorem eq_of_mem_scored (walk : Walk) {a b : SearchMatch}
    (ha : a ∈ scored lower lossy query walk.visits) (hb : b ∈ scored lower lossy query walk.visits)
    (h : a.path = b.path) : a = b := by
  obtain ⟨v, hv, hfound⟩ := List.mem_filterMap.mp ha
  obtain ⟨w, hw, hfound'⟩ := List.mem_filterMap.mp hb
  obtain ⟨entry, path, hentry, hdepth, hpath, hwire⟩ := path_of_found hfound
  obtain ⟨entry', path', hentry', hdepth', hpath', hwire'⟩ := path_of_found hfound'
  have heq : path = path' :=
    pathToWire_inj (walk.isPath v hv entry hentry hdepth path hpath)
      (walk.isPath w hw entry' hentry' hdepth' path' hpath') hwire (h ▸ hwire')
  have hvisit : v = w := by
    by_contra hne
    have hnodup := List.pairwise_filterMap.mp walk.nodup
    have hsymm : Std.Symm fun v w : Visit => ∀ b, v.path = some b → ∀ b', w.path = some b' →
        b ≠ b' := ⟨fun v w h b hb b' hb' => (h b' hb' b hb).symm⟩
    refine hnodup.forall hv hw hne path ?_ path' ?_ heq
    · rw [Visit.path, hentry]
      exact hpath
    · rw [Visit.path, hentry']
      exact hpath'
  rw [hvisit, hfound'] at hfound
  exact (Option.some.inj hfound).symm

theorem scored_antisymm (walk : Walk) : ∀ a ∈ scored lower lossy query walk.visits,
    ∀ b ∈ scored lower lossy query walk.visits, le lower a b → le lower b a → a = b :=
  fun _ ha _ hb hab hba => eq_of_mem_scored walk ha hb (path_eq_of_le lower hab hba)

theorem of_searchLoop (h : searchLoop lower lossy query limit kept visits = .ok l) :
    l = (visits.filterMap (found lower lossy query)).foldl (Top.push (le lower) limit) kept := by
  induction visits generalizing kept with
  | nil => exact (Except.ok.inj h).symm
  | cons visit visits ih =>
    have hcancel : ¬ visit.cancelled = true := fun hcancel => by
      rw [searchLoop, if_pos hcancel] at h
      cases h
    rw [searchLoop, if_neg hcancel] at h
    cases hr : visit.result with
    | error message =>
      have hnone : found lower lossy query visit = none := by rw [found, hr]
      rw [hr] at h
      dsimp only at h
      split_ifs at h
      rw [List.filterMap_cons_none hnone]
      exact ih h
    | ok entry =>
      have hfound : ∀ o, matchOf lower lossy query entry = .ok o →
          found lower lossy query visit = o := fun o ho => by simp only [found, hr, ho]
      rw [hr] at h
      cases hm : matchOf lower lossy query entry with
      | error e =>
        simp only [hm, reduceCtorEq] at h
      | ok o =>
        simp only [hm] at h
        cases o with
        | none =>
          rw [List.filterMap_cons_none (hfound none hm)]
          exact ih h
        | some m =>
          rw [List.filterMap_cons_some (hfound (some m) hm), List.foldl_cons]
          exact ih h

theorem searchLoop_ok
    (h : ∀ visit ∈ visits, visit.cancelled = false ∧ ∃ entry, visit.result = .ok entry ∧
      ∃ o, matchOf lower lossy query entry = .ok o) :
    ∃ l, searchLoop lower lossy query limit kept visits = .ok l := by
  induction visits generalizing kept with
  | nil => exact ⟨kept, rfl⟩
  | cons visit visits ih =>
    rw [List.forall_mem_cons] at h
    obtain ⟨⟨hcancel, entry, hentry, o, ho⟩, h⟩ := h
    rw [searchLoop, hcancel, if_neg Bool.false_ne_true, hentry]
    simp only [ho]
    cases o with
    | none => exact ih h
    | some m => exact ih h

theorem of_searchWorkspace {walk : Walk}
    (h : searchWorkspace lower lossy query limit walk.visits = .ok l) :
    l = Top.top (le lower) limit (scored lower lossy query walk.visits) := by
  rw [searchWorkspace] at h
  cases hquery : validateQuery query with
  | error e =>
    rw [hquery] at h
    cases h
  | ok u =>
    rw [hquery] at h
    have h : (if limit = 0 then Except.ok []
        else (searchLoop lower lossy (lower query) limit [] walk.visits).map
          (·.mergeSort (le lower))) = .ok l := h
    by_cases hlimit : limit = 0
    · rw [if_pos hlimit] at h
      rw [← Except.ok.inj h, hlimit, Top.top, List.take_zero]
    · rw [if_neg hlimit] at h
      cases hkept : searchLoop lower lossy (lower query) limit [] walk.visits with
      | error e =>
        rw [hkept] at h
        cases h
      | ok kept =>
        rw [hkept] at h
        rw [← Except.ok.inj h, of_searchLoop hkept]
        exact Top.mergeSort_foldl_push (le_trans lower) (le_total lower) (scored_antisymm walk)

end

end Zeron.Files
