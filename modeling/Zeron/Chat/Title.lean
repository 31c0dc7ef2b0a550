import Zeron.Lib.Run
import Zeron.Session.Queue

/-!
# Automatic titles

`TitleGenerator::generate` with `rename_worktree_branch` (`engine/src/titles.rs`,
`engine/src/repos.rs`) among the user's own renames and checkouts. A call stops at the model run
and at every git command.

* `Stage`, `step`: the calls, one act at a time;
* `Inv`, `inv_step`: what holds between two acts;
* **`titles_run`**: what the user keeps, if nothing is renamed behind the last look.
-/

namespace Zeron.Chat.Title

open Zeron.Session (isBlank isWhitespace trim)

/-! ## Names -/

/-- A path by its components. -/
abbrev Path := List String

/-- The branch a worktree is created on. -/
def original (worktree : Path) : String := "jjzeron/" ++ worktree.getLastD ""

def slugStep (slug : List Char) (c : Char) : List Char :=
  if c = '\'' ∨ c = '"' ∨ c.toNat = 0x60 then slug
  else if c.isAlphanum then slug ++ [c.toLower]
  else if slug ≠ [] ∧ slug.getLast? ≠ some '-' then slug ++ ['-']
  else slug

def worktreeBranchFromTitle (title : String) : String :=
  let slug := ((trim title).toList.foldl slugStep []).take 48
  let slug := (slug.dropWhile (· = '-')).rdropWhile (· = '-')
  "jjzeron/" ++ if slug = [] then "update" else String.ofList slug

/-- The first words of a prompt. -/
def fallback (prompt : String) : String :=
  let words := (prompt.toList.splitOnP isWhitespace).filter (· ≠ [])
  String.ofList (([' '].intercalate (words.take 7)).take 48)

/-! ## State -/

structure ChatRow where
  title : Option String
  cwd : Option Path
  branch : Option String
  deriving DecidableEq

/-- Whether a chat has a title. -/
def ChatRow.named (row : ChatRow) : Bool := row.title.any fun t => !isBlank t

/-- What a call keeps across its git commands. -/
structure Pending where
  title : String
  cwd : Path
  branch : String

/-- Where a call of `generate` stands. -/
inductive Stage where
  | start (prompt : String)
  /-- The model runs. -/
  | model (prompt : String) (chat : ChatRow)
  /-- Before the first `current_branch`. -/
  | current (p : Pending)
  /-- Before `branch_exists` of the preferred name. -/
  | preferred (p : Pending)
  | target (p : Pending) (target : String)
  /-- Before `git branch -m`. -/
  | move (p : Pending) (target : String)
  | reread (p : Pending)
  /-- Behind the last command. -/
  | finish (p : Pending) (renamed : Option String)

/-- What a stage keeps behind the re-read of the chat. -/
def Stage.pending : Stage → Option Pending
  | .start _ | .model _ _ => none
  | .current p | .preferred p | .target p _ | .move p _ | .reread p | .finish p _ => some p

/-- Behind the guard on the worktree's branch. -/
def Stage.checked : Stage → Option Pending
  | .preferred p | .target p _ | .move p _ => some p
  | _ => none

def Stage.isStart : Stage → Bool
  | .start _ => true
  | _ => false

/-- The workspace, the repositories and the calls. -/
structure State (R : Type) where
  chats : String → Option ChatRow
  /-- `in_flight`, with what runs. -/
  calls : String → Option Stage
  /-- The branches of a repository, by their names. -/
  refs : R → String → Option ℕ
  /-- The branch of a worktree; `none` if detached. -/
  heads : Path → Option String
  next : ℕ
  /-- The branches the user checked out or renamed. -/
  touched : ℕ → Bool
  /-- Whether git was used since the branch of a chat was last read. -/
  stale : String → Bool

inductive Act where
  /-- The user names a chat. -/
  | rename (chat title : String)
  | checkout (worktree : Path) (name : Option String)
  /-- `git checkout -b`. -/
  | branch (worktree : Path) (name : String)
  /-- The user's `git branch -m`. -/
  | move (worktree : Path) (old new : String)
  /-- `maybe_generate`. -/
  | call (chat prompt : String)
  | first (chat : String)
  /-- The model run ends. -/
  | model (chat : String) (generated : Option String)
  /-- The next git command of a call succeeds or fails. -/
  | git (chat : String) (ok : Bool)
  | finish (chat : String)

section Step

variable {R : Type} [DecidableEq R] (repo : Path → R) (suffix : Path → String)

namespace State

def currentBranch (s : State R) (worktree : Path) : String := (s.heads worktree).getD "HEAD"

def setCall (s : State R) (chat : String) (stage : Option Stage) : State R :=
  { s with calls := Function.update s.calls chat stage }

/-- The end of a call's read of the branch. -/
def sawBranch (s : State R) (chat : String) : State R :=
  { s with stale := Function.update s.stale chat false }

/-- Git changed something in `r`. -/
def useGit (s : State R) (r : R) : State R :=
  { s with stale := fun chat =>
      s.stale chat || ((s.chats chat).bind (·.cwd)).any fun worktree => repo worktree = r }

def touch (s : State R) (id : ℕ) : State R :=
  { s with touched := Function.update s.touched id true }

def setRef (s : State R) (r : R) (name : String) (id : Option ℕ) : State R :=
  { s with refs := Function.update s.refs r (Function.update (s.refs r) name id) }

def setHead (s : State R) (worktree : Path) (name : Option String) : State R :=
  { s with heads := Function.update s.heads worktree name }

/-- `git branch -m`: every worktree on the branch follows. -/
def moveBranch (s : State R) (r : R) (old new : String) (id : ℕ) : State R :=
  let heads := fun worktree =>
    if repo worktree = r ∧ s.heads worktree = some old then some new else s.heads worktree
  { (s.setRef r old none).setRef r new (some id) with heads := heads }

/-- A write to the row of a chat, if there is one. -/
def writeRow (s : State R) (chat : String) (f : ChatRow → ChatRow) : State R :=
  { s with chats := Function.update s.chats chat ((s.chats chat).map f) }

/-- `rename_chat`. -/
def renameChat (s : State R) (chat title : String) : State R :=
  s.writeRow chat fun row => { row with title := some title }

/-- `set_chat_branch`. -/
def setChatBranch (s : State R) (chat branch : String) : State R :=
  s.writeRow chat fun row => { row with branch := some branch }

end State

/-- Behind the model run; nothing is awaited up to the first git command. -/
def afterModel (s : State R) (chat prompt : String) (first : ChatRow) (generated : Option String) :
    State R :=
  let title := generated.getD (fallback prompt)
  let latest := (s.chats chat).getD first
  if title = "" then s.setCall chat none
  else if latest.named then s.setCall chat none
  else
    match latest.cwd, latest.branch with
    | some cwd, some branch =>
      if "jjzeron/".toList <+: branch.toList then
        s.setCall chat (some (.current ⟨title, cwd, branch⟩))
      else (s.renameChat chat title).setCall chat none
    | _, _ => (s.renameChat chat title).setCall chat none

/-- The next git command of a call. -/
def gitStep (s : State R) (chat : String) (ok : Bool) : Stage → Option (State R)
  | .current p =>
    let current := s.currentBranch p.cwd
    if !ok then some (s.setCall chat (some (.finish p none)))
    else if current ≠ p.branch ∨ p.branch ≠ original p.cwd ∨
        worktreeBranchFromTitle p.title = current then
      some ((s.sawBranch chat).setCall chat (some (.finish p (some current))))
    else some ((s.sawBranch chat).setCall chat (some (.preferred p)))
  | .preferred p =>
    let preferred := worktreeBranchFromTitle p.title
    let exists' := ok && (s.refs (repo p.cwd) preferred).isSome
    let target := if exists' then preferred ++ "-" ++ suffix p.cwd else preferred
    some (s.setCall chat (some (.target p target)))
  | .target p target =>
    let exists' := ok && (s.refs (repo p.cwd) target).isSome
    some (s.setCall chat (some (if exists' then .finish p none else .move p target)))
  | .move p target =>
    match s.refs (repo p.cwd) p.branch, s.refs (repo p.cwd) target with
    | some id, none =>
      if ok then
        some (((s.moveBranch repo (repo p.cwd) p.branch target id).useGit repo (repo p.cwd)).setCall
          chat (some (.reread p)))
      else some (s.setCall chat (some (.finish p none)))
    | _, _ => some (s.setCall chat (some (.finish p none)))
  | .reread p =>
    if ok then
      some ((s.sawBranch chat).setCall chat (some (.finish p (some (s.currentBranch p.cwd)))))
    else some (s.setCall chat (some (.finish p none)))
  | _ => none

/-- The writes at the end of a call. -/
def finishStep (s : State R) (chat : String) (p : Pending) (renamed : Option String) : State R :=
  let s := if renamed.any (· ≠ p.branch) then s.setChatBranch chat (renamed.getD "") else s
  (s.renameChat chat p.title).setCall chat none

def step (s : State R) : Act → Option (State R)
  | .rename chat title => (s.chats chat).map fun _ => s.renameChat chat title
  | .checkout worktree none => some ((s.setHead worktree none).useGit repo (repo worktree))
  | .checkout worktree (some name) =>
    (s.refs (repo worktree) name).map fun id =>
      ((s.setHead worktree (some name)).useGit repo (repo worktree)).touch id
  | .branch worktree name =>
    if s.refs (repo worktree) name = none then
      let s' := (s.setRef (repo worktree) name (some s.next)).setHead worktree (some name)
      some { (s'.useGit repo (repo worktree)).touch s.next with next := s.next + 1 }
    else none
  | .move worktree old new =>
    if s.refs (repo worktree) new = none then
      (s.refs (repo worktree) old).map fun id =>
        ((s.moveBranch repo (repo worktree) old new id).useGit repo (repo worktree)).touch id
    else none
  | .call chat prompt =>
    some (if (s.calls chat).isSome then s else s.setCall chat (some (.start prompt)))
  | .first chat =>
    match s.calls chat with
    | some (.start prompt) =>
      match s.chats chat with
      | some row =>
        some (s.setCall chat (if row.named then none else some (.model prompt row)))
      | none => some (s.setCall chat none)
    | _ => none
  | .model chat generated =>
    match s.calls chat with
    | some (.model prompt first) => some (afterModel s chat prompt first generated)
    | _ => none
  | .git chat ok => (s.calls chat).bind (gitStep repo suffix s chat ok)
  | .finish chat =>
    match s.calls chat with
    | some (.finish p renamed) => some (finishStep s chat p renamed)
    | _ => none

end Step

/-! ## What holds between two acts -/

section Invariant

variable {R : Type} (repo : Path → R)

/-- Whether `name` is the original branch of a worktree of `r` that a chat works in. -/
def OriginalName (s : State R) (r : R) (name : String) : Prop :=
  ∃ chat row worktree, s.chats chat = some row ∧ row.cwd = some worktree ∧ repo worktree = r ∧
    name = original worktree

/-- What a call relies on. -/
structure CallOk (s : State R) (chat : String) (stage : Stage) : Prop where
  row : stage.isStart = false → ∃ row, s.chats chat = some row
  kept : ∀ p, stage.pending = some p → ∀ row, s.chats chat = some row →
    row.named = false ∧ row.cwd = some p.cwd ∧ row.branch = some p.branch
  checked : ∀ p, stage.checked = some p → p.branch = original p.cwd

/-- The branch a call has read but not written. -/
def Stage.unwritten : Stage → Option String
  | .finish _ renamed => renamed
  | _ => none

structure Inv (s : State R) : Prop where
  calls : ∀ chat stage, s.calls chat = some stage → CallOk s chat stage
  fresh : ∀ r name id, s.refs r name = some id → id < s.next
  inj : ∀ r r' name name' id, s.refs r name = some id → s.refs r' name' = some id →
    r = r' ∧ name = name'
  apart : ∀ r name id, s.refs r name = some id → s.touched id = true → ¬ OriginalName repo s r name
  recorded : ∀ chat row worktree branch, s.chats chat = some row → row.cwd = some worktree →
    row.branch = some branch → s.stale chat = false →
      ((s.calls chat).bind Stage.unwritten).getD branch = s.currentBranch worktree

variable {repo} {s s' : State R} {chat : String}

@[simp] theorem setCall_calls (stage : Option Stage) (c : String) :
    (s.setCall chat stage).calls c = if c = chat then stage else s.calls c :=
  Function.update_apply _ _ _ _

@[simp] theorem sawBranch_stale (c : String) :
    (s.sawBranch chat).stale c = if c = chat then false else s.stale c :=
  Function.update_apply _ _ _ _

@[simp] theorem writeRow_chats (f : ChatRow → ChatRow) (c : String) :
    (s.writeRow chat f).chats c = if c = chat then (s.chats chat).map f else s.chats c :=
  Function.update_apply _ _ _ _

theorem CallOk.congr {stage : Stage} (h : CallOk s chat stage)
    (hrow : s'.chats chat = s.chats chat) : CallOk s' chat stage := by
  obtain ⟨h₁, h₂, h₃⟩ := h
  exact ⟨by rwa [hrow], by rwa [hrow], h₃⟩

theorem originalName_congr {r : R} {name : String}
    (h : ∀ chat, (s'.chats chat).bind (·.cwd) = (s.chats chat).bind (·.cwd)) :
    OriginalName repo s' r name ↔ OriginalName repo s r name := by
  have hiff : ∀ s : State R, OriginalName repo s r name ↔ ∃ chat worktree,
      (s.chats chat).bind (·.cwd) = some worktree ∧ repo worktree = r ∧
        name = original worktree := by
    intro s
    simp only [OriginalName, Option.bind_eq_some_iff]
    constructor
    · rintro ⟨chat, row, worktree, hrow, hcwd, hname⟩
      exact ⟨chat, worktree, ⟨row, hrow, hcwd⟩, hname⟩
    · rintro ⟨chat, worktree, ⟨row, hrow, hcwd⟩, hname⟩
      exact ⟨chat, row, worktree, hrow, hcwd, hname⟩
  rw [hiff, hiff]
  simp only [h]

/-! ### Calls -/

theorem inv_setCall (h : Inv repo s) {stage : Option Stage}
    (hok : ∀ st, stage = some st → CallOk s chat st)
    (hrec : ∀ row worktree branch, s.chats chat = some row → row.cwd = some worktree →
      row.branch = some branch → s.stale chat = false →
        (stage.bind Stage.unwritten).getD branch = s.currentBranch worktree) :
    Inv repo (s.setCall chat stage) := by
  refine ⟨fun c st hst => ?_, h.fresh, h.inj, h.apart, fun c row w b hrow hcwd hb hs => ?_⟩
  · rw [setCall_calls] at hst
    split_ifs at hst with hc
    · rw [hc]
      exact (hok st hst).congr rfl
    · exact (h.calls c st hst).congr rfl
  · rw [setCall_calls]
    split_ifs with hc
    · exact hrec row w b (hc ▸ hrow) hcwd hb (hc ▸ hs)
    · exact h.recorded c row w b hrow hcwd hb hs

theorem inv_goOn (h : Inv repo s) {old : Stage} (hold : s.calls chat = some old)
    (hwritten : old.unwritten = none) {stage : Option Stage}
    (hok : ∀ st, stage = some st → CallOk s chat st) (hnone : stage.bind Stage.unwritten = none) :
    Inv repo (s.setCall chat stage) := by
  refine inv_setCall h hok fun row w b hrow hcwd hb hs => ?_
  have hrec := h.recorded chat row w b hrow hcwd hb hs
  rw [hold, Option.bind_some, hwritten] at hrec
  rw [hnone]
  exact hrec

theorem inv_goTo (h : Inv repo s) {old new : Stage} (hold : s.calls chat = some old)
    (hwritten : old.unwritten = none) (hok : CallOk s chat new) (hnone : new.unwritten = none) :
    Inv repo (s.setCall chat (some new)) := by
  refine inv_goOn h hold hwritten (fun st hst => ?_) hnone
  rw [← Option.some.inj hst]
  exact hok

theorem inv_sawBranch (h : Inv repo s) {stage : Stage} (hok : CallOk s chat stage)
    (hsaw : ∀ row worktree branch, s.chats chat = some row → row.cwd = some worktree →
      row.branch = some branch → stage.unwritten.getD branch = s.currentBranch worktree) :
    Inv repo ((s.sawBranch chat).setCall chat (some stage)) := by
  refine ⟨fun c st hst => ?_, h.fresh, h.inj, h.apart, fun c row w b hrow hcwd hb hs => ?_⟩
  · rw [setCall_calls] at hst
    split_ifs at hst with hc
    · rw [hc, ← Option.some.inj hst]
      exact hok.congr rfl
    · exact (h.calls c st hst).congr rfl
  · rw [setCall_calls]
    split_ifs with hc
    · exact hsaw row w b (hc ▸ hrow) hcwd hb
    · refine h.recorded c row w b hrow hcwd hb ?_
      have hsaw : (s.sawBranch chat).stale c = false := hs
      rwa [sawBranch_stale, if_neg hc] at hsaw

/-! ### Git -/

theorem inv_git (h : Inv repo s) (r : R) (hchats : s'.chats = s.chats) (hcalls : s'.calls = s.calls)
    (hstale : ∀ c, s'.stale c = false → s.stale c = false ∧
      ∀ w ∈ (s.chats c).bind (·.cwd), repo w ≠ r)
    (hheads : ∀ w, repo w ≠ r → s'.heads w = s.heads w)
    (hfresh : ∀ r name id, s'.refs r name = some id → id < s'.next)
    (hinj : ∀ r r' name name' id, s'.refs r name = some id → s'.refs r' name' = some id →
      r = r' ∧ name = name')
    (hapart : ∀ r name id, s'.refs r name = some id → s'.touched id = true →
      ¬ OriginalName repo s r name) : Inv repo s' := by
  refine ⟨fun c st hst => ?_, hfresh, hinj, fun r' name id hid ht => ?_,
    fun c row w b hrow hcwd hb hs => ?_⟩
  · rw [hcalls] at hst
    exact (h.calls c st hst).congr (by rw [hchats])
  · exact (originalName_congr fun c => by rw [hchats]).not.mpr (hapart r' name id hid ht)
  · rw [hchats] at hrow
    obtain ⟨hs, hout⟩ := hstale c hs
    have hhead := hheads w (hout w (by simp [hrow, hcwd]))
    rw [hcalls, State.currentBranch, hhead]
    exact h.recorded c row w b hrow hcwd hb hs

theorem inv_touch (h : Inv repo s) {r : R} {name : String} {id : ℕ} (hid : s.refs r name = some id)
    (hname : ¬ OriginalName repo s r name) : Inv repo (s.touch id) := by
  refine ⟨fun c st hst => (h.calls c st hst).congr rfl, h.fresh, h.inj,
    fun r' name' id' hid' ht => ?_, h.recorded⟩
  have htouched : Function.update s.touched id true id' = true := ht
  rw [Function.update_apply] at htouched
  split_ifs at htouched with he
  · obtain ⟨rfl, rfl⟩ := h.inj _ _ _ _ _ (he ▸ hid') hid
    exact hname
  · exact h.apart r' name' id' hid' htouched

variable [DecidableEq R]

theorem useGit_stale {r : R} {c : String} (h : (s.useGit repo r).stale c = false) :
    s.stale c = false ∧ ∀ w ∈ (s.chats c).bind (·.cwd), repo w ≠ r := by
  simp only [State.useGit, Bool.or_eq_false_iff] at h
  refine ⟨h.1, fun w hw hr => ?_⟩
  rw [Option.mem_def.mp hw] at h
  simp [hr] at h

theorem setRef_eq {r r' : R} {name name' : String} {id : Option ℕ} :
    (s.setRef r name id).refs r' name' =
      if r' = r ∧ name' = name then id else s.refs r' name' := by
  by_cases hr : r' = r
  · subst hr
    by_cases hn : name' = name <;> simp [State.setRef, hn]
  · simp [State.setRef, hr]

theorem moveBranch_eq {r r' : R} {old new name : String} {id id' : ℕ}
    (h : (s.moveBranch repo r old new id).refs r' name = some id') :
    (r' = r ∧ name = new ∧ id' = id) ∨
      (s.refs r' name = some id' ∧ ¬ (r' = r ∧ name = old) ∧ ¬ (r' = r ∧ name = new)) := by
  rw [State.moveBranch] at h
  dsimp only at h
  rw [setRef_eq, setRef_eq] at h
  by_cases hnew : r' = r ∧ name = new
  · rw [if_pos hnew, Option.some_inj] at h
    exact .inl ⟨hnew.1, hnew.2, h.symm⟩
  · rw [if_neg hnew] at h
    by_cases hold : r' = r ∧ name = old
    · simp [hold] at h
    · rw [if_neg hold] at h
      exact .inr ⟨h, hold, hnew⟩

theorem moveBranch_inj (h : Inv repo s) {r : R} {old new : String} {id : ℕ}
    (hid : s.refs r old = some id) :
    ∀ r₁ r₂ name name' id', (s.moveBranch repo r old new id).refs r₁ name = some id' →
      (s.moveBranch repo r old new id).refs r₂ name' = some id' → r₁ = r₂ ∧ name = name' := by
  intro r₁ r₂ name name' id' h₁ h₂
  rcases moveBranch_eq h₁ with ⟨rfl, rfl, rfl⟩ | ⟨ho₁, hold₁, -⟩
  · rcases moveBranch_eq h₂ with ⟨rfl, rfl, -⟩ | ⟨ho₂, hold₂, -⟩
    · exact ⟨rfl, rfl⟩
    · obtain ⟨rfl, rfl⟩ := h.inj _ _ _ _ _ hid ho₂
      exact absurd ⟨rfl, rfl⟩ hold₂
  · rcases moveBranch_eq h₂ with ⟨rfl, rfl, rfl⟩ | ⟨ho₂, -, -⟩
    · obtain ⟨rfl, rfl⟩ := h.inj _ _ _ _ _ hid ho₁
      exact absurd ⟨rfl, rfl⟩ hold₁
    · exact h.inj _ _ _ _ _ ho₁ ho₂

theorem moveBranch_heads {r : R} {old new : String} {id : ℕ} {w : Path} (hw : repo w ≠ r) :
    (s.moveBranch repo r old new id).heads w = s.heads w := if_neg fun h => hw h.1

theorem inv_head (h : Inv repo s) (w : Path) (name : Option String) :
    Inv repo ((s.setHead w name).useGit repo (repo w)) :=
  inv_git h (repo w) rfl rfl (fun _ hc => useGit_stale hc)
    (fun _ hw => Function.update_of_ne (fun he => hw (congrArg repo he)) _ _) h.fresh h.inj h.apart

theorem inv_moveBranch (h : Inv repo s) {r : R} {old new : String} {id : ℕ}
    (hid : s.refs r old = some id)
    (hnew : s.touched id = true → ¬ OriginalName repo s r new) :
    Inv repo ((s.moveBranch repo r old new id).useGit repo r) := by
  refine inv_git h r rfl rfl (fun _ hc => useGit_stale hc)
    (fun w hw => @moveBranch_heads _ repo s _ r old new id w hw) ?_
    (moveBranch_inj h hid) ?_
  · intro r' name id' hid'
    have hmoved : (s.moveBranch repo r old new id).refs r' name = some id' := hid'
    rcases moveBranch_eq hmoved with ⟨-, -, rfl⟩ | ⟨ho, -, -⟩
    · exact h.fresh _ _ _ hid
    · exact h.fresh _ _ _ ho
  · intro r' name id' hid' ht
    have hmoved : (s.moveBranch repo r old new id).refs r' name = some id' := hid'
    rcases moveBranch_eq hmoved with ⟨rfl, rfl, rfl⟩ | ⟨ho, -, -⟩
    · exact hnew ht
    · exact h.apart _ _ _ ho ht

/-- `git checkout -b`. -/
theorem inv_branch (h : Inv repo s) {w : Path} {name : String}
    (hnone : s.refs (repo w) name = none) (hname : ¬ OriginalName repo s (repo w) name) :
    Inv repo { ((((s.setRef (repo w) name (some s.next)).setHead w (some name)).useGit repo
      (repo w)).touch s.next) with next := s.next + 1 } := by
  have hrefs : ∀ {r' name' id'}, (s.setRef (repo w) name (some s.next)).refs r' name' = some id' →
      (r' = repo w ∧ name' = name ∧ id' = s.next) ∨ s.refs r' name' = some id' := by
    intro r' name' id' hid
    rw [setRef_eq] at hid
    split_ifs at hid with he
    · exact .inl ⟨he.1, he.2, (Option.some.inj hid).symm⟩
    · exact .inr hid
  refine inv_git h (repo w) rfl rfl (fun _ hc => useGit_stale hc)
    (fun _ hw => Function.update_of_ne (fun he => hw (congrArg repo he)) _ _) ?_ ?_ ?_
  · intro r' name' id' hid
    rcases hrefs hid with ⟨-, -, rfl⟩ | ho
    · exact Nat.lt_succ_self _
    · exact Nat.lt_succ_of_lt (h.fresh _ _ _ ho)
  · intro r₁ r₂ n₁ n₂ id' h₁ h₂
    rcases hrefs h₁ with ⟨rfl, rfl, rfl⟩ | ho₁
    · rcases hrefs h₂ with ⟨rfl, rfl, -⟩ | ho₂
      · exact ⟨rfl, rfl⟩
      · exact absurd (h.fresh _ _ _ ho₂) (Nat.lt_irrefl _)
    · rcases hrefs h₂ with ⟨rfl, rfl, rfl⟩ | ho₂
      · exact absurd (h.fresh _ _ _ ho₁) (Nat.lt_irrefl _)
      · exact h.inj _ _ _ _ _ ho₁ ho₂
  · intro r' name' id' hid ht
    have htouched : Function.update s.touched s.next true id' = true := ht
    rcases hrefs hid with ⟨rfl, rfl, rfl⟩ | ho
    · exact hname
    · rw [Function.update_of_ne (h.fresh _ _ _ ho).ne] at htouched
      exact h.apart _ _ _ ho htouched

/-! ### The rows -/

omit [DecidableEq R] in
/-- A title is written while no call relies on there being none. -/
theorem inv_renameChat (h : Inv repo s) {title : String}
    (hquiet : ∀ stage p, s.calls chat = some stage → stage.pending = some p →
      isBlank title = true) : Inv repo (s.renameChat chat title) := by
  have hrow : ∀ {c row'}, (s.renameChat chat title).chats c = some row' → ∃ row,
      s.chats c = some row ∧ row'.cwd = row.cwd ∧ row'.branch = row.branch ∧
        (row'.named = row.named ∨ c = chat ∧ row'.named = !isBlank title) := by
    intro c row' hrow'
    rw [State.renameChat, writeRow_chats] at hrow'
    split_ifs at hrow' with hc
    · obtain ⟨row, hr, rfl⟩ := Option.map_eq_some_iff.mp hrow'
      exact ⟨row, hc ▸ hr, rfl, rfl, .inr ⟨hc, rfl⟩⟩
    · exact ⟨row', hrow', rfl, rfl, .inl rfl⟩
  have hcwd : ∀ c, ((s.renameChat chat title).chats c).bind (·.cwd) =
      (s.chats c).bind (·.cwd) := by
    intro c
    rw [State.renameChat, writeRow_chats]
    split_ifs with hc
    · rw [hc]
      cases s.chats chat <;> rfl
    · rfl
  refine ⟨fun c st hst => ?_, h.fresh, h.inj,
    fun r name id hid ht => (originalName_congr hcwd).not.mpr (h.apart r name id hid ht),
    fun c row' w b hrow' hw hb hs => ?_⟩
  · obtain ⟨hexists, hkept, hchecked⟩ := h.calls c st hst
    refine ⟨fun hstart => ?_, fun p hp row' hrow' => ?_, hchecked⟩
    · obtain ⟨row, hr⟩ := hexists hstart
      rw [State.renameChat, writeRow_chats]
      split_ifs with hc
      · exact ⟨_, by rw [← hc, hr, Option.map_some]⟩
      · exact ⟨row, hr⟩
    · obtain ⟨row, hr, hw, hb, hnamed⟩ := hrow hrow'
      obtain ⟨hk₁, hk₂, hk₃⟩ := hkept p hp row hr
      refine ⟨?_, hw.trans hk₂, hb.trans hk₃⟩
      rcases hnamed with hnamed | ⟨rfl, hnamed⟩
      · rw [hnamed, hk₁]
      · rw [hnamed, hquiet st p hst hp, Bool.not_true]
  · obtain ⟨row, hr, hw', hb', -⟩ := hrow hrow'
    exact h.recorded c row w b hr (hw'.symm.trans hw) (hb'.symm.trans hb) hs

omit [DecidableEq R] in
/-- The branch a call has read is recorded. -/
theorem inv_setChatBranch (h : Inv repo s) {p : Pending} {branch : String}
    (hcall : s.calls chat = some (.finish p (some branch))) :
    Inv repo ((s.setChatBranch chat branch).setCall chat none) := by
  have hcwd : ∀ c, (((s.setChatBranch chat branch).setCall chat none).chats c).bind (·.cwd) =
      (s.chats c).bind (·.cwd) := by
    intro c
    show ((s.setChatBranch chat branch).chats c).bind (·.cwd) = _
    rw [State.setChatBranch, writeRow_chats]
    split_ifs with hc
    · rw [hc]
      cases s.chats chat <;> rfl
    · rfl
  have hother : ∀ c, c ≠ chat → ((s.setChatBranch chat branch).setCall chat none).chats c =
      s.chats c := by
    intro c hc
    show (s.setChatBranch chat branch).chats c = _
    rw [State.setChatBranch, writeRow_chats, if_neg hc]
  refine ⟨fun c st hst => ?_, h.fresh, h.inj,
    fun r name id hid ht => (originalName_congr hcwd).not.mpr (h.apart r name id hid ht),
    fun c row' w b hrow' hw hb hs => ?_⟩
  · rw [setCall_calls] at hst
    split_ifs at hst with hc
    exact (h.calls c st hst).congr (hother c hc)
  · rw [setCall_calls]
    split_ifs with hc
    · subst hc
      have hmap : (s.setChatBranch c branch).chats c = some row' := hrow'
      rw [State.setChatBranch, writeRow_chats, if_pos rfl, Option.map_eq_some_iff] at hmap
      obtain ⟨row, hr, rfl⟩ := hmap
      obtain ⟨old, hold⟩ : ∃ old, row.branch = some old :=
        ⟨p.branch, (((h.calls c _ hcall).kept p rfl row hr).2.2)⟩
      have hrec := h.recorded c row w old hr hw hold hs
      rw [hcall] at hrec
      rw [← Option.some.inj hb]
      exact hrec
    · rw [hother c hc] at hrow'
      exact h.recorded c row' w b hrow' hw hb hs

end Invariant

/-! ## Steps -/

section Steps

variable {R : Type} {repo : Path → R} {suffix : Path → String} {s s' : State R} {chat : String}

/-- The user renames nothing behind the last look of a call: no chat is named after a call has read
it, and no branch gets, or is checked out under, the name a worktree was created with. -/
def Fair (repo : Path → R) (s : State R) : Act → Prop
  | .rename chat title =>
    ∀ stage p, s.calls chat = some stage → stage.pending = some p → isBlank title = true
  | .checkout worktree (some name) => ¬ OriginalName repo s (repo worktree) name
  | .branch worktree name => ¬ OriginalName repo s (repo worktree) name
  | .move worktree _ new => ¬ OriginalName repo s (repo worktree) new
  | _ => True

/-- The acts of the user. -/
def Act.users : Act → Bool
  | .rename _ _ | .checkout _ _ | .branch _ _ | .move _ _ _ => true
  | _ => false

theorem CallOk.next {old new : Stage} {p : Pending} (h : CallOk s chat old)
    (hold : old.pending = some p) (hnew : new.pending = some p)
    (hchecked : new.checked = none ∨ p.branch = original p.cwd) : CallOk s chat new := by
  have hstart : old.isStart = false := by
    cases old <;> simp [Stage.pending, Stage.isStart] at hold ⊢
  refine ⟨fun _ => h.row hstart, fun q hq => ?_, fun q hq => ?_⟩
  · obtain rfl := Option.some.inj (hnew.symm.trans hq)
    exact h.kept p hold
  · rcases hchecked with hnone | hbranch
    · rw [hnone] at hq
      cases hq
    · have hp : new.pending = some q := by
        cases new <;> simp [Stage.checked] at hq <;> simp [Stage.pending, hq]
      obtain rfl := Option.some.inj (hnew.symm.trans hp)
      exact hbranch

theorem current_of_kept (h : Inv repo s) {stage : Stage} {p : Pending}
    (hcall : s.calls chat = some stage) (hp : stage.pending = some p) {row : ChatRow}
    {worktree : Path} {branch : String} (hrow : s.chats chat = some row)
    (hcwd : row.cwd = some worktree) (hb : row.branch = some branch) :
    worktree = p.cwd ∧ branch = p.branch := by
  obtain ⟨-, hw, hbranch⟩ := (h.calls chat stage hcall).kept p hp row hrow
  exact ⟨Option.some.inj (hcwd.symm.trans hw), Option.some.inj (hb.symm.trans hbranch)⟩

theorem untouched (h : Inv repo s) {p : Pending} {target : String}
    (hcall : s.calls chat = some (.move p target)) {id : ℕ}
    (hid : s.refs (repo p.cwd) p.branch = some id) : s.touched id = false := by
  obtain ⟨hexists, hkept, hchecked⟩ := h.calls chat _ hcall
  obtain ⟨row, hrow⟩ := hexists rfl
  have hcwd := (hkept p rfl row hrow).2.1
  by_contra ht
  exact h.apart _ _ _ hid (by simpa using ht) ⟨chat, row, p.cwd, hrow, hcwd, rfl, hchecked p rfl⟩

theorem inv_read (h : Inv repo s) {old new : Stage} {p : Pending} (hcall : s.calls chat = some old)
    (hold : old.pending = some p) (hok : CallOk s chat new)
    (hnew : new.unwritten.getD p.branch = s.currentBranch p.cwd) :
    Inv repo ((s.sawBranch chat).setCall chat (some new)) := by
  refine inv_sawBranch h hok fun row w b hrow hcwd hb => ?_
  obtain ⟨rfl, rfl⟩ := current_of_kept h hcall hold hrow hcwd hb
  exact hnew

theorem inv_named (h : Inv repo (s.setCall chat none)) (title : String) :
    Inv repo ((s.renameChat chat title).setCall chat none) := by
  refine @inv_renameChat _ repo (s.setCall chat none) chat h title fun stage p hst => ?_
  rw [setCall_calls, if_pos rfl] at hst
  cases hst

theorem inv_afterModel (h : Inv repo s) {prompt : String} {first : ChatRow}
    (hcall : s.calls chat = some (.model prompt first)) (generated : Option String) :
    Inv repo (afterModel s chat prompt first generated) := by
  obtain ⟨row, hrow⟩ := (h.calls chat _ hcall).row rfl
  have hdone : Inv repo (s.setCall chat none) := inv_goOn h hcall rfl (by simp) rfl
  unfold afterModel
  dsimp only
  rw [hrow, Option.getD_some]
  by_cases htitle : generated.getD (fallback prompt) = ""
  · rw [if_pos htitle]
    exact hdone
  · by_cases hnamed : row.named = true
    · rw [if_neg htitle, if_pos hnamed]
      exact hdone
    · rw [if_neg htitle, if_neg hnamed]
      cases hcwd : row.cwd with
      | none => exact inv_named hdone _
      | some cwd =>
        cases hbranch : row.branch with
        | none => exact inv_named hdone _
        | some branch =>
          dsimp only
          split_ifs
          · refine inv_goTo h hcall rfl ⟨fun _ => ⟨row, hrow⟩, fun p hp row' hrow' => ?_, ?_⟩ rfl
            · obtain rfl := Option.some.inj hp
              obtain rfl := Option.some.inj (hrow.symm.trans hrow')
              exact ⟨by simpa using hnamed, hcwd, hbranch⟩
            · rintro p hp
              cases hp
          · exact inv_named hdone _

theorem inv_finishStep (h : Inv repo s) {p : Pending} {renamed : Option String}
    (hcall : s.calls chat = some (.finish p renamed)) :
    Inv repo (finishStep s chat p renamed) := by
  unfold finishStep
  by_cases hwrite : renamed.any (· ≠ p.branch) = true
  · rw [if_pos hwrite]
    cases renamed with
    | none => simp at hwrite
    | some branch => exact inv_named (inv_setChatBranch h hcall) p.title
  · rw [if_neg hwrite]
    refine inv_named (inv_setCall h (by simp) fun row w b hrow hcwd hb hs => ?_) p.title
    have hrec := h.recorded chat row w b hrow hcwd hb hs
    obtain ⟨rfl, rfl⟩ := current_of_kept h hcall rfl hrow hcwd hb
    rw [hcall] at hrec
    cases renamed with
    | none => exact hrec
    | some branch =>
      have hsame : branch = p.branch := by simpa using hwrite
      exact hsame ▸ hrec

variable [DecidableEq R]

theorem inv_users (h : Inv repo s) {act : Act} (hact : act.users = true) (hfair : Fair repo s act)
    (hs : step repo suffix s act = some s') : Inv repo s' := by
  cases act with
  | rename chat title =>
    obtain ⟨row, -, rfl⟩ := Option.map_eq_some_iff.mp hs
    exact inv_renameChat h hfair
  | checkout worktree name =>
    cases name with
    | none =>
      rw [← Option.some.inj hs]
      exact inv_head h worktree none
    | some name =>
      obtain ⟨id, hid, rfl⟩ := Option.map_eq_some_iff.mp hs
      exact inv_touch (inv_head h worktree (some name)) hid hfair
  | branch worktree name =>
    obtain ⟨hnone, rfl⟩ := Run.of_guard hs
    exact inv_branch h hnone hfair
  | move worktree old new =>
    rw [step] at hs
    split_ifs at hs with hnone
    obtain ⟨id, hid, rfl⟩ := Option.map_eq_some_iff.mp hs
    have hmoved := inv_moveBranch h hid fun _ => hfair
    refine @inv_touch _ _ _ hmoved (repo worktree) new id ?_ hfair
    show (State.moveBranch repo s (repo worktree) old new id).refs (repo worktree) new = some id
    rw [State.moveBranch]
    dsimp only
    rw [setRef_eq, if_pos ⟨rfl, rfl⟩]
  | _ => simp [Act.users] at hact

theorem inv_gitStep (h : Inv repo s) {stage : Stage} {ok : Bool}
    (hcall : s.calls chat = some stage) (hs : gitStep repo suffix s chat ok stage = some s') :
    Inv repo s' := by
  have hc := h.calls chat stage hcall
  cases stage with
  | current p =>
    have hfinish : ∀ renamed, CallOk s chat (.finish p renamed) := fun _ =>
      hc.next rfl rfl (.inl rfl)
    rw [gitStep] at hs
    split_ifs at hs with hok hdone
    · rw [← Option.some.inj hs]
      exact inv_goTo h hcall rfl (hfinish none) rfl
    · rw [← Option.some.inj hs]
      exact inv_read h hcall rfl (hfinish _) rfl
    · simp only [not_or, not_not] at hdone
      rw [← Option.some.inj hs]
      exact inv_read h hcall rfl (hc.next rfl rfl (.inr hdone.2.1)) hdone.1.symm
  | preferred p =>
    rw [← Option.some.inj hs]
    exact inv_goTo h hcall rfl (hc.next rfl rfl (.inr (hc.checked p rfl))) rfl
  | target p target =>
    rw [← Option.some.inj hs]
    split_ifs
    · exact inv_goTo h hcall rfl (hc.next rfl rfl (.inl rfl)) rfl
    · exact inv_goTo h hcall rfl (hc.next rfl rfl (.inr (hc.checked p rfl))) rfl
  | move p target =>
    have hfail : Inv repo (s.setCall chat (some (.finish p none))) :=
      inv_goTo h hcall rfl (hc.next rfl rfl (.inl rfl)) rfl
    cases hid : s.refs (repo p.cwd) p.branch with
    | none =>
      simp only [gitStep, hid, Option.some_inj] at hs
      exact hs ▸ hfail
    | some id =>
      cases hnone : s.refs (repo p.cwd) target with
      | some other =>
        simp only [gitStep, hid, hnone, Option.some_inj] at hs
        exact hs ▸ hfail
      | none =>
        simp only [gitStep, hid, hnone] at hs
        split_ifs at hs with hok
        · have hmoved := @inv_moveBranch _ repo s _ h (repo p.cwd) p.branch target id hid fun ht =>
            absurd ht (by simp [untouched h hcall hid])
          rw [← Option.some.inj hs]
          exact inv_goTo hmoved hcall rfl ((hc.next rfl rfl (.inl rfl)).congr rfl) rfl
        · rw [← Option.some.inj hs]
          exact hfail
  | reread p =>
    rw [gitStep] at hs
    split_ifs at hs with hok
    · rw [← Option.some.inj hs]
      exact inv_read h hcall rfl (hc.next rfl rfl (.inl rfl)) rfl
    · rw [← Option.some.inj hs]
      exact inv_goTo h hcall rfl (hc.next rfl rfl (.inl rfl)) rfl
  | _ => cases hs

/-- **What every act of the calls keeps, and every fair act of the user.** -/
theorem inv_step (h : Inv repo s) {act : Act} (hfair : Fair repo s act)
    (hs : step repo suffix s act = some s') : Inv repo s' := by
  cases act with
  | call chat prompt =>
    rw [← Option.some.inj hs]
    split_ifs with hflight
    · exact h
    · have hnone : s.calls chat = none := by simpa using hflight
      refine inv_setCall h (fun st hst => ?_) fun row w b hrow hcwd hb hstale => ?_
      · rw [← Option.some.inj hst]
        exact ⟨by simp [Stage.isStart], by simp [Stage.pending], by simp [Stage.checked]⟩
      · have hrec := h.recorded chat row w b hrow hcwd hb hstale
        rw [hnone] at hrec
        exact hrec
  | first chat =>
    cases hcall : s.calls chat with
    | none => simp [step, hcall] at hs
    | some stage =>
      cases stage with
      | start prompt =>
        cases hrow : s.chats chat with
        | none =>
          simp only [step, hcall, hrow, Option.some_inj] at hs
          exact hs ▸ inv_goOn h hcall rfl (by simp) rfl
        | some row =>
          simp only [step, hcall, hrow, Option.some_inj] at hs
          rw [← hs]
          split_ifs
          · exact inv_goOn h hcall rfl (by simp) rfl
          · exact inv_goTo h hcall rfl
              ⟨fun _ => ⟨row, hrow⟩, by simp [Stage.pending], by simp [Stage.checked]⟩ rfl
      | _ => simp [step, hcall] at hs
  | model chat generated =>
    cases hcall : s.calls chat with
    | none => simp [step, hcall] at hs
    | some stage =>
      cases stage with
      | model prompt first =>
        simp only [step, hcall, Option.some_inj] at hs
        exact hs ▸ inv_afterModel h hcall generated
      | _ => simp [step, hcall] at hs
  | git chat ok =>
    obtain ⟨stage, hcall, hs⟩ := Option.bind_eq_some_iff.mp hs
    exact inv_gitStep h hcall hs
  | finish chat =>
    cases hcall : s.calls chat with
    | none => simp [step, hcall] at hs
    | some stage =>
      cases stage with
      | finish p renamed =>
        simp only [step, hcall, Option.some_inj] at hs
        exact hs ▸ inv_finishStep h hcall
      | _ => simp [step, hcall] at hs
  | _ => exact inv_users h rfl hfair hs

/-! ### What the user keeps -/

/-- A chat that has a title keeps it. -/
def KeepsTitles (s s' : State R) : Prop :=
  ∀ chat row, s.chats chat = some row → row.named = true →
    ∃ row', s'.chats chat = some row' ∧ row'.title = row.title

/-- A branch the user checked out or renamed keeps its name. -/
def KeepsBranches (s s' : State R) : Prop :=
  ∀ r name id, s.refs r name = some id → s.touched id = true → s'.refs r name = some id

/-- The branch of a chat is the one its worktree is on, unless git was used after the last read. -/
def Recorded (s : State R) : Prop :=
  ∀ chat row worktree branch, s.chats chat = some row → row.cwd = some worktree →
    row.branch = some branch → s.stale chat = false →
      (∀ p renamed, s.calls chat ≠ some (.finish p renamed)) →
        branch = s.currentBranch worktree

omit [DecidableEq R] in
theorem Inv.recorded' (h : Inv repo s) : Recorded s := by
  intro chat row worktree branch hrow hcwd hb hs hcall
  have hrec := h.recorded chat row worktree branch hrow hcwd hb hs
  cases hstage : s.calls chat with
  | none =>
    rw [hstage] at hrec
    exact hrec
  | some stage =>
    rw [hstage] at hrec
    cases stage with
    | finish p renamed => exact absurd hstage (hcall p renamed)
    | _ => exact hrec

omit [DecidableEq R] in
theorem KeepsTitles.of_eq (h : s'.chats = s.chats) : KeepsTitles s s' := fun chat row hrow _ =>
  ⟨row, by rw [h, hrow], rfl⟩

omit [DecidableEq R] in
theorem keepsTitles_rename {s₀ : State R} (h : ∀ c, ((s₀.chats c).map (·.title)) =
      (s.chats c).map (·.title)) {title : String}
    (hquiet : ∀ row, s.chats chat = some row → row.named = false) :
    KeepsTitles s ((s₀.renameChat chat title).setCall chat none) := by
  intro c row hrow hnamed
  have hc : c ≠ chat := by
    rintro rfl
    rw [hquiet row hrow] at hnamed
    cases hnamed
  have hsame := h c
  rw [hrow, Option.map_some, Option.map_eq_some_iff] at hsame
  obtain ⟨row', hrow', htitle⟩ := hsame
  refine ⟨row', ?_, htitle⟩
  show (s₀.renameChat chat title).chats c = some row'
  rw [State.renameChat, writeRow_chats, if_neg hc, hrow']

omit [DecidableEq R] in
theorem keepsTitles_afterModel {prompt : String} {first : ChatRow}
    (generated : Option String) (hrow : ∃ row, s.chats chat = some row) :
    KeepsTitles s (afterModel s chat prompt first generated) := by
  obtain ⟨row, hrow⟩ := hrow
  unfold afterModel
  dsimp only
  rw [hrow, Option.getD_some]
  by_cases htitle : generated.getD (fallback prompt) = ""
  · rw [if_pos htitle]
    exact .of_eq rfl
  · by_cases hnamed : row.named = true
    · rw [if_neg htitle, if_pos hnamed]
      exact .of_eq rfl
    · have hquiet : ∀ row', s.chats chat = some row' → row'.named = false := fun row' hrow' => by
        obtain rfl := Option.some.inj (hrow.symm.trans hrow')
        simpa using hnamed
      rw [if_neg htitle, if_neg hnamed]
      cases row.cwd with
      | none => exact keepsTitles_rename (fun _ => rfl) hquiet
      | some cwd =>
        cases row.branch with
        | none => exact keepsTitles_rename (fun _ => rfl) hquiet
        | some branch =>
          dsimp only
          split_ifs
          · exact .of_eq rfl
          · exact keepsTitles_rename (fun _ => rfl) hquiet

omit [DecidableEq R] in
theorem keepsTitles_finishStep (h : Inv repo s) {p : Pending} {renamed : Option String}
    (hcall : s.calls chat = some (.finish p renamed)) :
    KeepsTitles s (finishStep s chat p renamed) := by
  have hquiet : ∀ row, s.chats chat = some row → row.named = false := fun row hrow =>
    ((h.calls chat _ hcall).kept p rfl row hrow).1
  unfold finishStep
  refine keepsTitles_rename (fun c => ?_) hquiet
  split_ifs
  · rw [State.setChatBranch, writeRow_chats]
    split_ifs with hc
    · rw [hc]
      cases s.chats chat <;> rfl
    · rfl
  · rfl

theorem gitStep_chats {stage : Stage} {ok : Bool}
    (hs : gitStep repo suffix s chat ok stage = some s') : s'.chats = s.chats := by
  cases stage with
  | current p =>
    rw [gitStep] at hs
    split_ifs at hs <;> rw [← Option.some.inj hs] <;> rfl
  | preferred p =>
    rw [← Option.some.inj hs]
    rfl
  | target p target =>
    rw [← Option.some.inj hs]
    rfl
  | move p target =>
    cases hid : s.refs (repo p.cwd) p.branch with
    | none =>
      simp only [gitStep, hid, Option.some_inj] at hs
      exact hs ▸ rfl
    | some id =>
      cases hnone : s.refs (repo p.cwd) target with
      | some other =>
        simp only [gitStep, hid, hnone, Option.some_inj] at hs
        exact hs ▸ rfl
      | none =>
        simp only [gitStep, hid, hnone] at hs
        split_ifs at hs <;> rw [← Option.some.inj hs] <;> rfl
  | reread p =>
    rw [gitStep] at hs
    split_ifs at hs <;> rw [← Option.some.inj hs] <;> rfl
  | _ => cases hs

/-- Only a branch that is not the user's is renamed. -/
theorem gitStep_branches (h : Inv repo s) {stage : Stage} {ok : Bool}
    (hcall : s.calls chat = some stage) (hs : gitStep repo suffix s chat ok stage = some s') :
    KeepsBranches s s' := by
  have hsame : s'.refs = s.refs → KeepsBranches s s' := fun hr r name id hid _ => by rw [hr, hid]
  cases stage with
  | move p target =>
    cases hid : s.refs (repo p.cwd) p.branch with
    | none =>
      simp only [gitStep, hid, Option.some_inj] at hs
      exact hsame (hs ▸ rfl)
    | some id =>
      cases hnone : s.refs (repo p.cwd) target with
      | some other =>
        simp only [gitStep, hid, hnone, Option.some_inj] at hs
        exact hsame (hs ▸ rfl)
      | none =>
        simp only [gitStep, hid, hnone] at hs
        split_ifs at hs with hok
        · rw [← Option.some.inj hs]
          intro r name id' hid' ht
          show (State.moveBranch repo s (repo p.cwd) p.branch target id).refs r name = some id'
          rw [State.moveBranch]
          dsimp only
          rw [setRef_eq, setRef_eq, if_neg, if_neg, hid']
          · rintro ⟨rfl, rfl⟩
            rw [hid, Option.some_inj] at hid'
            rw [← hid', untouched h hcall hid] at ht
            cases ht
          · rintro ⟨rfl, rfl⟩
            rw [hnone] at hid'
            cases hid'
        · exact hsame (by rw [← Option.some.inj hs]; rfl)
  | current p =>
    rw [gitStep] at hs
    split_ifs at hs <;> exact hsame (by rw [← Option.some.inj hs]; rfl)
  | reread p =>
    rw [gitStep] at hs
    split_ifs at hs <;> exact hsame (by rw [← Option.some.inj hs]; rfl)
  | preferred p => exact hsame (by rw [← Option.some.inj hs]; rfl)
  | target p target => exact hsame (by rw [← Option.some.inj hs]; rfl)
  | _ => cases hs

omit [DecidableEq R] in
theorem afterModel_refs {prompt : String} {first : ChatRow} {generated : Option String} :
    (afterModel s chat prompt first generated).refs = s.refs := by
  unfold afterModel
  dsimp only
  by_cases htitle : generated.getD (fallback prompt) = ""
  · rw [if_pos htitle]
    rfl
  · by_cases hnamed : ((s.chats chat).getD first).named = true
    · rw [if_neg htitle, if_pos hnamed]
      rfl
    · rw [if_neg htitle, if_neg hnamed]
      cases ((s.chats chat).getD first).cwd with
      | none => rfl
      | some cwd =>
        cases ((s.chats chat).getD first).branch with
        | none => rfl
        | some branch =>
          dsimp only
          split_ifs <;> rfl

/-- **One act of a call.** -/
theorem keeps_step (h : Inv repo s) {act : Act} (hact : act.users = false)
    (hs : step repo suffix s act = some s') : KeepsTitles s s' ∧ KeepsBranches s s' := by
  have hrefs : s'.refs = s.refs → KeepsBranches s s' := fun hr r name id hid _ => by rw [hr, hid]
  cases act with
  | call chat prompt =>
    rw [← Option.some.inj hs]
    split_ifs
    · exact ⟨.of_eq rfl, fun _ _ _ hid _ => hid⟩
    · exact ⟨.of_eq rfl, fun _ _ _ hid _ => hid⟩
  | first chat =>
    cases hcall : s.calls chat with
    | none => simp [step, hcall] at hs
    | some stage =>
      cases stage with
      | start prompt =>
        cases hrow : s.chats chat with
        | none =>
          simp only [step, hcall, hrow, Option.some_inj] at hs
          exact hs ▸ ⟨.of_eq rfl, fun _ _ _ hid _ => hid⟩
        | some row =>
          simp only [step, hcall, hrow, Option.some_inj] at hs
          exact hs ▸ ⟨.of_eq rfl, fun _ _ _ hid _ => hid⟩
      | _ => simp [step, hcall] at hs
  | model chat generated =>
    cases hcall : s.calls chat with
    | none => simp [step, hcall] at hs
    | some stage =>
      cases stage with
      | model prompt first =>
        simp only [step, hcall, Option.some_inj] at hs
        rw [← hs]
        refine ⟨keepsTitles_afterModel generated ((h.calls chat _ hcall).row rfl), ?_⟩
        rw [hs]
        exact hrefs (hs ▸ afterModel_refs)
      | _ => simp [step, hcall] at hs
  | git chat ok =>
    obtain ⟨stage, hcall, hs⟩ := Option.bind_eq_some_iff.mp hs
    exact ⟨.of_eq (gitStep_chats hs), gitStep_branches h hcall hs⟩
  | finish chat =>
    cases hcall : s.calls chat with
    | none => simp [step, hcall] at hs
    | some stage =>
      cases stage with
      | finish p renamed =>
        simp only [step, hcall, Option.some_inj] at hs
        rw [← hs]
        refine ⟨keepsTitles_finishStep h hcall, ?_⟩
        rw [hs]
        refine hrefs (hs ▸ ?_)
        unfold finishStep
        split_ifs <;> rfl
      | _ => simp [step, hcall] at hs
  | _ => simp [Act.users] at hact

/-- A workspace before the first call. -/
structure Start (repo : Path → R) (s : State R) : Prop where
  idle : ∀ chat, s.calls chat = none
  fresh : ∀ r name id, s.refs r name = some id → id < s.next
  inj : ∀ r r' name name' id, s.refs r name = some id → s.refs r' name' = some id →
    r = r' ∧ name = name'
  apart : ∀ r name id, s.refs r name = some id → s.touched id = true → ¬ OriginalName repo s r name
  recorded : Recorded s

omit [DecidableEq R] in
theorem inv_start (h : Start repo s) : Inv repo s := by
  refine ⟨fun chat stage hcall => ?_, h.fresh, h.inj, h.apart,
    fun chat row w b hrow hcwd hb hs => ?_⟩
  · rw [h.idle] at hcall
    cases hcall
  · rw [h.idle]
    exact h.recorded chat row w b hrow hcwd hb hs fun p renamed hcall => by simp [h.idle] at hcall

/-- **Automatic titles.** In a run in which the user names no chat behind a call's last look at it,
and gives no branch, nor checks out one under, the name a chat's worktree was created with, every
act of a call keeps the titles there are and the names of the user's branches, and the recorded
branches are the ones the worktrees are on. -/
theorem titles_run (hstart : Start repo s) {acts : List Act}
    (hfair : Run.Guarded (step repo suffix) (Fair repo) s acts) :
    (∀ pre act post s₁ s₂, acts = pre ++ act :: post →
      Run.exec (step repo suffix) s pre = some s₁ → step repo suffix s₁ act = some s₂ →
        act.users = false → KeepsTitles s₁ s₂ ∧ KeepsBranches s₁ s₂) ∧
    ∀ s', Run.exec (step repo suffix) s acts = some s' → Recorded s' := by
  have hstep : ∀ s act s', Inv repo s → Fair repo s act → step repo suffix s act = some s' →
      Inv repo s' := fun s act s' h hf hs => inv_step h hf hs
  constructor
  · intro pre act post s₁ s₂ he hpre hs hact
    exact keeps_step (Run.exec_invariant_at hstep (inv_start hstart) hfair he hpre).1 hact hs
  · intro s' hs'
    exact (Run.exec_invariant hstep (inv_start hstart) hfair hs').recorded'

end Steps

/-! ## Sample runs -/

/-- An untitled chat in a worktree on the branch `jjzeron/x`. -/
def sample : State Unit where
  chats := fun chat =>
    if chat = "chat" then some { title := none, cwd := some ["w"], branch := some "jjzeron/x" }
    else none
  calls := fun _ => none
  refs := fun _ name => if name = "jjzeron/x" then some 0 else none
  heads := fun worktree => if worktree = ["w"] then some "jjzeron/x" else none
  next := 1
  touched := fun _ => false
  stale := fun _ => false

theorem sample_start : Start (fun _ => ()) sample := by
  refine ⟨fun _ => rfl, fun r name id hid => ?_, fun r r' name name' id hid hid' => ?_,
    fun r name id hid ht => (Bool.false_ne_true ht).elim, ?_⟩
  · simp only [sample, Option.ite_none_right_eq_some, Option.some_inj] at hid
    simp [sample, ← hid.2]
  · simp only [sample, Option.ite_none_right_eq_some, Option.some_inj] at hid hid'
    exact ⟨rfl, hid.1.trans hid'.1.symm⟩
  · intro chat row worktree branch hrow hcwd hb hs hcall
    simp only [sample, Option.ite_none_right_eq_some, Option.some_inj] at hrow
    rw [← hrow.2] at hcwd hb
    obtain rfl := Option.some.inj hcwd
    obtain rfl := Option.some.inj hb
    rfl

/-- The user names the chat while the model runs. -/
def keptName : List Act :=
  [.call "chat" "fix it", .first "chat", .rename "chat" "Mine", .model "chat" (some "Theirs")]

/-- The name stays. -/
theorem titles_sample :
    (∀ s₁ s₂, Run.exec (step (fun _ => ()) fun _ => "") sample (keptName.take 3) = some s₁ →
      step (fun _ => ()) (fun _ => "") s₁ (.model "chat" (some "Theirs")) = some s₂ →
        KeepsTitles s₁ s₂) ∧
    ∀ s', Run.exec (step (fun _ => ()) fun _ => "") sample keptName = some s' → Recorded s' := by
  have hfair : Run.Guarded (step (fun _ => ()) fun _ => "") (Fair fun _ => ()) sample keptName := by
    refine Run.guarded_cons trivial fun s₁ h₁ => Run.guarded_cons trivial fun s₂ h₂ =>
      Run.guarded_cons (fun stage p hstage hp => ?_) fun s₃ h₃ =>
        Run.guarded_cons trivial fun s₄ h₄ => Run.guarded_nil s₄
    obtain rfl := Option.some.inj h₁
    obtain rfl := Option.some.inj h₂
    obtain rfl := Option.some.inj hstage
    cases hp
  constructor
  · intro s₁ s₂ hs₁ hs₂
    exact ((titles_run sample_start hfair).1 _ _ [] s₁ s₂ rfl hs₁ hs₂ rfl).1
  · exact (titles_run sample_start hfair).2

/-- The user names the chat behind the first look at its branch: the name is lost. -/
def lostName : List Act :=
  [.call "chat" "fix it", .first "chat", .model "chat" (some "Theirs"), .git "chat" true,
    .rename "chat" "Mine"]

theorem title_overwritten :
    ¬ ∀ (s : State Unit) (acts : List Act) (s₁ s₂ : State Unit), Start (fun _ => ()) s →
      Run.exec (step (fun _ => ()) fun _ => "") s acts = some s₁ →
        step (fun _ => ()) (fun _ => "") s₁ (.finish "chat") = some s₂ → KeepsTitles s₁ s₂ := by
  intro h
  have htitles : ((Run.exec (step (fun _ => ()) fun _ => "") sample lostName).map fun s =>
      ((s.chats "chat").bind (·.title),
        ((step (fun _ => ()) (fun _ => "") s (.finish "chat")).bind (·.chats "chat")).bind
          (·.title))) = some (some "Mine", some "Theirs") := by decide +kernel
  obtain ⟨s₁, hs₁, htitles⟩ := Option.map_eq_some_iff.mp htitles
  rw [Prod.mk.injEq] at htitles
  obtain ⟨row, hrow, hmine⟩ := Option.bind_eq_some_iff.mp htitles.1
  obtain ⟨row', hfinish, htheirs⟩ := Option.bind_eq_some_iff.mp htitles.2
  obtain ⟨s₂, hs₂, hrow'⟩ := Option.bind_eq_some_iff.mp hfinish
  have hnamed : row.named = true := by
    rw [ChatRow.named, hmine]
    decide +kernel
  obtain ⟨row'', hrow'', htitle⟩ := h sample lostName s₁ s₂ sample_start hs₁ hs₂ "chat" row hrow
    hnamed
  obtain rfl := Option.some.inj (hrow'.symm.trans hrow'')
  rw [hmine, htheirs] at htitle
  exact absurd htitle (by decide)

end Zeron.Chat.Title
