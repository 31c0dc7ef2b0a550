import Zeron.Lib.Run

/-!
# The diff of a checkout, at the chats that share it

The service that captures the diff of each checkout and posts it to the chats in it
(`engine/src/diff_sync.rs`), with an edge to post to. A step is one lock, one capture or one post;
reconciles run one at a time, next to the task of every entry.

* `resolveIdentity`, `group`: the checkouts of the chats;
* `Entry`, `Phase`: a checkout and its task (`entry_task`, `sync_entry`);
* `World`, `Act`, `step`: who moves, and how.
-/

namespace Zeron.Diff

/-! ## Checkouts -/

/-- `CheckoutIdentity`. -/
structure Identity where
  id : String
  root : String
  deriving DecidableEq

/-- A chat row, as far as it is read here. -/
structure Chat where
  id : String
  deviceId : String
  cwd : Option String
  deriving DecidableEq

/-- What `git` says of a directory. -/
inductive GitAnswer where
  | identity (identity : Identity)
  | failed (exists_ : Bool)
  deriving DecidableEq

/-- `resolve_identity`: the memo after it, and the identity. -/
def resolveIdentity (git : String → GitAnswer) (fresh : Bool)
    (identities : String → Option Identity) (cwd : String) :
    (String → Option Identity) × Option Identity :=
  match fresh, identities cwd with
  | false, some identity => (identities, some identity)
  | _, cached =>
    match git cwd with
    | .identity identity => (Function.update identities cwd (some identity), some identity)
    | .failed false => (Function.update identities cwd none, none)
    | .failed true => (identities, cached)

/-- What a pass of `reconcile` has resolved and grouped. -/
structure Pass where
  identities : String → Option Identity
  resolved : List (String × Option Identity)
  groups : List (Identity × List Chat)

/-- `groups.entry(identity.id).or_insert_with(..).1.push(chat)`. -/
def pushChat (groups : List (Identity × List Chat)) (identity : Identity) (chat : Chat) :
    List (Identity × List Chat) :=
  if groups.any (·.1.id = identity.id) then
    groups.map fun group =>
      if group.1.id = identity.id then (group.1, group.2 ++ [chat]) else group
  else groups ++ [(identity, [chat])]

/-- The body of the loop over the chats. -/
def Pass.add (deviceId : String) (git : String → GitAnswer) (fresh : Bool) (pass : Pass)
    (chat : Chat) : Pass :=
  if chat.deviceId ≠ deviceId then pass
  else
    match chat.cwd with
    | none => pass
    | some cwd =>
      let (pass, identity) :=
        match pass.resolved.lookup cwd with
        | some identity => (pass, identity)
        | none =>
          let (identities, identity) := resolveIdentity git fresh pass.identities cwd
          ({ pass with identities, resolved := (cwd, identity) :: pass.resolved }, identity)
      match identity with
      | none => pass
      | some identity => { pass with groups := pushChat pass.groups identity chat }

/-! ## Entries -/

/-- How far the task of an entry is. -/
inductive Phase where
  /-- In `kick_rx.recv()`. -/
  | idle
  | debouncing
  | capturing
  /-- The checksum is recorded; the group is read next. -/
  | publishing (checksum : String)
  | uploading (checksum : String) (chats : List Chat)
  deriving DecidableEq

/-- `CheckoutEntry`, with its task. -/
structure Entry where
  identity : Identity
  chats : List Chat
  checksum : Option String
  orphanedSince : Option ℕ
  /-- In the channel. -/
  kicks : ℕ
  phase : Phase
  /-- The checksum of the last capture. -/
  captured : Option String
  /-- The chats that joined after the last upload had read the group. -/
  late : List String
  deriving DecidableEq

/-- `add_entry`, with the kick of the initial snapshot. -/
def Entry.new (identity : Identity) (chats : List Chat) : Entry :=
  { identity, chats, checksum := none, orphanedSince := none, kicks := 1, phase := .idle
    captured := none, late := [] }

/-- The chats of a group that an entry does not have. -/
def Entry.joining (entry : Entry) (chats : List Chat) : List String :=
  (chats.map (·.id)).filter fun id => !(entry.chats.map (·.id)).contains id

/-- `reconcile` at an entry that is there: its chats, and a kick where one is new. -/
def Entry.regroup (entry : Entry) (chats : List Chat) : Entry :=
  let joining := entry.joining chats
  { entry with
    chats
    kicks := if joining.isEmpty then entry.kicks else entry.kicks + 1
    late := joining ++ entry.late }

/-! ## The service -/

/-- A sidecar that a chat's slot took. -/
structure Sidecar where
  key : ℕ
  chatId : String
  checksum : String
  deriving DecidableEq

structure World where
  identities : String → Option Identity
  /-- The entries by the ids of their checkouts. -/
  entries : List (String × ℕ)
  /-- Every entry ever made: the task of a removed one may still be at it. -/
  store : ℕ → Entry
  nextKey : ℕ
  /-- The groups that the reconcile under way has yet to bring in. -/
  gate : Option (List (Identity × List Chat))
  sent : List Sidecar

inductive Act where
  /-- A pass of `reconcile` up to its groups and the removals. -/
  | reconcile (chats : List Chat) (fresh : Bool) (git : String → GitAnswer) (now : ℕ)
  /-- Its next group. -/
  | regroup
  /-- A file event, a watcher that is ready, a repair tick. -/
  | kick (key : ℕ)
  /-- The task takes a kick. -/
  | recv (key : ℕ)
  | settle (key : ℕ)
  /-- `capture_diff` is done, with a checksum. -/
  | capture (key : ℕ) (result : Option String)
  | readGroup (key : ℕ)
  /-- The next chat of an upload; whether there is a token, and what the edge answers. -/
  | upload (key : ℕ) (token success : Bool)
  | finish (key : ℕ)

namespace World

variable (deviceId : String) (orphanGrace : ℕ) (w : World)

def start : World :=
  { identities := fun _ => none, entries := []
    store := fun _ => Entry.new ⟨"", ""⟩ [], nextKey := 0, gate := none, sent := [] }

def setEntry (key : ℕ) (entry : Entry) : World :=
  { w with store := Function.update w.store key entry }

/-- The entry of a checkout. -/
def entry? (id : String) : Option ℕ := w.entries.lookup id

/-- An entry that is not removed. -/
def tracked (key : ℕ) : Bool := w.entries.any (·.2 = key)

/-- Whether a checkout without chats is to be closed now. -/
def expired (now : ℕ) (entry : Entry) : Bool :=
  match entry.orphanedSince with
  | none => false
  | some since => decide (orphanGrace ≤ now - since)

/-- The mark of a pass that finds chats for a checkout, or none. -/
def mark (now : ℕ) (present : Bool) (entry : Entry) : Entry :=
  if present then { entry with orphanedSince := none }
  else { entry with orphanedSince := some (entry.orphanedSince.getD now) }

def reconcile (chats : List Chat) (fresh : Bool) (git : String → GitAnswer) (now : ℕ) : World :=
  let pass := chats.foldl (Pass.add deviceId git fresh)
    { identities := w.identities, resolved := [], groups := [] }
  let present := fun id => pass.groups.any (·.1.id = id)
  { w with
    identities := pass.identities
    entries := w.entries.filter fun e =>
      present e.1 || !expired orphanGrace now (w.store e.2)
    store := fun key =>
      match w.entries.find? (·.2 = key) with
      | some e => mark now (present e.1) (w.store key)
      | none => w.store key
    gate := some pass.groups }

/-- The next group: a new entry, or the chats of the one that is there. -/
def regroup (identity : Identity) (chats : List Chat) : World :=
  match w.entry? identity.id with
  | some key => w.setEntry key ((w.store key).regroup chats)
  | none =>
    { w with entries := w.entries ++ [(identity.id, w.nextKey)], nextKey := w.nextKey + 1 }.setEntry
      w.nextKey (Entry.new identity chats)

/-- `sync_entry` after the capture. -/
def captured (key : ℕ) (checksum : String) : World :=
  let entry := { w.store key with captured := some checksum }
  if entry.checksum = some checksum then w.setEntry key { entry with phase := .idle }
  else
    let entry := { entry with checksum := some checksum }
    -- closed while computing
    if (w.entry? entry.identity.id).isNone then w.setEntry key { entry with phase := .idle }
    else w.setEntry key { entry with phase := .publishing checksum }

def step (w : World) : Act → Option World
  | .reconcile chats fresh git now =>
    match w.gate with
    | none => some (w.reconcile deviceId orphanGrace chats fresh git now)
    | some _ => none
  | .regroup =>
    match w.gate with
    | some ((identity, chats) :: groups) =>
      some { w.regroup identity chats with gate := some groups }
    | some [] => some { w with gate := none }
    | none => none
  | .kick key => some (w.setEntry key { w.store key with kicks := (w.store key).kicks + 1 })
  | .recv key =>
    match (w.store key).phase, (w.store key).kicks with
    | .idle, kicks + 1 | .debouncing, kicks + 1 =>
      some (w.setEntry key { w.store key with kicks, phase := .debouncing })
    | _, _ => none
  | .settle key =>
    match (w.store key).phase, (w.store key).kicks with
    | .debouncing, 0 =>
      -- the task of a removed entry ends here
      if w.tracked key then some (w.setEntry key { w.store key with phase := .capturing }) else none
    | _, _ => none
  | .capture key result =>
    match (w.store key).phase with
    | .capturing =>
      match result with
      | none => some (w.setEntry key { w.store key with phase := .idle })
      | some checksum => some (w.captured key checksum)
    | _ => none
  | .readGroup key =>
    match (w.store key).phase with
    | .publishing checksum =>
      some (w.setEntry key
        { w.store key with phase := .uploading checksum (w.store key).chats, late := [] })
    | _ => none
  | .upload key token success =>
    match (w.store key).phase with
    | .uploading checksum (chat :: chats) =>
      let w := w.setEntry key { w.store key with phase := .uploading checksum chats }
      if token && success then some { w with sent := ⟨key, chat.id, checksum⟩ :: w.sent }
      else some w
    | _ => none
  | .finish key =>
    match (w.store key).phase with
    | .uploading _ [] => some (w.setEntry key { w.store key with phase := .idle })
    | _ => none

end World

end Zeron.Diff
