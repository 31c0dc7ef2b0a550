import Mathlib

/-!
# Sidebar changes and their projection

What a client asks of its sidebar (`crates/proto/src/sidebar_pins.rs`), and how a pending change is
shown on the lists before the registry has taken it.

* `SidebarPreferences`, `SidebarPinChange`, `SidebarSectionChange`: the data;
* `SidebarPinChange.project`, `projectSections`: the source;
* `SidebarPinChange.projected`: both lists of one change;
* `Agrees`: the same pins, the same sections, the same members.
-/

namespace Zeron.Sidebar

structure SidebarSection where
  id : String
  name : String
  sessionIds : List String
  collapsed : Bool
  deriving DecidableEq

structure SidebarPreferences where
  pinnedSessionIds : List String
  sections : List SidebarSection
  deriving DecidableEq

/-- Section intents share the pin queue so moves cannot overtake one another. -/
inductive SidebarSectionChange where
  | create (id name : String)
  | rename (id name : String)
  | collapse (id : String) (collapsed : Bool)
  | delete (id : String)
  | assign (sessionId : String) (sectionId : Option String)
  | import (sections : List SidebarSection)
  deriving DecidableEq

inductive SidebarPinChange where
  | pin (sessionId : String) (after before : Option String)
  | move (sessionId : String) (after before : Option String)
  | unpin (sessionId : String)
  | section (change : SidebarSectionChange)
  deriving DecidableEq

/-- `find(|s| s.id == id)`, then a write to what it found. -/
def updateFirst (id : String) (f : SidebarSection → SidebarSection) :
    List SidebarSection → List SidebarSection
  | [] => []
  | s :: sections => if s.id = id then f s :: sections else s :: updateFirst id f sections

/-- `SidebarSection` less a session. -/
def SidebarSection.without (s : SidebarSection) (sessionId : String) : SidebarSection :=
  { s with sessionIds := s.sessionIds.filter (· ≠ sessionId) }

/-- `SidebarSectionChange::project`. -/
def SidebarSectionChange.project (sections : List SidebarSection) :
    SidebarSectionChange → List SidebarSection
  | .create id name =>
    if sections.any (·.id = id) then sections
    else sections ++ [{ id, name, sessionIds := [], collapsed := false }]
  | .rename id name => updateFirst id ({ · with name }) sections
  | .collapse id collapsed => updateFirst id ({ · with collapsed }) sections
  | .delete id => sections.filter (·.id ≠ id)
  | .assign sessionId sectionId => sections.map fun s =>
    let s := s.without sessionId
    if sectionId = some s.id then
      { s with sessionIds := s.sessionIds ++ [sessionId], collapsed := false }
    else s
  -- resolved by the registry, which also knows tombstones
  | .import _ => sections

/-- The place of a pinned or moved session: before its right anchor, else after its left one, else
at the end. -/
def placeIndex (ids : List String) (after before : Option String) : ℕ :=
  ((before.bind ids.idxOf?).or ((after.bind ids.idxOf?).map (· + 1))).getD ids.length

/-- The session at its place among the others. -/
def place (ids : List String) (id : String) (after before : Option String) : List String :=
  let others := ids.filter (· ≠ id)
  others.insertIdx (placeIndex others after before) id

/-- `SidebarPinChange::project`. -/
def SidebarPinChange.project (ids : List String) : SidebarPinChange → List String
  | .section (.assign sessionId _) => ids.filter (· ≠ sessionId)
  | .section _ => ids
  | .pin id after before => place ids id after before
  -- a stale move never resurrects an unpinned item
  | .move id after before => if ids.contains id then place ids id after before else ids
  | .unpin id => ids.filter (· ≠ id)

/-- `SidebarPinChange::project_sections`. -/
def SidebarPinChange.projectSections (sections : List SidebarSection) :
    SidebarPinChange → List SidebarSection
  | .pin id _ _ => sections.map (·.without id)
  | .section change => change.project sections
  | .move _ _ _ | .unpin _ => sections

/-- The preferences with a change projected on them. -/
def SidebarPinChange.projected (change : SidebarPinChange) (prefs : SidebarPreferences) :
    SidebarPreferences :=
  { pinnedSessionIds := change.project prefs.pinnedSessionIds
    sections := change.projectSections prefs.sections }

/-- Two sections have one id and the same members. -/
def SidebarSection.Same (s s' : SidebarSection) : Prop :=
  s.id = s'.id ∧ s.sessionIds.Perm s'.sessionIds

instance (s s' : SidebarSection) : Decidable (s.Same s') :=
  inferInstanceAs (Decidable (_ ∧ _))

/-- The same pinned order, the same section order, the same memberships. -/
def Agrees (prefs prefs' : SidebarPreferences) : Prop :=
  prefs.pinnedSessionIds = prefs'.pinnedSessionIds ∧
    List.Forall₂ SidebarSection.Same prefs.sections prefs'.sections

theorem placeIndex_le (ids : List String) (after before : Option String) :
    placeIndex ids after before ≤ ids.length := by
  have hidx : ∀ {anchor : Option String} {i : ℕ}, anchor.bind ids.idxOf? = some i →
      i < ids.length := by
    intro anchor i h
    obtain ⟨a, -, ha⟩ := Option.bind_eq_some_iff.mp h
    rw [List.idxOf?_eq_some_iff] at ha
    exact ha.1
  unfold placeIndex
  cases hb : before.bind ids.idxOf? with
  | some i => exact (hidx hb).le
  | none =>
    cases ha : after.bind ids.idxOf? with
    | some i => exact hidx ha
    | none => exact le_rfl

end Zeron.Sidebar
