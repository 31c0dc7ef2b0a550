import Zeron.Preview.Catalog

/-!
# Names are unique and permanent

What was published under an id or a hostname is found there again, also after a restart
(`preview/src/catalog.rs`). The names are published from memory; after a write that failed, memory
has more than the file.

* `Has`, `Sound`: what is promised; `Saved`: at a restart the file has every name that was
  published;
* `Wf`: the names are well formed; `Le`: names are only added;
* **`names_permanent`**; `name_lost`: a write fails, the name is published by the next scan.
-/

namespace Zeron.Preview

open Run

/-! ## What is promised -/

/-- The names say what a published service is: the project and the command of a local one, the
device of another. -/
def Names.Has (h : Host) (names : Names) (e : PreviewService × String) : Prop :=
  if e.1.deviceId = h.deviceId then
    ∃ p ∈ names.projects, p.1 = e.1.projectCwd ∧ ∃ s ∈ p.2.services, s.id = e.1.id ∧
      s.fingerprint = e.2 ∧ e.1.hostname = hostname names.deviceLabel s.label
  else ∃ p ∈ names.peerLabels, p.1 = e.1.deviceId ∧ firstLabel e.1.hostname = p.2

instance (h : Host) (names : Names) : DecidablePred (names.Has h) := fun e => by
  unfold Names.Has
  infer_instance

namespace Catalog

variable (h : Host) (c : Catalog)

structure Sound : Prop where
  valid : ∀ s ∈ c.snapshot, validHostname s.hostname = true
  /-- Services of different devices never share a hostname. -/
  devices : ∀ s ∈ c.snapshot, ∀ t ∈ c.snapshot, s.hostname = t.hostname → s.deviceId = t.deviceId
  /-- Two local services never share a hostname or an id. -/
  locals : (c.snapshot.filter (·.deviceId = h.deviceId)).Pairwise fun s t =>
    s.id ≠ t.id ∧ s.hostname ≠ t.hostname
  noted : ∀ s ∈ c.snapshot, s ∈ c.published.map Prod.fst
  /-- Whatever was published is still known for what it was. -/
  kept : ∀ e ∈ c.published, c.names.Has h e
  /-- An id or a hostname of this device stands for one project and command. -/
  same : ∀ e ∈ c.published, ∀ e' ∈ c.published, e.1.deviceId = h.deviceId →
    e'.1.deviceId = h.deviceId → e.1.id = e'.1.id ∨ e.1.hostname = e'.1.hostname →
    e.1.projectCwd = e'.1.projectCwd ∧ e.2 = e'.2
  /-- A hostname stands for one device. -/
  device : ∀ e ∈ c.published, ∀ e' ∈ c.published, e.1.hostname = e'.1.hostname →
    e.1.deviceId = e'.1.deviceId

/-- A restart finds every name that was published in the file. -/
def Saved : Act → Prop
  | .reopen _ => ∀ e ∈ c.published, ∃ names ∈ c.file, names.Has h e
  | _ => True

instance (a : Act) : Decidable (c.Saved h a) := by
  cases a <;> simp only [Saved] <;> infer_instance

end Catalog

/-! ## The invariant -/

namespace Names

variable (h : Host) (names : Names)

/-- Names that are well formed, with so many ids drawn. -/
structure Wf (drawn : ℕ) : Prop where
  device : ValidLabel names.deviceLabel
  peers : ∀ p ∈ names.peerLabels, ValidLabel p.2 ∧ p.2 ≠ names.deviceLabel
  peer : ∀ p ∈ names.peerLabels, ∀ q ∈ names.peerLabels, p.1 = q.1 ∨ p.2 = q.2 → p = q
  keys : ∀ p ∈ names.projects, ∀ q ∈ names.projects, p.1 = q.1 → p = q
  projects : ∀ p ∈ names.projects, ∀ q ∈ names.projects, p.2.label = q.2.label → p.1 = q.1
  valid : ∀ p ∈ names.projects, ValidLabel p.2.label
  services : ∀ p ∈ names.projects, ∀ s ∈ p.2.services,
    ValidLabel s.label ∧ ∃ k < drawn, s.id = h.uuid k
  /-- A service goes under the label of no other project. -/
  owner : ∀ p ∈ names.projects, ∀ q ∈ names.projects, ∀ s ∈ q.2.services,
    s.label = p.2.label → q.1 = p.1
  unique : ∀ p ∈ names.projects, ∀ q ∈ names.projects, ∀ s ∈ p.2.services, ∀ t ∈ q.2.services,
    s.id = t.id ∨ s.label = t.label → p.1 = q.1 ∧ s = t

/-- Names are only added. -/
structure Le (names' : Names) : Prop where
  device : names'.deviceLabel = names.deviceLabel
  peers : ∀ p ∈ names.peerLabels, p ∈ names'.peerLabels
  services : ∀ p ∈ names.projects, ∀ s ∈ p.2.services,
    ∃ p' ∈ names'.projects, p'.1 = p.1 ∧ s ∈ p'.2.services

end Names

namespace Catalog

variable (h : Host) (c : Catalog)

structure Inv : Prop where
  wf : c.names.Wf h c.drawn
  file : ∀ names ∈ c.file, names.Wf h c.drawn
  kept : ∀ e ∈ c.published, c.names.Has h e
  snapshot : c.snapshot = c.routes.map (·.service) ++ c.remote.flatMap Prod.snd
  routes : ∀ r ∈ c.routes, r.service.deviceId = h.deviceId ∧
    (r.service, h.fingerprint r.listener) ∈ c.published
  apart : c.routes.Pairwise fun r r' => r.service.id ≠ r'.service.id
  remote : ∀ p ∈ c.remote, p.1 ≠ h.deviceId ∧ ∀ s ∈ p.2, s.deviceId = p.1 ∧
    validHostname s.hostname = true ∧ (s, "") ∈ c.published

end Catalog

/-! ## Names -/

namespace Names

variable {h : Host} {names names' : Names} {drawn : ℕ}

theorem Le.refl (names : Names) : names.Le names :=
  ⟨rfl, fun _ hp => hp, fun p hp _ hs => ⟨p, hp, rfl, hs⟩⟩

theorem Le.trans {names'' : Names} (hle : names.Le names') (hle' : names'.Le names'') :
    names.Le names'' := by
  refine ⟨hle'.device.trans hle.device, fun p hp => hle'.peers p (hle.peers p hp),
    fun p hp s hs => ?_⟩
  obtain ⟨p', hp', hkey, hs'⟩ := hle.services p hp s hs
  obtain ⟨p'', hp'', hkey', hs''⟩ := hle'.services p' hp' s hs'
  exact ⟨p'', hp'', hkey'.trans hkey, hs''⟩

/-- **What is known stays known.** -/
theorem Has.mono {e : PreviewService × String} (hhas : names.Has h e) (hle : names.Le names') :
    names'.Has h e := by
  unfold Has at hhas ⊢
  split_ifs at hhas ⊢ with hlocal
  · obtain ⟨p, hp, hcwd, s, hs, hid, hfp, hhost⟩ := hhas
    obtain ⟨p', hp', hkey, hs'⟩ := hle.services p hp s hs
    exact ⟨p', hp', hkey.trans hcwd, s, hs', hid, hfp, by rw [hle.device]; exact hhost⟩
  · obtain ⟨p, hp, hdevice, hlabel⟩ := hhas
    exact ⟨p, hle.peers p hp, hdevice, hlabel⟩

theorem Wf.mono {drawn' : ℕ} (hwf : names.Wf h drawn) (hle : drawn ≤ drawn') :
    names.Wf h drawn' := by
  refine { hwf with services := fun p hp s hs => ?_ }
  obtain ⟨hvalid, k, hk, hid⟩ := hwf.services p hp s hs
  exact ⟨hvalid, k, Nat.lt_of_lt_of_le hk hle, hid⟩

theorem project_mem {cwd : String} {project : ProjectName} (hp : names.project cwd = some project) :
    (cwd, project) ∈ names.projects := by
  obtain ⟨p, hfind, rfl⟩ := Option.map_eq_some_iff.mp hp
  have hkey : p.1 = cwd := by simpa using List.find?_some hfind
  rw [← hkey]
  exact List.mem_of_find?_eq_some hfind

theorem project_none {cwd : String} (hp : names.project cwd = none) :
    ∀ p ∈ names.projects, p.1 ≠ cwd := by
  have hfind := Option.map_eq_none_iff.mp hp
  simpa using List.find?_eq_none.mp hfind

theorem mem_used {label : Label} : label ∈ names.used ↔
    ∃ p ∈ names.projects, label = p.2.label ∨ ∃ s ∈ p.2.services, label = s.label := by
  simp only [used, List.mem_flatMap, List.mem_cons, List.mem_map, eq_comm]

/-- **A project is added**, under a label that is not used. -/
theorem Wf.addProject (hwf : names.Wf h drawn) {cwd id : String} {label : Label}
    (hcwd : ∀ p ∈ names.projects, p.1 ≠ cwd) (hlabel : ValidLabel label)
    (hfresh : label ∉ names.used) :
    (names.addProject cwd { id, label, services := [] }).Wf h drawn ∧
      names.Le (names.addProject cwd { id, label, services := [] }) := by
  have hmem : ∀ p ∈ (names.addProject cwd { id, label, services := [] }).projects,
      p ∈ names.projects ∨ p = (cwd, { id, label, services := [] }) := fun p hp => by
    simpa [Names.addProject] using hp
  have hlabels : ∀ p ∈ names.projects, p.2.label ≠ label := fun p hp he =>
    hfresh (mem_used.mpr ⟨p, hp, Or.inl he.symm⟩)
  have hservices : ∀ p ∈ names.projects, ∀ s ∈ p.2.services, s.label ≠ label := fun p hp s hs he =>
    hfresh (mem_used.mpr ⟨p, hp, Or.inr ⟨s, hs, he.symm⟩⟩)
  refine ⟨⟨hwf.device, hwf.peers, hwf.peer, fun p hp q hq he => ?_, fun p hp q hq he => ?_,
    fun p hp => ?_, fun p hp s hs => ?_, fun p hp q hq s hs he => ?_,
    fun p hp q hq s hs t ht he => ?_⟩, rfl, fun p hp => hp, fun p hp s hs => ?_⟩
  · rcases hmem p hp with hp | rfl <;> rcases hmem q hq with hq | rfl
    · exact hwf.keys p hp q hq he
    · exact absurd he (hcwd p hp)
    · exact absurd he.symm (hcwd q hq)
    · rfl
  · rcases hmem p hp with hp | rfl <;> rcases hmem q hq with hq | rfl
    · exact hwf.projects p hp q hq he
    · exact absurd he (hlabels p hp)
    · exact absurd he.symm (hlabels q hq)
    · rfl
  · rcases hmem p hp with hp | rfl
    · exact hwf.valid p hp
    · exact hlabel
  · rcases hmem p hp with hp | rfl
    · exact hwf.services p hp s hs
    · cases hs
  · rcases hmem q hq with hq | rfl
    · rcases hmem p hp with hp | rfl
      · exact hwf.owner p hp q hq s hs he
      · exact absurd he (hservices q hq s hs)
    · cases hs
  · rcases hmem p hp with hp | rfl
    · rcases hmem q hq with hq | rfl
      · exact hwf.unique p hp q hq s hs t ht he
      · cases ht
    · cases hs
  · exact ⟨p, List.mem_append_left _ hp, rfl, hs⟩

/-- **A service is added**, under an id and a label that no other has. -/
theorem Wf.addService (hwf : names.Wf h drawn) {cwd : String} (service : ServiceName)
    (hlabel : ValidLabel service.label)
    (hid : ∃ k < drawn, service.id = h.uuid k)
    (hfresh : ∀ p ∈ names.projects, ∀ s ∈ p.2.services,
      s.id ≠ service.id ∧ s.label ≠ service.label)
    (howner : ∀ p ∈ names.projects, service.label = p.2.label → p.1 = cwd) :
    (names.addService cwd service).Wf h drawn ∧ names.Le (names.addService cwd service) := by
  have hmem : ∀ q ∈ (names.addService cwd service).projects, ∃ p ∈ names.projects,
      q = (if p.1 = cwd then (p.1, { p.2 with services := p.2.services ++ [service] }) else p) :=
    fun q hq => by
      obtain ⟨p, hp, he⟩ := List.mem_map.mp hq
      exact ⟨p, hp, he.symm⟩
  have hsame : ∀ p : String × ProjectName,
      (if p.1 = cwd then (p.1, { p.2 with services := p.2.services ++ [service] }) else p).1 =
          p.1 ∧
        (if p.1 = cwd then (p.1, { p.2 with services := p.2.services ++ [service] })
          else p).2.label = p.2.label ∧
        ∀ s ∈ (if p.1 = cwd then (p.1, { p.2 with services := p.2.services ++ [service] })
          else p).2.services, s ∈ p.2.services ∨ p.1 = cwd ∧ s = service := by
    intro p
    split_ifs with hp
    · refine ⟨rfl, rfl, fun s hs => ?_⟩
      rcases List.mem_append.mp hs with hs | hs
      · exact Or.inl hs
      · exact Or.inr ⟨hp, List.mem_singleton.mp hs⟩
    · exact ⟨rfl, rfl, fun s hs => Or.inl hs⟩
  refine ⟨⟨hwf.device, hwf.peers, hwf.peer, fun q hq q' hq' he => ?_, fun q hq q' hq' he => ?_,
    fun q hq => ?_, fun q hq s hs => ?_, fun q hq q' hq' s hs he => ?_,
    fun q hq q' hq' s hs t ht he => ?_⟩, rfl, fun p hp => hp, fun p hp s hs => ?_⟩
  · obtain ⟨p, hp, rfl⟩ := hmem q hq
    obtain ⟨p', hp', rfl⟩ := hmem q' hq'
    rw [(hsame p).1, (hsame p').1] at he
    rw [hwf.keys p hp p' hp' he]
  · obtain ⟨p, hp, rfl⟩ := hmem q hq
    obtain ⟨p', hp', rfl⟩ := hmem q' hq'
    rw [(hsame p).2.1, (hsame p').2.1] at he
    rw [(hsame p).1, (hsame p').1]
    exact hwf.projects p hp p' hp' he
  · obtain ⟨p, hp, rfl⟩ := hmem q hq
    rw [(hsame p).2.1]
    exact hwf.valid p hp
  · obtain ⟨p, hp, rfl⟩ := hmem q hq
    rcases (hsame p).2.2 s hs with hs | ⟨-, rfl⟩
    · exact hwf.services p hp s hs
    · exact ⟨hlabel, hid⟩
  · obtain ⟨p, hp, rfl⟩ := hmem q hq
    obtain ⟨p', hp', rfl⟩ := hmem q' hq'
    rw [(hsame p).2.1] at he
    rw [(hsame p).1, (hsame p').1]
    rcases (hsame p').2.2 s hs with hs | ⟨hcwd, rfl⟩
    · exact hwf.owner p hp p' hp' s hs he
    · rw [hcwd, howner p hp he]
  · obtain ⟨p, hp, rfl⟩ := hmem q hq
    obtain ⟨p', hp', rfl⟩ := hmem q' hq'
    rw [(hsame p).1, (hsame p').1]
    rcases (hsame p).2.2 s hs with hold | ⟨hcwd, hnew⟩ <;>
      rcases (hsame p').2.2 t ht with hold' | ⟨hcwd', hnew'⟩
    · exact hwf.unique p hp p' hp' s hold t hold' he
    · rw [hnew'] at he
      exact absurd he (not_or.mpr (hfresh p hp s hold))
    · rw [hnew] at he
      have hno := hfresh p' hp' t hold'
      exact absurd he (not_or.mpr ⟨Ne.symm hno.1, Ne.symm hno.2⟩)
    · exact ⟨hcwd.trans hcwd'.symm, hnew.trans hnew'.symm⟩
  · refine ⟨_, List.mem_map.mpr ⟨p, hp, rfl⟩, (hsame p).1, ?_⟩
    split_ifs
    · exact List.mem_append_left _ hs
    · exact hs

end Names

/-! ## A scan -/

variable {h : Host}

/-- What a scan keeps: the names grow, and what is routed is known. -/
structure Scan.Inv (h : Host) (s : Scan) (names : Names) (drawn : ℕ) : Prop where
  wf : s.names.Wf h s.drawn
  le : names.Le s.names
  drawn : drawn ≤ s.drawn
  used : ∀ label ∈ s.names.used, label ∈ s.used
  next : ∀ r ∈ s.next, r.service.deviceId = h.deviceId ∧
    s.names.Has h (r.service, h.fingerprint r.listener)
  apart : s.next.Pairwise fun r r' => r.service.id ≠ r'.service.id

namespace Scan

variable {s s' : Scan} {names : Names} {drawn : ℕ}

theorem Inv.ensureProject (hi : s.Inv h names drawn) {cwd : String}
    (hs : s.ensureProject h cwd = some s') : s'.Inv h names drawn ∧ s'.next = s.next := by
  unfold Scan.ensureProject at hs
  cases hproject : s.names.project cwd with
  | some project =>
    rw [hproject] at hs
    cases Option.some_inj.mp hs
    exact ⟨hi, rfl⟩
  | none =>
    rw [hproject] at hs
    obtain ⟨label, hlabel, rfl⟩ := Option.map_eq_some_iff.mp hs
    obtain ⟨hvalid, hused⟩ := allocate_spec (validLabel_slug _).stem hlabel
    obtain ⟨hwf, hle⟩ := hi.wf.addProject (Names.project_none hproject)
      hvalid fun hin => hused (hi.used label hin)
    refine ⟨⟨hwf.mono (Nat.le_succ _), hi.le.trans hle, Nat.le_succ_of_le hi.drawn,
      fun l hl => ?_, fun r hr => ⟨(hi.next r hr).1, (hi.next r hr).2.mono hle⟩, hi.apart⟩, rfl⟩
    obtain ⟨p, hp, hcase⟩ := Names.mem_used.mp hl
    rcases List.mem_append.mp hp with hp | hp
    · exact List.mem_cons_of_mem _ (hi.used l (Names.mem_used.mpr ⟨p, hp, hcase⟩))
    · cases List.mem_singleton.mp hp
      rcases hcase with rfl | ⟨t, ht, -⟩
      · exact List.mem_cons_self
      · cases ht

/-- The label of a new service is used by none, and is no other project's. -/
theorem Inv.newLabel (hi : s.Inv h names drawn) {cwd role : String} {project : ProjectName}
    (hproject : s.names.project cwd = some project) {label : Label}
    (hlabel : project.newLabel role s.used = some label) :
    ValidLabel label ∧ (∀ p ∈ s.names.projects, ∀ t ∈ p.2.services, t.label ≠ label) ∧
      ∀ p ∈ s.names.projects, label = p.2.label → p.1 = cwd := by
  have hmem := Names.project_mem hproject
  have hvalid := hi.wf.valid _ hmem
  unfold ProjectName.newLabel at hlabel
  split_ifs at hlabel with hfirst
  · cases Option.some_inj.mp hlabel
    refine ⟨hvalid, fun p hp t ht he => ?_, fun p hp he => ?_⟩
    · have hkey := hi.wf.owner _ hmem p hp t ht he
      have hsame := hi.wf.keys p hp _ hmem hkey
      rw [hsame, hfirst] at ht
      cases ht
    · exact hi.wf.projects p hp _ hmem he.symm
  · have hstem : Stem (project.label ++ '-' :: slug role.toList) := by
      refine ⟨List.append_ne_nil_of_left_ne_nil hvalid.nonempty _, ?_, fun c hc => ?_⟩
      · obtain ⟨x, xs, hcons⟩ := List.exists_cons_of_ne_nil hvalid.nonempty
        have hx := hvalid.first
        rw [hcons] at hx ⊢
        exact hx
      · rcases List.mem_append.mp hc with hc | hc
        · exact hvalid.chars c hc
        · rcases List.mem_cons.mp hc with rfl | hc
          · rfl
          · exact (validLabel_slug _).chars c hc
    obtain ⟨hnew, hused⟩ := allocate_spec hstem hlabel
    refine ⟨hnew, fun p hp t ht he => ?_, fun p hp he => ?_⟩
    · exact hused (hi.used _ (Names.mem_used.mpr ⟨p, hp, Or.inr ⟨t, ht, he.symm⟩⟩))
    · exact absurd (hi.used _ (Names.mem_used.mpr ⟨p, hp, Or.inl he⟩)) hused

theorem existing_spec {project : ProjectName} {fingerprint : String} {previous : Option String}
    {next : List LocalRoute} {service : ServiceName}
    (hs : project.existing fingerprint previous next = some service) :
    service ∈ project.services ∧ service.fingerprint = fingerprint ∧
      ∀ r ∈ next, r.service.id ≠ service.id := by
  unfold ProjectName.existing at hs
  have hfree : service ∈ project.services.filter fun s =>
      s.fingerprint = fingerprint ∧ ∀ r ∈ next, r.service.id ≠ s.id := by
    rw [Option.orElse_eq_orElse, Option.orElse_eq_or] at hs
    rcases Option.or_eq_some_iff.mp hs with hs | ⟨-, hs⟩
    · exact List.mem_of_find?_eq_some hs
    · exact List.mem_of_head? hs
  simpa [List.mem_filter] using hfree

theorem Inv.next_id (hi : s.Inv h names drawn) {r : LocalRoute} (hr : r ∈ s.next) :
    ∃ k < s.drawn, r.service.id = h.uuid k := by
  obtain ⟨hlocal, hhas⟩ := hi.next r hr
  unfold Names.Has at hhas
  rw [if_pos hlocal] at hhas
  obtain ⟨p, hp, -, t, ht, hid, -⟩ := hhas
  obtain ⟨-, k, hk, huuid⟩ := hi.wf.services p hp t ht
  exact ⟨k, hk, hid.symm.trans huuid⟩

/-- **The service of a listener**: it is in the names, with its command, and not yet routed. -/
theorem Inv.ensureService (hu : Function.Injective h.uuid) (hi : s.Inv h names drawn)
    {cwd : String} {project : ProjectName} (hproject : s.names.project cwd = some project)
    {previous : Option String} {l : Listener} {service : ServiceName}
    (hs : s.ensureService h cwd project previous l = some (s', service)) :
    s'.Inv h names drawn ∧ s'.next = s.next ∧ service.fingerprint = h.fingerprint l ∧
      (∃ p ∈ s'.names.projects, p.1 = cwd ∧ service ∈ p.2.services) ∧
      ∀ r ∈ s.next, r.service.id ≠ service.id := by
  have hmem := Names.project_mem hproject
  unfold Scan.ensureService at hs
  cases hexisting : project.existing (h.fingerprint l) previous s.next with
  | some found =>
    rw [hexisting] at hs
    cases Option.some_inj.mp hs
    obtain ⟨hin, hfp, hfree⟩ := existing_spec hexisting
    exact ⟨hi, rfl, hfp, ⟨_, hmem, rfl, hin⟩, hfree⟩
  | none =>
    rw [hexisting] at hs
    obtain ⟨label, hlabel, he⟩ := Option.map_eq_some_iff.mp hs
    cases he
    obtain ⟨hvalid, hlabels, howner⟩ := hi.newLabel hproject hlabel
    have hids : ∀ k < s.drawn, h.uuid k ≠ h.uuid s.drawn := fun k hk he =>
      absurd (hu he) (Nat.ne_of_lt hk)
    have hfresh : ∀ p ∈ s.names.projects, ∀ t ∈ p.2.services,
        t.id ≠ h.uuid s.drawn ∧ t.label ≠ label := by
      refine fun p hp t ht => ⟨fun he => ?_, hlabels p hp t ht⟩
      obtain ⟨-, k, hk, huuid⟩ := hi.wf.services p hp t ht
      exact hids k hk (huuid.symm.trans he)
    obtain ⟨hwf, hle⟩ := Names.Wf.addService (hi.wf.mono (Nat.le_succ s.drawn))
      { id := h.uuid s.drawn, fingerprint := h.fingerprint l, label } hvalid
      ⟨s.drawn, Nat.lt_succ_self _, rfl⟩ hfresh howner
    refine ⟨⟨hwf, hi.le.trans hle, Nat.le_succ_of_le hi.drawn, fun l' hl' => ?_,
      fun r hr => ⟨(hi.next r hr).1, (hi.next r hr).2.mono hle⟩, hi.apart⟩, rfl, rfl, ?_,
      fun r hr he => ?_⟩
    · obtain ⟨q, hq, hcase⟩ := Names.mem_used.mp hl'
      obtain ⟨p, hp, rfl⟩ := List.mem_map.mp hq
      have hold : ∀ x ∈ s.names.used, x ∈ label :: s.used := fun x hx =>
        List.mem_cons_of_mem _ (hi.used x hx)
      split_ifs at hcase
      · rcases hcase with rfl | ⟨t, ht, rfl⟩
        · exact hold _ (Names.mem_used.mpr ⟨p, hp, Or.inl rfl⟩)
        · rcases List.mem_append.mp ht with ht | ht
          · exact hold _ (Names.mem_used.mpr ⟨p, hp, Or.inr ⟨t, ht, rfl⟩⟩)
          · rw [List.mem_singleton.mp ht]
            exact List.mem_cons_self
      · exact hold _ (Names.mem_used.mpr ⟨p, hp, hcase⟩)
    · refine ⟨_, List.mem_map.mpr ⟨_, hmem, rfl⟩, ?_⟩
      rw [if_pos rfl]
      exact ⟨rfl, List.mem_append_right _ (List.mem_singleton_self _)⟩
    · obtain ⟨k, hk, hid⟩ := hi.next_id hr
      exact hids k hk (hid.symm.trans he)

/-- **A listener.** -/
theorem Inv.observe (hu : Function.Injective h.uuid) (hi : s.Inv h names drawn)
    {routes : List LocalRoute} {cwd : String} {l : Listener}
    (hs : s.observe h routes cwd l = some s') : s'.Inv h names drawn := by
  unfold Scan.observe at hs
  split_ifs at hs with hseen
  · cases Option.some_inj.mp hs
    exact hi
  · obtain ⟨s₁, hs₁, hs⟩ := Option.bind_eq_some_iff.mp hs
    obtain ⟨project, hproject, hs⟩ := Option.bind_eq_some_iff.mp hs
    obtain ⟨⟨s₂, service⟩, hs₂, hs⟩ := Option.bind_eq_some_iff.mp hs
    cases Option.some_inj.mp hs
    have hset : ({ s with seen := (cwd, l.port) :: s.seen } : Scan).Inv h names drawn :=
      ⟨hi.wf, hi.le, hi.drawn, hi.used, hi.next, hi.apart⟩
    obtain ⟨hi₁, -⟩ := hset.ensureProject hs₁
    obtain ⟨hi₂, hnext, hfp, ⟨p, hp, hcwd, hin⟩, hfree⟩ := hi₁.ensureService hu hproject hs₂
    refine ⟨hi₂.wf, hi₂.le, hi₂.drawn, hi₂.used, fun r hr => ?_, ?_⟩
    · rcases List.mem_append.mp hr with hr | hr
      · exact hi₂.next r hr
      · rw [List.mem_singleton.mp hr]
        refine ⟨rfl, ?_⟩
        unfold Names.Has
        rw [if_pos rfl]
        exact ⟨p, hp, hcwd, service, hin, rfl, hfp, rfl⟩
    · refine List.pairwise_append.mpr
        ⟨hi₂.apart, List.pairwise_singleton _ _, fun r hr r' hr' => ?_⟩
      rw [List.mem_singleton.mp hr']
      exact hfree r (hnext ▸ hr)

theorem Inv.observeAll (hu : Function.Injective h.uuid) {routes : List LocalRoute}
    {observations : List (String × Listener)} (hi : s.Inv h names drawn)
    (hs : s.observeAll h routes observations = some s') : s'.Inv h names drawn := by
  induction observations generalizing s with
  | nil =>
    cases Option.some_inj.mp hs
    exact hi
  | cons head rest ih =>
    obtain ⟨s₁, hs₁, hs⟩ := Option.bind_eq_some_iff.mp hs
    exact ih (hi.observe hu hs₁) hs

end Scan

/-! ## The catalog -/

namespace Catalog

variable {c c' : Catalog}

/-- What is published now is known: the names have it. -/
theorem Inv.publish {names : Names} {drawn : ℕ} {file : Option Names}
    {routes : List LocalRoute} {remote : List (String × List PreviewService)}
    (hwf : names.Wf h drawn) (hfile : ∀ n ∈ file, n.Wf h drawn)
    {published : List (PreviewService × String)} (hkept : ∀ e ∈ published, names.Has h e)
    (hroutes : ∀ r ∈ routes, r.service.deviceId = h.deviceId ∧
      names.Has h (r.service, h.fingerprint r.listener))
    (hapart : routes.Pairwise fun r r' => r.service.id ≠ r'.service.id)
    (hremote : ∀ p ∈ remote, p.1 ≠ h.deviceId ∧ ∀ s ∈ p.2, s.deviceId = p.1 ∧
      validHostname s.hostname = true ∧ names.Has h (s, "")) (snapshot : List PreviewService) :
    (Catalog.publish h { file, names, routes, remote, snapshot, drawn, published }).Inv h := by
  refine ⟨hwf, hfile, fun e he => ?_, rfl, fun r hr => ⟨(hroutes r hr).1, ?_⟩, hapart,
    fun p hp => ⟨(hremote p hp).1, fun s hs => ?_⟩⟩
  · rcases List.mem_append.mp he with he | he
    · rcases List.mem_append.mp he with he | he
      · exact hkept e he
      · obtain ⟨r, hr, rfl⟩ := List.mem_map.mp he
        exact (hroutes r hr).2
    · obtain ⟨s, hs, rfl⟩ := List.mem_map.mp he
      obtain ⟨p, hp, hs⟩ := List.mem_flatMap.mp hs
      exact ((hremote p hp).2 s hs).2.2
  · exact List.mem_append_left _ (List.mem_append_right _ (List.mem_map.mpr ⟨r, hr, rfl⟩))
  · obtain ⟨hdevice, hvalid, -⟩ := (hremote p hp).2 s hs
    refine ⟨hdevice, hvalid, List.mem_append_right _ (List.mem_map.mpr ⟨s, ?_, rfl⟩)⟩
    exact List.mem_flatMap.mpr ⟨p, hp, hs⟩

theorem Inv.routes_has (hi : c.Inv h) : ∀ r ∈ c.routes, r.service.deviceId = h.deviceId ∧
    c.names.Has h (r.service, h.fingerprint r.listener) := fun r hr =>
  ⟨(hi.routes r hr).1, hi.kept _ (hi.routes r hr).2⟩

theorem Inv.remote_has (hi : c.Inv h) : ∀ p ∈ c.remote, p.1 ≠ h.deviceId ∧ ∀ s ∈ p.2,
    s.deviceId = p.1 ∧ validHostname s.hostname = true ∧ c.names.Has h (s, "") := fun p hp =>
  ⟨(hi.remote p hp).1, fun s hs =>
    ⟨((hi.remote p hp).2 s hs).1, ((hi.remote p hp).2 s hs).2.1,
      hi.kept _ ((hi.remote p hp).2 s hs).2.2⟩⟩

theorem Inv.grow (hi : c.Inv h) {names : Names} {drawn : ℕ} (hwf : names.Wf h drawn)
    (hle : c.names.Le names) (hdrawn : c.drawn ≤ drawn) :
    ({ c with names, drawn } : Catalog).Inv h :=
  ⟨hwf, fun n hn => (hi.file n hn).mono hdrawn, fun e he => (hi.kept e he).mono hle, hi.snapshot,
    hi.routes, hi.apart, hi.remote⟩

/-- **`replace_local`.** -/
theorem Inv.replaceLocal (hu : Function.Injective h.uuid) (hi : c.Inv h)
    {observations : List (String × Listener)} {ok : Bool}
    (hs : c.replaceLocal h observations ok = some c') : c'.Inv h := by
  obtain ⟨scan, hscan, rfl⟩ := Option.map_eq_some_iff.mp hs
  have hscan : scan.Inv h c.names c.drawn := by
    refine Scan.Inv.observeAll hu ⟨hi.wf, Names.Le.refl _, Nat.le_refl _, fun l hl => hl, ?_, ?_⟩
      hscan
    · exact fun r hr => by cases hr
    · exact List.Pairwise.nil
  have hgrow := hi.grow hscan.wf hscan.le hscan.drawn
  dsimp only
  split_ifs with hfail hchanged
  · exact hgrow
  · have hok : ok = true := by
      cases ok with
      | true => rfl
      | false => exact absurd ⟨hchanged, rfl⟩ hfail
    rw [hok]
    exact Inv.publish hscan.wf (fun n hn => Option.some_inj.mp hn ▸ hscan.wf) hgrow.kept hscan.next
      hscan.apart hgrow.remote_has _
  · exact Inv.publish hscan.wf hgrow.file hgrow.kept hscan.next hscan.apart hgrow.remote_has _

theorem relabel_has {names : Names} {drawn : ℕ} (hwf : names.Wf h drawn) {device : String}
    (hdevice : device ≠ h.deviceId) {label : Label} (hlabel : (device, label) ∈ names.peerLabels)
    {services : List PreviewService} (hok : acceptable h device services = true) :
    ∀ s ∈ relabel label services, s.deviceId = device ∧ validHostname s.hostname = true ∧
      names.Has h (s, "") := by
  intro s hs
  obtain ⟨t, ht, rfl⟩ := List.mem_map.mp hs
  simp only [acceptable, Bool.and_eq_true, List.all_eq_true, decide_eq_true_eq] at hok
  obtain ⟨⟨⟨⟨⟨hid, hhost⟩, -⟩, -⟩, -⟩, -⟩ := hok.2 t ht
  obtain ⟨first, service, hfirst, hservice, hsplit⟩ := validHostname_elim hhost
  have hvalid := (hwf.peers _ hlabel).1
  have hnew : label ++ '.' :: afterFirst t.hostname = hostname label service := by
    rw [hsplit, afterFirst_hostname hfirst.no_dot]
    rfl
  refine ⟨hid, ?_, ?_⟩
  · dsimp only
    rw [hnew]
    exact validHostname_hostname hvalid hservice
  · unfold Names.Has
    rw [if_neg (by dsimp only; rw [hid]; exact hdevice)]
    refine ⟨(device, label), hlabel, hid.symm, ?_⟩
    dsimp only
    rw [hnew, firstLabel_hostname hvalid.no_dot]

theorem insertRemote_has {names : Names} {remote : List (String × List PreviewService)}
    {device : String} {services : List PreviewService} (hdevice : device ≠ h.deviceId)
    (hremote : ∀ p ∈ remote, p.1 ≠ h.deviceId ∧ ∀ s ∈ p.2, s.deviceId = p.1 ∧
      validHostname s.hostname = true ∧ names.Has h (s, ""))
    (hnew : ∀ s ∈ services, s.deviceId = device ∧ validHostname s.hostname = true ∧
      names.Has h (s, "")) :
    ∀ p ∈ remote.filter (·.1 ≠ device) ++ [(device, services)], p.1 ≠ h.deviceId ∧
      ∀ s ∈ p.2, s.deviceId = p.1 ∧ validHostname s.hostname = true ∧ names.Has h (s, "") := by
  intro p hp
  rcases List.mem_append.mp hp with hp | hp
  · exact hremote p (List.mem_filter.mp hp).1
  · rw [List.mem_singleton.mp hp]
    exact ⟨hdevice, hnew⟩

theorem Inv.addPeer (hi : c.Inv h) {device : String} (hdevice : c.names.peerLabel device = none)
    {label : Label} (hlabel : ValidLabel label)
    (hfresh : label ∉ c.names.peerLabels.map Prod.snd ++ [c.names.deviceLabel]) :
    ({ c.names with peerLabels := c.names.peerLabels ++ [(device, label)] } : Names).Wf h c.drawn ∧
      c.names.Le { c.names with peerLabels := c.names.peerLabels ++ [(device, label)] } := by
  have hother : ∀ p ∈ c.names.peerLabels, p.1 ≠ device ∧ p.2 ≠ label := fun p hp => by
    refine ⟨?_, fun he => hfresh (List.mem_append_left _ (List.mem_map.mpr ⟨p, hp, he⟩))⟩
    have hfind := Option.map_eq_none_iff.mp hdevice
    simpa using List.find?_eq_none.mp hfind p hp
  have hself : label ≠ c.names.deviceLabel := fun he =>
    hfresh (List.mem_append_right _ (List.mem_singleton.mpr he))
  refine ⟨{ hi.wf with peers := fun p hp => ?_, peer := fun p hp q hq he => ?_ }, rfl,
    fun p hp => List.mem_append_left _ hp, fun p hp s hs => ⟨p, hp, rfl, hs⟩⟩
  · rcases List.mem_append.mp hp with hp | hp
    · exact hi.wf.peers p hp
    · rw [List.mem_singleton.mp hp]
      exact ⟨hlabel, hself⟩
  · rcases List.mem_append.mp hp with hp | hp <;> rcases List.mem_append.mp hq with hq | hq
    · exact hi.wf.peer p hp q hq he
    · rw [List.mem_singleton.mp hq] at he
      exact absurd he (not_or.mpr (hother p hp))
    · rw [List.mem_singleton.mp hp] at he
      have hno := hother q hq
      exact absurd he (not_or.mpr ⟨Ne.symm hno.1, Ne.symm hno.2⟩)
    · rw [List.mem_singleton.mp hp, List.mem_singleton.mp hq]

/-- **`set_remote`.** -/
theorem Inv.setRemote (hi : c.Inv h) {device : String} {services : List PreviewService} {ok : Bool}
    (hs : c.setRemote h device services ok = some c') : c'.Inv h := by
  unfold Catalog.setRemote at hs
  by_cases hrefused : acceptable h device services = false ∨ ¬ (services.map (·.id)).Nodup
  · rw [if_pos hrefused] at hs
    cases Option.some_inj.mp hs
    exact hi
  · rw [if_neg hrefused] at hs
    have hok : acceptable h device services = true := by
      cases hacc : acceptable h device services with
      | true => rfl
      | false => exact absurd (Or.inl hacc) hrefused
    have hdevice : device ≠ h.deviceId := by
      simp only [acceptable, Bool.and_eq_true, decide_eq_true_eq] at hok
      exact hok.1.1
    cases services with
    | nil =>
      cases Option.some_inj.mp hs
      have hnone : ∀ s ∈ ([] : List PreviewService), s.deviceId = device ∧
          validHostname s.hostname = true ∧ c.names.Has h (s, "") := fun s hs => by cases hs
      exact Inv.publish hi.wf hi.file hi.kept hi.routes_has hi.apart
        (insertRemote_has hdevice hi.remote_has hnone) _
    | cons first rest =>
      cases hpeer : c.names.peerLabel device with
      | some label =>
        rw [hpeer] at hs
        cases Option.some_inj.mp hs
        obtain ⟨p, hfind, rfl⟩ := Option.map_eq_some_iff.mp hpeer
        have hkey : p.1 = device := by simpa using List.find?_some hfind
        have hin : (device, p.2) ∈ c.names.peerLabels := hkey ▸ List.mem_of_find?_eq_some hfind
        exact Inv.publish hi.wf hi.file hi.kept hi.routes_has hi.apart
          (insertRemote_has hdevice hi.remote_has (relabel_has hi.wf hdevice hin hok)) _
      | none =>
        rw [hpeer] at hs
        obtain ⟨label, hlabel, rfl⟩ := Option.map_eq_some_iff.mp hs
        have hhost : validHostname first.hostname = true := by
          simp only [acceptable, Bool.and_eq_true, List.all_eq_true, decide_eq_true_eq] at hok
          exact (hok.2 first List.mem_cons_self).1.1.1.1.2
        obtain ⟨stem, service, hstem, -, hsplit⟩ := validHostname_elim hhost
        rw [hsplit, firstLabel_hostname hstem.no_dot] at hlabel
        obtain ⟨hvalid, hfresh⟩ := allocate_spec hstem.stem hlabel
        obtain ⟨hwf, hle⟩ := hi.addPeer hpeer hvalid hfresh
        have hgrow := hi.grow hwf hle (Nat.le_refl _)
        dsimp only
        split_ifs with hfail
        · exact hgrow
        · have hwritten : ok = true := by simpa using hfail
          rw [hwritten]
          have hin : (device, label) ∈ c.names.peerLabels ++ [(device, label)] :=
            List.mem_append_right _ (List.mem_singleton_self _)
          exact Inv.publish hwf (fun n hn => Option.some_inj.mp hn ▸ hwf) hgrow.kept
            hgrow.routes_has hi.apart (insertRemote_has hdevice hgrow.remote_has
              (relabel_has hwf hdevice hin hok)) _

/-- **`remove_remote`, `clear_remote`.** -/
theorem Inv.fewer (hi : c.Inv h) {remote : List (String × List PreviewService)}
    (hsub : ∀ p ∈ remote, p ∈ c.remote) : (({ c with remote } : Catalog).publish h).Inv h :=
  Inv.publish hi.wf hi.file hi.kept hi.routes_has hi.apart
    (fun p hp => hi.remote_has p (hsub p hp)) _

theorem wf_fresh (deviceName : String) (drawn : ℕ) :
    ({ deviceLabel := slug deviceName.toList, peerLabels := [], projects := [] } : Names).Wf h
      drawn where
  device := validLabel_slug _
  peers _ hp := by cases hp
  peer _ hp := by cases hp
  keys _ hp := by cases hp
  projects _ hp := by cases hp
  valid _ hp := by cases hp
  services _ hp := by cases hp
  owner _ hp := by cases hp
  unique _ hp := by cases hp

/-- **A restart** goes on with the names of the file. -/
theorem Inv.reopen (hi : c.Inv h) {deviceName : String} (hsaved : c.Saved h (.reopen deviceName)) :
    (c.reopen deviceName).Inv h := by
  have hnames : (c.openNames deviceName).Wf h c.drawn ∧
      ∀ e ∈ c.published, (c.openNames deviceName).Has h e := by
    unfold Catalog.openNames
    cases hfile : c.file with
    | none =>
      refine ⟨wf_fresh deviceName c.drawn, fun e he => ?_⟩
      obtain ⟨n, hn, -⟩ := hsaved e he
      rw [hfile] at hn
      cases hn
    | some names =>
      have hwf := hi.file names hfile
      simp only [Option.getD_some]
      rw [if_neg hwf.device.nonempty]
      refine ⟨hwf, fun e he => ?_⟩
      obtain ⟨n, hn, hhas⟩ := hsaved e he
      rw [hfile] at hn
      cases Option.some_inj.mp hn
      exact hhas
  exact ⟨hnames.1, hi.file, hnames.2, rfl, (fun r hr => by cases hr), List.Pairwise.nil,
    (fun p hp => by cases hp)⟩

/-! ## Runs -/

theorem inv_step (hu : Function.Injective h.uuid) (hi : c.Inv h) {a : Act} (hsaved : c.Saved h a)
    (hs : c.step h a = some c') : c'.Inv h := by
  cases a with
  | replaceLocal observations ok => exact hi.replaceLocal hu hs
  | setRemote device services ok => exact hi.setRemote hs
  | removeRemote device =>
    cases Option.some_inj.mp hs
    exact hi.fewer fun p hp => (List.mem_filter.mp hp).1
  | clearRemote =>
    cases Option.some_inj.mp hs
    exact hi.fewer fun p hp => by cases hp
  | reopen deviceName =>
    cases Option.some_inj.mp hs
    exact hi.reopen hsaved

theorem inv_start (deviceName : String) : (start deviceName).Inv h :=
  ⟨wf_fresh deviceName 0, (fun _ hn => by cases hn), (fun _ he => by cases he), rfl,
    (fun _ hr => by cases hr), List.Pairwise.nil, (fun _ hp => by cases hp)⟩

/-! ## What follows -/

theorem has_local {names : Names} {e : PreviewService × String} (hhas : names.Has h e)
    (hlocal : e.1.deviceId = h.deviceId) :
    ∃ p ∈ names.projects, p.1 = e.1.projectCwd ∧ ∃ s ∈ p.2.services, s.id = e.1.id ∧
      s.fingerprint = e.2 ∧ e.1.hostname = hostname names.deviceLabel s.label := by
  unfold Names.Has at hhas
  rwa [if_pos hlocal] at hhas

theorem has_remote {names : Names} {e : PreviewService × String} (hhas : names.Has h e)
    (hremote : e.1.deviceId ≠ h.deviceId) :
    ∃ p ∈ names.peerLabels, p.1 = e.1.deviceId ∧ firstLabel e.1.hostname = p.2 := by
  unfold Names.Has at hhas
  rwa [if_neg hremote] at hhas

/-- **One hostname, one device.** -/
theorem device_eq {names : Names} {drawn : ℕ} (hwf : names.Wf h drawn)
    {e e' : PreviewService × String} (he : names.Has h e) (he' : names.Has h e')
    (hhost : e.1.hostname = e'.1.hostname) : e.1.deviceId = e'.1.deviceId := by
  have hfirst : ∀ {e : PreviewService × String}, names.Has h e → e.1.deviceId = h.deviceId →
      firstLabel e.1.hostname = names.deviceLabel := by
    intro e he hlocal
    obtain ⟨p, hp, -, s, hs, -, -, hname⟩ := has_local he hlocal
    rw [hname, firstLabel_hostname hwf.device.no_dot]
  by_cases hlocal : e.1.deviceId = h.deviceId <;> by_cases hlocal' : e'.1.deviceId = h.deviceId
  · rw [hlocal, hlocal']
  · obtain ⟨p, hp, -, hlabel⟩ := has_remote he' hlocal'
    rw [← hhost, hfirst he hlocal] at hlabel
    exact absurd hlabel.symm (hwf.peers p hp).2
  · obtain ⟨p, hp, -, hlabel⟩ := has_remote he hlocal
    rw [hhost, hfirst he' hlocal'] at hlabel
    exact absurd hlabel.symm (hwf.peers p hp).2
  · obtain ⟨p, hp, hdevice, hlabel⟩ := has_remote he hlocal
    obtain ⟨q, hq, hdevice', hlabel'⟩ := has_remote he' hlocal'
    rw [hhost] at hlabel
    have hpq := hwf.peer p hp q hq (Or.inr (hlabel.symm.trans hlabel'))
    rw [← hdevice, ← hdevice', hpq]

/-- **One id or hostname of this device, one project and command**; the ids of two are not one. -/
theorem local_eq {names : Names} {drawn : ℕ} (hwf : names.Wf h drawn)
    {e e' : PreviewService × String} (he : names.Has h e) (he' : names.Has h e')
    (hlocal : e.1.deviceId = h.deviceId) (hlocal' : e'.1.deviceId = h.deviceId)
    (hname : e.1.id = e'.1.id ∨ e.1.hostname = e'.1.hostname) :
    e.1.projectCwd = e'.1.projectCwd ∧ e.2 = e'.2 ∧ e.1.id = e'.1.id := by
  obtain ⟨p, hp, hcwd, s, hs, hid, hfp, hhost⟩ := has_local he hlocal
  obtain ⟨q, hq, hcwd', t, ht, hid', hfp', hhost'⟩ := has_local he' hlocal'
  have hst : s.id = t.id ∨ s.label = t.label := by
    rcases hname with hname | hname
    · exact Or.inl (hid.trans (hname.trans hid'.symm))
    · rw [hhost, hhost'] at hname
      exact Or.inr (hostname_inj hwf.device.no_dot hwf.device.no_dot
        (hwf.services p hp s hs).1.no_dot (hwf.services q hq t ht).1.no_dot hname).2
  obtain ⟨hkey, hst⟩ := hwf.unique p hp q hq s hs t ht hst
  exact ⟨hcwd.symm.trans (hkey.trans hcwd'), by rw [← hfp, ← hfp', hst],
    by rw [← hid, ← hid', hst]⟩

theorem Inv.mem_snapshot (hi : c.Inv h) {s : PreviewService} (hs : s ∈ c.snapshot) :
    (∃ r ∈ c.routes, s = r.service) ∨ ∃ p ∈ c.remote, s ∈ p.2 := by
  rw [hi.snapshot] at hs
  rcases List.mem_append.mp hs with hs | hs
  · obtain ⟨r, hr, rfl⟩ := List.mem_map.mp hs
    exact Or.inl ⟨r, hr, rfl⟩
  · obtain ⟨p, hp, hs⟩ := List.mem_flatMap.mp hs
    exact Or.inr ⟨p, hp, hs⟩

theorem Inv.noted (hi : c.Inv h) {s : PreviewService} (hs : s ∈ c.snapshot) :
    ∃ e ∈ c.published, e.1 = s := by
  rcases hi.mem_snapshot hs with ⟨r, hr, rfl⟩ | ⟨p, hp, hin⟩
  · exact ⟨_, (hi.routes r hr).2, rfl⟩
  · exact ⟨_, ((hi.remote p hp).2 s hin).2.2, rfl⟩

theorem Inv.sound (hi : c.Inv h) : c.Sound h where
  valid s hs := by
    rcases hi.mem_snapshot hs with ⟨r, hr, rfl⟩ | ⟨p, hp, hin⟩
    · obtain ⟨hlocal, hpub⟩ := hi.routes r hr
      obtain ⟨p, hp, -, t, ht, -, -, hhost⟩ := has_local (hi.kept _ hpub) hlocal
      rw [show r.service.hostname = _ from hhost]
      exact validHostname_hostname hi.wf.device (hi.wf.services p hp t ht).1
    · exact ((hi.remote p hp).2 s hin).2.1
  devices s hs t ht hhost := by
    obtain ⟨e, he, rfl⟩ := hi.noted hs
    obtain ⟨e', he', rfl⟩ := hi.noted ht
    exact device_eq hi.wf (hi.kept e he) (hi.kept e' he') hhost
  locals := by
    rw [hi.snapshot, List.filter_append]
    have hnone : (c.remote.flatMap Prod.snd).filter (·.deviceId = h.deviceId) = [] := by
      refine List.filter_eq_nil_iff.mpr fun s hs => ?_
      obtain ⟨p, hp, hs⟩ := List.mem_flatMap.mp hs
      have hdevice := ((hi.remote p hp).2 s hs).1
      simpa [hdevice] using (hi.remote p hp).1
    rw [hnone, List.append_nil]
    refine List.Pairwise.filter _ (List.pairwise_map.mpr (hi.apart.imp_of_mem ?_))
    intro r r' hr hr' hid
    refine ⟨hid, fun hhost => ?_⟩
    obtain ⟨hlocal, hpub⟩ := hi.routes r hr
    obtain ⟨hlocal', hpub'⟩ := hi.routes r' hr'
    exact hid (local_eq hi.wf (hi.kept _ hpub) (hi.kept _ hpub') hlocal hlocal'
      (Or.inr hhost)).2.2
  noted s hs := by
    obtain ⟨e, he, rfl⟩ := hi.noted hs
    exact List.mem_map.mpr ⟨e, he, rfl⟩
  kept := hi.kept
  same e he e' he' hlocal hlocal' hname := by
    obtain ⟨hcwd, hcommand, -⟩ :=
      local_eq hi.wf (hi.kept e he) (hi.kept e' he') hlocal hlocal' hname
    exact ⟨hcwd, hcommand⟩
  device e he e' he' hhost := device_eq hi.wf (hi.kept e he) (hi.kept e' he') hhost

/-- **Names are unique, valid and permanent**, over every run in which no restart misses a name
that was published. -/
theorem names_permanent (h : Host) (hu : Function.Injective h.uuid) (deviceName : String)
    (acts : List Act) (hg : Guarded (step h) (Saved h) (start deviceName) acts)
    (he : exec (step h) (start deviceName) acts = some c) : c.Sound h := by
  have hi : c.Inv h := exec_invariant (fun _ _ _ hi hsaved hs => inv_step hu hi hsaved hs)
    (inv_start deviceName) hg he
  exact hi.sound

/-- Ids are numbers in unary. -/
def laptop : Host where
  deviceId := "a"
  digest command := command
  role _ := "Vite"
  uuid n := String.ofList (List.replicate n 'i')

theorem laptop_uuid : Function.Injective laptop.uuid := by
  intro n n' he
  have hlist := congrArg List.length (String.ofList_injective he)
  simpa using hlist

/-- A dev server in a project. -/
def observation : String × Listener :=
  ("/src/site", { pid := 1, cwd := "/src/site", args := ["vite", "--port", "5173"], startedAt := 7
                  port := 5173 })

/-- A preview of another device. -/
def advertised : PreviewService where
  id := "p"
  projectId := "q"
  projectCwd := "/src/api"
  deviceId := "b"
  hostname := hostname "mac".toList "api".toList
  name := "Node"
  port := 80
  pid := 2
  startedAt := 3

/-- The names of a server and of a device are written, and used again after a restart. -/
def restarted : List Act :=
  [.replaceLocal [observation] true, .setRemote "b" [advertised] true, .reopen "mac",
    .replaceLocal [observation] false, .setRemote "b" [advertised] false]

theorem names_permanent_restarted : ∃ c, exec (step laptop) (start "Mac") restarted = some c ∧
    c.snapshot.map (·.hostname) =
      [hostname "mac".toList "site".toList, hostname "mac-2".toList "api".toList] ∧
    c.Sound laptop := by
  have hg : Guarded (step laptop) (Saved laptop) (start "Mac") restarted :=
    guarded_of_checks (by decide +kernel)
  exact ⟨_, rfl, by decide +kernel,
    names_permanent laptop laptop_uuid "Mac" restarted hg rfl⟩

/-! ## A write that fails -/

/-- A write fails; the next scan finds nothing to write. -/
def unwritten : List Act :=
  [.replaceLocal [observation] false, .replaceLocal [observation] true, .reopen "mac"]

/-- **The name of a service is lost at the restart**: it was published and never written. -/
theorem name_lost : ∃ c, exec (step laptop) (start "Mac") unwritten = some c ∧
    c.published ≠ [] ∧ c.file = none ∧ c.names.projects = [] ∧ ¬ c.Sound laptop := by
  refine ⟨_, rfl, by decide +kernel, by decide +kernel, by decide +kernel, fun hsound => ?_⟩
  exact absurd hsound.kept (by decide +kernel)

end Catalog

end Zeron.Preview
