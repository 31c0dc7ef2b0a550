import Zeron.Lib.Relink
import Zeron.Session.Delta

/-!
# What a transcript becomes under its delta frame

* `Distinct`: entries, and the blocks within them, with ids of their own;
* `kept`: the entries a frame leaves in place; `change_cases`;
* `applyUpsert_ok`, **`applyUpserts_ok`**: the upserts settle the order of the ids;
* `tryTextAppend_ok`, **`applyAppends_ok`**: an append gives the next entry's parts;
* **`delta_reproduces`**: the next transcript results exactly if the frame is a reset, or the kept
  entries stand in the same order and none has another duration;
* `delta_moves`: two entries moved to the front.
-/

namespace Zeron.Session

open Relink (place settle Ready Anchored)

/-- The ids of a transcript. -/
abbrev ids (l : List SessionMessageEntry) : List String := l.map (·.id)

/-- Entries, and the blocks within them, with ids of their own. -/
structure Distinct (l : List SessionMessageEntry) : Prop where
  entries : (ids l).Nodup
  parts : ∀ e ∈ l, (e.parts.map MessagePart.id).Nodup

section Distinct

variable {l : List SessionMessageEntry}

theorem Distinct.eq_of_id (h : Distinct l) {e e' : SessionMessageEntry} (he : e ∈ l) (he' : e' ∈ l)
    (hid : e.id = e'.id) : e = e' := List.inj_on_of_nodup_map h.entries he he' hid

theorem byId_eq_some {id : String} {p : SessionMessageEntry × ℕ} (h : byId l id = some p) :
    l[p.2]? = some p.1 ∧ p.1.id = id := by
  have hmem := List.mem_reverse.mp (List.mem_of_find?_eq_some h)
  exact ⟨List.mem_zipIdx_iff_getElem?.mp hmem, by simpa using List.find?_some h⟩

theorem byId_eq_none {id : String} : byId l id = none ↔ id ∉ ids l := by
  simp only [byId, List.find?_eq_none, List.mem_reverse, decide_eq_true_eq, List.mem_map,
    not_exists, not_and]
  constructor
  · intro h e he hid
    obtain ⟨i, hi⟩ := List.mem_iff_getElem?.mp he
    exact h (e, i) (List.mem_zipIdx_iff_getElem?.mpr hi) hid
  · intro h p hp
    exact h p.1 (List.mem_of_getElem? (List.mem_zipIdx_iff_getElem?.mp hp))

theorem Distinct.byId (h : Distinct l) {i : ℕ} {e : SessionMessageEntry} (hi : l[i]? = some e) :
    byId l e.id = some (e, i) := by
  cases hb : Session.byId l e.id with
  | none => exact absurd (List.mem_map_of_mem (List.mem_of_getElem? hi)) (byId_eq_none.mp hb)
  | some p =>
    obtain ⟨hp, hid⟩ := byId_eq_some hb
    have he : p.1 = e := h.eq_of_id (List.mem_of_getElem? hp) (List.mem_of_getElem? hi) hid
    have hix : p.2 = i := by
      have hlt : p.2 < (ids l).length := by
        rw [List.length_map]
        exact (List.getElem?_eq_some_iff.mp hp).1
      refine (List.getElem?_inj hlt h.entries).mp ?_
      rw [List.getElem?_map, List.getElem?_map, hp, hi, he]
    rw [← he, ← hix]

end Distinct

/-- What the diff leaves in place: behind the same entry in both transcripts, and equal or longer
by a text. -/
def kept (prev next : List SessionMessageEntry) (id : String) : Bool :=
  match byId prev id, byId next id with
  | some (p, j), some (n, i) =>
    decide (before prev j = before next i) && (decide (p = n) || (tryTextAppend p n).isSome)
  | _, _ => false

section Change

variable {prev next : List SessionMessageEntry}

theorem change_cases (hn : Distinct next) {n : SessionMessageEntry} {i : ℕ}
    (hi : next[i]? = some n) :
    (kept prev next n.id = false ∧
      change prev next n i = .upsert { after := before next i, entry := n }) ∨
    (kept prev next n.id = true ∧ n ∈ prev ∧ change prev next n i = .skip) ∨
    ∃ p a, kept prev next n.id = true ∧ p ∈ prev ∧ p.id = n.id ∧ tryTextAppend p n = some a ∧
      change prev next n i = .append a := by
  have hkept : kept prev next n.id = (byId prev n.id).any fun q =>
      decide (before prev q.2 = before next i) &&
        (decide (q.1 = n) || (tryTextAppend q.1 n).isSome) := by
    unfold kept
    rw [hn.byId hi]
    cases byId prev n.id <;> rfl
  rw [hkept, change]
  cases hb : byId prev n.id with
  | none => exact Or.inl ⟨rfl, rfl⟩
  | some q =>
    obtain ⟨hq, hid⟩ := byId_eq_some hb
    have hmem := List.mem_of_getElem? hq
    rw [Option.any_some]
    dsimp only
    by_cases hafter : before prev q.2 = before next i
    · by_cases heq : q.1 = n
      · exact Or.inr (Or.inl ⟨by simp [hafter, heq], heq ▸ hmem, if_pos ⟨heq, hafter⟩⟩)
      · rw [if_neg (fun h => heq h.1), if_pos hafter]
        cases ht : tryTextAppend q.1 n with
        | none => exact Or.inl ⟨by simp [heq], rfl⟩
        | some a => exact Or.inr (Or.inr ⟨q.1, a, by simp [hafter], hmem, hid, ht, rfl⟩)
    · refine Or.inl ⟨by simp [hafter], ?_⟩
      rw [if_neg (fun h => hafter h.2), if_neg hafter]

end Change

/-! ## Upserts -/

section Upsert

variable {current : List SessionMessageEntry}

@[simp] theorem ids_cons (e : SessionMessageEntry) (es : List SessionMessageEntry) :
    ids (e :: es) = e.id :: ids es := rfl

theorem takeOut_eq (current : List SessionMessageEntry) (id : String) :
    takeOut current id = current.eraseP (·.id = id) := by
  rw [takeOut, List.eraseP_eq_eraseIdx]
  cases current.findIdx? (·.id = id) <;> rfl

theorem ids_eraseP (current : List SessionMessageEntry) (id : String) :
    ids (current.eraseP (·.id = id)) = (ids current).erase id := by
  induction current with
  | nil => rfl
  | cons e es ih =>
    by_cases he : e.id = id
    · subst he
      simp
    · rw [List.eraseP_cons_of_neg (by simpa using he), ids_cons, ids_cons,
        List.erase_cons_tail (by simpa using he), ih]

theorem ids_insertIdx {e : SessionMessageEntry} {anchor : String} {ix : ℕ}
    (h : current.findIdx? (·.id = anchor) = some ix) :
    ids (current.insertIdx (ix + 1) e) = Relink.insertAfter e.id anchor (ids current) := by
  induction current generalizing ix with
  | nil => cases h
  | cons x xs ih =>
    by_cases hx : x.id = anchor
    · have hix : ix = 0 := by simpa [List.findIdx?_cons, hx] using h.symm
      subst hix hx
      exact Relink.insertAfter_cons_self.symm
    · rw [List.findIdx?_cons, if_neg (by simpa using hx), Option.map_eq_some_iff] at h
      obtain ⟨j, hj, rfl⟩ := h
      rw [List.insertIdx_succ_cons, ids_cons, ids_cons, Relink.insertAfter_cons_of_ne hx, ih hj]

theorem applyUpsert_ok {u : TranscriptUpsert} (hnodup : (ids current).Nodup)
    (h : Anchored u.entry.id u.after (ids current)) :
    ∃ l, applyUpsert current u = .ok l ∧
      ids l = place u.entry.id u.after (ids current) ∧
      ∀ e ∈ l, e = u.entry ∨ e ∈ current ∧ e.id ≠ u.entry.id := by
  have hmem : ∀ e ∈ current.eraseP (·.id = u.entry.id), e ∈ current ∧ e.id ≠ u.entry.id := by
    intro e he
    refine ⟨List.mem_of_mem_eraseP he, ?_⟩
    intro hid
    have hin : e.id ∈ ids (current.eraseP (·.id = u.entry.id)) := List.mem_map_of_mem he
    rw [ids_eraseP, hid] at hin
    exact hnodup.not_mem_erase hin
  unfold applyUpsert
  rw [takeOut_eq]
  cases ha : u.after with
  | none =>
    refine ⟨_, rfl, ?_, ?_⟩
    · rw [List.insertIdx_zero, ids_cons, place, ids_eraseP]
    · intro e he
      rw [List.insertIdx_zero, List.mem_cons] at he
      exact he.imp_right (hmem e)
  | some anchor =>
    obtain ⟨hanchor, hne⟩ := h anchor ha
    have hin : anchor ∈ ids (current.eraseP (·.id = u.entry.id)) := by
      rw [ids_eraseP]
      exact (List.mem_erase_of_ne hne).mpr hanchor
    obtain ⟨x, hx, hxid⟩ := List.mem_map.mp hin
    cases hfind : (current.eraseP (·.id = u.entry.id)).findIdx? (·.id = anchor) with
    | none =>
      have := List.findIdx?_eq_none_iff.mp hfind x hx
      simp [hxid] at this
    | some ix =>
      refine ⟨_, by dsimp only; rw [hfind], ?_, ?_⟩
      · rw [ids_insertIdx hfind, ids_eraseP]
        rfl
      · intro e he
        obtain rfl | he := List.eq_or_mem_of_mem_insertIdx he
        · exact Or.inl rfl
        · exact Or.inr (hmem e he)

end Upsert

section Upserts

variable {prev next : List SessionMessageEntry}

/-- The entries while `done` has been visited: those of the previous transcript that are kept or
still to be moved, and the moved ones. -/
def Sourced (prev next done current : List SessionMessageEntry) : Prop :=
  ∀ e ∈ current, e ∈ prev ∧ (kept prev next e.id = true ∨ e.id ∉ ids done) ∨
    e ∈ next ∧ kept prev next e.id = false

theorem before_append (done rest : List SessionMessageEntry) :
    before (done ++ rest) done.length = done.getLast?.map (·.id) := by
  rcases List.eq_nil_or_concat' done with rfl | ⟨init, last, rfl⟩
  · rfl
  · rw [before, if_neg (by simp)]
    simp

theorem Sourced.skip {done current : List SessionMessageEntry} {n : SessionMessageEntry}
    (h : Sourced prev next done current) (hk : kept prev next n.id = true) :
    Sourced prev next (done ++ [n]) current := by
  intro e he
  refine (h e he).imp_left fun hprev => ⟨hprev.1, hprev.2.elim Or.inl fun hnot => ?_⟩
  by_cases hid : e.id = n.id
  · exact Or.inl (hid ▸ hk)
  · exact Or.inr (by simpa [hid] using hnot)

/-- The changes for the entries to come. -/
def changesFrom (prev next : List SessionMessageEntry) (start : ℕ)
    (rest : List SessionMessageEntry) : List Change :=
  (rest.zipIdx start).map fun e => change prev next e.1 e.2

theorem changesFrom_cons (start : ℕ) (n : SessionMessageEntry) (rest : List SessionMessageEntry) :
    changesFrom prev next start (n :: rest) =
      change prev next n start :: changesFrom prev next (start + 1) rest := rfl

/-- **The upserts settle the order of the ids.** -/
theorem applyUpserts_ok (hn : Distinct next) {done rest current : List SessionMessageEntry}
    (hnext : next = done ++ rest) (hnodup : (ids current).Nodup)
    (hready : Ready (kept prev next) (done.getLast?.map (·.id)) (ids rest) (ids current))
    (hcontent : Sourced prev next done current) :
    ∃ l, ((changesFrom prev next done.length rest).filterMap Change.upsert?).foldlM applyUpsert
        current = .ok l ∧
      ids l = settle (kept prev next) (done.getLast?.map (·.id)) (ids rest) (ids current) ∧
      Sourced prev next next l := by
  induction rest generalizing done current with
  | nil =>
    rw [List.append_nil] at hnext
    exact ⟨current, rfl, rfl, hnext ▸ hcontent⟩
  | cons n rest ih =>
    have hi : next[done.length]? = some n := by simp [hnext]
    have hnext' : next = (done ++ [n]) ++ rest := by simp [hnext]
    have hlast : (done ++ [n]).getLast?.map (·.id) = some n.id := by simp
    have htail := hready.tail
    rw [ids_cons, settle, changesFrom_cons]
    rw [ids_cons] at hready
    have hlen : (done ++ [n]).length = done.length + 1 := by simp
    rcases @change_cases prev next hn _ _ hi with ⟨hk, hchange⟩ | hkept
    · -- moved behind its predecessor
      rw [if_neg (by simp [hk])] at htail ⊢
      have hu : (change prev next n done.length).upsert? =
          some { after := before next done.length, entry := n } := by
        rw [hchange]
        rfl
      rw [List.filterMap_cons_some hu, List.foldlM_cons]
      have hanchor : Anchored n.id (before next done.length) (ids current) := by
        rw [hnext, before_append]
        exact hready.anchor
      obtain ⟨l, hl, hids, hmem⟩ := applyUpsert_ok
        (u := { after := before next done.length, entry := n }) hnodup hanchor
      have hbefore : before next done.length = done.getLast?.map (·.id) := by
        rw [hnext, before_append]
      dsimp only at hids hmem
      rw [hbefore] at hids
      rw [hl]
      have hcontent' : Sourced prev next (done ++ [n]) l := by
        intro e he
        obtain rfl | ⟨hold, hne⟩ := hmem e he
        · exact Or.inr ⟨by simp [hnext], hk⟩
        · refine (hcontent e hold).imp_left fun h => ⟨h.1, h.2.imp_right fun hnot => ?_⟩
          simpa [hne] using hnot
      have hready' : Ready (kept prev next) ((done ++ [n]).getLast?.map (·.id)) (ids rest)
          (ids l) := by
        rw [hlast, hids]
        exact htail
      obtain ⟨l', hl', hids', hcontent''⟩ := ih hnext'
        (by rw [hids]; exact Relink.nodup_place hready.anchor hnodup) hready' hcontent'
      rw [hlen] at hl'
      rw [hlast, hids] at hids'
      exact ⟨l', hl', hids', hcontent''⟩
    · have hk : kept prev next n.id = true := by
        obtain ⟨hk, -⟩ | ⟨p, a, hk, -⟩ := hkept
        · exact hk
        · exact hk
      have hnone : (change prev next n done.length).upsert? = none := by
        obtain ⟨-, -, hchange⟩ | ⟨p, a, -, -, -, -, hchange⟩ := hkept
        · rw [hchange]
          rfl
        · rw [hchange]
          rfl
      rw [if_pos hk] at htail ⊢
      rw [List.filterMap_cons_none hnone, ← hlen, ← hlast]
      exact ih hnext' hnodup (hlast ▸ htail) (hcontent.skip hk)

end Upserts

/-! ## Appends -/

section Append

theorem tryParts_some {entry : String} {a b : TextAppend} {ps ns : List MessagePart}
    (hlen : ps.length = ns.length) (h : tryParts entry (ps.zip ns) (some a) = some b) :
    a = b ∧ ps = ns := by
  induction ps generalizing ns with
  | nil =>
    obtain rfl := List.length_eq_zero_iff.mp hlen.symm
    exact ⟨Option.some_inj.mp h, rfl⟩
  | cons p ps ih =>
    obtain ⟨n, ns, rfl⟩ := List.exists_cons_of_length_eq_add_one hlen.symm
    rw [List.zip_cons_cons, tryParts] at h
    by_cases hpn : p = n
    · rw [if_pos hpn] at h
      obtain ⟨rfl, rfl⟩ := ih (by simpa using hlen) h
      exact ⟨rfl, by rw [hpn]⟩
    · -- a second difference is no append
      rw [if_neg hpn] at h
      cases hb : bodies p n with
      | none =>
        rw [hb] at h
        cases h
      | some b =>
        rw [hb] at h
        dsimp only at h
        rw [if_pos (by simp)] at h
        cases h

theorem pushText_cons_of_ne {part text : String} {p : MessagePart} (h : p.id ≠ part)
    (parts : List MessagePart) : pushText part text (p :: parts) =
      (pushText part text parts).map fun r => (p :: r.1, r.2) := by
  cases p <;> simp only [MessagePart.id] at h <;> simp [pushText, h]

theorem bodies_eq_some {p n : MessagePart} {pid pt nid nt : String}
    (h : bodies p n = some ((pid, pt), (nid, nt))) :
    p = .text pid pt ∧ n = .text nid nt ∨ p = .reasoning pid pt ∧ n = .reasoning nid nt := by
  unfold bodies at h
  split at h
  · simp only [Option.some_inj, Prod.mk.injEq] at h
    obtain ⟨⟨rfl, rfl⟩, rfl, rfl⟩ := h
    exact Or.inl ⟨rfl, rfl⟩
  · simp only [Option.some_inj, Prod.mk.injEq] at h
    obtain ⟨⟨rfl, rfl⟩, rfl, rfl⟩ := h
    exact Or.inr ⟨rfl, rfl⟩
  · cases h

/-- The one part that differs takes the text. -/
theorem tryParts_none {entry : String} {a : TextAppend} {ps ns : List MessagePart}
    (hlen : ps.length = ns.length) (hnodup : (ps.map MessagePart.id).Nodup)
    (h : tryParts entry (ps.zip ns) none = some a) :
    a.entry = entry ∧ a.part ∈ ps.map MessagePart.id ∧
      pushText a.part a.text ps = some (ns, a.len) := by
  induction ps generalizing ns with
  | nil => cases h
  | cons p ps ih =>
    obtain ⟨n, ns, rfl⟩ := List.exists_cons_of_length_eq_add_one hlen.symm
    have hlen : ps.length = ns.length := by simpa using hlen
    obtain ⟨hp, hnodup⟩ := List.nodup_cons.mp hnodup
    rw [List.zip_cons_cons, tryParts] at h
    by_cases hpn : p = n
    · rw [if_pos hpn] at h
      obtain ⟨hentry, hmem, hpush⟩ := ih hlen hnodup h
      refine ⟨hentry, List.mem_cons_of_mem _ hmem, ?_⟩
      rw [pushText_cons_of_ne (fun he => hp (he ▸ hmem)), hpush, hpn]
      rfl
    · rw [if_neg hpn] at h
      cases hb : bodies p n with
      | none =>
        rw [hb] at h
        cases h
      | some b =>
        obtain ⟨⟨pid, pt⟩, nid, nt⟩ := b
        rw [hb] at h
        dsimp only at h
        by_cases hskip : pid ≠ nid ∨ ¬ pt.toList.isPrefixOf nt.toList ∨
            (none : Option TextAppend).isSome
        · rw [if_pos hskip] at h
          cases h
        rw [if_neg hskip] at h
        simp only [Option.isSome_none, Bool.false_eq_true, or_false, not_or, not_not] at hskip
        obtain ⟨rfl, hpre⟩ := hskip
        obtain ⟨rfl, rfl⟩ := tryParts_some hlen h
        obtain ⟨rest, hrest⟩ := List.isPrefixOf_iff_prefix.mp hpre
        have hnt : nt = pt ++ .ofList rest := by
          rw [← String.toList_inj, String.toList_append, String.toList_ofList, hrest]
        have hcut : pt ++ sliceFrom nt (len pt) = nt := by
          rw [hnt, sliceFrom_append]
        obtain ⟨rfl, rfl⟩ | ⟨rfl, rfl⟩ := bodies_eq_some hb
        · refine ⟨rfl, List.mem_cons_self, ?_⟩
          rw [pushText, if_pos rfl, hcut]
        · refine ⟨rfl, List.mem_cons_self, ?_⟩
          rw [pushText, if_pos rfl, hcut]

/-- **An append gives the next entry's parts**, where all but the duration is the same. -/
theorem tryTextAppend_ok {p n : SessionMessageEntry} {a : TextAppend}
    (hnodup : (p.parts.map MessagePart.id).Nodup) (h : tryTextAppend p n = some a) :
    a.entry = n.id ∧ pushText a.part a.text p.parts = some (n.parts, a.len) ∧
      { p with parts := n.parts, durationMs := n.durationMs } = n := by
  unfold tryTextAppend at h
  split_ifs at h with hdiff
  simp only [not_or, not_not] at hdiff
  obtain ⟨hid, hrole, hcreated, hdevice, hstatus, hcont, hlen⟩ := hdiff
  obtain ⟨hentry, -, hpush⟩ := tryParts_none hlen hnodup h
  refine ⟨hentry, hpush, ?_⟩
  rw [hid, hrole, hcreated, hdevice, hstatus, hcont]

theorem applyAppend_ok {a : TextAppend} {parts : List MessagePart} {e : SessionMessageEntry}
    {l : List SessionMessageEntry} (hnodup : (ids l).Nodup) (hmem : e ∈ l) (hid : e.id = a.entry)
    (hpush : pushText a.part a.text e.parts = some (parts, a.len)) :
    applyAppend a l = .ok (l.map fun e => if e.id = a.entry then { e with parts } else e) := by
  induction l with
  | nil => cases hmem
  | cons x xs ih =>
    rw [ids_cons, List.nodup_cons] at hnodup
    rw [applyAppend, List.map_cons]
    by_cases hx : x.id = a.entry
    · have hex : e = x := by
        refine (List.mem_cons.mp hmem).resolve_right fun h => hnodup.1 ?_
        rw [hx, ← hid]
        exact List.mem_map_of_mem h
      subst hex
      have hsame : (xs.map fun e => if e.id = a.entry then { e with parts } else e) = xs := by
        rw [← List.map_id xs, List.map_map]
        apply List.map_congr_left
        intro y hy
        refine if_neg fun h => hnodup.1 ?_
        rw [hx, ← h]
        exact List.mem_map_of_mem hy
      rw [if_pos hx, if_pos hx, hpush, hsame]
      exact if_neg (fun h => h rfl)
    · have hmem : e ∈ xs := (List.mem_cons.mp hmem).resolve_left fun h => hx (h ▸ hid)
      rw [if_neg hx, if_neg hx, ih hnodup.2 hmem]
      rfl

end Append

section Appends

variable {prev next : List SessionMessageEntry}

/-- A kept entry that was visited, with the parts of the next transcript. -/
def patch (prev next : List SessionMessageEntry) (visited : List String)
    (e : SessionMessageEntry) : SessionMessageEntry :=
  match byId next e.id with
  | some (n, _) =>
    if kept prev next e.id = true ∧ e.id ∈ visited then { e with parts := n.parts } else e
  | none => e

theorem patch_id (visited : List String) (e : SessionMessageEntry) :
    (patch prev next visited e).id = e.id := by
  unfold patch
  split
  · split_ifs <;> rfl
  · rfl

theorem ids_patch (visited : List String) (l : List SessionMessageEntry) :
    ids (l.map (patch prev next visited)) = ids l := by
  rw [ids, List.map_map]
  exact List.map_congr_left fun e _ => patch_id visited e

theorem patch_eq (hn : Distinct next) {i : ℕ} {n e : SessionMessageEntry}
    (hi : next[i]? = some n) (hid : e.id = n.id) (visited : List String) :
    patch prev next visited e =
      if kept prev next n.id = true ∧ n.id ∈ visited then { e with parts := n.parts } else e := by
  rw [patch, hid, hn.byId hi]

theorem patch_visit {visited : List String} {id : String} {e : SessionMessageEntry}
    (hid : e.id ≠ id) : patch prev next (visited ++ [id]) e = patch prev next visited e := by
  have hmem : e.id ∈ visited ++ [id] ↔ e.id ∈ visited := by simp [hid]
  simp only [patch, hmem]

theorem Sourced.eq_of_kept (hp : Distinct prev) {l : List SessionMessageEntry}
    (h : Sourced prev next next l) {e p : SessionMessageEntry} (he : e ∈ l) (hmem : p ∈ prev)
    (hid : e.id = p.id) (hk : kept prev next p.id = true) : e = p := by
  obtain ⟨hprev, -⟩ | ⟨-, hnot⟩ := h e he
  · exact hp.eq_of_id hprev hmem hid
  · rw [hid, hk] at hnot
    cases hnot

/-- **The appends give the kept entries the parts of the next transcript.** -/
theorem applyAppends_ok (hp : Distinct prev) (hn : Distinct next)
    {l done rest : List SessionMessageEntry} (hnext : next = done ++ rest) (hnodup : (ids l).Nodup)
    (hcontent : Sourced prev next next l) (hall : ∀ id ∈ ids next, id ∈ ids l) :
    ((changesFrom prev next done.length rest).filterMap Change.append?).foldlM
        (fun current a => applyAppend a current) (l.map (patch prev next (ids done))) =
      .ok (l.map (patch prev next (ids next))) := by
  induction rest generalizing done with
  | nil =>
    rw [List.append_nil] at hnext
    rw [hnext]
    rfl
  | cons n rest ih =>
    have hi : next[done.length]? = some n := by simp [hnext]
    have hnext' : next = (done ++ [n]) ++ rest := by simp [hnext]
    have hlen : (done ++ [n]).length = done.length + 1 := by simp
    have hdone : n.id ∉ ids done := by
      have hnd := hn.entries
      rw [hnext, ids, List.map_append, List.nodup_append] at hnd
      exact fun h => hnd.2.2 n.id h n.id (by simp) rfl
    have hvisit : ids (done ++ [n]) = ids done ++ [n.id] := by simp [ids]
    have ih := ih hnext'
    rw [hlen, hvisit] at ih
    rw [changesFrom_cons]
    -- the entry under the id that is visited
    have hat : ∀ e, e.id = n.id → patch prev next (ids done) e = e ∧
        (kept prev next n.id = true →
          patch prev next (ids done ++ [n.id]) e = { e with parts := n.parts }) := by
      intro e hid
      rw [patch_eq hn hi hid, patch_eq hn hi hid]
      exact ⟨if_neg fun h => hdone h.2, fun hk => if_pos ⟨hk, by simp⟩⟩
    have hsame : (∀ e ∈ l, e.id = n.id → patch prev next (ids done ++ [n.id]) e = e) →
        l.map (patch prev next (ids done)) = l.map (patch prev next (ids done ++ [n.id])) := by
      intro h
      apply List.map_congr_left
      intro e he
      by_cases hid : e.id = n.id
      · rw [(hat e hid).1, h e he hid]
      · rw [patch_visit hid]
    rcases @change_cases prev next hn _ _ hi with
      ⟨hk, hchange⟩ | ⟨hk, hmem, hchange⟩ | ⟨p, a, hk, hmem, hid, ha, hchange⟩
    · rw [hchange, List.filterMap_cons_none rfl, hsame]
      · exact ih
      · intro e _ hid
        rw [patch_eq hn hi hid, if_neg (by simp [hk])]
    · rw [hchange, List.filterMap_cons_none rfl, hsame]
      · exact ih
      · intro e he hid
        rw [(hat e hid).2 hk, hcontent.eq_of_kept hp he hmem hid hk]
    · have hu : (change prev next n done.length).append? = some a := by
        rw [hchange]
        rfl
      rw [List.filterMap_cons_some hu, List.foldlM_cons]
      obtain ⟨hentry, hpush, -⟩ := tryTextAppend_ok (hp.parts p hmem) ha
      obtain ⟨e, he, heid⟩ := List.mem_map.mp (hall n.id (by simp [hnext]))
      have hep : e = p := hcontent.eq_of_kept hp he hmem (heid.trans hid.symm) (hid ▸ hk)
      have hcurrent : p ∈ l.map (patch prev next (ids done)) :=
        List.mem_map.mpr ⟨e, he, by rw [(hat e heid).1, hep]⟩
      rw [applyAppend_ok (by rwa [ids_patch]) hcurrent (hid.trans hentry.symm) hpush, List.map_map]
      have hnew : (l.map ((fun e => if e.id = a.entry then { e with parts := n.parts } else e) ∘
          patch prev next (ids done))) = l.map (patch prev next (ids done ++ [n.id])) := by
        apply List.map_congr_left
        intro e _
        rw [Function.comp_apply, patch_id, hentry]
        by_cases hid : e.id = n.id
        · rw [if_pos hid, (hat e hid).1, (hat e hid).2 hk]
        · rw [if_neg hid, patch_visit hid]
      rw [hnew]
      exact ih

end Appends

/-! ## Frames -/

/-- Most entries of the next transcript are moved, new or changed. -/
def Resets (prev next : List SessionMessageEntry) : Prop :=
  4 < next.length ∧
    max next.length 1 ≤ ((ids next).filter fun id => !kept prev next id).length * 2

/-- The kept entries stand in the same order. -/
def SameOrder (prev next : List SessionMessageEntry) : Prop :=
  (ids prev).filter (kept prev next) = (ids next).filter (kept prev next)

/-- No kept entry has another duration. -/
def SameDurations (prev next : List SessionMessageEntry) : Prop :=
  ∀ p ∈ prev, ∀ n ∈ next, p.id = n.id → kept prev next n.id = true → p.durationMs = n.durationMs

section Frame

variable {prev next : List SessionMessageEntry}

theorem kept_mem {id : String} (h : kept prev next id = true) : id ∈ ids prev ∧ id ∈ ids next := by
  constructor
  · by_contra hnot
    rw [← byId_eq_none] at hnot
    simp [kept, hnot] at h
  · by_contra hnot
    rw [← byId_eq_none] at hnot
    cases hb : byId prev id <;> simp [kept, hnot, hb] at h

theorem length_upserts (hn : Distinct next) {done rest : List SessionMessageEntry}
    (hnext : next = done ++ rest) :
    ((changesFrom prev next done.length rest).filterMap Change.upsert?).length =
      ((ids rest).filter fun id => !kept prev next id).length := by
  induction rest generalizing done with
  | nil => rfl
  | cons n rest ih =>
    have hi : next[done.length]? = some n := by simp [hnext]
    have ih := @ih (done ++ [n]) (by simp [hnext])
    rw [List.length_append, List.length_singleton] at ih
    rw [changesFrom_cons, ids_cons]
    rcases @change_cases prev next hn _ _ hi with
      ⟨hk, hchange⟩ | ⟨hk, -, hchange⟩ | ⟨p, a, hk, -, -, -, hchange⟩
    · have hu : (change prev next n done.length).upsert? =
          some { after := before next done.length, entry := n } := by
        rw [hchange]
        rfl
      rw [List.filterMap_cons_some hu, List.filter_cons_of_pos (by simp [hk]), List.length_cons,
        List.length_cons, ih]
    · rw [hchange, List.filterMap_cons_none rfl, ih, List.filter_cons_of_neg (by simp [hk])]
    · rw [hchange, List.filterMap_cons_none rfl, ih, List.filter_cons_of_neg (by simp [hk])]

/-- What is left of the previous transcript once the gone entries are removed. -/
def left (prev next : List SessionMessageEntry) : List SessionMessageEntry :=
  prev.filter fun e => decide (e.id ∈ ids next)

theorem filter_removed :
    (if removed prev next ≠ [] then prev.filter fun e => decide (e.id ∉ removed prev next)
      else prev) = left prev next := by
  have hmem : ∀ e ∈ prev, e.id ∉ removed prev next ↔ e.id ∈ ids next := by
    intro e he
    constructor
    · intro h
      by_contra hnot
      exact h (List.mem_map_of_mem (List.mem_filter.mpr ⟨he, decide_eq_true hnot⟩))
    · intro h hgone
      obtain ⟨e', he', hid⟩ := List.mem_map.mp hgone
      have hnot := of_decide_eq_true (List.mem_filter.mp he').2
      exact hnot (hid ▸ h)
  split_ifs with hnone
  · exact List.filter_congr fun e he => decide_eq_decide.mpr (hmem e he)
  · rw [not_not] at hnone
    refine (List.filter_eq_self.mpr fun e he => decide_eq_true ((hmem e he).mp ?_)).symm
    rw [hnone]
    exact List.not_mem_nil

theorem ids_left : ids (left prev next) = (ids prev).filter fun id => decide (id ∈ ids next) := by
  rw [left, ids, List.filter_map]
  rfl

/-- **A delta is used without an error.** -/
theorem applyDelta_ok (hp : Distinct prev) (hn : Distinct next) :
    ∃ l, ids l = settle (kept prev next) none (ids next) (ids (left prev next)) ∧
      Sourced prev next next l ∧
      applyTranscriptFrame prev (.delta ((changes prev next).filterMap Change.upsert?)
        ((changes prev next).filterMap Change.append?) (removed prev next) next.length) =
        .ok (l.map (patch prev next (ids next))) := by
  have hnodup : (ids (left prev next)).Nodup := by
    rw [ids_left]
    exact hp.entries.filter _
  have hready : Ready (kept prev next) none (ids next) (ids (left prev next)) := by
    refine ⟨fun b hb => (by cases hb), fun id hid hk => ?_, hn.entries⟩
    rw [ids_left, List.mem_filter]
    exact ⟨(kept_mem hk).1, decide_eq_true hid⟩
  have hcontent : Sourced prev next [] (left prev next) := by
    intro e he
    exact Or.inl ⟨List.mem_of_mem_filter he, Or.inr List.not_mem_nil⟩
  obtain ⟨l, hl, hids, hend⟩ := @applyUpserts_ok prev next hn [] next _ rfl hnodup hready
    hcontent
  have hmem : ∀ id, id ∈ ids l ↔ id ∈ ids next := by
    intro id
    have hsettle := Relink.mem_settle hready (y := id)
    rw [hids]
    refine hsettle.trans ⟨fun h => h.elim (fun h => ?_) fun h => h, Or.inr⟩
    rw [ids_left, List.mem_filter] at h
    exact of_decide_eq_true h.2
  have hlnodup : (ids l).Nodup := by
    rw [hids]
    exact Relink.nodup_settle hready hnodup
  have happends := @applyAppends_ok prev next hp hn l [] next rfl hlnodup hend
    fun id h => (hmem id).mpr h
  have hfirst : l.map (patch prev next []) = l := by
    rw [← List.map_id l, List.map_map]
    apply List.map_congr_left
    intro e _
    rw [Function.comp_apply, patch]
    cases byId next (id e).id <;> simp
  have hlen : l.length = next.length := by
    have hperm := (List.perm_ext_iff_of_nodup hlnodup hn.entries).mpr hmem
    simpa using hperm.length_eq
  refine ⟨l, hids, hend, ?_⟩
  have hupserts : ((changes prev next).filterMap Change.upsert?).foldlM applyUpsert
      (left prev next) = .ok l := hl
  have happends : ((changes prev next).filterMap Change.append?).foldlM
      (fun current a => applyAppend a current) l = .ok (l.map (patch prev next (ids next))) := by
    rw [show ids ([] : List SessionMessageEntry) = [] from rfl, hfirst] at happends
    exact happends
  simp only [applyTranscriptFrame, filter_removed, hupserts, bind, Except.bind, happends]
  exact if_neg (by simp [hlen])

theorem eq_of_ids {l : List SessionMessageEntry} (hn : Distinct next) (hids : ids l = ids next)
    (hmem : ∀ e ∈ l, e ∈ next) : l = next := by
  have hlen : l.length = next.length := by simpa using congrArg List.length hids
  apply List.ext_getElem hlen
  intro i hi hi'
  apply hn.eq_of_id (hmem _ (List.getElem_mem hi)) (List.getElem_mem hi')
  have := List.getElem_of_eq hids (by simpa using hi)
  simpa using this

/-- **The next transcript results exactly if the frame is a reset, or the kept entries stand in
the same order and none has another duration.** -/
theorem delta_reproduces (hp : Distinct prev) (hn : Distinct next) :
    applyTranscriptFrame prev (diffTranscript prev next) = .ok next ↔
      Resets prev next ∨ SameOrder prev next ∧ SameDurations prev next := by
  have hlen : ((changes prev next).filterMap Change.upsert?).length =
      ((ids next).filter fun id => !kept prev next id).length :=
    @length_upserts prev next hn [] next rfl
  rw [diffTranscript, hlen]
  by_cases hreset : Resets prev next
  · rw [if_pos ⟨hreset.2, hreset.1⟩]
    exact iff_of_true rfl (Or.inl hreset)
  rw [if_neg (fun h => hreset ⟨h.2, h.1⟩)]
  obtain ⟨l, hids, hcontent, happly⟩ := applyDelta_ok hp hn
  have hsettle := @Relink.settle_eq_iff _ _ (kept prev next) (ids next)
    (ids (left prev next)) hn.entries (by rw [ids_left]; exact hp.entries.filter _)
    (by rw [ids_left]; exact fun id h => of_decide_eq_true (List.mem_filter.mp h).2)
  have horder : ids l = ids next ↔ SameOrder prev next := by
    rw [hids, hsettle, ids_left, List.filter_filter, SameOrder]
    have hboth : ∀ id, (kept prev next id && decide (id ∈ ids next)) = kept prev next id := by
      intro id
      cases hk : kept prev next id with
      | false => rfl
      | true => simpa using (kept_mem hk).2
    simp only [hboth]
  rw [happly, Except.ok.injEq]
  constructor
  · intro heq
    have hsame : ids l = ids next := by rw [← @ids_patch prev next, heq]
    refine Or.inr ⟨horder.mp hsame, ?_⟩
    intro p hpmem n hnmem hid hk
    obtain ⟨i, hi⟩ := List.mem_iff_getElem?.mp hnmem
    have hnid : n.id ∈ ids next := List.mem_map_of_mem hnmem
    obtain ⟨e, he, heid⟩ := List.mem_map.mp (hsame ▸ hnid)
    have hep : e = p := hcontent.eq_of_kept hp he hpmem (heid.trans hid.symm) (hid ▸ hk)
    have hpatch : patch prev next (ids next) e ∈ next := by
      have hmem := List.mem_map_of_mem (f := patch prev next (ids next)) he
      rwa [heq] at hmem
    have hn' := hn.eq_of_id hpatch hnmem ((patch_id _ e).trans heid)
    rw [patch_eq hn hi heid, if_pos ⟨hk, hnid⟩, hep] at hn'
    have hduration := congrArg SessionMessageEntry.durationMs hn'
    exact hduration
  · rintro (h | ⟨hsame, hdur⟩)
    · exact absurd h hreset
    have hl := horder.mpr hsame
    apply eq_of_ids hn
    · rw [ids_patch, hl]
    · intro e' he'
      obtain ⟨e, he, rfl⟩ := List.mem_map.mp he'
      have hin : e.id ∈ ids next := hl ▸ List.mem_map_of_mem he
      obtain ⟨n, hnmem, hid⟩ := List.mem_map.mp hin
      obtain ⟨i, hi⟩ := List.mem_iff_getElem?.mp hnmem
      rw [patch_eq hn hi hid.symm]
      obtain ⟨hprev, hk⟩ | ⟨hnext, hk⟩ := hcontent e he
      · have hk : kept prev next n.id = true := by
          rw [hid]
          exact hk.resolve_right fun h => h hin
        rw [if_pos ⟨hk, hid ▸ hin⟩]
        have hdur := hdur e hprev n hnmem hid.symm hk
        rcases @change_cases prev next hn _ _ hi with
          ⟨hnot, -⟩ | ⟨-, hmem, -⟩ | ⟨p, a, -, hmem, hpid, ha, -⟩
        · rw [hk] at hnot
          cases hnot
        · rw [hp.eq_of_id hprev hmem hid.symm]
          exact hnmem
        · obtain rfl := hp.eq_of_id hprev hmem (hid.symm.trans hpid.symm)
          have hsame := (tryTextAppend_ok (hp.parts e hmem) ha).2.2
          rw [← hdur] at hsame
          exact hsame ▸ hnmem
      · rw [if_neg (by rw [hid, hk]; simp)]
        exact hnext

end Frame

/-- An assistant's entry of one text. -/
def line (id text : String) : SessionMessageEntry :=
  { id, role := .assistant, parts := [.text "t0" text], createdAt := 0, deviceId := "dev" }

theorem distinct_of_decide {l : List SessionMessageEntry}
    (h : decide ((ids l).Nodup ∧ ∀ e ∈ l, (e.parts.map MessagePart.id).Nodup) = true) :
    Distinct l :=
  have h := of_decide_eq_true h
  ⟨h.1, h.2⟩

/-- A removal, an insertion in the middle and a text that grows by two-byte characters. -/
theorem delta_reproduces_tick :
    applyTranscriptFrame [line "a" "", line "b" "caf", line "c" "x"]
      (diffTranscript [line "a" "", line "b" "caf", line "c" "x"]
        [line "a" "", line "b" "café é", line "d" "new"]) =
      .ok [line "a" "", line "b" "café é", line "d" "new"] :=
  (delta_reproduces (distinct_of_decide (by decide +kernel))
    (distinct_of_decide (by decide +kernel))).mpr
    (Or.inr ⟨by unfold SameOrder; decide +kernel, by unfold SameDurations; decide +kernel⟩)

/-- **Two entries moved to the front come out in another order.** -/
theorem delta_moves : ¬ ∀ prev next : List SessionMessageEntry, Distinct prev → Distinct next →
    applyTranscriptFrame prev (diffTranscript prev next) = .ok next := by
  intro hall
  have hmoved := hall [line "a" "", line "b" "", line "c" "", line "d" ""]
    [line "c" "", line "d" "", line "a" "", line "b" ""]
    (distinct_of_decide (by decide +kernel)) (distinct_of_decide (by decide +kernel))
  have hout : applyTranscriptFrame [line "a" "", line "b" "", line "c" "", line "d" ""]
      (diffTranscript [line "a" "", line "b" "", line "c" "", line "d" ""]
        [line "c" "", line "d" "", line "a" "", line "b" ""]) =
      .ok [line "c" "", line "b" "", line "d" "", line "a" ""] := by
    decide +kernel
  rw [hout] at hmoved
  exact absurd hmoved (by decide +kernel)

/-- A duration stamped with the last text is lost. -/
example : applyTranscriptFrame [line "a" "x"]
    (diffTranscript [line "a" "x"] [{ line "a" "xy" with durationMs := some 7 }]) =
    .ok [line "a" "xy"] := by decide +kernel

end Zeron.Session
