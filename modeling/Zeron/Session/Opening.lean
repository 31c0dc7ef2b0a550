import Zeron.Lib.Rejoin
import Zeron.Session.Codec

/-!
# The opening tail of a transcript

`crates/doc/src/schema.rs` reads a whole transcript, or for the first paint only its end.

* `joinContinuationEntries`, `readEntries`, `openingScan`, `readOpeningTail`: the source;
* `Legible`: what the scan reads of a message is what the full read shows of it;
* `Joins`: the entries in reach refer to earlier ones only by continuing the last one shown;
* **`opening_tail`**: on legible documents the opening tail is the end of the transcript exactly if
  its entries join.
-/

namespace Zeron.Session

open Json Rejoin

/-- Continuations in `join_continuation_entries`: the parts follow those of the root. -/
def entryJoiner : Joiner String SessionMessageEntry where
  key e := e.id
  root e := e.continuationOf
  absorb a e := { a with
    parts := a.parts ++ e.parts
    durationMs := e.durationMs.or a.durationMs }
  key_absorb _ _ := rfl

/-- `join_continuation_entries`. -/
def joinContinuationEntries (entries : List SessionMessageEntry) : List SessionMessageEntry :=
  if entries.any (·.continuationOf.isSome) then entryJoiner.join entries else entries

/-! ## Documents -/

/-- A value of a map: a plain one, a list with the deep values of its items, or another container.
A container's own value is its id. -/
inductive OpenSlot where
  | value (v : Json)
  | list (cid : String) (items : List Json)
  | other (cid : String) (deep : Json)

def OpenSlot.deep : OpenSlot → Json
  | .value v => v
  | .list _ items => .arr items
  | .other _ deep => deep

def OpenSlot.shallow : OpenSlot → Json
  | .value v => v
  | .list cid _ | .other cid _ => .str cid

/-- An item of the `messages` list. -/
inductive Message where
  | map (members : List (String × OpenSlot)) (unique : (members.map Prod.fst).Nodup)
  /-- Not a map container; its deep value. -/
  | other (deep : Json)

def Message.deep : Message → Json
  | .map members _ => .obj (members.map fun m => (m.1, m.2.deep))
  | .other deep => deep

section Source

variable (hash : Json → UInt64)

/-- `read_entries`. -/
def readEntries (messages : List Message) : List SessionMessageEntry :=
  messages.filterMap fun m => entryFromJson hash m.deep

/-- The items of the `parts` container. -/
def partItems (members : List (String × OpenSlot)) : Option (List Json) :=
  match members.lookup "parts" with
  | some (.list _ items) => some items
  | _ => none

/-- `value[key] = v`. -/
def setMember (key : String) (v : Json) : List (String × Json) → List (String × Json)
  | [] => [(key, v)]
  | m :: members => if m.1 = key then (key, v) :: members else m :: setMember key v members

/-- The parts of a message that the budget allows, from its end. -/
def tailParts (remaining : ℕ) (members : List (String × OpenSlot)) : List Json :=
  match partItems members with
  | some items => items.drop (items.length - min remaining items.length)
  | none => []

/-- What reading a message takes from the budget. -/
def spent (remaining : ℕ) (members : List (String × OpenSlot)) : ℕ :=
  match partItems members with
  | some items => min (max (min remaining items.length) 1) remaining
  | none => 1

/-- The entry that the scan makes of a message. -/
def openEntry (remaining : ℕ) (members : List (String × OpenSlot)) :
    Option SessionMessageEntry :=
  entryFromJson hash (.obj (setMember "parts" (.arr (tailParts remaining members))
    (members.map fun m => (m.1, m.2.shallow))))

/-- The loop in `read_opening_tail`, over the messages from the newest. -/
def openingScan : ℕ → List Message → List SessionMessageEntry
  | _, [] => []
  | 0, _ => []
  | remaining, .other _ :: older => openingScan remaining older
  | remaining, .map members _ :: older =>
    (openEntry hash remaining members).toList ++
      openingScan (remaining - spent remaining members) older

/-- The joined id, also where the root is outside the window. -/
def SessionMessageEntry.opened (e : SessionMessageEntry) : SessionMessageEntry :=
  { e with id := e.continuationOf.getD e.id, continuationOf := none }

/-- `read_opening_tail`. -/
def readOpeningTail (maxParts : ℕ) (messages : List Message) : List SessionMessageEntry :=
  joinContinuationEntries
    ((openingScan hash maxParts messages.reverse).reverse.modifyHead SessionMessageEntry.opened)

end Source

theorem joinContinuationEntries_eq (entries : List SessionMessageEntry) :
    joinContinuationEntries entries = entryJoiner.join entries := by
  rw [joinContinuationEntries]
  split_ifs with h
  · rfl
  · refine (join_roots entryJoiner fun e he => ?_).symm
    exact Option.not_isSome_iff_eq_none.mp fun hsome => h (List.any_eq_true.mpr ⟨e, he, hsome⟩)

/-! ## The budget -/

/-- The parts that a message counts. -/
def Message.cost : Message → ℕ
  | .map members _ => max ((partItems members).getD []).length 1
  | .other _ => 0

/-- The messages, from the newest, that the budget reaches. -/
def reached : ℕ → List Message → List Message
  | _, [] => []
  | 0, _ => []
  | budget, m :: older => m :: reached (budget - m.cost) older

/-- The messages beyond the budget. -/
def unread : ℕ → List Message → List Message
  | _, [] => []
  | 0, older => older
  | budget, m :: older => unread (budget - m.cost) older

theorem reached_append (budget : ℕ) (l : List Message) :
    reached budget l ++ unread budget l = l := by
  induction l generalizing budget with
  | nil => rfl
  | cons m older ih =>
    cases budget with
    | zero => rfl
    | succ budget => exact congrArg (m :: ·) (ih _)

/-! ## Legible documents -/

/-- A part shows the same at every place of its entry. -/
def PlaceFree (part : Json) : Prop :=
  ∀ entryId ix ix', readPart entryId ix part = readPart entryId ix' part

/-- What the scan reads of a message within the budget is what the full read shows of it: no item
but a map is an entry; the fields of a map are plain values, its parts a list or missing; and where
parts are missing or cut off, the entry has an id of its own, and the kept parts do not go by their
place. -/
def Message.Legible (hash : Json → UInt64) (budget : ℕ) : Message → Prop
  | .other deep => entryFromJson hash deep = none
  | .map members _ => (∀ m ∈ members, m.1 = "parts" ∨ ∃ v, m.2 = .value v) ∧
      (members.lookup "parts" = none ∧ OwnId members ∨
        ∃ cid items, members.lookup "parts" = some (.list cid items) ∧
          (items.length ≤ budget ∨
            OwnId members ∧ ∀ part ∈ items.drop (items.length - budget), PlaceFree part))
where
  OwnId (members : List (String × OpenSlot)) : Prop :=
    ∃ id, members.lookup "id" = some (.value (.str id))

/-- Every message that the budget reaches is legible. -/
def Legible (hash : Json → UInt64) : ℕ → List Message → Prop
  | _, [] => True
  | 0, _ => True
  | budget, m :: older => m.Legible hash budget ∧ Legible hash (budget - m.cost) older

/-- An entry and what is left of it when parts are cut off its front. -/
structure Cut (e e' : SessionMessageEntry) : Prop where
  id : e'.id = e.id
  continuationOf : e'.continuationOf = e.continuationOf
  parts : e'.parts <:+ e.parts

theorem lookup_map_snd {α β : Type} (f : α → β) (key : String) (members : List (String × α)) :
    (members.map fun m => (m.1, f m.2)).lookup key = (members.lookup key).map f := by
  induction members with
  | nil => rfl
  | cons m members ih =>
    rw [List.map_cons, List.lookup_cons, List.lookup_cons]
    cases key == m.1 <;> simp [ih]

theorem salvageParts_append (entryId : String) (ix : ℕ) (l l' : List Json) :
    salvageParts entryId ix (l ++ l') =
      salvageParts entryId ix l ++ salvageParts entryId (ix + l.length) l' := by
  induction l generalizing ix with
  | nil => rfl
  | cons part l ih =>
    rw [List.cons_append, salvageParts, salvageParts, ih, List.append_assoc, List.length_cons,
      Nat.add_right_comm, Nat.add_assoc]

theorem salvageParts_placeFree {l : List Json} (h : ∀ part ∈ l, PlaceFree part) (entryId : String)
    (ix ix' : ℕ) : salvageParts entryId ix l = salvageParts entryId ix' l := by
  induction l generalizing ix ix' with
  | nil => rfl
  | cons part l ih =>
    rw [salvageParts, salvageParts, h part List.mem_cons_self entryId ix ix',
      ih (fun p hp => h p (List.mem_cons_of_mem part hp)) (ix + 1) (ix' + 1)]

theorem lookup_setMember {key key' : String} (v : Json) (members : List (String × Json)) :
    (setMember key v members).lookup key' =
      if key' = key then some v else members.lookup key' := by
  induction members with
  | nil =>
    by_cases hk : key' = key
    · simp [setMember, hk]
    · simp [setMember, List.lookup_cons, beq_eq_false_iff_ne.mpr hk, hk]
  | cons m members ih =>
    rw [setMember]
    split_ifs with hm hk hk
    · simp [hk]
    · rw [List.lookup_cons, List.lookup_cons, hm, beq_eq_false_iff_ne.mpr hk]
    · rw [List.lookup_cons, ih, if_pos hk, beq_eq_false_iff_ne.mpr fun he => hm (he.symm.trans hk)]
    · rw [List.lookup_cons, List.lookup_cons, ih, if_neg hk]

theorem setMember_deep {members : List (String × OpenSlot)} {cid : String} {items : List Json}
    (hunique : (members.map Prod.fst).Nodup)
    (hplain : ∀ m ∈ members, m.1 = "parts" ∨ ∃ v, m.2 = .value v)
    (hparts : members.lookup "parts" = some (.list cid items)) :
    setMember "parts" (.arr items) (members.map fun m => (m.1, m.2.shallow)) =
      members.map fun m => (m.1, m.2.deep) := by
  induction members with
  | nil => cases hparts
  | cons m members ih =>
    obtain ⟨hnot, hrest⟩ := List.nodup_cons.mp hunique
    have hplain' := fun m' hm' => hplain m' (List.mem_cons_of_mem m hm')
    rw [List.map_cons, List.map_cons, setMember]
    rw [List.lookup_cons] at hparts
    split_ifs with hm
    · have hkey : ("parts" == m.1) = true := beq_iff_eq.mpr hm.symm
      rw [hkey] at hparts
      rw [hm, Option.some.inj hparts]
      refine congrArg (_ :: ·) (List.map_congr_left fun m' hm' => ?_)
      obtain he | ⟨v, hv⟩ := hplain' m' hm'
      · have hmem : m'.1 ∈ members.map Prod.fst := List.mem_map_of_mem hm'
        rw [he, ← hm] at hmem
        exact absurd hmem hnot
      · rw [hv]
        rfl
    · have hkey : ("parts" == m.1) = false := beq_eq_false_iff_ne.mpr (Ne.symm hm)
      rw [hkey] at hparts
      obtain ⟨v, hv⟩ := (hplain m List.mem_cons_self).resolve_left hm
      rw [ih hrest hplain' hparts, hv]
      rfl

/-! ## The window -/

section Window

variable (hash : Json → UInt64)

theorem cut_of_lookup {members members' : List (String × Json)} {id : String}
    (hid : members.lookup "id" = some (.str id))
    (h : ∀ key ≠ "parts", members'.lookup key = members.lookup key)
    (hparts : salvageParts id 0 (rawParts members') <:+ salvageParts id 0 (rawParts members)) :
    ∃ e e', entryFromJson hash (.obj members) = some e ∧
      entryFromJson hash (.obj members') = some e' ∧ Cut e e' ∧
      (rawParts members' = rawParts members → e' = e) := by
  have hfield : ∀ key ≠ "parts", strField members' key = strField members key := fun key hk => by
    rw [strField, strField, h key hk]
  have hown : strField members "id" = some id := by
    rw [strField, hid]
    rfl
  have hid' := hfield "id" (by decide)
  have hcont := hfield "continuationOf" (by decide)
  rw [entryFromJson_obj, entryFromJson_obj]
  refine ⟨_, _, rfl, rfl, ⟨?_, hcont, ?_⟩, fun hraw => ?_⟩
  · simp only [hid', hown, Option.getD_some]
  · simpa only [hid', hown, Option.getD_some] using hparts
  · simp only [hid', hcont, hfield "deviceId" (by decide), hown, Option.getD_some, hraw,
      h "role" (by decide), h "createdAt" (by decide), h "status" (by decide),
      h "durationMs" (by decide)]

/-- What the scan makes of a legible message, beside the full read; the same if nothing is cut. -/
theorem openEntry_cut {budget : ℕ} {members : List (String × OpenSlot)}
    {unique : (members.map Prod.fst).Nodup} (h : (Message.map members unique).Legible hash budget) :
    ∃ e e', entryFromJson hash (Message.map members unique).deep = some e ∧
      openEntry hash budget members = some e' ∧ Cut e e' ∧
      (((partItems members).getD []).length ≤ budget → e' = e) := by
  obtain ⟨hplain, h⟩ := h
  have hdeep (key : String) : (members.map fun m => (m.1, m.2.deep)).lookup key =
      (members.lookup key).map OpenSlot.deep := lookup_map_snd OpenSlot.deep key members
  have hset (tail : List Json) (key : String) (hk : key ≠ "parts") :
      (setMember "parts" (.arr tail) (members.map fun m => (m.1, m.2.shallow))).lookup key =
        (members.map fun m => (m.1, m.2.deep)).lookup key := by
    rw [lookup_setMember, if_neg hk, hdeep, lookup_map_snd OpenSlot.shallow]
    cases hl : members.lookup key with
    | none => rfl
    | some slot =>
      obtain ⟨l₁, l₂, rfl, -⟩ := List.lookup_eq_some_iff.mp hl
      obtain ⟨v, rfl⟩ := (hplain (key, slot) (by simp)).resolve_left hk
      rfl
  have hraw (tail : List Json) :
      rawParts (setMember "parts" (.arr tail) (members.map fun m => (m.1, m.2.shallow))) =
        tail := by
    rw [rawParts, lookup_setMember, if_pos rfl]
    rfl
  obtain ⟨hparts, id, hid⟩ | ⟨cid, items, hparts, h⟩ := h
  · have hnone : partItems members = none := by rw [partItems, hparts]
    have hrawDeep : rawParts (members.map fun m => (m.1, m.2.deep)) = [] := by
      rw [rawParts, hdeep, hparts]
      rfl
    obtain ⟨e, e', he, he', hcut, heq⟩ := cut_of_lookup hash (by rw [hdeep, hid]; rfl) (hset [])
      (by rw [hraw, hrawDeep])
    refine ⟨e, e', he, ?_, hcut, fun _ => heq (by rw [hraw, hrawDeep])⟩
    rw [openEntry, tailParts, hnone]
    exact he'
  · have hitems : partItems members = some items := by rw [partItems, hparts]
    have hrawDeep : rawParts (members.map fun m => (m.1, m.2.deep)) = items := by
      rw [rawParts, hdeep, hparts]
      rfl
    have htail : tailParts budget members =
        items.drop (items.length - min budget items.length) := by rw [tailParts, hitems]
    rw [openEntry, htail]
    by_cases hle : items.length ≤ budget
    · rw [min_eq_right hle, Nat.sub_self, List.drop_zero]
      have hwhole := setMember_deep unique hplain hparts
      obtain ⟨e, he⟩ : ∃ e, entryFromJson hash (Message.map members unique).deep = some e :=
        ⟨_, entryFromJson_obj hash _⟩
      exact ⟨e, e, he, by rw [hwhole]; exact he, ⟨rfl, rfl, List.suffix_rfl⟩, fun _ => rfl⟩
    · obtain ⟨⟨id, hid⟩, hfree⟩ := h.resolve_left hle
      have hmin : min budget items.length = budget := min_eq_left (by omega)
      rw [hmin]
      obtain ⟨e, e', he, he', hcut, -⟩ := cut_of_lookup hash (by rw [hdeep, hid]; rfl)
        (hset (items.drop (items.length - budget))) (by
          rw [hraw, hrawDeep]
          refine ⟨salvageParts id 0 (items.take (items.length - budget)), ?_⟩
          rw [salvageParts_placeFree hfree id 0 (0 + (items.take (items.length - budget)).length),
            ← salvageParts_append, List.take_append_drop])
      exact ⟨e, e', he, he', hcut, fun hle' => by rw [hitems] at hle'; exact absurd hle' hle⟩

/-- **What the scan reads.** The entries of the messages in reach, the oldest one cut. -/
theorem openingScan_cut (budget : ℕ) (l : List Message) (h : Legible hash budget l) :
    openingScan hash budget l = [] ∧ readEntries hash (reached budget l) = [] ∨
      ∃ ws e e', readEntries hash (reached budget l) = ws ++ [e] ∧
        openingScan hash budget l = ws ++ [e'] ∧ Cut e e' := by
  induction l generalizing budget with
  | nil => exact Or.inl ⟨by rw [openingScan], rfl⟩
  | cons m older ih =>
    cases budget with
    | zero => exact Or.inl ⟨rfl, rfl⟩
    | succ budget =>
      obtain ⟨hm, hrest⟩ := h
      cases m with
      | other deep =>
        have hscan : openingScan hash (budget + 1) (.other deep :: older) =
            openingScan hash (budget + 1) older := by rw [openingScan]; simp
        have hread : readEntries hash (reached (budget + 1) (.other deep :: older)) =
            readEntries hash (reached (budget + 1) older) := by
          have hnone : entryFromJson hash (Message.other deep).deep = none := hm
          simp [reached, readEntries, Message.cost, hnone]
        rw [hscan, hread]
        exact ih (budget + 1) hrest
      | map members unique =>
        obtain ⟨e, e', he, he', hcut, heq⟩ := openEntry_cut hash hm
        have hscan : openingScan hash (budget + 1) (.map members unique :: older) =
            e' :: openingScan hash (budget + 1 - spent (budget + 1) members) older := by
          rw [openingScan, he']
          · rfl
          · simp
        have hread : readEntries hash (reached (budget + 1) (.map members unique :: older)) =
            e :: readEntries hash
              (reached (budget + 1 - (Message.map members unique).cost) older) := by
          simp [reached, readEntries, he]
        rw [hscan, hread]
        have hspent : budget + 1 - spent (budget + 1) members =
            budget + 1 - (Message.map members unique).cost := by
          rw [spent, Message.cost]
          cases partItems members with
          | none => simp
          | some items =>
            simp only [Option.getD_some]
            omega
        rw [hspent]
        by_cases hle : ((partItems members).getD []).length ≤ budget + 1
        · obtain rfl := heq hle
          obtain ⟨hs, hr⟩ | ⟨ws, f, f', hr, hs, hcut'⟩ := ih _ hrest
          · exact Or.inr ⟨[], e', e', by rw [hr]; rfl, by rw [hs]; rfl, hcut⟩
          · exact Or.inr ⟨e' :: ws, f, f', by rw [hr]; rfl, by rw [hs]; rfl, hcut'⟩
        · have hzero : budget + 1 - (Message.map members unique).cost = 0 := by
            rw [Message.cost]
            omega
          rw [hzero]
          refine Or.inr ⟨[], e, e', ?_, ?_, hcut⟩
          · cases older <;> rfl
          · cases older <;> rfl

/-- The oldest entry in reach and the later ones continue earlier entries only as the last one
shown. -/
def Joins (budget : ℕ) (messages : List Message) : Prop :=
  match readEntries hash (reached budget messages.reverse).reverse with
  | [] => True
  | e :: l =>
    Joinable entryJoiner (readEntries hash (unread budget messages.reverse).reverse) e l

/-- The entries are the last ones shown, each with the last of its parts. -/
def EndOf (tail full : List SessionMessageEntry) : Prop :=
  ∃ before shown, full = before ++ shown ∧
    List.Forall₂ (fun e e' => e'.id = e.id ∧ e'.parts <:+ e.parts) shown tail

theorem EndOf.ids {tail full : List SessionMessageEntry} (h : EndOf tail full) :
    tail.map (·.id) <:+ full.map (·.id) := by
  obtain ⟨before, shown, rfl, hshown⟩ := h
  have hids : tail.map (·.id) = shown.map (·.id) := by
    induction hshown with
    | nil => rfl
    | cons he _ ih => rw [List.map_cons, List.map_cons, he.1, ih]
  exact ⟨before.map (·.id), by rw [hids, List.map_append]⟩

theorem readEntries_append (l l' : List Message) :
    readEntries hash (l ++ l') = readEntries hash l ++ readEntries hash l' :=
  List.filterMap_append ..

theorem readEntries_reverse (l : List Message) :
    readEntries hash l.reverse = (readEntries hash l).reverse := List.filterMap_reverse ..

theorem reads_eq {budget : ℕ} {messages : List Message} (h : Legible hash budget messages.reverse) :
    readOpeningTail hash budget messages = [] ∧
        readEntries hash (reached budget messages.reverse).reverse = [] ∨
      ∃ e e' l, readEntries hash (reached budget messages.reverse).reverse = e :: l ∧ Cut e e' ∧
        readOpeningTail hash budget messages = entryJoiner.join (e'.opened :: l) ∧
        joinContinuationEntries (readEntries hash messages) =
          entryJoiner.join
            (readEntries hash (unread budget messages.reverse).reverse ++ e :: l) := by
  have hsplit : messages = (unread budget messages.reverse).reverse ++
      (reached budget messages.reverse).reverse := by
    rw [← List.reverse_append, reached_append, List.reverse_reverse]
  obtain ⟨hs, hr⟩ | ⟨ws, e, e', hr, hs, hcut⟩ := openingScan_cut hash budget _ h
  · refine Or.inl ⟨?_, by rw [readEntries_reverse, hr]; rfl⟩
    rw [readOpeningTail, hs]
    rfl
  · have hwindow : readEntries hash (reached budget messages.reverse).reverse =
        e :: ws.reverse := by
      rw [readEntries_reverse, hr, List.reverse_append]
      rfl
    refine Or.inr ⟨e, e', ws.reverse, hwindow, hcut, ?_, ?_⟩
    · rw [readOpeningTail, hs, List.reverse_append, joinContinuationEntries_eq]
      rfl
    · rw [joinContinuationEntries_eq, ← hwindow, ← readEntries_append, ← hsplit]

/-- **The opening tail.** On legible documents it is the end of the joined transcript where its
entries join; and where the ids are distinct and no entry continues itself, only there. -/
theorem opening_tail (budget : ℕ) (messages : List Message)
    (h : Legible hash budget messages.reverse) :
    (Joins hash budget messages → EndOf (readOpeningTail hash budget messages)
        (joinContinuationEntries (readEntries hash messages))) ∧
      (((readEntries hash messages).map (·.id)).Nodup →
        (∀ e ∈ readEntries hash messages, e.continuationOf ≠ some e.id) →
        EndOf (readOpeningTail hash budget messages)
          (joinContinuationEntries (readEntries hash messages)) → Joins hash budget messages) := by
  have hsplit : readEntries hash messages =
      readEntries hash (unread budget messages.reverse).reverse ++
        readEntries hash (reached budget messages.reverse).reverse := by
    rw [← readEntries_append, ← List.reverse_append, reached_append, List.reverse_reverse]
  obtain ⟨hs, hr⟩ | ⟨e, e', l, hr, hcut, htail, hfull⟩ := reads_eq hash h
  · refine ⟨fun _ => ?_, fun _ _ _ => ?_⟩
    · rw [hs]
      exact ⟨_, [], (List.append_nil _).symm, List.Forall₂.nil⟩
    · rw [Joins, hr]
      trivial
  · have hkey : entryJoiner.key e'.opened = (entryJoiner.root e).getD (entryJoiner.key e) := by
      change e'.continuationOf.getD e'.id = e.continuationOf.getD e.id
      rw [hcut.id, hcut.continuationOf]
    rw [Joins, hr, htail, hfull]
    refine ⟨fun hjoin => ?_, fun hnodup hself hend => ?_⟩
    · refine join_window (fun a => ⟨rfl, List.suffix_rfl⟩) (fun a b f hab => ⟨hab.1, ?_⟩) rfl hkey
        (fun hroot => ⟨?_, hcut.parts⟩) (fun a ha => ⟨?_, ?_⟩) hjoin
      · obtain ⟨pre, hpre⟩ := hab.2
        refine ⟨pre, ?_⟩
        change pre ++ (b.parts ++ f.parts) = a.parts ++ f.parts
        rw [← List.append_assoc, hpre]
      · have hnone : e.continuationOf = none := hroot
        change e'.continuationOf.getD e'.id = e.id
        rw [hcut.continuationOf, hnone, hcut.id]
        rfl
      · have hsome : e.continuationOf = some a.id := ha
        change e'.continuationOf.getD e'.id = a.id
        rw [hcut.continuationOf, hsome]
        rfl
      · exact hcut.parts.trans (List.suffix_append a.parts e.parts)
    · rw [hsplit, hr] at hnodup hself
      exact joinable_of_suffix rfl hkey hnodup
        (fun f hf => hself f (List.mem_append_right _ hf)) hend.ids

end Window

/-- A message of texts. -/
def textMessage (id : String) (continuationOf : Json) (texts : List String) : Message :=
  .map [("continuationOf", .value continuationOf), ("createdAt", .value (.num 0)),
    ("deviceId", .value (.str "d")), ("id", .value (.str id)),
    ("parts", .list "p" (texts.map fun t =>
      .obj [("id", .str t), ("kind", .str "text"), ("text", .str t)])),
    ("role", .value (.str "assistant"))] (by simp)

theorem textMessage_legible (hash : Json → UInt64) (budget : ℕ) (id : String)
    (continuationOf : Json) (texts : List String) :
    (textMessage id continuationOf texts).Legible hash budget := by
  refine ⟨by simp, Or.inr ⟨"p", _, rfl, Or.inr ⟨⟨id, rfl⟩, fun part hpart entryId ix ix' => ?_⟩⟩⟩
  obtain ⟨t, -, rfl⟩ := List.mem_map.mp (List.mem_of_mem_drop hpart)
  rfl

theorem opening_tail_chain : EndOf
    (readOpeningTail (fun _ => 0) 2
      [textMessage "a" .null ["x", "y"], textMessage "b" (.str "a") ["z"]])
    (joinContinuationEntries (readEntries (fun _ => 0)
      [textMessage "a" .null ["x", "y"], textMessage "b" (.str "a") ["z"]])) := by
  have hlegible : Legible (fun _ => 0) 2
      [textMessage "a" .null ["x", "y"], textMessage "b" (.str "a") ["z"]].reverse :=
    ⟨textMessage_legible _ _ _ _ _, textMessage_legible _ _ _ _ _, trivial⟩
  refine (opening_tail (fun _ => 0) 2 _ hlegible).1 ?_
  have hclosed : Closed entryJoiner [] ["a"]
      (readEntries (fun _ => 0) [textMessage "b" (.str "a") ["z"]]) := ⟨by simp, trivial⟩
  exact hclosed

/-- An orphan loses its id, and a continuation whose root is before the window is no longer
absorbed. -/
theorem opening_differs :
    ¬ EndOf (readOpeningTail (fun _ => 0) 1 [textMessage "b" (.str "a") ["z"]])
      (joinContinuationEntries (readEntries (fun _ => 0) [textMessage "b" (.str "a") ["z"]])) ∧
    ¬ EndOf
      (readOpeningTail (fun _ => 0) 2 [textMessage "a" .null ["x"], textMessage "u" .null ["y"],
        textMessage "b" (.str "a") ["z"]])
      (joinContinuationEntries (readEntries (fun _ => 0) [textMessage "a" .null ["x"],
        textMessage "u" .null ["y"], textMessage "b" (.str "a") ["z"]])) := by
  refine ⟨fun h => ?_, fun h => ?_⟩
  · have hids := h.ids
    revert hids
    decide
  · have hids := h.ids
    revert hids
    decide

end Zeron.Session
