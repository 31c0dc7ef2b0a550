import Zeron.Lib.Cut
import Zeron.Lib.Pack
import Zeron.Session.Wire

/-!
# Splitting a long message

`split_parts` of `crates/doc/src/parts.rs`: chunks for the entries of an oversized message.

* `MessagePart.byteLen`, `splitParts`: the source; cutting off a character boundary is `none`;
* `PiecesOf`: what becomes of one part;
* **`cutText_eq`**: the loop over an oversized text ends and cuts it into pieces;
* `Within`: a chunk within the limit, or with one part that has all its bytes;
* **`split_lossless`**; `split_exceptions`: no parts make an empty chunk, and an empty part shares
  one with a part over the limit.
-/

namespace Zeron.Session

open Pack (Bins)

/-- `serde_json::to_vec(v).len()`. -/
def jsonLen (v : Json) : ℕ := v.textLen Char.utf8Size

/-- `String::len`. -/
def len (s : String) : ℕ := Cut.size s.toList

def MessagePart.byteLen : MessagePart → ℕ
  | .text _ body => len body
  | .reasoning _ body => len body
  | .tool _ t =>
    jsonLen t.call.toJson + (t.output.map len).getD 0 + (t.diff.map (jsonLen ·.toJson)).getD 0 +
      (t.diffStats.map fun s => jsonLen (.arr (s.map ToolDiffStat.toJson))).getD 0
  | .input _ _ questions _ => jsonLen (.arr (questions.map UserInputQuestion.toJson))
  | .image id path name mimeType => len id + len path + len name + len mimeType
  | .error _ message => len message

/-- `MSG_INLINE_MAX`. -/
def msgInlineMax : ℕ := 256 * 1024

/-- The closure `push_part`. -/
def pushPart : Bins MessagePart → MessagePart → Bins MessagePart :=
  Bins.push MessagePart.byteLen msgInlineMax

/-- The id of a piece. -/
def subId (id : String) (piece : ℕ) : String :=
  if piece = 0 then id else id ++ "~" ++ toString piece

/-- A part of the kind that was cut. -/
def sub (reasoning : Bool) (id : String) (body : List Char) : MessagePart :=
  if reasoning then .reasoning id (.ofList body) else .text id (.ofList body)

/-- Where the next cut is. -/
def cutEnd (text : List Char) (start : ℕ) : ℕ :=
  let stop := Cut.lastBoundary text (min (start + msgInlineMax) (Cut.size text))
  -- the guard against a pathological boundary
  if stop ≤ start then Cut.size text else stop

/-- The loop over an oversized text. -/
def cutText (reasoning : Bool) (id : String) (text : List Char) (start piece : ℕ)
    (chunks : Bins MessagePart) : Option (Bins MessagePart) :=
  if h : start < Cut.size text then do
    let body ← Cut.slice text start (cutEnd text start)
    cutText reasoning id text (cutEnd text start) (piece + 1)
      (pushPart chunks (sub reasoning (subId id piece) body))
  else some chunks
termination_by Cut.size text - start
decreasing_by
  have : start < cutEnd text start := by
    unfold cutEnd
    dsimp only
    split_ifs <;> omega
  omega

/-- One pass of the loop over the parts. -/
def splitPart (chunks : Bins MessagePart) (part : MessagePart) : Option (Bins MessagePart) :=
  match part with
  | .text id text =>
    if len text > msgInlineMax then cutText false id text.toList 0 0 chunks
    else some (pushPart chunks part)
  | .reasoning id text =>
    if len text > msgInlineMax then cutText true id text.toList 0 0 chunks
    else some (pushPart chunks part)
  | other => some (pushPart chunks other)

def splitParts (parts : List MessagePart) : Option (List (List MessagePart)) :=
  (parts.foldlM splitPart Bins.empty).map Bins.all

/-! ## Pieces -/

/-- Consecutive pieces of a text. -/
def pieces (reasoning : Bool) (id : String) : ℕ → List (List Char) → List MessagePart
  | _, [] => []
  | piece, body :: bodies => sub reasoning (subId id piece) body ::
      pieces reasoning id (piece + 1) bodies

/-- A text or a reasoning: the kinds that are cut. -/
def MessagePart.Splittable (part : MessagePart) : Prop :=
  ∃ reasoning id body, part = sub reasoning id body

/-- The bodies a text is cut into. -/
structure Bodies (text : List Char) (bodies : List (List Char)) : Prop where
  flatten : bodies.flatten = text
  ne_nil : ∀ body ∈ bodies, body ≠ []
  size_le : ∀ body ∈ bodies, Cut.size body ≤ msgInlineMax

/-- A part is a text longer than a chunk. -/
def MessagePart.Oversized (part : MessagePart) (reasoning : Bool) (id text : String) : Prop :=
  part = (if reasoning then .reasoning id text else .text id text) ∧ msgInlineMax < len text

/-- What becomes of a part: itself, or the pieces of its text under ids of their own. -/
def PiecesOf (part : MessagePart) (ps : List MessagePart) : Prop :=
  (ps = [part] ∧ ∀ reasoning id text, ¬ part.Oversized reasoning id text) ∨
    ∃ reasoning id text bodies, part.Oversized reasoning id text ∧ Bodies text.toList bodies ∧
      ps = pieces reasoning id 0 bodies

theorem toString_injective : Function.Injective (toString : ℕ → String) := by
  intro m n h
  have hdigits : Nat.toDigits 10 m = Nat.toDigits 10 n := by
    simpa using congrArg String.toList h
  calc m = Nat.ofDigitChars 10 (Nat.toDigits 10 m) 0 := Nat.ofDigitChars_ten_toDigits.symm
    _ = n := by rw [hdigits, Nat.ofDigitChars_ten_toDigits]

theorem subId_injective (id : String) : Function.Injective (subId id) := by
  intro m n h
  unfold subId at h
  have hne : ∀ k : ℕ, id ≠ id ++ "~" ++ toString k := by
    intro k hk
    have := congrArg (fun s => s.toList.length) hk
    simp at this
  split_ifs at h with hm hn hn
  · omega
  · exact absurd h (hne n)
  · exact absurd h.symm (hne m)
  · rw [String.append_right_inj] at h
    exact toString_injective h

theorem pieces_ids (reasoning : Bool) (id : String) (piece : ℕ) (bodies : List (List Char)) :
    (pieces reasoning id piece bodies).map MessagePart.id =
      (List.range' piece bodies.length).map (subId id) := by
  induction bodies generalizing piece with
  | nil => rfl
  | cons body bodies ih =>
    rw [pieces, List.map_cons, ih, List.length_cons, List.range'_succ, List.map_cons]
    cases reasoning <;> rfl

theorem nodup_pieces (reasoning : Bool) (id : String) (bodies : List (List Char)) :
    ((pieces reasoning id 0 bodies).map MessagePart.id).Nodup := by
  rw [pieces_ids]
  exact (List.nodup_range' 1).map (subId_injective id)

/-! ## The loop over a text -/

theorem cutEnd_eq (done : List Char) {rest : List Char} (hrest : rest ≠ []) :
    ∃ body rest', rest = body ++ rest' ∧ body ≠ [] ∧ Cut.size body ≤ msgInlineMax ∧
      cutEnd (done ++ rest) (Cut.size done) = Cut.size done + Cut.size body := by
  obtain ⟨c, tail, rfl⟩ := List.exists_cons_of_ne_nil hrest
  let stop := min (Cut.size done + msgInlineMax) (Cut.size (done ++ c :: tail))
  have hstop : stop ≤ Cut.size (done ++ c :: tail) := min_le_right _ _
  -- the next character fits
  have hlt : Cut.size done < Cut.lastBoundary (done ++ c :: tail) stop := by
    apply Cut.lt_lastBoundary
    have := c.utf8Size_le_four
    simp only [stop, Cut.size_append, Cut.size_cons, msgInlineMax]
    omega
  have hle : Cut.lastBoundary (done ++ c :: tail) stop ≤ Cut.size done + msgInlineMax :=
    (Cut.lastBoundary_le stop).trans (min_le_left _ _)
  have hcut : cutEnd (done ++ c :: tail) (Cut.size done) =
      Cut.lastBoundary (done ++ c :: tail) stop :=
    if_neg (not_le.mpr hlt)
  obtain ⟨a, b, heq, hsize⟩ := Cut.isCharBoundary_iff.mp (Cut.isCharBoundary_lastBoundary hstop)
  rw [hcut, ← hsize]
  rw [← hsize] at hlt hle
  rcases List.append_eq_append_iff.mp heq with ⟨body, rfl, htail⟩ | ⟨gone, rfl, -⟩
  · rw [Cut.size_append] at hlt hle ⊢
    refine ⟨body, b, htail, ?_, by omega, rfl⟩
    rintro rfl
    simp at hlt
  · rw [Cut.size_append] at hlt
    omega

/-- **The loop over an oversized text ends and cuts it into pieces.** -/
theorem cutText_eq (reasoning : Bool) (id : String) (done rest : List Char) (piece : ℕ)
    (chunks : Bins MessagePart) : ∃ bodies, Bodies rest bodies ∧
      cutText reasoning id (done ++ rest) (Cut.size done) piece chunks =
        some (Bins.pushAll MessagePart.byteLen msgInlineMax chunks
          (pieces reasoning id piece bodies)) := by
  induction hn : rest.length using Nat.strong_induction_on generalizing done rest piece chunks with
  | _ n ih =>
    by_cases hrest : rest = []
    · subst hrest
      refine ⟨[], ⟨rfl, by simp, by simp⟩, ?_⟩
      rw [cutText, dif_neg (by simp)]
      rfl
    · obtain ⟨body, rest', rfl, hne, hle, hcut⟩ := cutEnd_eq done hrest
      have hlt : rest'.length < n := by
        have := List.length_pos_of_ne_nil hne
        rw [← hn, List.length_append]
        omega
      obtain ⟨bodies, hbodies, heq⟩ := ih _ hlt (done ++ body) rest' (piece + 1)
        (pushPart chunks (sub reasoning (subId id piece) body)) rfl
      refine ⟨body :: bodies, ⟨?_, ?_, ?_⟩, ?_⟩
      · rw [List.flatten_cons, hbodies.flatten]
      · exact List.forall_mem_cons.mpr ⟨hne, hbodies.ne_nil⟩
      · exact List.forall_mem_cons.mpr ⟨hle, hbodies.size_le⟩
      · have hstart : Cut.size done < Cut.size (done ++ (body ++ rest')) := by
          have hpos : Cut.size body ≠ 0 := fun h => hne (Cut.size_eq_zero.mp h)
          simp only [Cut.size_append]
          omega
        rw [cutText, dif_pos hstart, hcut, Cut.slice_eq]
        rw [List.append_assoc, Cut.size_append] at heq
        exact heq

/-! ## The loop over the parts -/

theorem splitPart_eq (chunks : Bins MessagePart) (part : MessagePart) :
    ∃ ps, PiecesOf part ps ∧ splitPart chunks part =
      some (Bins.pushAll MessagePart.byteLen msgInlineMax chunks ps) := by
  have hcut : ∀ reasoning id text, part.Oversized reasoning id text →
      ∃ ps, PiecesOf part ps ∧ cutText reasoning id text.toList 0 0 chunks =
        some (Bins.pushAll MessagePart.byteLen msgInlineMax chunks ps) := by
    intro reasoning id text hover
    obtain ⟨bodies, hbodies, heq⟩ := cutText_eq reasoning id [] text.toList 0 chunks
    exact ⟨_, Or.inr ⟨reasoning, id, text, bodies, hover, hbodies, rfl⟩, heq⟩
  have hwhole : (∀ reasoning id text, ¬ part.Oversized reasoning id text) →
      ∃ ps, PiecesOf part ps ∧ some (pushPart chunks part) =
        some (Bins.pushAll MessagePart.byteLen msgInlineMax chunks ps) :=
    fun hnot => ⟨[part], Or.inl ⟨rfl, hnot⟩, rfl⟩
  unfold splitPart
  split
  · rename_i id text
    split_ifs with hlen
    · exact hcut false id text ⟨rfl, hlen⟩
    · apply hwhole
      rintro (_ | _) id' text' ⟨he, hover⟩
      · cases he
        exact hlen hover
      · cases he
  · rename_i id text
    split_ifs with hlen
    · exact hcut true id text ⟨rfl, hlen⟩
    · apply hwhole
      rintro (_ | _) id' text' ⟨he, hover⟩
      · cases he
      · cases he
        exact hlen hover
  · rename_i htext hreasoning
    apply hwhole
    rintro (_ | _) id' text' ⟨he, -⟩
    · exact htext _ _ he
    · exact hreasoning _ _ he

theorem foldlM_splitPart (chunks : Bins MessagePart) (parts : List MessagePart) :
    ∃ pss, List.Forall₂ PiecesOf parts pss ∧ parts.foldlM splitPart chunks =
      some (Bins.pushAll MessagePart.byteLen msgInlineMax chunks pss.flatten) := by
  induction parts generalizing chunks with
  | nil => exact ⟨[], List.Forall₂.nil, rfl⟩
  | cons part parts ih =>
    obtain ⟨ps, hps, heq⟩ := splitPart_eq chunks part
    obtain ⟨pss, hpss, heqs⟩ := ih (Bins.pushAll MessagePart.byteLen msgInlineMax chunks ps)
    refine ⟨ps :: pss, List.Forall₂.cons hps hpss, ?_⟩
    rw [List.foldlM_cons, heq, Option.bind_eq_bind, Option.bind_some, heqs, List.flatten_cons,
      Bins.pushAll_append]

/-! ## Chunks -/

/-- Within the inline limit, or with one part that cannot be cut and has all the bytes. -/
def Within (chunk : List MessagePart) : Prop :=
  Bins.room MessagePart.byteLen chunk ≤ msgInlineMax ∨
    ∃ (empty : List MessagePart) (giant : MessagePart), chunk = empty ++ [giant] ∧ (∀ p ∈ empty, p.byteLen = 0) ∧ ¬ giant.Splittable

theorem byteLen_sub (reasoning : Bool) (id : String) (body : List Char) :
    (sub reasoning id body).byteLen = Cut.size body := by
  cases reasoning <;> simp [sub, MessagePart.byteLen, len]

theorem exists_body_of_mem_pieces {reasoning : Bool} {id : String} {piece : ℕ}
    {bodies : List (List Char)} {p : MessagePart} (h : p ∈ pieces reasoning id piece bodies) :
    ∃ body ∈ bodies, p.byteLen = Cut.size body := by
  induction bodies generalizing piece with
  | nil => cases h
  | cons body bodies ih =>
    rw [pieces, List.mem_cons] at h
    obtain rfl | h := h
    · exact ⟨body, List.mem_cons_self, byteLen_sub _ _ _⟩
    · obtain ⟨body', hbody, hlen⟩ := ih h
      exact ⟨body', List.mem_cons_of_mem _ hbody, hlen⟩

theorem byteLen_le {part : MessagePart} {ps : List MessagePart} (h : PiecesOf part ps) :
    ∀ p ∈ ps, p.Splittable → p.byteLen ≤ msgInlineMax := by
  intro p hp hsplit
  obtain ⟨rfl, hnot⟩ | ⟨reasoning, id, text, bodies, -, hbodies, rfl⟩ := h
  · obtain rfl := List.mem_singleton.mp hp
    obtain ⟨reasoning, id, body, rfl⟩ := hsplit
    by_contra hover
    rw [byteLen_sub, ← String.toList_ofList (l := body)] at hover
    exact hnot reasoning id (.ofList body) ⟨rfl, not_le.mp hover⟩
  · obtain ⟨body, hbody, hlen⟩ := exists_body_of_mem_pieces hp
    rw [hlen]
    exact hbodies.size_le body hbody

theorem nodup_piecesOf {part : MessagePart} {ps : List MessagePart} (h : PiecesOf part ps) :
    (ps.map MessagePart.id).Nodup := by
  obtain ⟨rfl, -⟩ | ⟨reasoning, id, text, bodies, -, -, rfl⟩ := h
  · exact List.nodup_singleton _
  · exact nodup_pieces reasoning id bodies

theorem ne_nil_of_piecesOf {part : MessagePart} {ps : List MessagePart} (h : PiecesOf part ps) :
    ps ≠ [] := by
  obtain ⟨rfl, -⟩ | ⟨reasoning, id, text, bodies, hover, hbodies, rfl⟩ := h
  · exact List.cons_ne_nil _ _
  · intro hnil
    cases bodies with
    | nil =>
      -- a text over the limit is not empty
      have hlen := hover.2
      rw [len, ← hbodies.flatten] at hlen
      simp at hlen
    | cons body bodies => cases hnil

theorem piecesOf_of_mem {parts : List MessagePart} {pss : List (List MessagePart)}
    (h : List.Forall₂ PiecesOf parts pss) : ∀ ps ∈ pss, ∃ part, PiecesOf part ps := by
  induction h with
  | nil => simp
  | cons h _ ih => exact List.forall_mem_cons.mpr ⟨⟨_, h⟩, ih⟩

theorem within_of_bounded {chunk : List MessagePart}
    (hb : Bins.Bounded MessagePart.byteLen msgInlineMax chunk)
    (hle : ∀ p ∈ chunk, p.Splittable → p.byteLen ≤ msgInlineMax) : Within chunk := by
  obtain hroom | ⟨empty, giant, rfl, hempty, hgiant⟩ := hb
  · exact Or.inl hroom
  · refine Or.inr ⟨empty, giant, rfl, ?_, ?_⟩
    · intro p hp
      rw [Bins.room, List.sum_eq_zero_iff] at hempty
      exact hempty _ (List.mem_map_of_mem hp)
    · intro hsplit
      exact absurd (hle giant (by simp) hsplit) (not_le.mpr hgiant)

/-- **Splitting is lossless and bounded**: the chunks hold every part once and in order, a long
text in pieces cut between characters, and no chunk goes over the limit but for a part that cannot
be cut. -/
theorem split_lossless (parts : List MessagePart) :
    ∃ chunks pss, splitParts parts = some chunks ∧ List.Forall₂ PiecesOf parts pss ∧
      chunks.flatten = pss.flatten ∧ (∀ ps ∈ pss, (ps.map MessagePart.id).Nodup) ∧
      (∀ chunk ∈ chunks, Within chunk) ∧ (parts ≠ [] → ∀ chunk ∈ chunks, chunk ≠ []) := by
  obtain ⟨pss, hpss, heq⟩ := foldlM_splitPart Bins.empty parts
  let bins := Bins.pushAll MessagePart.byteLen msgInlineMax Bins.empty pss.flatten
  have hflat : bins.all.flatten = pss.flatten := by
    rw [Bins.flatten_pushAll]
    rfl
  have hof := piecesOf_of_mem hpss
  refine ⟨bins.all, pss, ?_, hpss, hflat, ?_, ?_, ?_⟩
  · rw [splitParts, heq]
    rfl
  · intro ps hps
    obtain ⟨part, h⟩ := hof ps hps
    exact nodup_piecesOf h
  · intro chunk hchunk
    apply within_of_bounded (Bins.bounded_pushAll _ chunk hchunk)
    intro p hp
    have hmem : p ∈ pss.flatten := hflat ▸ List.mem_flatten.mpr ⟨chunk, hchunk, hp⟩
    obtain ⟨ps, hps, hp⟩ := List.mem_flatten.mp hmem
    obtain ⟨part, h⟩ := hof ps hps
    exact byteLen_le h p hp
  · intro hne
    apply Bins.ne_nil_pushAll
    cases hpss with
    | nil => exact absurd rfl hne
    | cons h _ => exact List.append_ne_nil_of_left_ne_nil (ne_nil_of_piecesOf h) _

/-- A part one byte over the limit. -/
def giant : MessagePart := .error "e" (.ofList (List.replicate (msgInlineMax + 1) 'x'))

theorem byteLen_giant : giant.byteLen = msgInlineMax + 1 := by
  simp only [giant, MessagePart.byteLen, len, String.toList_ofList, Cut.size, List.map_replicate,
    List.sum_replicate]
  rfl

/-- **No parts make one empty chunk, and an empty text shares a chunk with a part over the
limit.** -/
theorem split_exceptions : splitParts [] = some [[]] ∧
    splitParts [.text "t" "", giant] = some [[.text "t" "", giant]] ∧
      msgInlineMax < Bins.room MessagePart.byteLen [.text "t" "", giant] := by
  refine ⟨rfl, rfl, ?_⟩
  rw [Bins.room, List.map_cons, List.map_cons, List.map_nil, byteLen_giant]
  decide

end Zeron.Session
