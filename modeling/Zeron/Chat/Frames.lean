import Zeron.Chat.Log
import Zeron.Lib.Json
import Zeron.Lib.Records
import Zeron.Lib.Utf8

/-!
# Wire frames

`[type u8][headerLen u32 LE][header JSON][payload]`, written and read in Rust
(`crates/sync/src/chat_frames.rs`) and in TypeScript (`edge/src/chat-frames.ts`), and the body of
the rows request that holds a list of them.

* `JsonLib`: a JSON library, as far as frames use it;
* `encode`, `decode`; `encodeFrame`, `decodeFrame`: the two codecs, by `layout` and `decodeWith`;
* `rowsBody`, `parseRows`: the server's body and the client's loop over it;
* `decodeWith_layout`, `decode_eq`, `parseRows_take`: round trip, agreement, a body cut short;
* **`chat_frames`**; `frames_differ`: a byte order mark and a cut.
-/

namespace Zeron.Chat

open Records

/-! ## JSON -/

/-- A JSON library: the text it prints for a value, and the value it reads from a text. -/
structure JsonLib where
  print : Json → List Char
  parse : List Char → Option Json

/-- `is_object`; `typeof header === "object"`, neither null nor an array. -/
def isObject : Json → Bool
  | .obj _ => true
  | _ => false

/-- `serde_json::from_slice`. -/
def fromSlice (serde : JsonLib) (bytes : Bytes) : Option Json := (fromUtf8 bytes).bind serde.parse

/-- A byte order mark is taken off. -/
def dropMark : List Char → List Char
  | '\uFEFF' :: text => text
  | text => text

/-- `textDecoder.decode`, where `lossy` reads bytes that are no UTF-8. -/
def textDecode (lossy : Bytes → List Char) (bytes : Bytes) : List Char :=
  match fromUtf8 bytes with
  | some text => dropMark text
  | none => lossy bytes

/-- `JSON.parse(textDecoder.decode(bytes))`. -/
def parseDecoded (js : JsonLib) (lossy : Bytes → List Char) (bytes : Bytes) : Option Json :=
  js.parse (textDecode lossy bytes)

/-! ## Frames -/

/-- `MAX_HEADER_BYTES`. -/
def maxHeaderBytes : ℕ := 4096

/-- The type bytes: hello, state, rowsReq, row, rowsDone, push, ack, presence, probe, probeOk,
error. -/
def knownTypes : List UInt8 := [1, 2, 3, 4, 5, 6, 7, 8, 9, 10, 11]

structure WireFrame where
  kind : UInt8
  header : Json
  payload : Bytes
  deriving DecidableEq

/-- A frame with its header printed. -/
def layout (print : Json → List Char) (frame : WireFrame) : Bytes :=
  let header := utf8 (print frame.header)
  frame.kind :: (leBytes 4 header.length ++ (header ++ frame.payload))

/-- The length field of a header. -/
def headerLen (bytes : Bytes) : ℕ := leValue ((bytes.drop 1).take 4)

/-- The bytes of a header. -/
def headerBytes (bytes : Bytes) : Bytes := (bytes.drop 5).take (headerLen bytes)

/-- The decoder with its type check and its JSON. -/
def decodeWith (accepts : UInt8 → Bool) (parse : Bytes → Option Json) (bytes : Bytes) :
    Option WireFrame :=
  match bytes with
  | [] => none
  | kind :: _ =>
    if bytes.length < 5 then none
    else if !accepts kind then none
    else if headerLen bytes > maxHeaderBytes ∨ 5 + headerLen bytes > bytes.length then none
    else match parse (headerBytes bytes) with
      | none => none
      | some header =>
        if !isObject header then none
        else some { kind, header, payload := bytes.drop (5 + headerLen bytes) }

/-- `encode` of the client. -/
def encode (serde : JsonLib) : WireFrame → Bytes := layout serde.print

/-- `decode` of the client, which tolerates future types. -/
def decode (serde : JsonLib) : Bytes → Option WireFrame :=
  decodeWith (fun _ => true) (fromSlice serde)

/-- `encodeFrame` of the server. -/
def encodeFrame (js : JsonLib) : WireFrame → Bytes := layout js.print

/-- `decodeFrame` of the server. -/
def decodeFrame (js : JsonLib) (lossy : Bytes → List Char) : Bytes → Option WireFrame :=
  decodeWith (fun kind => decide (kind ∈ knownTypes)) (parseDecoded js lossy)

/-- The body of a rows response. -/
def rowsBody (js : JsonLib) (frames : List WireFrame) : Bytes :=
  (frames.map (encodeFrame js)).flatMap record

/-- The client's loop over the body; a frame that does not decode is skipped. -/
def parseRows (serde : JsonLib) (body : Bytes) : List WireFrame :=
  (records body).filterMap (decode serde)

/-! ## Round trips -/

/-- A frame whose header is an object of a size that is allowed, and what the library prints for
it: text that begins with a brace and is read back. -/
structure Readable (writer reader : JsonLib) (frame : WireFrame) : Prop where
  kind : frame.kind ∈ knownTypes
  object : isObject frame.header = true
  small : (utf8 (writer.print frame.header)).length ≤ maxHeaderBytes
  brace : (writer.print frame.header).head? = some '{'
  parse : reader.parse (writer.print frame.header) = some frame.header

section RoundTrip

variable {writer reader : JsonLib} {frame : WireFrame}

theorem headerLen_layout {print : Json → List Char}
    (h : (utf8 (print frame.header)).length ≤ maxHeaderBytes) :
    headerLen (layout print frame) = (utf8 (print frame.header)).length := by
  rw [headerLen, layout]
  exact leValue_take (h.trans_lt (by decide)) _

theorem drop_layout (print : Json → List Char) (frame : WireFrame) :
    (layout print frame).drop 5 = utf8 (print frame.header) ++ frame.payload := by
  rw [layout, List.drop_succ_cons, List.drop_left' (length_leBytes 4 _)]

theorem decodeWith_layout {accepts : UInt8 → Bool} {parse : Bytes → Option Json}
    {print : Json → List Char} (haccepts : accepts frame.kind = true)
    (hobject : isObject frame.header = true)
    (hsmall : (utf8 (print frame.header)).length ≤ maxHeaderBytes)
    (hparse : parse (utf8 (print frame.header)) = some frame.header) :
    decodeWith accepts parse (layout print frame) = some frame := by
  have hlen := headerLen_layout hsmall
  have hdrop := drop_layout print frame
  have hheader : headerBytes (layout print frame) = utf8 (print frame.header) := by
    rw [headerBytes, hdrop, hlen, List.take_left]
  have hpayload : (layout print frame).drop (5 + headerLen (layout print frame)) =
      frame.payload := by
    rw [← List.drop_drop, hdrop, hlen, List.drop_left]
  have htotal : (layout print frame).length =
      5 + (utf8 (print frame.header)).length + frame.payload.length := by
    simp [layout]
    omega
  unfold decodeWith
  split
  · rename_i hnil
    cases hnil
  · rename_i kind rest hcons
    obtain rfl : kind = frame.kind := by
      rw [layout, List.cons.injEq] at hcons
      exact hcons.1.symm
    rw [if_neg (by omega), haccepts, if_neg (by decide), if_neg (by omega), hheader, hparse]
    dsimp only
    rw [hobject, if_neg (by decide), hpayload]

theorem decode_layout (h : Readable writer reader frame) :
    decode reader (layout writer.print frame) = some frame := by
  apply decodeWith_layout rfl h.object h.small
  rw [fromSlice, fromUtf8_utf8, Option.bind_some, h.parse]

theorem dropMark_of_head {text : List Char} (h : text.head? ≠ some '\uFEFF') :
    dropMark text = text := by
  unfold dropMark
  split
  · exact absurd rfl h
  · rfl

theorem decodeFrame_layout (lossy : Bytes → List Char) (h : Readable writer reader frame) :
    decodeFrame reader lossy (layout writer.print frame) = some frame := by
  apply decodeWith_layout (decide_eq_true h.kind) h.object h.small
  have hhead : (writer.print frame.header).head? ≠ some '\uFEFF' := by
    rw [h.brace]
    decide
  rw [parseDecoded, textDecode, fromUtf8_utf8]
  dsimp only
  rw [dropMark_of_head hhead, h.parse]

end RoundTrip

/-! ## Agreement -/

/-- Bytes that hold as much as their length field says. -/
def Framed (bytes : Bytes) : Prop :=
  headerLen bytes ≤ maxHeaderBytes ∧ 5 + headerLen bytes ≤ bytes.length

/-- The header is text without a mark, and both libraries read the same from it. -/
def SameHeader (serde js : JsonLib) (bytes : Bytes) : Prop :=
  ∃ text, fromUtf8 (headerBytes bytes) = some text ∧ text.head? ≠ some '\uFEFF' ∧
    serde.parse text = js.parse text

/-- **The decoders agree** on a frame of a known type where the libraries agree on its header. -/
theorem decode_eq {serde js : JsonLib} (lossy : Bytes → List Char) {kind : UInt8} {rest : Bytes}
    (hkind : kind ∈ knownTypes)
    (h : Framed (kind :: rest) → SameHeader serde js (kind :: rest)) :
    decode serde (kind :: rest) = decodeFrame js lossy (kind :: rest) := by
  by_cases hframed : Framed (kind :: rest)
  · obtain ⟨text, htext, hhead, hparse⟩ := h hframed
    have hsame : fromSlice serde (headerBytes (kind :: rest)) =
        parseDecoded js lossy (headerBytes (kind :: rest)) := by
      rw [fromSlice, parseDecoded, textDecode, htext, Option.bind_some, hparse]
      dsimp only
      rw [dropMark_of_head hhead]
    simp only [decode, decodeFrame, decodeWith, hsame, hkind, decide_true]
  · have hbad : headerLen (kind :: rest) > maxHeaderBytes ∨
        5 + headerLen (kind :: rest) > (kind :: rest).length := by
      rw [Framed] at hframed
      omega
    simp only [decode, decodeFrame, decodeWith, hkind, decide_true, Bool.not_true,
      Bool.false_eq_true, if_false, if_pos hbad]

/-! ## Bodies -/

section Body

variable {serde js : JsonLib}

theorem decode_frames {frames : List WireFrame} (h : ∀ f ∈ frames, Readable js serde f) :
    (frames.map (encodeFrame js)).filterMap (decode serde) = frames := by
  induction frames with
  | nil => rfl
  | cons f frames ih =>
    rw [List.forall_mem_cons] at h
    have hf : decode serde (encodeFrame js f) = some f := decode_layout h.1
    rw [List.map_cons, List.filterMap_cons_some hf, ih h.2]

theorem lt_of_mem_map {frames : List WireFrame}
    (h : ∀ f ∈ frames, (encodeFrame js f).length < 2 ^ 32) :
    ∀ bytes ∈ frames.map (encodeFrame js), bytes.length < 2 ^ 32 := by
  intro bytes hbytes
  obtain ⟨f, hf, rfl⟩ := List.mem_map.mp hbytes
  exact h f hf

theorem parseRows_rowsBody {frames : List WireFrame} (h : ∀ f ∈ frames, Readable js serde f)
    (hlen : ∀ f ∈ frames, (encodeFrame js f).length < 2 ^ 32) :
    parseRows serde (rowsBody js frames) = frames := by
  have hrecords := records_append (lt_of_mem_map hlen) []
  have hnil : records [] = [] := records_of_short (by decide)
  rw [hnil, List.append_nil, List.append_nil] at hrecords
  rw [parseRows, rowsBody, hrecords, decode_frames h]

/-- **A body cut inside a frame is read as the frames before it.** -/
theorem parseRows_take {pre post : List WireFrame} {f : WireFrame}
    (h : ∀ g ∈ pre, Readable js serde g)
    (hlen : ∀ g ∈ pre ++ [f], (encodeFrame js g).length < 2 ^ 32) {n : ℕ}
    (hn : n < (record (encodeFrame js f)).length) :
    parseRows serde ((rowsBody js (pre ++ f :: post)).take ((rowsBody js pre).length + n)) =
      pre := by
  have hbody : rowsBody js (pre ++ f :: post) =
      rowsBody js pre ++ (record (encodeFrame js f) ++ rowsBody js post) := by
    simp [rowsBody]
  have hpre : ∀ g ∈ pre, (encodeFrame js g).length < 2 ^ 32 :=
    fun g hg => hlen g (List.mem_append_left _ hg)
  rw [hbody, List.take_length_add_append, List.take_append_of_le_length hn.le, parseRows, rowsBody,
    records_append (lt_of_mem_map hpre), records_take (hlen f (by simp)) hn, List.append_nil,
    decode_frames h]

end Body

/-- What the two codecs hold to. -/
structure Contract (serde js : JsonLib) (lossy : Bytes → List Char) : Prop where
  client : ∀ f, Readable serde serde f → decode serde (encode serde f) = some f
  server : ∀ f, Readable js js f → decodeFrame js lossy (encodeFrame js f) = some f
  up : ∀ f, Readable serde js f → decodeFrame js lossy (encode serde f) = some f
  down : ∀ f, Readable js serde f → decode serde (encodeFrame js f) = some f
  agree : ∀ kind rest, kind ∈ knownTypes →
    (Framed (kind :: rest) → SameHeader serde js (kind :: rest)) →
    decode serde (kind :: rest) = decodeFrame js lossy (kind :: rest)
  body : ∀ frames, (∀ f ∈ frames, Readable js serde f) →
    (∀ f ∈ frames, (encodeFrame js f).length < 2 ^ 32) →
    parseRows serde (rowsBody js frames) = frames
  cut : ∀ pre f post n, (∀ g ∈ pre, Readable js serde g) →
    (∀ g ∈ pre ++ [f], (encodeFrame js g).length < 2 ^ 32) →
    n < (record (encodeFrame js f)).length →
    parseRows serde ((rowsBody js (pre ++ f :: post)).take ((rowsBody js pre).length + n)) = pre

/-- **Frames round-trip, the decoders agree up to their JSON, and a body cut short gives the
frames before the cut.** -/
theorem chat_frames (serde js : JsonLib) (lossy : Bytes → List Char) : Contract serde js lossy where
  client _ h := decode_layout h
  server _ h := decodeFrame_layout lossy h
  up _ h := decodeFrame_layout lossy h
  down _ h := decode_layout h
  agree _ _ hkind h := decode_eq lossy hkind h
  body _ h hlen := parseRows_rowsBody h hlen
  cut _ _ _ _ h hlen hn := parseRows_take h hlen hn

/-- A library that knows the empty object. -/
def braces : JsonLib where
  print _ := ['{', '}']
  parse text := if text = ['{', '}'] then some (.obj []) else none

/-- A probe. -/
def probe : WireFrame := ⟨9, .obj [], []⟩

theorem chat_frames_probe (lossy : Bytes → List Char) :
    decode braces (encodeFrame braces probe) = some probe ∧
      parseRows braces ((rowsBody braces [probe, probe]).take 12) = [probe] := by
  have hprobe : Readable braces braces probe :=
    ⟨by decide, rfl, by decide, rfl, rfl⟩
  have hcontract := chat_frames braces braces lossy
  refine ⟨hcontract.down probe hprobe, ?_⟩
  exact hcontract.cut [probe] probe [] 1 (by simpa using hprobe) (by decide) (by decide)

/-- **A header behind a byte order mark is read by the server alone, and a body cut inside its
second frame is a shorter list.** -/
theorem frames_differ :
    decode braces [9, 5, 0, 0, 0, 0xef, 0xbb, 0xbf, 123, 125] = none ∧
      decodeFrame braces (fun _ => []) [9, 5, 0, 0, 0, 0xef, 0xbb, 0xbf, 123, 125] = some probe ∧
      parseRows braces ((rowsBody braces [probe, probe]).take 12) = [probe] := by
  decide +kernel

end Zeron.Chat
