import Zeron.Peer.Signaling

/-!
# Preview presence

`preview-room.ts`: the sockets of a user's devices, the catalog rows, and what each socket was sent.
A socket stays listed until its close or its error has been handled.

* `Room`, `step`: joins, messages, closes and alarms;
* `view`: the catalogs that a socket knows of; `Room.shown`: those that the room has for it;
* `Consistent`: one socket a device, rows of connected devices, superseded sockets without effect,
  and **views that equal the room's catalogs**;
* **`presence_consistent`**.
-/

namespace Zeron.Peer.Preview

/-- The messages of the room. -/
inductive Outgoing where
  | catalog (device : String) (services : List Service)
  | gone (device : String)
  | signal (sender : String) (signal : PreviewSignal)
  deriving DecidableEq, Repr

/-- A socket with its attachment, whose device is empty once it is superseded or removed. The room
has `closed` it; its sends throw if it is `broken`. It was `sent` the messages, and `superseded` by
a socket of its device. -/
structure Socket where
  id : ℕ
  device : String
  connected : ℕ
  lastSeen : ℕ
  budgetAt : ℕ
  messages : ℕ
  pong : ℕ
  closed : Option (ℕ × String)
  broken : Bool
  superseded : Bool
  sent : List Outgoing
  deriving DecidableEq, Repr

structure Room where
  sockets : List Socket
  rows : String → Option (List Service)
  now : ℕ
  nextId : ℕ

def Room.start : Room := { sockets := [], rows := fun _ => none, now := 0, nextId := 0 }

/-- A message that arrives. -/
inductive Message where
  | binary
  /-- Its bytes, and the value that `JSON.parse` makes of it. -/
  | text (bytes : ℕ) (value : Option Json)

inductive Action where
  | clock (now : ℕ)
  | pong (id : ℕ)
  /-- The next sends of a socket throw. -/
  | fail (id : ℕ)
  | join (device : String)
  | message (id : ℕ) (message : Message)
  /-- `webSocketClose` and `webSocketError`. -/
  | handle (id : ℕ)
  /-- The runtime drops a socket whose close it has handed over. -/
  | unlist (id : ℕ)
  | alarm

namespace Socket

/-- `ws.close`. -/
def close (s : Socket) (code : ℕ) (reason : String) : Socket :=
  { s with closed := s.closed.or (some (code, reason)) }

/-- `send`. -/
def send (value : Outgoing) (s : Socket) : Socket :=
  if s.closed.isSome ∨ s.broken then s.close 1011 "Signaling disconnected"
  else { s with sent := s.sent ++ [value] }

/-- The attachment of a new socket. -/
def fresh (id : ℕ) (device : String) (now : ℕ) : Socket where
  id
  device
  connected := now
  lastSeen := now
  budgetAt := now
  messages := 0
  pong := 0
  closed := none
  broken := false
  superseded := false
  sent := []

/-- The socket is without a device. -/
def blank (s : Socket) : Socket := { s with device := "" }

/-- The socket gives way to another one of its device. -/
def supersede (s : Socket) : Socket :=
  { s.blank with superseded := true }.close 1000 "Device reconnected"

/-- A message counts against the budget of ten seconds. -/
def charge (now : ℕ) (s : Socket) : Socket :=
  let fresh := now > s.budgetAt + 10000
  { s with
    budgetAt := if fresh then now else s.budgetAt
    messages := (if fresh then 0 else s.messages) + 1
    lastSeen := now }

end Socket

namespace Room

/-- What the room does with one socket. -/
def modify (room : Room) (id : ℕ) (f : Socket → Socket) : Room :=
  { room with sockets := room.sockets.map fun s => if s.id = id then f s else s }

def socket (room : Room) (id : ℕ) : Option Socket := room.sockets.find? (·.id = id)

/-- The socket of a device. -/
def ofDevice (room : Room) (device : String) : Option Socket :=
  room.sockets.find? fun s => s.device ≠ "" ∧ s.device = device

/-- `catalog`. -/
def catalog (room : Room) (device : String) : List Service := (room.rows device).getD []

/-- `broadcast`. -/
def broadcast (room : Room) (value : Outgoing) (except : ℕ) : Room :=
  { room with
    sockets := room.sockets.map fun s => if s.device ≠ "" ∧ s.id ≠ except then s.send value else s }

def setRow (room : Room) (device : String) (services : Option (List Service)) : Room :=
  { room with rows := Function.update room.rows device services }

/-- `remove`. -/
def remove (room : Room) (id : ℕ) : Room :=
  match room.socket id with
  | none => room
  | some s =>
    if s.device = "" then room
    else ((room.modify id Socket.blank).setRow s.device none).broadcast (.gone s.device) id

/-- The joining socket is sent the catalogs of the others. -/
def tellPeers (room : Room) (server : Socket) : Socket :=
  ((room.sockets.map (·.device)).filter fun peer => peer ≠ "" ∧ peer ≠ server.device).foldl
    (fun s peer => s.send (.catalog peer (room.catalog peer))) server

/-- The runtime lists a socket. -/
def list (room : Room) (server : Socket) : Room :=
  { room with sockets := room.sockets ++ [server], nextId := room.nextId + 1 }

/-- The others are told of a device that joins. -/
def announce (room : Room) (device : String) : Room :=
  (room.setRow device none).broadcast (.catalog device []) room.nextId

/-- `fetch`, from where the socket of the device is out of the way. -/
def accept (room : Room) (device : String) : Room :=
  (room.announce device).list
    ((room.announce device).tellPeers (Socket.fresh room.nextId device room.now))

/-- `fetch`. -/
def join (room : Room) (device : String) : Room :=
  if !idRe device then room
  else
    match room.ofDevice device with
    | none =>
      if (room.sockets.filter (·.device ≠ "")).length ≥ 16 then room else room.accept device
    | some existing => (room.modify existing.id Socket.supersede).accept device

/-- What a parsed message does, of the socket `id` with the device `own`. -/
def receive (room : Room) (id : ℕ) (own : String) (value : Json) : Room :=
  match value with
  | .obj members =>
    if text members "type" = some "catalog" then
      match (field members "services").bind fun v => previewCatalog v own with
      | none => room.modify id fun s => s.close 1008 "Invalid preview catalog"
      | some services => (room.setRow own (some services)).broadcast (.catalog own services) id
    else
      match (text members "to").filter fun device =>
        text members "type" = some "signal" ∧ idRe device ∧ device ≠ own with
      | some device =>
        match (field members "signal").bind previewSignal with
        | none => room.modify id fun s => s.close 1008 "Invalid preview signaling"
        | some signal =>
          match room.ofDevice device with
          | some target => room.modify target.id (·.send (.signal own signal))
          | none => room.modify id (·.send (.gone device))
      | none => room.modify id fun s => s.close 1008 "Unsupported preview message"
  | .arr _ => room.modify id fun s => s.close 1008 "Unsupported preview message"
  | _ => room.modify id fun s => s.close 1008 "Invalid signaling message"

/-- `webSocketMessage`. -/
def message (room : Room) (id : ℕ) (message : Message) : Room :=
  match room.socket id with
  | none => room
  | some s =>
    if s.device = "" then room
    else
      match message with
      | .binary => room.modify id fun s => s.close 1008 "Signaling messages only"
      | .text bytes value =>
        if bytes > 1024 * 1024 then room.modify id fun s => s.close 1008 "Signaling messages only"
        else if (s.charge room.now).messages > 120 then
          room.modify id fun s => s.close 1008 "Signaling rate exceeded"
        else
          match value with
          | none => (room.modify id (·.charge room.now)).modify id fun s =>
              s.close 1008 "Invalid signaling JSON"
          | some value => (room.modify id (·.charge room.now)).receive id s.device value

/-- What an alarm does with a socket: it is reaped after 45 s of silence or 15 min. -/
def reap (room : Room) (id : ℕ) : Room :=
  match room.socket id with
  | none => room
  | some s =>
    if room.now > max s.lastSeen s.pong + 45000 ∨ room.now > s.connected + 15 * 60000 then
      (room.remove id).modify id fun s => s.close 1000 "Refresh device presence"
    else room

/-- `alarm`. -/
def alarm (room : Room) : Room :=
  ((room.sockets.filter (·.device ≠ "")).map (·.id)).foldl reap room

end Room

/-- One step; what does not apply changes nothing. -/
def step (room : Room) : Action → Room
  | .clock now => { room with now }
  | .pong id => room.modify id fun s => { s with pong := room.now }
  | .fail id => room.modify id fun s => { s with broken := true }
  | .join device => room.join device
  | .message id message => room.message id message
  | .handle id => room.remove id
  | .unlist id =>
    { room with sockets := room.sockets.filter fun s => ¬(s.id = id ∧ s.device = "") }
  | .alarm => room.alarm

/-! ## Presence -/

/-- What a message tells of a device's catalog. -/
def Outgoing.tell (value : Outgoing) (known : String → Option (List Service)) :
    String → Option (List Service) :=
  match value with
  | .catalog device services => Function.update known device (some services)
  | .gone device => Function.update known device none
  | .signal _ _ => known

/-- The catalogs that a socket knows of, from all that it was sent. -/
def view (sent : List Outgoing) : String → Option (List Service) :=
  sent.foldl (fun known value => value.tell known) fun _ => none

namespace Room

/-- A socket of the room has the device. -/
def Carries (room : Room) (device : String) : Prop := ∃ s ∈ room.sockets, s.device = device

instance (room : Room) : DecidablePred room.Carries :=
  fun device => inferInstanceAs (Decidable (∃ s ∈ room.sockets, s.device = device))

/-- The catalogs of the room's other devices. -/
def shown (room : Room) (own device : String) : Option (List Service) :=
  if device ≠ "" ∧ device ≠ own ∧ room.Carries device then some (room.catalog device) else none

end Room

/-- **Presence is consistent.** -/
structure Consistent (room : Room) : Prop where
  /-- No two sockets have the same device. -/
  one : room.sockets.Pairwise fun s t => s.device ≠ "" → s.device ≠ t.device
  /-- There is a row only of a device with such a socket. -/
  rows : ∀ device services, room.rows device = some services → device ≠ "" ∧ room.Carries device
  /-- Messages and closes of a superseded socket change nothing. -/
  superseded : ∀ s ∈ room.sockets, s.superseded →
    (∀ message, step room (.message s.id message) = room) ∧ step room (.handle s.id) = room
  /-- The view of a connected device equals the room's catalogs of the others. -/
  views : ∀ s ∈ room.sockets, s.device ≠ "" → s.closed = none →
    ∀ device, view s.sent device = room.shown s.device device

/-! ## The sockets -/

section Sockets

variable {room room' : Room} {s t : Socket} {id : ℕ} {d own : String} {value : Outgoing}

@[simp] theorem Socket.send_id (value : Outgoing) (s : Socket) : (s.send value).id = s.id := by
  unfold send close; split_ifs <;> rfl

@[simp] theorem Socket.send_device (value : Outgoing) (s : Socket) :
    (s.send value).device = s.device := by
  unfold send close; split_ifs <;> rfl

@[simp] theorem Socket.send_superseded (value : Outgoing) (s : Socket) :
    (s.send value).superseded = s.superseded := by
  unfold send close; split_ifs <;> rfl

theorem Socket.closed_of_close {code : ℕ} {reason : String}
    (h : (s.close code reason).closed = none) : s.closed = none := by
  unfold close at h
  cases hc : s.closed with
  | none => rfl
  | some c => simp [hc] at h

theorem Socket.sent_of_send (h : (s.send value).closed = none) :
    s.closed = none ∧ (s.send value).sent = s.sent ++ [value] := by
  unfold send at h ⊢
  split_ifs at h ⊢ with hc
  · unfold close at h
    cases hclosed : s.closed <;> simp [hclosed] at h
  · exact ⟨h, rfl⟩

@[simp] theorem view_concat (sent : List Outgoing) (value : Outgoing) :
    view (sent ++ [value]) = value.tell (view sent) := by
  unfold view; rw [List.foldl_append]; rfl

/-- What holds of the sockets, whatever they know. -/
structure Frame (room : Room) : Prop where
  ids : (room.sockets.map (·.id)).Nodup
  lt : ∀ s ∈ room.sockets, s.id < room.nextId
  one : ∀ s ∈ room.sockets, ∀ t ∈ room.sockets, s.device ≠ "" → s.device = t.device → s.id = t.id
  blank : ∀ s ∈ room.sockets, s.superseded → s.device = ""

theorem Frame.eq_of_id (h : Frame room) (hs : s ∈ room.sockets) (ht : t ∈ room.sockets)
    (heq : s.id = t.id) : s = t := List.inj_on_of_nodup_map h.ids hs ht heq

theorem Frame.socket (h : Frame room) (hs : s ∈ room.sockets) : room.socket s.id = some s := by
  unfold Room.socket
  cases hf : room.sockets.find? (·.id = s.id) with
  | none => simpa using List.find?_eq_none.mp hf s hs
  | some t =>
    have hid : t.id = s.id := by simpa using List.find?_some hf
    rw [h.eq_of_id (List.mem_of_find?_eq_some hf) hs hid]

theorem mem_of_socket (h : room.socket id = some s) : s ∈ room.sockets ∧ s.id = id :=
  ⟨List.mem_of_find?_eq_some h, by simpa using List.find?_some h⟩

theorem Frame.pairwise (h : Frame room) :
    room.sockets.Pairwise fun s t => s.device ≠ "" → s.device ≠ t.device :=
  (List.pairwise_map.mp h.ids).imp_of_mem fun hs ht hne hdevice heq =>
    hne (h.one _ hs _ ht hdevice heq)

theorem Frame.map (h : Frame room) {g : Socket → Socket} (hid : ∀ s, (g s).id = s.id)
    (hdevice : ∀ s, (g s).device = s.device ∨ (g s).device = "")
    (hblank : ∀ s, (g s).superseded → (g s).device = "" ∨ s.superseded) :
    Frame { room with sockets := room.sockets.map g } where
  ids := by
    rw [List.map_map]
    exact (List.map_congr_left fun s _ => hid s) ▸ h.ids
  lt := by
    intro s hs
    obtain ⟨t, ht, rfl⟩ := List.mem_map.mp hs
    rw [hid]
    exact h.lt t ht
  one := by
    intro s hs t ht hne heq
    obtain ⟨a, ha, rfl⟩ := List.mem_map.mp hs
    obtain ⟨b, hb, rfl⟩ := List.mem_map.mp ht
    have ha' := (hdevice a).resolve_right hne
    have hb' := (hdevice b).resolve_right (heq ▸ hne)
    rw [hid, hid]
    exact h.one a ha b hb (ha' ▸ hne) (ha'.symm.trans (heq.trans hb'))
  blank := by
    intro s hs hsup
    obtain ⟨t, ht, rfl⟩ := List.mem_map.mp hs
    rcases hblank t hsup with hb | hb
    · exact hb
    · rcases hdevice t with hd | hd
      · rw [hd]; exact h.blank t ht hb
      · exact hd

end Sockets

/-! ## Rows and views -/

/-- There are rows of connected devices only, but for the device `except`. -/
def Rows (room : Room) (except : Option String) : Prop :=
  ∀ d services, room.rows d = some services → some d ≠ except → d ≠ "" ∧ room.Carries d

/-- The views are right, but for the device `except` at the others. -/
def Views (room : Room) (except : Option String) : Prop :=
  ∀ s ∈ room.sockets, s.device ≠ "" → s.closed = none →
    ∀ d, some d ≠ except ∨ s.device = d → view s.sent d = room.shown s.device d

/-- What holds in every state of a run. -/
structure Invariant (room : Room) : Prop extends Frame room where
  rows : Rows room none
  views : Views room none

section Views

variable {room room' : Room} {id : ℕ} {d own : String} {value : Outgoing} {except : Option String}

theorem shown_congr {room room' : Room} {d own : String} (hrow : room'.catalog d = room.catalog d)
    (hc : d ≠ "" → d ≠ own → (room'.Carries d ↔ room.Carries d)) :
    room'.shown own d = room.shown own d := by
  unfold Room.shown
  by_cases hd : d ≠ "" ∧ d ≠ own
  · have hc := hc hd.1 hd.2
    simp only [hd.1, hd.2, hrow, hc, ne_eq, not_false_eq_true, true_and]
  · rw [if_neg fun h => hd ⟨h.1, h.2.1⟩, if_neg fun h => hd ⟨h.1, h.2.1⟩]

theorem shown_self (room : Room) (d : String) : room.shown d d = none :=
  if_neg fun h => h.2.1 rfl

theorem shown_of_not_carries (room : Room) {d : String} (h : ¬room.Carries d) (own : String) :
    room.shown own d = none :=
  if_neg fun h' => h h'.2.2

theorem catalog_setRow_self (services : Option (List Service)) :
    (room.setRow d services).catalog d = services.getD [] := by
  unfold Room.catalog Room.setRow; simp

theorem catalog_setRow_of_ne {services : Option (List Service)} {e : String} (h : e ≠ d) :
    (room.setRow d services).catalog e = room.catalog e := by
  unfold Room.catalog Room.setRow; simp [h]

theorem carries_map {g : Socket → Socket} (hg : ∀ s, (g s).device = s.device) :
    Room.Carries { room with sockets := room.sockets.map g } d ↔ room.Carries d := by
  unfold Room.Carries
  constructor
  · rintro ⟨s, hs, hd⟩
    obtain ⟨t, ht, rfl⟩ := List.mem_map.mp hs
    exact ⟨t, ht, by rw [← hd, hg]⟩
  · rintro ⟨s, hs, hd⟩
    exact ⟨g s, List.mem_map_of_mem hs, by rw [hg, hd]⟩

/-- The sockets change one by one and keep their devices; what an open one was sent tells the same,
but for `except`. -/
theorem Views.map (h : Views room except) {g : Socket → Socket}
    (hdevice : ∀ s, (g s).device = s.device)
    (hg : ∀ s ∈ room.sockets, s.device ≠ "" → (g s).closed = none →
      s.closed = none ∧ ∀ d, view (g s).sent d = view s.sent d) :
    Views { room with sockets := room.sockets.map g } except := by
  intro s hs hne hclosed d hd
  obtain ⟨t, ht, rfl⟩ := List.mem_map.mp hs
  rw [hdevice] at hne hd
  obtain ⟨hopen, hview⟩ := hg t ht hne hclosed
  rw [hview, hdevice, h t ht hne hopen d hd]
  have hshown : Room.shown { room with sockets := room.sockets.map g } t.device d =
      room.shown t.device d := shown_congr rfl fun _ _ => carries_map hdevice
  exact hshown.symm

theorem Rows.map (h : Rows room except) {g : Socket → Socket}
    (hdevice : ∀ s, (g s).device = s.device) :
    Rows { room with sockets := room.sockets.map g } except := fun d services hrow hd =>
  (h d services hrow hd).imp_right (carries_map hdevice).mpr

/-- **A socket is touched**: it keeps its device and what it was sent, or is told nothing new. -/
theorem Invariant.modify (h : Invariant room) {f : Socket → Socket} (hid : ∀ s, (f s).id = s.id)
    (hdevice : ∀ s, (f s).device = s.device) (hsup : ∀ s, (f s).superseded = s.superseded)
    (hsent : ∀ s ∈ room.sockets, s.id = id → s.device ≠ "" → (f s).closed = none →
      s.closed = none ∧ ∀ d, view (f s).sent d = view s.sent d) :
    Invariant (room.modify id f) := by
  have hg : ∀ s : Socket, (if s.id = id then f s else s).device = s.device := fun s => by
    split_ifs
    · exact hdevice s
    · rfl
  refine { h.toFrame.map (fun s => ?_) (fun s => .inl (hg s)) (fun s hs => .inr ?_) with
    rows := h.rows.map hg
    views := h.views.map hg fun s hs hne hclosed => ?_ }
  · split_ifs
    · exact hid s
    · rfl
  · split_ifs at hs
    · exact hsup s ▸ hs
    · exact hs
  · split_ifs at hclosed ⊢ with hs'
    · exact hsent s hs hs' hne hclosed
    · exact ⟨hclosed, fun _ => rfl⟩

theorem Invariant.close (h : Invariant room) (id code : ℕ) (reason : String) :
    Invariant (room.modify id fun s => s.close code reason) :=
  h.modify (fun _ => rfl) (fun _ => rfl) (fun _ => rfl) fun _ _ _ _ hclosed =>
    ⟨Socket.closed_of_close hclosed, fun _ => rfl⟩

theorem Invariant.send (h : Invariant room)
    (hvalue : ∀ s ∈ room.sockets, s.id = id → s.device ≠ "" → s.closed = none →
      ∀ d, value.tell (view s.sent) d = view s.sent d) :
    Invariant (room.modify id (·.send value)) := by
  refine h.modify (by simp) (by simp) (by simp) fun s hs hid hne hclosed => ?_
  obtain ⟨hopen, hsent⟩ := Socket.sent_of_send hclosed
  refine ⟨hopen, fun d => ?_⟩
  rw [hsent, view_concat]
  exact hvalue s hs hid hne hopen d

/-- **A broadcast about one device** makes the views right there too. -/
theorem Views.broadcast (h : Views room (some d)) {v : Option (List Service)}
    (hvalue : ∀ known e, value.tell known e = if e = d then v else known e)
    (hothers : ∀ s ∈ room.sockets, s.device ≠ "" → s.id ≠ id →
      s.device ≠ d ∧ room.shown s.device d = v)
    (hself : ∀ s ∈ room.sockets, s.device ≠ "" → s.id = id → s.device = d) :
    Views (room.broadcast value id) none := by
  intro s hs hne hclosed e _
  obtain ⟨t, ht, rfl⟩ := List.mem_map.mp hs
  have hdevice : ∀ t : Socket,
      (if t.device ≠ "" ∧ t.id ≠ id then t.send value else t).device = t.device := fun t => by
    split_ifs <;> simp
  rw [hdevice] at hne ⊢
  have hshown : (room.broadcast value id).shown t.device e = room.shown t.device e :=
    shown_congr rfl fun _ _ => carries_map hdevice
  rw [hshown]
  by_cases hid : t.id = id
  · -- the sender knows no more of its own device, and of the others what it knew
    rw [if_neg fun hc => hc.2 hid] at hclosed ⊢
    have hd := hself t ht hne hid
    refine h t ht hne hclosed e ?_
    by_cases he : e = d
    · exact .inr (hd.trans he.symm)
    · exact .inl fun heq => he (Option.some_inj.mp heq)
  · rw [if_pos ⟨hne, hid⟩] at hclosed ⊢
    obtain ⟨hopen, hsent⟩ := Socket.sent_of_send hclosed
    obtain ⟨hother, hv⟩ := hothers t ht hne hid
    rw [hsent, view_concat, hvalue]
    split_ifs with he
    · rw [he, hv]
    · exact h t ht hne hopen e (.inl fun heq => he (Option.some_inj.mp heq))

theorem Views.weaken (h : Views room none) (d : String) : Views room (some d) :=
  fun s hs hne hclosed e _ => h s hs hne hclosed e (.inl nofun)

theorem Views.setRow (h : Views room (some d)) (services : Option (List Service)) :
    Views (room.setRow d services) (some d) := by
  intro s hs hne hclosed e he
  rw [h s hs hne hclosed e he]
  rcases he with he | rfl
  · have hshown : (room.setRow d services).shown s.device e = room.shown s.device e :=
      shown_congr (catalog_setRow_of_ne fun heq => he (by rw [heq])) fun _ _ => Iff.rfl
    exact hshown.symm
  · rw [shown_self, shown_self]

theorem Frame.broadcast (h : Frame room) (value : Outgoing) (id : ℕ) :
    Frame (room.broadcast value id) :=
  h.map (fun s => by split_ifs <;> simp) (fun s => .inl (by split_ifs <;> simp))
    fun s hs => .inr (by split_ifs at hs <;> simpa using hs)

theorem carries_broadcast : (room.broadcast value id).Carries d ↔ room.Carries d :=
  carries_map fun s => by split_ifs <;> simp

theorem Rows.broadcast (h : Rows room except) (value : Outgoing) (id : ℕ) :
    Rows (room.broadcast value id) except :=
  h.map fun s => by split_ifs <;> simp

theorem Rows.weaken (h : Rows room none) (d : String) : Rows room (some d) :=
  fun e services hrow _ => h e services hrow nofun

theorem Rows.setRow (h : Rows room (some d)) {services : Option (List Service)}
    (hs : services ≠ none → d ≠ "" ∧ room.Carries d) : Rows (room.setRow d services) none := by
  intro e services' hrow _
  unfold Room.setRow at hrow
  simp only [Function.update_apply] at hrow
  split_ifs at hrow with he
  · rw [he]
    exact hs (by simp [hrow])
  · exact h e services' hrow fun heq => he (Option.some_inj.mp heq)

theorem Invariant.catalog (h : Invariant room) {s : Socket} (hs : s ∈ room.sockets)
    (hne : s.device ≠ "") (services : List Service) :
    Invariant ((room.setRow s.device (some services)).broadcast (.catalog s.device services)
      s.id) where
  toFrame := by
    have hframe : Frame (room.setRow s.device (some services)) := { h.toFrame with }
    exact hframe.broadcast _ _
  rows := ((h.rows.weaken _).setRow fun _ => ⟨hne, s, hs, rfl⟩).broadcast _ _
  views := by
    refine ((h.views.weaken _).setRow _).broadcast (v := some services) (fun known e => ?_)
      (fun t ht htne hid => ?_) fun t ht _ hid => ?_
    · simp [Outgoing.tell, Function.update_apply]
    · have hother : t.device ≠ s.device := fun heq => hid (h.one t ht s hs htne heq)
      refine ⟨hother, ?_⟩
      have hcarries : (room.setRow s.device (some services)).Carries s.device := ⟨s, hs, rfl⟩
      unfold Room.shown
      rw [if_pos ⟨hne, hother.symm, hcarries⟩, catalog_setRow_self]
      rfl
    · rw [h.eq_of_id ht hs hid]

/-- The socket of a device loses it: the other views are as they were, but for the device. -/
theorem Invariant.lose (h : Invariant room) {f : Socket → Socket} (hf : ∀ s, (f s).device = "")
    {s : Socket} (hs : s ∈ room.sockets) :
    Views (room.modify s.id f) (some s.device) ∧ Rows (room.modify s.id f) (some s.device) ∧
      (s.device ≠ "" → ¬(room.modify s.id f).Carries s.device) := by
  have hcarries : ∀ e, e ≠ "" → e ≠ s.device →
      ((room.modify s.id f).Carries e ↔ room.Carries e) := by
    intro e he hes
    constructor
    · rintro ⟨t, ht, hte⟩
      obtain ⟨t₀, ht₀, rfl⟩ := List.mem_map.mp ht
      split_ifs at hte
      · exact absurd (hte.symm.trans (hf t₀)) he
      · exact ⟨t₀, ht₀, hte⟩
    · rintro ⟨t, ht, hte⟩
      refine ⟨t, List.mem_map.mpr ⟨t, ht, if_neg fun heq => ?_⟩, hte⟩
      exact hes (hte.symm.trans (by rw [h.eq_of_id ht hs heq]))
  refine ⟨?_, ?_, ?_⟩
  · intro t ht hne hclosed e he
    obtain ⟨t₀, ht₀, rfl⟩ := List.mem_map.mp ht
    by_cases heq : t₀.id = s.id
    · rw [if_pos heq] at hne
      exact absurd (hf t₀) hne
    · rw [if_neg heq] at hne hclosed he ⊢
      rw [h.views t₀ ht₀ hne hclosed e (.inl nofun)]
      have hshown : (room.modify s.id f).shown t₀.device e = room.shown t₀.device e := by
        by_cases hes : e = s.device
        · rcases he with he | he
          · exact absurd (by rw [hes]) he
          · rw [he, shown_self, shown_self]
        · exact shown_congr rfl fun hne _ => hcarries e hne hes
      exact hshown.symm
  · intro e services hrow he
    obtain ⟨hne, hc⟩ := h.rows e services hrow nofun
    exact ⟨hne, (hcarries e hne fun heq => he (by rw [heq])).mpr hc⟩
  · rintro hne ⟨t, ht, hts⟩
    obtain ⟨t₀, ht₀, rfl⟩ := List.mem_map.mp ht
    split_ifs at hts with heq
    · exact hne (hts.symm.trans (hf t₀))
    · exact heq (h.one t₀ ht₀ s hs (hts ▸ hne) hts)

theorem Frame.lose (h : Frame room) {f : Socket → Socket} (hid : ∀ s, (f s).id = s.id)
    (hf : ∀ s, (f s).device = "") (id : ℕ) : Frame (room.modify id f) :=
  h.map (fun s => by split_ifs <;> simp [hid]) (fun s => by split_ifs <;> simp [hf])
    fun s hs => by
      split_ifs at hs ⊢
      · exact .inl (hf s)
      · exact .inr hs

/-- **A socket is removed.** -/
theorem Invariant.remove (h : Invariant room) (id : ℕ) : Invariant (room.remove id) := by
  unfold Room.remove
  split
  · exact h
  · rename_i s hsocket
    obtain ⟨hs, rfl⟩ := mem_of_socket hsocket
    split_ifs with hne
    · exact h
    · obtain ⟨hviews, hrows, hgone⟩ := h.lose (f := Socket.blank) (fun _ => rfl) hs
      have hgone := hgone hne
      have hframe : Frame ((room.modify s.id Socket.blank).setRow s.device none) :=
        { h.toFrame.lose (f := Socket.blank) (fun _ => rfl) (fun _ => rfl) s.id with }
      refine { hframe.broadcast _ _ with
        rows := (hrows.setRow fun hnone => absurd rfl hnone).broadcast _ _
        views := (hviews.setRow none).broadcast (v := none) (fun known e => ?_)
          (fun t ht htne hid => ⟨fun heq => hgone ⟨t, ht, heq⟩, ?_⟩) fun t ht htne hid => ?_ }
      · simp [Outgoing.tell, Function.update_apply]
      · exact shown_of_not_carries ((room.modify s.id Socket.blank).setRow s.device none) hgone _
      · obtain ⟨t₀, ht₀, rfl⟩ := List.mem_map.mp ht
        split_ifs at htne hid with heq
        · exact absurd rfl htne
        · exact absurd hid heq

theorem foldl_send (catalog : String → List Service) (peers : List String) {s : Socket}
    (hopen : s.closed = none) (hb : s.broken = false) :
    ∃ sent, peers.foldl (fun s peer => s.send (.catalog peer (catalog peer))) s = { s with sent } ∧
      ∀ e, view sent e = if e ∈ peers then some (catalog e) else view s.sent e := by
  induction peers generalizing s with
  | nil => exact ⟨s.sent, rfl, fun e => by simp⟩
  | cons peer peers ih =>
    have hsend : s.send (.catalog peer (catalog peer)) =
        { s with sent := s.sent ++ [.catalog peer (catalog peer)] } := by
      unfold Socket.send
      rw [if_neg (by simp [hopen, hb])]
    rw [List.foldl_cons, hsend]
    obtain ⟨sent, hfold, hview⟩ :=
      ih (s := { s with sent := s.sent ++ [.catalog peer (catalog peer)] }) hopen hb
    refine ⟨sent, hfold, fun e => ?_⟩
    rw [hview, view_concat]
    by_cases he : e = peer
    · subst he
      simp [Outgoing.tell]
    · simp [Outgoing.tell, he]

/-- **A new socket is told of the others.** -/
theorem tellPeers_eq (room : Room) (id : ℕ) (d : String) (now : ℕ) :
    ∃ sent, room.tellPeers (Socket.fresh id d now) = { Socket.fresh id d now with sent } ∧
      ∀ e, view sent e = room.shown d e := by
  obtain ⟨sent, hfold, hview⟩ := foldl_send room.catalog
    ((room.sockets.map (·.device)).filter fun peer => peer ≠ "" ∧ peer ≠ d)
    (s := Socket.fresh id d now) rfl rfl
  refine ⟨sent, hfold, fun e => ?_⟩
  rw [hview]
  unfold Room.shown Room.Carries
  simp only [List.mem_filter, List.mem_map, decide_eq_true_eq]
  by_cases hc : (∃ s ∈ room.sockets, s.device = e) ∧ e ≠ "" ∧ e ≠ d
  · rw [if_pos hc, if_pos ⟨hc.2.1, hc.2.2, hc.1⟩]
  · rw [if_neg hc, if_neg fun h => hc ⟨h.2.2, h.1, h.2.1⟩]
    rfl

/-- **A socket is accepted** for a device that no socket has. -/
theorem Frame.accept (hframe : Frame room) (hrows : Rows room (some d))
    (hviews : Views room (some d)) (hne : d ≠ "") (hfree : ¬room.Carries d) :
    Invariant (room.accept d) := by
  obtain ⟨sent, hserver, hsent⟩ := tellPeers_eq (room.announce d) room.nextId d room.now
  have hlisted : (room.accept d).sockets =
      (room.announce d).sockets ++ [{ Socket.fresh room.nextId d room.now with sent }] := by
    rw [← hserver]; rfl
  have htold : Frame (room.announce d) :=
    ({ hframe with } : Frame (room.setRow d none)).broadcast _ _
  have hcarries : ∀ e, e ≠ d → ((room.accept d).Carries e ↔ room.Carries e) := by
    intro e he
    have hmap : (room.announce d).Carries e ↔ room.Carries e := carries_broadcast
    rw [← hmap]
    unfold Room.Carries
    rw [hlisted]
    simp only [List.mem_append, List.mem_singleton]
    constructor
    · rintro ⟨s, hs | rfl, hse⟩
      · exact ⟨s, hs, hse⟩
      · exact absurd hse.symm he
    · rintro ⟨s, hs, hse⟩
      exact ⟨s, .inl hs, hse⟩
  have hcarries_d : (room.accept d).Carries d :=
    ⟨{ Socket.fresh room.nextId d room.now with sent }, by rw [hlisted]; simp, rfl⟩
  have hshown : ∀ own e, e ≠ d → (room.accept d).shown own e = room.shown own e := fun own e he =>
    shown_congr (catalog_setRow_of_ne he) fun _ _ => hcarries e he
  have hshown_d : ∀ own, own ≠ d → (room.accept d).shown own d = some [] := by
    intro own hown
    unfold Room.shown
    rw [if_pos ⟨hne, hown.symm, hcarries_d⟩]
    exact congrArg some (catalog_setRow_self none)
  refine { ids := ?_, lt := ?_, one := ?_, blank := ?_, rows := ?_, views := ?_ }
  · rw [hlisted, List.map_append, List.nodup_append]
    refine ⟨htold.ids, List.nodup_singleton _, fun a ha b hb => ?_⟩
    obtain ⟨s, hs, rfl⟩ := List.mem_map.mp ha
    rw [List.mem_singleton.mp hb]
    exact Nat.ne_of_lt (htold.lt s hs)
  · intro s hs
    rw [hlisted, List.mem_append, List.mem_singleton] at hs
    rcases hs with hs | rfl
    · exact Nat.lt_succ_of_lt (htold.lt s hs)
    · exact Nat.lt_succ_self _
  · have hother : ∀ s ∈ (room.announce d).sockets, s.device ≠ d := fun s hs heq =>
      hfree (carries_broadcast.mp ⟨s, hs, heq⟩)
    intro s hs t ht hsne heq
    rw [hlisted, List.mem_append, List.mem_singleton] at hs ht
    rcases hs with hs | rfl <;> rcases ht with ht | rfl
    · exact htold.one s hs t ht hsne heq
    · exact absurd heq (hother s hs)
    · exact absurd heq.symm (hother t ht)
    · rfl
  · intro s hs hsup
    rw [hlisted, List.mem_append, List.mem_singleton] at hs
    rcases hs with hs | rfl
    · exact htold.blank s hs hsup
    · cases hsup
  · intro e services hrow _
    have hrows' : Rows (room.setRow d none) none := hrows.setRow fun hnone => absurd rfl hnone
    obtain ⟨hene, hc⟩ := hrows' e services hrow nofun
    refine ⟨hene, (hcarries e fun heq => ?_).mpr hc⟩
    exact hfree (heq ▸ hc)
  · intro s hs hsne hclosed e _
    rw [hlisted, List.mem_append, List.mem_singleton] at hs
    rcases hs with hs | rfl
    · obtain ⟨t, ht, rfl⟩ := List.mem_map.mp hs
      have htd : t.device ≠ d := fun heq => hfree ⟨t, ht, heq⟩
      have hid : t.id ≠ room.nextId := Nat.ne_of_lt (hframe.lt t ht)
      by_cases htne : t.device = ""
      · rw [if_neg fun hc => hc.1 htne] at hsne
        exact absurd htne hsne
      · rw [if_pos ⟨htne, hid⟩] at hclosed ⊢
        obtain ⟨hopen, hsent⟩ := Socket.sent_of_send hclosed
        rw [hsent, view_concat, Socket.send_device]
        by_cases he : e = d
        · rw [he, hshown_d _ htd]
          simp [Outgoing.tell]
        · rw [hshown _ e he]
          simp only [Outgoing.tell, Function.update_of_ne he]
          exact hviews t ht htne hopen e (.inl fun heq => he (Option.some_inj.mp heq))
    · rw [hsent]
      show (room.announce d).shown d e = (room.accept d).shown d e
      by_cases he : e = d
      · rw [he, shown_self, shown_self]
      · rw [hshown _ e he]
        exact shown_congr (catalog_setRow_of_ne he) fun _ _ => carries_broadcast

theorem ne_empty_of_idRe (h : idRe d = true) : d ≠ "" := by
  rintro rfl
  exact absurd h (by decide)

theorem mem_of_ofDevice {s : Socket} (h : room.ofDevice d = some s) :
    s ∈ room.sockets ∧ s.device ≠ "" ∧ s.device = d := by
  refine ⟨List.mem_of_find?_eq_some h, ?_⟩
  simpa using List.find?_some h

theorem not_carries_of_ofDevice (h : room.ofDevice d = none) (hd : d ≠ "") : ¬room.Carries d := by
  rintro ⟨s, hs, rfl⟩
  simpa [hd] using List.find?_eq_none.mp h s hs

/-- **A device joins**, whether or not it has a socket already. -/
theorem Invariant.join (h : Invariant room) (d : String) : Invariant (room.join d) := by
  unfold Room.join
  split
  · exact h
  · rename_i hid
    have hd : d ≠ "" := ne_empty_of_idRe (by simpa using hid)
    split
    · rename_i hnone
      split
      · exact h
      · exact h.toFrame.accept (h.rows.weaken d) (h.views.weaken d) hd
          (not_carries_of_ofDevice hnone hd)
    · rename_i existing hsome
      obtain ⟨hmem, hne, rfl⟩ := mem_of_ofDevice hsome
      obtain ⟨hviews, hrows, hfree⟩ := h.lose (f := Socket.supersede) (fun _ => rfl) hmem
      have hframe : Frame (room.modify existing.id Socket.supersede) :=
        h.toFrame.lose (f := Socket.supersede) (fun _ => rfl) (fun _ => rfl) _
      exact hframe.accept hrows hviews hne (hfree hne)

/-- **What a message does.** -/
theorem Invariant.receive (h : Invariant room) {s : Socket} (hs : s ∈ room.sockets)
    (hne : s.device ≠ "") (value : Json) : Invariant (room.receive s.id s.device value) := by
  unfold Room.receive
  split
  · split
    · split
      · exact h.close _ _ _
      · exact h.catalog hs hne _
    · split
      · rename_i device hdevice
        split
        · exact h.close _ _ _
        · split
          · exact h.send fun _ _ _ _ _ _ => rfl
          · -- the device that is gone is not in the view of the sender
            rename_i hnone
            refine h.send fun t ht _ htne hopen e => ?_
            simp only [Outgoing.tell, Function.update_apply]
            split_ifs with he
            · have hd : device ≠ "" :=
                ne_empty_of_idRe (of_decide_eq_true (Option.filter_eq_some_iff.mp hdevice).2).2.1
              rw [h.views t ht htne hopen e (.inl nofun), he,
                shown_of_not_carries room (not_carries_of_ofDevice hnone hd)]
            · rfl
      · exact h.close _ _ _
  · exact h.close _ _ _
  · exact h.close _ _ _

theorem Invariant.touch (h : Invariant room) (id : ℕ) {f : Socket → Socket}
    (hf : ∀ s, (f s).id = s.id ∧ (f s).device = s.device ∧ (f s).superseded = s.superseded ∧
      (f s).closed = s.closed ∧ (f s).sent = s.sent) : Invariant (room.modify id f) :=
  h.modify (fun s => (hf s).1) (fun s => (hf s).2.1) (fun s => (hf s).2.2.1)
    fun s _ _ _ hclosed => ⟨(hf s).2.2.2.1 ▸ hclosed, fun _ => by rw [(hf s).2.2.2.2]⟩

theorem Invariant.message (h : Invariant room) (id : ℕ) (message : Message) :
    Invariant (room.message id message) := by
  unfold Room.message
  split
  · exact h
  · rename_i s hsocket
    obtain ⟨hs, rfl⟩ := mem_of_socket hsocket
    split
    · exact h
    · rename_i hne
      have hcharge : Invariant (room.modify s.id (·.charge room.now)) :=
        h.touch s.id fun _ => ⟨rfl, rfl, rfl, rfl, rfl⟩
      split
      · exact h.close _ _ _
      · split
        · exact h.close _ _ _
        · split
          · exact h.close _ _ _
          · split
            · exact hcharge.close _ _ _
            · have hmem : s.charge room.now ∈ (room.modify s.id (·.charge room.now)).sockets :=
                List.mem_map.mpr ⟨s, hs, if_pos rfl⟩
              exact hcharge.receive hmem hne _

theorem Invariant.reap (h : Invariant room) (id : ℕ) : Invariant (room.reap id) := by
  unfold Room.reap
  split
  · exact h
  · split
    · exact (h.remove id).close _ _ _
    · exact h

/-- **An alarm**, socket by socket. -/
theorem Invariant.alarm (h : Invariant room) : Invariant room.alarm := by
  unfold Room.alarm
  generalize (room.sockets.filter (·.device ≠ "")).map (·.id) = ids
  induction ids generalizing room with
  | nil => exact h
  | cons id ids ih => exact ih (h.reap id)

theorem Invariant.unlist (h : Invariant room) (id : ℕ) : Invariant (step room (.unlist id)) := by
  have hsub : ∀ s ∈ (step room (.unlist id)).sockets, s ∈ room.sockets := fun s hs =>
    List.mem_of_mem_filter hs
  have hcarries : ∀ e, e ≠ "" → ((step room (.unlist id)).Carries e ↔ room.Carries e) := by
    intro e he
    constructor
    · rintro ⟨s, hs, hse⟩
      exact ⟨s, hsub s hs, hse⟩
    · rintro ⟨s, hs, hse⟩
      refine ⟨s, List.mem_filter.mpr ⟨hs, decide_eq_true fun hc => ?_⟩, hse⟩
      exact he (hse.symm.trans hc.2)
  exact {
    ids := h.ids.sublist (List.filter_sublist.map _)
    lt := fun s hs => h.lt s (hsub s hs)
    one := fun s hs t ht => h.one s (hsub s hs) t (hsub t ht)
    blank := fun s hs => h.blank s (hsub s hs)
    rows := fun e services hrow _ =>
      have hrow := h.rows e services hrow nofun
      ⟨hrow.1, (hcarries e hrow.1).mpr hrow.2⟩
    views := fun s hs hne hclosed e _ => by
      have hshown : (step room (.unlist id)).shown s.device e = room.shown s.device e :=
        shown_congr rfl fun he _ => hcarries e he
      rw [hshown]
      exact h.views s (hsub s hs) hne hclosed e (.inl nofun) }

/-- **One step.** -/
theorem invariant_step (h : Invariant room) (a : Action) : Invariant (step room a) := by
  cases a with
  | clock now => exact { h with }
  | pong id => exact h.touch id fun _ => ⟨rfl, rfl, rfl, rfl, rfl⟩
  | fail id => exact h.touch id fun _ => ⟨rfl, rfl, rfl, rfl, rfl⟩
  | join device => exact h.join device
  | message id message => exact h.message id message
  | handle id => exact h.remove id
  | unlist id => exact h.unlist id
  | alarm => exact h.alarm

theorem invariant_start : Invariant Room.start where
  ids := List.nodup_nil
  lt := fun _ h => absurd h List.not_mem_nil
  one := fun _ h => absurd h List.not_mem_nil
  blank := fun _ h => absurd h List.not_mem_nil
  rows := fun _ _ h => by cases h
  views := fun _ h => absurd h List.not_mem_nil

theorem Invariant.consistent (h : Invariant room) : Consistent room where
  one := h.toFrame.pairwise
  rows := fun d services hrow => h.rows d services hrow nofun
  superseded := by
    intro s hs hsup
    have hblank := h.blank s hs hsup
    refine ⟨fun message => ?_, ?_⟩
    · show room.message s.id message = room
      unfold Room.message
      simp only [h.socket hs, hblank, if_true]
    · show room.remove s.id = room
      unfold Room.remove
      simp only [h.socket hs, hblank, if_true]
  views := fun s hs hne hclosed d => h.views s hs hne hclosed d (.inl nofun)

/-- **Presence is consistent**, after every sequence of joins, messages, closes and alarms. -/
theorem presence_consistent (as : List Action) : Consistent (as.foldl step Room.start) := by
  have hrun : Invariant (as.foldl step Room.start) := by
    induction as using List.reverseRecOn with
    | nil => exact invariant_start
    | append_singleton as a ih =>
      rw [List.foldl_append]
      exact invariant_step ih a
  exact hrun.consistent

end Views

end Zeron.Peer.Preview
