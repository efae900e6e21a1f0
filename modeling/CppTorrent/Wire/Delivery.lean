import CppTorrent.Wire.HandleResponse
import CppTorrent.Wire.ReadLoop

/-! # What is sent is what is handled

The `send_*` functions write a frame, `do_read_header` and `do_read_body` cut the stream of bytes into
bodies, `handle_response` takes a body apart. The three share no code: the length goes through
`EncodeHeader` on one side and a four byte message on the other, the type through `operator<<` and
`Type()`, and each branch of `handle_response` has its own size test.

`body` says what the bytes of a message are. `send_eq` shows that every machine sends these bytes,
`handleResponse_body` that every machine reads the arguments out of them, and `deliver_sent` that a
sequence of messages arrives as this sequence, however the stream is cut into chunks. A `port` message
does not: it is sent with eight bytes and accepted with two (`handleResponse_sendPort`).

`handleResponse_bitfield` is the same for the bits of a `bitfield` message: those of the sender arrive
as the bits of the peer bitfield. -/

namespace CppTorrent.Wire.Delivery

open CppTorrent.Lib.BigEndian CppTorrent.Lib.Endian
open CppTorrent.Dht.Metric (bitfield)
open CppTorrent.Wire.Bitfield CppTorrent.Wire.Message CppTorrent.Wire.HandleResponse

/-- The body of a message on the wire. -/
def body : PeerMessage → List UInt8
  | .choke => [0]
  | .unchoke => [1]
  | .interested => [2]
  | .notInterested => [3]
  | .have_ i => 4 :: bytesBE 4 i.toNat
  | .bitfield payload => 5 :: payload
  | .request index begin_ length =>
    6 :: (bytesBE 4 index.toNat ++ (bytesBE 4 begin_.toNat ++ bytesBE 4 length.toNat))
  | .pieceBlock index begin_ data => 7 :: (bytesBE 4 index.toNat ++ (bytesBE 4 begin_.toNat ++ data))
  | .cancel index begin_ length =>
    8 :: (bytesBE 4 index.toNat ++ (bytesBE 4 begin_.toNat ++ bytesBE 4 length.toNat))
  | .port port => 9 :: bytesBE 8 port.toNat

/-- The bytes a client gives to the socket for a message. -/
def send (host : Host) : PeerMessage → List UInt8
  | .choke => sendChoke host
  | .unchoke => sendUnchoke host
  | .interested => sendInterested host
  | .notInterested => sendNotInterested host
  | .have_ i => sendHave host i
  | .bitfield payload => sendPayload host payload
  | .request index begin_ length => sendRequest host index begin_ length
  | .pieceBlock index begin_ data => sendBlock host index begin_ data
  | .cancel index begin_ length => sendCancel host index begin_ length
  | .port port => sendPort host port.toUInt64

/-- What a peer with a torrent of `total` pieces sends: not a port, and no more bytes of a bitfield than
the torrent has. The size of a body fits the header. -/
def Sendable (total : ℕ) (m : PeerMessage) : Prop :=
  (body m).length < 2 ^ 32 ∧
    match m with
    | .bitfield payload => payload.length ≤ (total + 7) / 8
    | .port _ => False
    | _ => True

/-! ### Sending -/

theorem newMessage_order (host : Host) (type : PeerMessageType) :
    (newMessage host type).order = .bigEndian := by
  unfold newMessage
  rw [put_order]
  rfl

/-- The bytes of a number appended to a message of a client. -/
theorem put_data_of_big (host : Host) (k value : ℕ) {msg : SendingMessage} {bytes : List UInt8}
    (horder : msg.order = .bigEndian) (hdata : msg.data = List.replicate headerLength 0 ++ bytes) :
    (msg.put host k value).data = List.replicate headerLength 0 ++ (bytes ++ bytesBE k value) := by
  rw [put_data, horder, hdata, List.append_assoc]
  rfl

/-- A type with three numbers behind it. -/
theorem three_data (host : Host) (type : PeerMessageType) (a b c : UInt32) :
    ((((newMessage host type).put host 4 a.toNat).put host 4 b.toNat).put host 4 c.toNat).data =
      List.replicate headerLength 0 ++
        type.code :: (bytesBE 4 a.toNat ++ (bytesBE 4 b.toNat ++ bytesBE 4 c.toNat)) := by
  have h1 := put_data_of_big host 4 a.toNat (newMessage_order host type) (newMessage_data host type)
  have h2 := put_data_of_big host 4 b.toNat (by rw [put_order, newMessage_order]) h1
  have h3 := put_data_of_big host 4 c.toNat (by rw [put_order, put_order, newMessage_order]) h2
  rw [h3]
  simp

/-- **A message is sent as the length of its body and its body**, by every machine. -/
theorem send_eq (host : Host) {total : ℕ} {m : PeerMessage} (hm : Sendable total m) :
    send host m = bytesBE 4 (body m).length ++ body m := by
  obtain ⟨hlen, hm⟩ := hm
  rcases m with _ | _ | _ | _ | i | payload | ⟨index, begin_, length⟩ | ⟨index, begin_, data⟩ |
    ⟨index, begin_, length⟩ | port
  case choke | unchoke | interested | notInterested => exact sendMsg_eq host (newMessage_data host _) hlen
  case have_ =>
    exact sendMsg_eq host (put_data_of_big host 4 i.toNat (newMessage_order host _)
      (newMessage_data host _)) hlen
  case bitfield =>
    refine sendMsg_eq host ?_ hlen
    show (newMessage host .bitfield).data ++ payload = _
    rw [newMessage_data, List.append_assoc]
    rfl
  case request => exact sendMsg_eq host (three_data host .request index begin_ length) hlen
  case pieceBlock =>
    have h1 := put_data_of_big host 4 index.toNat (newMessage_order host .pieceBlock)
      (newMessage_data host .pieceBlock)
    have h2 := put_data_of_big host 4 begin_.toNat (by rw [put_order, newMessage_order]) h1
    refine sendMsg_eq host ?_ hlen
    show (((newMessage host .pieceBlock).put host 4 index.toNat).put host 4 begin_.toNat).data ++ data = _
    rw [h2]
    simp [body, PeerMessageType.code]
  case cancel => exact sendMsg_eq host (three_data host .cancel index begin_ length) hlen
  case port => exact hm.elim

/-! ### Receiving one message -/

/-- The message of a body with the cursor at a position. -/
def view (arr : List UInt8) (pos : ℕ) : ReceivingPeerMessage := ⟨.bigEndian, arr, pos, arr.length⟩

theorem received_eq (bytes : List UInt8) : received bytes = view bytes 1 := rfl

theorem bodySize_view (bytes : List UInt8) (pos : ℕ) : (view bytes pos).bodySize = bytes.length := rfl

theorem at_zero (type : UInt8) (payload : List UInt8) (pos : ℕ) :
    (view (type :: payload) pos).at_ 0 = some type := rfl

/-- A 32-bit argument at the cursor. -/
theorem get32_of_bytes (host : Host) (n : UInt32) {arr : List UInt8} (front back : List UInt8)
    (harr : arr = front ++ (bytesBE 4 n.toNat ++ back)) :
    get32 host (view arr front.length) = some (n, view arr (front.length + 4)) := by
  have hn : n.toNat < 256 ^ 4 := lt_of_lt_of_eq n.toNat_lt (by norm_num)
  have hget := get_of_encoded host .bigEndian front back arr.length hn
  have harr' : view arr front.length =
      ⟨.bigEndian, front ++ (encoded .bigEndian 4 n.toNat ++ back), front.length, arr.length⟩ := by
    rw [harr]
    rfl
  unfold get32
  rw [harr', hget, Option.map_some]
  dsimp only
  rw [UInt32.ofNat_toNat]
  subst harr
  rfl

variable {σ : Type} (host : Host) {total : ℕ} {env : Surroundings σ} {c : Client σ}

/-- The first argument stands behind the type. -/
theorem get32_first (type : UInt8) (a : UInt32) (back : List UInt8) :
    get32 host (view (type :: (bytesBE 4 a.toNat ++ back)) 1) =
      some (a, view (type :: (bytesBE 4 a.toNat ++ back)) 5) :=
  get32_of_bytes host a [type] back rfl

/-- The second argument stands behind the first. -/
theorem get32_second (type : UInt8) (a b : UInt32) (back : List UInt8) :
    get32 host (view (type :: (bytesBE 4 a.toNat ++ (bytesBE 4 b.toNat ++ back))) 5) =
      some (b, view (type :: (bytesBE 4 a.toNat ++ (bytesBE 4 b.toNat ++ back))) 9) :=
  get32_of_bytes host b (type :: bytesBE 4 a.toNat) back (by simp)

/-- The third argument stands behind the second and ends the message. -/
theorem get32_third (type : UInt8) (a b c : UInt32) :
    get32 host (view (type :: (bytesBE 4 a.toNat ++ (bytesBE 4 b.toNat ++ bytesBE 4 c.toNat))) 9) =
      some (c, view (type :: (bytesBE 4 a.toNat ++ (bytesBE 4 b.toNat ++ bytesBE 4 c.toNat))) 13) := by
  have hlen : (type :: (bytesBE 4 a.toNat ++ bytesBE 4 b.toNat)).length = 9 := by simp
  have harr : type :: (bytesBE 4 a.toNat ++ (bytesBE 4 b.toNat ++ bytesBE 4 c.toNat)) =
      (type :: (bytesBE 4 a.toNat ++ bytesBE 4 b.toNat)) ++ (bytesBE 4 c.toNat ++ []) := by simp
  have hget := get32_of_bytes host c _ _ harr
  rw [hlen] at hget
  exact hget

/-- The data of a block stand behind its two arguments. -/
theorem bytesAt_third (type : UInt8) (a b : UInt32) (data : List UInt8) :
    ReceivingPeerMessage.bytesAt 9 data.length
      (view (type :: (bytesBE 4 a.toNat ++ (bytesBE 4 b.toNat ++ data))) 9) = some data := by
  have hle : 9 + data.length ≤
      (view (type :: (bytesBE 4 a.toNat ++ (bytesBE 4 b.toNat ++ data))) 9).arr.length := by
    simp [view]
    omega
  have hdrop : (type :: (bytesBE 4 a.toNat ++ (bytesBE 4 b.toNat ++ data))).drop 9 = data := by
    rw [← List.append_assoc, ← List.cons_append, List.drop_left' (by simp)]
  unfold ReceivingPeerMessage.bytesAt
  rw [if_pos hle]
  show some (((type :: (bytesBE 4 a.toNat ++ (bytesBE 4 b.toNat ++ data))).drop 9).take data.length) = _
  rw [hdrop, List.take_length]

variable (env) in
/-- A `bitfield` message adds the bits of its payload to the peer bitfield. -/
theorem handleResponse_bitfield (hc : c.pieces.length = total) {payload : List UInt8}
    (hle : payload.length ≤ (total + 7) / 8) :
    ∃ bits', handleResponse host total env (received (body (.bitfield payload))) c =
        some (.taken (.bitfield payload), env.on (.bitfield payload) { c with pieces := bits' }) ∧
      bits'.length = total ∧
      ∀ k < total, bits'.getD k false = (c.pieces.getD k false || bitOf payload k) := by
  have hcode : PeerMessageType.ofCode 5 = some .bitfield := rfl
  obtain ⟨bits', hset, hbits⟩ := setBytes_spec total 5 payload hc
  rw [received_eq] at hset
  have hnot : ¬ (total + 7) / 8 < payload.length := Nat.not_lt.mpr hle
  refine ⟨bits', ?_, hbits⟩
  unfold handleResponse
  simp only [body, at_zero, hcode, received_eq, bodySize_view, List.length_cons, hset,
    Option.bind_eq_bind, Option.bind_some]
  simp [hnot]

/-- A `request` message of an interested peer reaches its handler while the client is not choking. -/
theorem handleResponse_request
    (hopen : c.status.peerInterested = true ∧ c.status.amChoking = false)
    (index begin_ length : UInt32) :
    handleResponse host total env (received (body (.request index begin_ length))) c =
      some (.taken (.request index begin_ length), env.on (.request index begin_ length) c) := by
  have hcode : PeerMessageType.ofCode 6 = some .request := rfl
  unfold handleResponse
  simp only [body, at_zero, hcode, received_eq, bodySize_view, List.length_cons, List.length_append,
    length_bytesBE, get32_first, get32_second, get32_third, hopen, Option.bind_eq_bind,
    Option.bind_some]
  simp

/-- A request is refused without interest or while the client is choking. -/
def Refused (c : Client σ) (m : PeerMessage) : Prop :=
  (∃ index begin_ length, m = .request index begin_ length) ∧
    (c.status.peerInterested = false ∨ c.status.amChoking = true)

variable (env) in
/-- **The arguments of a message are read out of its body.** -/
theorem handleResponse_body (hc : c.pieces.length = total) {m : PeerMessage} (hm : Sendable total m)
    (hr : ¬Refused c m) : ∃ c', handleResponse host total env (received (body m)) c =
      some (.taken m, c') := by
  obtain ⟨hlen, hm⟩ := hm
  rcases m with _ | _ | _ | _ | i | payload | ⟨index, begin_, length⟩ | ⟨index, begin_, data⟩ |
    ⟨index, begin_, length⟩ | port
  case choke | unchoke | interested | notInterested => exact ⟨_, rfl⟩
  case have_ =>
    have hcode : PeerMessageType.ofCode 4 = some .have_ := rfl
    have hi := get32_first host 4 i []
    rw [List.append_nil] at hi
    unfold handleResponse
    simp only [body, at_zero, hcode, received_eq, bodySize_view, List.length_cons, length_bytesBE, hi,
      Option.bind_eq_bind, Option.bind_some]
    rcases Nat.lt_or_ge i.toNat total with hlt | hge
    · have hset : set i.toNat c.pieces = some (c.pieces.set i.toNat true) := if_pos (by omega)
      simp [Nat.not_le.mpr hlt, hset]
    · simp [hge]
  case bitfield =>
    obtain ⟨bits', hstep, -⟩ := handleResponse_bitfield host env hc hm
    exact ⟨_, hstep⟩
  case request =>
    have hopen : c.status.peerInterested = true ∧ c.status.amChoking = false := by
      have hnot := fun h => hr ⟨⟨_, _, _, rfl⟩, h⟩
      simpa using hnot
    exact ⟨_, handleResponse_request host hopen index begin_ length⟩
  case pieceBlock =>
    have hcode : PeerMessageType.ofCode 7 = some .pieceBlock := rfl
    have hlen' : data.length + 9 < 2 ^ 32 := by
      have hbody : (body (.pieceBlock index begin_ data)).length = data.length + 9 := by
        simp [body]
        omega
      omega
    have hsize : (4 + (4 + data.length) + 1 - 9) % 2 ^ 32 = data.length := by omega
    unfold handleResponse
    simp only [body, at_zero, hcode, received_eq, bodySize_view, List.length_cons, List.length_append,
      length_bytesBE, get32_first, get32_second, hsize, bytesAt_third, Option.bind_eq_bind, Option.bind_some]
    have hnot : ¬ 4 + (4 + data.length) + 1 < 9 := by omega
    rw [if_neg hnot]
    exact ⟨_, rfl⟩
  case cancel =>
    have hcode : PeerMessageType.ofCode 8 = some .cancel := rfl
    unfold handleResponse
    simp only [body, at_zero, hcode, received_eq, bodySize_view, List.length_cons, List.length_append,
      length_bytesBE, get32_first, get32_second, get32_third, Option.bind_eq_bind, Option.bind_some]
    simp
  case port => exact hm.elim

theorem disconnect_isDisconnected (c : Client σ) : (disconnect env c).isDisconnected = true := by
  unfold disconnect
  split
  · assumption
  · rfl

/-- A refused request disconnects. -/
theorem handleResponse_refused {m : PeerMessage} (hr : Refused c m) :
    handleResponse host total env (received (body m)) c = some (.refused, disconnect env c) := by
  obtain ⟨⟨index, begin_, length, rfl⟩, hclosed⟩ := hr
  have hcode : PeerMessageType.ofCode 6 = some .request := rfl
  unfold handleResponse
  simp only [body, at_zero, hcode, received_eq, bodySize_view, List.length_cons, List.length_append,
    length_bytesBE, Option.bind_eq_bind, Option.bind_some]
  rcases hclosed with hclosed | hclosed
  · simp [hclosed]
  · simp [hclosed]

/-- **A port that was sent is rejected**: its eight bytes fail the length test of the two that are
read. -/
theorem handleResponse_sendPort (sender : Host) (port : UInt16) :
    send sender (.port port) = bytesBE 4 9 ++ body (.port port) ∧
      handleResponse host total env (received (body (.port port))) c =
        some (.badSize, disconnect env c) := by
  have hbytes : (9 :: bytesBE 8 port.toNat).length = 9 := by simp
  have hport : port.toUInt64.toNat = port.toNat := UInt16.toNat_toUInt64 port
  constructor
  · have hdata := put_data_of_big sender 8 port.toUInt64.toNat (newMessage_order sender .port)
      (newMessage_data sender .port)
    rw [hport] at hdata
    refine (sendMsg_eq sender hdata (by simp)).trans ?_
    simp [body, PeerMessageType.code]
  · have hcode : PeerMessageType.ofCode 9 = some .port := rfl
    unfold handleResponse
    simp only [body, at_zero, hcode, received_eq, bodySize_view, hbytes, Option.bind_eq_bind,
      Option.bind_some]
    simp

/-! ### A bit field -/

/-- Bit `7 - k % 8` of byte `k / 8` of the payload is bit `k` of the sender; there are none behind the
last. -/
theorem bitOf_getCast (bits : List Bool) {k : ℕ} (hk : k < 8 * (getCast bits).length) :
    bitOf (getCast bits) k = bits.getD k false := by
  rw [length_getCast] at hk
  have hdiv : 8 * (k / 8) + k % 8 = k := by omega
  have hbit := testBit_getCast bits (q := k / 8) (Nat.mod_lt k (by decide)) (by omega)
  rwa [hdiv] at hbit

/-- **The bits of a bit field arrive as they are.** The payload has a byte for every eight bits, the
spare ones zero, and a peer bitfield that was all zero becomes the bitfield of the sender. The
conversions between bits and bytes undo each other. -/
theorem bitfield_arrives (sender : Host) {bits : List Bool} (hle : bits.length ≤ 2 ^ 24)
    {c : Client σ} (hc : c.pieces = List.replicate bits.length false) :
    (∃ payload, sendBitfield sender bits =
        some (bytesBE 4 (payload.length + 1) ++ 5 :: payload) ∧
      payload.length = (bits.length + 7) / 8 ∧
      (∀ i (hi : i < bits.length), bitOf payload i = bits[i]) ∧
      (∀ i, bits.length ≤ i → i < 8 * payload.length → bitOf payload i = false) ∧
      ∃ c', handleResponse host bits.length env (received (5 :: payload)) c =
        some (.taken (.bitfield payload), c') ∧ c'.pieces = bits) ∧
    resize bits.length (bitfield (getCast bits)) = bits ∧
    ∀ bytes, getCast (bitfield bytes) = bytes := by
  have hlen : (getCast bits).length = (bits.length + 7) / 8 := length_getCast bits
  refine ⟨⟨getCast bits, ?_, hlen, fun i hi => ?_, fun i hi hlt => ?_, ?_⟩,
    resize_bitfield_getCast bits, getCast_bitfield⟩
  · have hsend : Sendable bits.length (.bitfield (getCast bits)) := by
      refine ⟨?_, hlen.le⟩
      show (getCast bits).length + 1 < 2 ^ 32
      omega
    rw [sendBitfield_eq sender hle]
    exact congrArg some (send_eq sender hsend)
  · rw [bitOf_getCast bits (by omega), List.getD_eq_getElem?_getD, List.getElem?_eq_getElem hi,
      Option.getD_some]
  · rw [bitOf_getCast bits hlt, List.getD_eq_getElem?_getD, List.getElem?_eq_none hi,
      Option.getD_none]
  · have hpieces : c.pieces.length = bits.length := by rw [hc, List.length_replicate]
    obtain ⟨bits', hstep, hlen', hget⟩ := handleResponse_bitfield host env hpieces hlen.le
    refine ⟨_, hstep, ?_⟩
    rw [env.pieces_on]
    refine List.ext_getElem hlen' fun k hk hk' => ?_
    have hbit := hget k hk'
    rw [hc, bitOf_getCast bits (by omega)] at hbit
    simpa [List.getD_eq_getElem?_getD, List.getElem?_eq_getElem hk, hk'] using hbit

/-- Nine bits: two bytes, seven spare bits. -/
theorem bitfield_arrives_nine :
    (∃ payload, sendBitfield .littleEndian (List.replicate 9 true) =
        some (bytesBE 4 (payload.length + 1) ++ 5 :: payload) ∧
      payload.length = (9 + 7) / 8 ∧
      (∀ i (hi : i < (List.replicate 9 true).length),
        bitOf payload i = (List.replicate 9 true)[i]) ∧
      (∀ i, 9 ≤ i → i < 8 * payload.length → bitOf payload i = false) ∧
      ∃ c', handleResponse .bigEndian 9 quiet (received (5 :: payload)) (fresh 9) =
        some (.taken (.bitfield payload), c') ∧ c'.pieces = List.replicate 9 true) ∧
    resize 9 (bitfield (getCast (List.replicate 9 true))) = List.replicate 9 true ∧
    ∀ bytes, getCast (bitfield bytes) = bytes :=
  bitfield_arrives .bigEndian .littleEndian (show (List.replicate 9 true).length ≤ 2 ^ 24 by decide) rfl

/-! ### A sequence of messages -/

/-- A client with how the messages handled so far ended. -/
structure Session (σ : Type) where
  client : Client σ
  outcomes : List Outcome

/-- The callback of `do_read_body` calls `handle_response`. -/
def handle (host : Host) (total : ℕ) (env : Surroundings σ) (s : Session σ) (body : List UInt8) :
    Session σ :=
  match handleResponse host total env (received body) s.client with
  | some (outcome, client) => ⟨client, s.outcomes ++ [outcome]⟩
  | none => s

/-- The test of `do_read_header` and `do_read_body`. -/
def isDisconnected (s : Session σ) : Bool := s.client.isDisconnected

/-- The client has asked for a header, and the bytes arrive in chunks. -/
def deliver (host : Host) (total : ℕ) (env : Surroundings σ) (c : Client σ)
    (chunks : List (List UInt8)) : ReadLoop.Client (Session σ) :=
  chunks.foldl (ReadLoop.receive (handle host total env) isDisconnected)
    (ReadLoop.access isDisconnected ⟨c, []⟩)

/-- The client is disconnected for the length of the last message only. -/
def OnlyForLength (s : Session σ) : Prop :=
  s.client.isDisconnected = true → s.outcomes.getLast? = some .badSize

instance (s : Session σ) : Decidable (OnlyForLength s) :=
  inferInstanceAs (Decidable (s.client.isDisconnected = true → s.outcomes.getLast? = some .badSize))

theorem deliver_eq (c : Client σ) (chunks : List (List UInt8)) :
    deliver host total env c chunks = ReadLoop.receive (handle host total env) isDisconnected
      (ReadLoop.access isDisconnected ⟨c, []⟩) chunks.flatten := by
  unfold deliver ReadLoop.receive
  rw [List.foldl_flatten]

/-- A sent message is handled as itself, unless the client is disconnected for another reason. -/
theorem handle_body {s : Session σ} (hs : s.client.pieces.length = total) {m : PeerMessage}
    (hm : Sendable total m) (hlength : OnlyForLength (handle host total env s (body m))) :
    (handle host total env s (body m)).outcomes = s.outcomes ++ [.taken m] ∧
      (handle host total env s (body m)).client.pieces.length = total ∧
      (handle host total env s (body m)).client.isDisconnected = false := by
  by_cases hr : Refused s.client m
  · have hstep : handle host total env s (body m) =
        ⟨disconnect env s.client, s.outcomes ++ [.refused]⟩ := by
      unfold handle
      rw [handleResponse_refused host hr]
    rw [hstep] at hlength
    have hlast := hlength (disconnect_isDisconnected s.client)
    simp at hlast
  · obtain ⟨c', hc'⟩ := handleResponse_body host env hs hm hr
    have hstep : handle host total env s (body m) = ⟨c', s.outcomes ++ [.taken m]⟩ := by
      unfold handle
      rw [hc']
    have hne : body m ≠ [] := by cases m <;> simp [body]
    obtain ⟨o, c'', hkept, hpieces, -⟩ := handleResponse_kept host env hs hne
    rw [hc'] at hkept
    cases hkept
    rw [hstep] at hlength ⊢
    refine ⟨rfl, hpieces, ?_⟩
    by_contra hdis
    have hlast := hlength (by simpa using hdis)
    simp at hlast

variable (env) in
/-- The frames of a sequence of messages are handled as the messages; the induction is on the
sequence. -/
theorem receive_sent (sender : Host) : ∀ (ms : List PeerMessage) (s : ReadLoop.Client (Session σ)),
    (∀ m ∈ ms, Sendable total m) → s.pending = .header → s.buffer = [] →
    s.peer.client.pieces.length = total → s.peer.client.isDisconnected = false →
    (∀ front, front <+: ms.flatMap (send sender) → OnlyForLength
      (ReadLoop.receive (handle host total env) isDisconnected s front).peer) →
    (ReadLoop.receive (handle host total env) isDisconnected s
        (ms.flatMap (send sender))).peer.outcomes = s.peer.outcomes ++ ms.map .taken ∧
      (ReadLoop.receive (handle host total env) isDisconnected s
        (ms.flatMap (send sender))).handled = s.handled ++ ms.map body
  | [], s, _, _, _, _, _, _ => by simp [ReadLoop.receive]
  | m :: ms, s, hms, hp, hb, hpieces, hd, hlength => by
    have hm : Sendable total m := hms m List.mem_cons_self
    let frame : ReadLoop.Body := ⟨body m, hm.1⟩
    have hframe : send sender m = ReadLoop.encode frame := send_eq sender hm
    have hne : frame.bytes ≠ [] := by
      show body m ≠ []
      cases m <;> simp [body]
    -- the frame of `m` is read as a whole
    have hone := ReadLoop.receive_encode_body (handle host total env) isDisconnected hp hb hd hne
    rw [← hframe] at hone
    have hlast := hlength (send sender m) ⟨ms.flatMap (send sender), by rw [List.flatMap_cons]⟩
    have hpeer : (ReadLoop.onBody (handle host total env) isDisconnected frame.bytes
        { s with pending := .body frame.bytes.length }).peer =
          handle host total env s.peer (body m) := by
      unfold ReadLoop.onBody ReadLoop.doReadHeader ReadLoop.read
      split <;> rfl
    rw [hone, hpeer] at hlast
    obtain ⟨hout, hpieces', hd'⟩ := handle_body host hpieces hm hlast
    have hnext : ReadLoop.onBody (handle host total env) isDisconnected frame.bytes
        { s with pending := .body frame.bytes.length } =
          ⟨handle host total env s.peer (body m), .header, [], s.handled ++ [body m]⟩ := by
      have hopen : isDisconnected (handle host total env s.peer (body m)) = false := hd'
      unfold ReadLoop.onBody ReadLoop.doReadHeader ReadLoop.read
      dsimp only
      rw [hopen]
      rfl
    rw [hnext] at hone
    -- the rest starts with the next header
    have ih := receive_sent sender ms
      ⟨handle host total env s.peer (body m), .header, [], s.handled ++ [body m]⟩
      (fun m' hm' => hms m' (List.mem_cons_of_mem _ hm')) rfl rfl hpieces' hd' (fun front hfront => by
        have hpre := hlength (send sender m ++ front) (by
          rw [List.flatMap_cons]
          exact (List.prefix_append_right_inj _).mpr hfront)
        rwa [ReadLoop.receive_append, hone] at hpre)
    rw [List.flatMap_cons, ReadLoop.receive_append, hone, ih.1, ih.2, hout]
    simp

/-- **Messages arrive as they were sent.** The sender and the receiver may be of either kind, and the
stream may be cut into any chunks; unless a handler disconnects the receiver for another reason than a
length, `handle_response` takes every message out of its body, in order, with its arguments. -/
theorem deliver_sent (sender receiver : Host) {c : Client σ} (hc : PastAccess receiver total env c)
    {ms : List PeerMessage} (hms : ∀ m ∈ ms, Sendable total m) {chunks : List (List UInt8)}
    (hchunks : chunks.flatten = ms.flatMap (send sender))
    (hlength : ∀ front, front <+: chunks.flatten →
      OnlyForLength (deliver receiver total env c [front]).peer) :
    (deliver receiver total env c chunks).peer.outcomes = ms.map .taken ∧
      (deliver receiver total env c chunks).handled = ms.map body ∧
      ∀ host, ms.flatMap (send host) = ms.flatMap (send sender) := by
  have hd : c.isDisconnected = false := by
    by_contra hdis
    have hpeer : (ReadLoop.access isDisconnected (⟨c, []⟩ : Session σ)).peer = ⟨c, []⟩ := by
      unfold ReadLoop.access ReadLoop.doReadHeader ReadLoop.read
      split <;> rfl
    have hbefore : OnlyForLength (ReadLoop.access isDisconnected (⟨c, []⟩ : Session σ)).peer :=
      hlength [] List.nil_prefix
    rw [hpeer] at hbefore
    have hlast := hbefore (by simpa using hdis)
    cases hlast
  have hstart : ReadLoop.access isDisconnected (⟨c, []⟩ : Session σ) = ⟨⟨c, []⟩, .header, [], []⟩ := by
    have hopen : isDisconnected (⟨c, []⟩ : Session σ) = false := hd
    unfold ReadLoop.access ReadLoop.doReadHeader ReadLoop.read
    dsimp only
    rw [hopen]
    rfl
  have hrun := receive_sent receiver env sender ms
    ⟨⟨c, []⟩, .header, [], []⟩ hms rfl rfl (length_pieces receiver hc) hd (fun front hfront => by
      have hpre := hlength front (by rwa [hchunks])
      rwa [deliver_eq, hstart, List.flatten_singleton] at hpre)
  refine ⟨?_, ?_, fun host => ?_⟩
  · rw [deliver_eq, hstart, hchunks, hrun.1]
    rfl
  · rw [deliver_eq, hstart, hchunks, hrun.2]
    rfl
  · refine List.flatMap_congr fun m hm => ?_
    rw [send_eq host (hms m hm), send_eq sender (hms m hm)]

/-- Two messages from a big-endian machine to a little-endian one, in three chunks. -/
theorem deliver_two :
    (deliver .littleEndian 2 quiet (fresh 2)
        [[0, 0], [0, 1, 2, 0, 0, 0, 5, 4, 0, 0], [0, 1]]).peer.outcomes =
          [.interested, .have_ 1].map .taken ∧
      (deliver .littleEndian 2 quiet (fresh 2)
        [[0, 0], [0, 1, 2, 0, 0, 0, 5, 4, 0, 0], [0, 1]]).handled = [.interested, .have_ 1].map body ∧
      ∀ host, [.interested, .have_ 1].flatMap (send host) =
        [.interested, .have_ 1].flatMap (send .bigEndian) := by
  have hall : ∀ front ∈ [[0, 0], [0, 1, 2, 0, 0, 0, 5, 4, 0, 0], [0, 1]].flatten.inits,
      OnlyForLength (deliver .littleEndian 2 quiet (fresh 2) [front]).peer := by decide +kernel
  exact deliver_sent .bigEndian .littleEndian (.access _) (by simp [Sendable, body])
    (by decide +kernel) fun front hfront => hall front ((List.mem_inits front _).mpr hfront)

end CppTorrent.Wire.Delivery
