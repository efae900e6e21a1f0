import CppTorrent.Lib.Endian
import CppTorrent.Wire.Bitfield

/-! # Messages of the peer protocol

A `SendingMessage` is a buffer that values are appended to, a `ReceivingPeerMessage` a view of the
bytes of a body with a cursor. A value goes through the memory of its machine on both sides:
`operator<<` swaps its bytes where the byte order of the message is not that of the machine and copies
them out, `operator>>` copies them in and swaps them back. `put_data` and `get_of_encoded` say that the
bytes depend on the byte order of the message only. The messages of a client are big-endian.

The `send_*` functions of a client build a body and `EncodeHeader` writes its length in front of it
(`sendMsg_eq`). They return the bytes given to the socket; what they do to the flags of the client is
in `Swarm.Model`. `send_bitfield` computes the number of its bytes in `float`.

A read outside the body has no value. -/

namespace CppTorrent.Wire.Message

open CppTorrent.Lib.BigEndian CppTorrent.Lib.Endian CppTorrent.Wire.Bitfield

/-! ### Values -/

/-- `ValueToArray`, for a type of `k` bytes. -/
def valueToArray (host : Host) (k value : ℕ) : List UInt8 := toMemory host k value

/-- `ArrayToValue`. -/
def arrayToValue (host : Host) (arr : List UInt8) : ℕ := ofMemory host arr

/-- `NativeToBig`. -/
def nativeToBig (host : Host) (k value : ℕ) : ℕ := swapIfLittle host k value

/-- `BigToNative`. -/
def bigToNative (host : Host) (k value : ℕ) : ℕ := swapIfLittle host k value

/-- `NativeToLittle`. -/
def nativeToLittle (host : Host) (k value : ℕ) : ℕ := swapIfBig host k value

/-- `LittleToNative`. -/
def littleToNative (host : Host) (k value : ℕ) : ℕ := swapIfBig host k value

/-- `bittorrent::ByteOrder`. -/
inductive ByteOrder where
  | bigEndian
  | littleEndian
  deriving DecidableEq

/-- The bytes of a number of `k` bytes in a byte order. -/
def encoded (order : ByteOrder) (k n : ℕ) : List UInt8 :=
  match order with
  | .bigEndian => bytesBE k n
  | .littleEndian => (bytesBE k n).reverse

/-! ### Sending -/

/-- `bittorrent::PEER_MESSAGE_TYPE`. -/
inductive PeerMessageType where
  | choke
  | unchoke
  | interested
  | notInterested
  | have_
  | bitfield
  | request
  | pieceBlock
  | cancel
  | port
  deriving DecidableEq

/-- The byte of a type. -/
def PeerMessageType.code : PeerMessageType → UInt8
  | .choke => 0
  | .unchoke => 1
  | .interested => 2
  | .notInterested => 3
  | .have_ => 4
  | .bitfield => 5
  | .request => 6
  | .pieceBlock => 7
  | .cancel => 8
  | .port => 9

/-- The type with a given byte: the labels of the `switch` in `handle_response`. -/
def PeerMessageType.ofCode : UInt8 → Option PeerMessageType
  | 0 => some .choke
  | 1 => some .unchoke
  | 2 => some .interested
  | 3 => some .notInterested
  | 4 => some .have_
  | 5 => some .bitfield
  | 6 => some .request
  | 7 => some .pieceBlock
  | 8 => some .cancel
  | 9 => some .port
  | _ => none

/-- `bittorrent::SendingMessage`. -/
structure SendingMessage where
  order : ByteOrder
  data : List UInt8

/-- `SendingMessage::CopyFrom`. -/
def SendingMessage.copyFrom (bytes : List UInt8) (msg : SendingMessage) : SendingMessage :=
  { msg with data := msg.data ++ bytes }

/-- `SendingMessage::operator<<`, for a type of `k` bytes. -/
def SendingMessage.put (host : Host) (k value : ℕ) (msg : SendingMessage) : SendingMessage :=
  match msg.order with
  | .bigEndian => msg.copyFrom (valueToArray host k (nativeToBig host k value))
  | .littleEndian => msg.copyFrom (valueToArray host k (nativeToLittle host k value))

/-- `bittorrent::header_length`. -/
def headerLength : ℕ := 4

/-- The constructor of `SendingPeerMessage`. -/
def sendingPeerMessage : SendingMessage := ⟨.bigEndian, List.replicate headerLength 0⟩

/-- `SendingPeerMessage::EncodeHeader`: the size is a 32-bit number. -/
def encodeHeader (host : Host) (msg : SendingMessage) : SendingMessage :=
  let bodySize := (msg.data.length - headerLength) % 2 ^ 32
  { msg with
    data := valueToArray host 4 (nativeToBig host 4 bodySize) ++ msg.data.drop headerLength }

/-- `PeerClient::send_msg`: the bytes given to `Send`. -/
def sendMsg (host : Host) (msg : SendingMessage) : List UInt8 := (encodeHeader host msg).data

/-- `msg << type`, with which every `send_*` begins. -/
def newMessage (host : Host) (type : PeerMessageType) : SendingMessage :=
  sendingPeerMessage.put host 1 type.code.toNat

/-- `PeerClient::send_keep_alive`. -/
def sendKeepAlive (host : Host) : List UInt8 := sendMsg host sendingPeerMessage

/-- `PeerClient::send_choke`. -/
def sendChoke (host : Host) : List UInt8 := sendMsg host (newMessage host .choke)

/-- `PeerClient::send_unchoke`. -/
def sendUnchoke (host : Host) : List UInt8 := sendMsg host (newMessage host .unchoke)

/-- `PeerClient::send_interested`. -/
def sendInterested (host : Host) : List UInt8 := sendMsg host (newMessage host .interested)

/-- `PeerClient::send_not_interested`. -/
def sendNotInterested (host : Host) : List UInt8 := sendMsg host (newMessage host .notInterested)

/-- `PeerClient::send_have`. -/
def sendHave (host : Host) (idx : UInt32) : List UInt8 :=
  sendMsg host ((newMessage host .have_).put host 4 idx.toNat)

/-- A bitfield message with a given payload. -/
def sendPayload (host : Host) (payload : List UInt8) : List UInt8 :=
  sendMsg host ((newMessage host .bitfield).copyFrom payload)

/-- Conversion of an unsigned number to `float`: 24 significant bits, rounded to nearest even. -/
def toFloat (n : ℕ) : ℕ :=
  let unit := 2 ^ (n.log2 - 23)
  let q := n / unit
  let r := n % unit
  if unit < 2 * r ∨ (2 * r = unit ∧ q % 2 = 1) then (q + 1) * unit else q * unit

/-- `bytesToSend` of `send_bitfield`. -/
def bytesToSend (size : ℕ) : ℕ := (toFloat size + 7) / 8

/-- `PeerClient::send_bitfield`, for the bits of the master peer; `none` if it copies more bytes than
there are. -/
def sendBitfield (host : Host) (bits : List Bool) : Option (List UInt8) :=
  let bitsLikeBytes := getCast bits
  if bytesToSend bits.length ≤ bitsLikeBytes.length then
    some (sendPayload host (bitsLikeBytes.take (bytesToSend bits.length)))
  else none

/-- `PeerClient::send_request`. -/
def sendRequest (host : Host) (pieceRequestIndex begin_ length : UInt32) : List UInt8 :=
  sendMsg host ((((newMessage host .request).put host 4 pieceRequestIndex.toNat).put host 4
    begin_.toNat).put host 4 length.toNat)

/-- `PeerClient::send_block`. -/
def sendBlock (host : Host) (pieceIdx offset : UInt32) (data : List UInt8) : List UInt8 :=
  sendMsg host ((((newMessage host .pieceBlock).put host 4 pieceIdx.toNat).put host 4
    offset.toNat).copyFrom data)

/-- `PeerClient::send_cancel`. -/
def sendCancel (host : Host) (pieceIdx offset length : UInt32) : List UInt8 :=
  sendMsg host ((((newMessage host .cancel).put host 4 pieceIdx.toNat).put host 4
    offset.toNat).put host 4 length.toNat)

/-- `PeerClient::send_port`: the port is a `size_t`. -/
def sendPort (host : Host) (port : UInt64) : List UInt8 :=
  sendMsg host ((newMessage host .port).put host 8 port.toNat)

@[simp] theorem put_order (host : Host) (k value : ℕ) (msg : SendingMessage) :
    (msg.put host k value).order = msg.order := by
  unfold SendingMessage.put
  split <;> rfl

/-- **The bytes of a value do not depend on the machine.** -/
theorem put_data (host : Host) (k value : ℕ) (msg : SendingMessage) :
    (msg.put host k value).data = msg.data ++ encoded msg.order k value := by
  obtain ⟨order, data⟩ := msg
  rcases order with _ | _
  · exact congrArg (data ++ ·) (toMemory_swapIfLittle host k value)
  · exact congrArg (data ++ ·) (toMemory_swapIfBig host k value)

theorem newMessage_data (host : Host) (type : PeerMessageType) :
    (newMessage host type).data = List.replicate headerLength 0 ++ [type.code] := by
  have hcode : bytesBE 1 type.code.toNat = [type.code] := by
    show [UInt8.ofNat type.code.toNat] = [type.code]
    rw [UInt8.ofNat_toNat]
  unfold newMessage
  rw [put_data]
  exact congrArg (List.replicate headerLength 0 ++ ·) hcode

/-- **A frame is the length of its body, big-endian on every machine, and the body.** -/
theorem sendMsg_eq (host : Host) {msg : SendingMessage} {body : List UInt8}
    (h : msg.data = List.replicate headerLength 0 ++ body) (hbody : body.length < 2 ^ 32) :
    sendMsg host msg = bytesBE 4 body.length ++ body := by
  have hlen : (msg.data.length - headerLength) % 2 ^ 32 = body.length := by
    rw [h, List.length_append, List.length_replicate]
    omega
  have hdrop : msg.data.drop headerLength = body := by
    rw [h, List.drop_left' List.length_replicate]
  show valueToArray host 4 (nativeToBig host 4 _) ++ msg.data.drop headerLength = _
  rw [hlen, hdrop]
  exact congrArg (· ++ body) (toMemory_swapIfLittle host 4 body.length)

theorem toFloat_of_le {n : ℕ} (h : n ≤ 2 ^ 24) : toFloat n = n := by
  rcases Nat.lt_or_ge n (2 ^ 24) with hlt | hge
  · have hlog : n.log2 - 23 = 0 := by
      rcases Nat.eq_zero_or_pos n with rfl | hpos
      · rfl
      · have hlog := (Nat.log2_lt hpos.ne').mpr hlt
        omega
    have hmod : n % 1 = 0 := Nat.mod_one n
    unfold toFloat
    rw [hlog]
    simp [hmod]
  · obtain rfl : n = 2 ^ 24 := by omega
    decide

/-- **The `float` computation is exact up to `2 ^ 24` pieces.** -/
theorem bytesToSend_eq {bits : List Bool} (h : bits.length ≤ 2 ^ 24) :
    bytesToSend bits.length = (getCast bits).length := by
  unfold bytesToSend
  rw [toFloat_of_le h, length_getCast]

/-- All bytes are sent then. -/
theorem sendBitfield_eq (host : Host) {bits : List Bool} (h : bits.length ≤ 2 ^ 24) :
    sendBitfield host bits = some (sendPayload host (getCast bits)) := by
  unfold sendBitfield
  rw [bytesToSend_eq h, if_pos le_rfl, List.take_length]

/-! ### Receiving -/

/-- `bittorrent::ReceivingPeerMessage`: the bytes it views, the cursor and the size of the body. -/
structure ReceivingPeerMessage where
  order : ByteOrder
  arr : List UInt8
  inpPos : ℕ
  bodySize : ℕ

/-- `ReceivingPeerMessage::SetBuffer`. -/
def ReceivingPeerMessage.setBuffer (data : List UInt8) (msg : ReceivingPeerMessage) :
    ReceivingPeerMessage := { msg with arr := data, inpPos := 1 }

/-- The message that the callback of `do_read_body` hands to `handle_response`: `DecodeHeader` has set
the size of the body. -/
def received (body : List UInt8) : ReceivingPeerMessage :=
  ReceivingPeerMessage.setBuffer body ⟨.bigEndian, [], 0, body.length⟩

/-- A byte of the body: `operator[]` and `Body()[i]`. -/
def ReceivingPeerMessage.at_ (i : ℕ) (msg : ReceivingPeerMessage) : Option UInt8 := msg.arr[i]?

/-- `ReceivingMessage::CopyTo`. -/
def ReceivingPeerMessage.copyTo (size : ℕ) (msg : ReceivingPeerMessage) :
    Option (List UInt8 × ReceivingPeerMessage) :=
  if msg.inpPos + size ≤ msg.arr.length then
    some ((msg.arr.drop msg.inpPos).take size, { msg with inpPos := msg.inpPos + size })
  else none

/-- `ReceivingMessage::operator>>`, for a type of `k` bytes. -/
def ReceivingPeerMessage.get (host : Host) (k : ℕ) (msg : ReceivingPeerMessage) :
    Option (ℕ × ReceivingPeerMessage) :=
  (msg.copyTo k).map fun (bytes, msg) =>
    match msg.order with
    | .bigEndian => (bigToNative host k (arrayToValue host bytes), msg)
    | .littleEndian => (littleToNative host k (arrayToValue host bytes), msg)

/-- The bytes that a pointer into the body and a size stand for. -/
def ReceivingPeerMessage.bytesAt (offset size : ℕ) (msg : ReceivingPeerMessage) :
    Option (List UInt8) :=
  if offset + size ≤ msg.arr.length then some ((msg.arr.drop offset).take size) else none

@[simp] theorem length_encoded (order : ByteOrder) (k n : ℕ) : (encoded order k n).length = k := by
  cases order <;> simp [encoded]

/-- A value inside the body is read, and the cursor moves behind it. -/
theorem get_isSome (host : Host) (k : ℕ) (msg : ReceivingPeerMessage)
    (h : msg.inpPos + k ≤ msg.arr.length) :
    ∃ value, msg.get host k = some (value, { msg with inpPos := msg.inpPos + k }) := by
  unfold ReceivingPeerMessage.get ReceivingPeerMessage.copyTo
  rw [if_pos h, Option.map_some]
  dsimp only
  split <;> exact ⟨_, rfl⟩

theorem bytesAt_isSome {offset size : ℕ} (msg : ReceivingPeerMessage)
    (h : offset + size ≤ msg.arr.length) : ∃ bytes, msg.bytesAt offset size = some bytes := by
  unfold ReceivingPeerMessage.bytesAt
  rw [if_pos h]
  exact ⟨_, rfl⟩

/-- **The bytes of a value at the cursor are read as that value**, whatever the machine. -/
theorem get_of_encoded (host : Host) (order : ByteOrder) {k n : ℕ} (front back : List UInt8) (size : ℕ)
    (hn : n < 256 ^ k) :
    ReceivingPeerMessage.get host k
        ⟨order, front ++ (encoded order k n ++ back), front.length, size⟩ =
      some (n, ⟨order, front ++ (encoded order k n ++ back), front.length + k, size⟩) := by
  have hlen : (encoded order k n).length = k := length_encoded order k n
  have hbytes : ((front ++ (encoded order k n ++ back)).drop front.length).take k =
      encoded order k n := by
    rw [List.drop_left, List.take_left' hlen]
  have hle : front.length + k ≤ (front ++ (encoded order k n ++ back)).length := by
    rw [List.length_append, List.length_append, hlen]
    omega
  unfold ReceivingPeerMessage.get ReceivingPeerMessage.copyTo
  rw [if_pos hle, Option.map_some, hbytes]
  rcases order with _ | _
  · have hvalue : bigToNative host k (arrayToValue host (bytesBE k n)) = n := by
      refine (swapIfLittle_ofMemory host (length_bytesBE k n)).trans ?_
      exact numberBE_bytesBE hn
    exact congrArg some (Prod.ext hvalue rfl)
  · have hvalue : littleToNative host k (arrayToValue host (bytesBE k n).reverse) = n := by
      refine (swapIfBig_ofMemory host (by simp)).trans ?_
      rw [List.reverse_reverse, numberBE_bytesBE hn]
    exact congrArg some (Prod.ext hvalue rfl)

end CppTorrent.Wire.Message
