import CppTorrent.Lib.Fallible
import CppTorrent.Tracker.Promise

/-! # The datagrams of a UDP tracker

The replies of the tracker to a connect and to an announce request, as the requester takes them. An
announce reply is accepted if it has twenty bytes, the transaction id and the right action; a zero byte
is appended to it, and the peers are read from position 20. `compact_staysInside_iff` says when the
loop over them stays inside, here and in the reply of an HTTP tracker: the number of bytes behind the
header is a multiple of six, or a zero byte comes in time. -/

namespace CppTorrent.Tracker.Announce

open CppTorrent.Lib.Endian CppTorrent.Lib.Fallible CppTorrent.Wire.Message
open CppTorrent.Tracker.Promise

/-- The message a read callback is given. -/
def message (data : List UInt8) : ReceivingPeerMessage := ⟨.bigEndian, data, 0, 0⟩

/-- `bittorrent_constants::short_buff_size`. -/
def shortBuffSize : ℕ := 32

/-- `bittorrent_constants::middle_buff_size`. -/
def middleBuffSize : ℕ := 98

/-- `bittorrent_constants::MTU`. -/
def mtu : ℕ := 1500

/-- What the callback of `do_connect_response` does with a datagram. -/
inductive ConnectReply where
  /-- `do_try_connect_delay` -/
  | delay
  /-- the ids of `c_resp_` are set, and `do_try_announce` is called -/
  | connected (connectionId transactionId : ℕ)

/-- The callback of `do_connect_response`, for the transaction id of `c_req_`. -/
def onConnectResponse (host : Host) (transactionId : ℕ) (data : List UInt8) : Option ConnectReply :=
  if data.length < 16 then some .delay
  else do
    let (action, msg) ← (message data).get host 4
    let (value, msg) ← msg.get host 4
    if value = transactionId ∧ action = 0 then do
      let (connectionId, _) ← msg.get host 8
      return .connected (nativeToBig host 8 connectionId) (nativeToBig host 4 value)
    else return .delay

/-- What the callback of `do_announce_response` does with a datagram. -/
inductive AnnounceReply where
  /-- `do_try_announce_delay` -/
  | delay
  /-- the tracker reports an error: `do_try_announce_delay` -/
  | error
  /-- `SetResponse` -/
  | accepted (data : List UInt8)

/-- The callback of `do_announce_response`, for the transaction id of `c_resp_`. -/
def onAnnounceResponse (host : Host) (transactionId : ℕ) (data : List UInt8) :
    Option AnnounceReply :=
  if data.length < 8 then some .delay
  else do
    let (action, msg) ← (message data).get host 4
    let (val, _) ← msg.get host 4
    if 20 ≤ data.length ∧ val = bigToNative host 4 transactionId ∧ action = 1 then
      return .accepted (((⟨.bigEndian, []⟩ : SendingMessage).copyFrom data).put host 1 0).data
    else if data.length ≠ 0 ∧ val = bigToNative host 4 transactionId ∧ action = 3 then
      return .error
    else return .delay

/-- `udpRequester::SetResponse`. -/
def setResponse (host : Host) (data : List UInt8) (r : Requester) : Except Fault Requester :=
  if r.isSet then .ok r
  else do
    let interval ← (List.range 4).mapM fun j => byteAt data (8 + j)
    let peers ← compactLoop host data (data.length + 1) 20
    r.finish { response with
      interval := bigToNative host 4 (arrayToValue host interval)
      peers := peers }

variable {host : Host} {transactionId : ℕ} {datagram data : List UInt8}

/-! ### The replies -/

/-- The action of a datagram and its transaction id. -/
theorem head_isSome (host : Host) {datagram : List UInt8} (h : 8 ≤ datagram.length) :
    ∃ action value, (message datagram).get host 4 =
        some (action, { message datagram with inpPos := (message datagram).inpPos + 4 }) ∧
      ({ message datagram with inpPos := (message datagram).inpPos + 4 } :
        ReceivingPeerMessage).get host 4 =
        some (value, { message datagram with inpPos := (message datagram).inpPos + 4 + 4 }) := by
  have h1 : (message datagram).inpPos + 4 ≤ datagram.length := by
    show 0 + 4 ≤ datagram.length
    omega
  have h2 : (message datagram).inpPos + 4 + 4 ≤ datagram.length := by
    show 0 + 4 + 4 ≤ datagram.length
    omega
  obtain ⟨action, haction⟩ := get_isSome host 4 (message datagram) h1
  obtain ⟨value, hvalue⟩ := get_isSome host 4
    { message datagram with inpPos := (message datagram).inpPos + 4 } h2
  exact ⟨action, value, haction, hvalue⟩

/-- A connect reply is read inside the datagram. -/
theorem onConnectResponse_isSome (host : Host) (transactionId : ℕ) (datagram : List UInt8) :
    ∃ reply, onConnectResponse host transactionId datagram = some reply := by
  unfold onConnectResponse
  split
  · exact ⟨_, rfl⟩
  · obtain ⟨action, value, haction, hvalue⟩ := head_isSome host (show 8 ≤ datagram.length by omega)
    obtain ⟨connection, hconnection⟩ := get_isSome host 8
      { message datagram with inpPos := (message datagram).inpPos + 4 + 4 }
      (by show 0 + 4 + 4 + 8 ≤ datagram.length; omega)
    simp only [haction, hvalue, hconnection, Option.bind_eq_bind, Option.bind_some]
    split <;> exact ⟨_, rfl⟩

/-- An announce reply is read inside the datagram. -/
theorem onAnnounceResponse_isSome (host : Host) (transactionId : ℕ) (datagram : List UInt8) :
    ∃ reply, onAnnounceResponse host transactionId datagram = some reply := by
  unfold onAnnounceResponse
  split
  · exact ⟨_, rfl⟩
  · obtain ⟨action, value, haction, hvalue⟩ := head_isSome host (show 8 ≤ datagram.length by omega)
    simp only [haction, hvalue, Option.bind_eq_bind, Option.bind_some]
    split
    · exact ⟨_, rfl⟩
    · split <;> exact ⟨_, rfl⟩

/-- **An accepted datagram has twenty bytes and gets a zero byte at its end.** -/
theorem onAnnounceResponse_accepted
    (h : onAnnounceResponse host transactionId datagram = some (.accepted data)) :
    20 ≤ datagram.length ∧ data = datagram ++ [0] := by
  have hzero : (((⟨.bigEndian, []⟩ : SendingMessage).copyFrom datagram).put host 1 0).data =
      datagram ++ [0] := by
    rw [put_data]
    rfl
  unfold onAnnounceResponse at h
  split at h
  · cases h
  · obtain ⟨action, value, haction, hvalue⟩ := head_isSome host (show 8 ≤ datagram.length by omega)
    simp only [haction, hvalue, Option.bind_eq_bind, Option.bind_some] at h
    split at h
    · next hok =>
      cases h
      exact ⟨hok.1, hzero⟩
    · split at h <;> cases h

/-- A response whose peers stay inside settles the promise. -/
theorem setResponse_answered {r : Requester} (hr : r.isSet = false) (hlen : 20 ≤ data.length)
    (hinside : StaysInside host data 20) : ∃ r', setResponse host data r = .ok r' ∧ r'.Answered := by
  obtain ⟨peers, hpeers⟩ := hinside
  have hrange : List.range 4 = [0, 1, 2, 3] := rfl
  obtain ⟨interval, hinterval⟩ : ∃ interval,
      (List.range 4).mapM (fun j => byteAt data (8 + j)) = Except.ok interval := by
    simp only [hrange, List.mapM_cons, List.mapM_nil, byteAt_of_lt (show 8 + 0 < data.length by omega),
      byteAt_of_lt (show 8 + 1 < data.length by omega),
      byteAt_of_lt (show 8 + 2 < data.length by omega),
      byteAt_of_lt (show 8 + 3 < data.length by omega)]
    exact ⟨_, rfl⟩
  obtain ⟨r', hr', hanswered⟩ := r.answered_finish hr { response with
    interval := bigToNative host 4 (arrayToValue host interval), peers := peers }
  refine ⟨r', ?_, hanswered⟩
  unfold setResponse
  rw [if_neg (Bool.eq_false_iff.mp hr), hinterval]
  show (compactLoop host data (data.length + 1) 20).bind _ = _
  rw [hpeers (data.length + 1) (by omega)]
  exact hr'

/-- A response that has been set has settled the promise. -/
theorem answered_of_setResponse {r r' : Requester} (hr : r.isSet = false)
    (h : setResponse host data r = .ok r') : r'.Answered := by
  unfold setResponse at h
  rw [if_neg (Bool.eq_false_iff.mp hr)] at h
  obtain ⟨interval, -, h⟩ := bind_eq_ok.mp h
  obtain ⟨peers, -, h⟩ := bind_eq_ok.mp h
  exact Requester.answered_of_finish hr h

/-! ### Compact peers -/

/-- **The loops over compact peers stay inside exactly if whole peers lie up to the end, or up to a zero
byte** where a peer should begin: the loop over an accepted datagram, and the loop over the string of an
HTTP reply with its terminating zero. -/
theorem compact_staysInside_iff
    (h : onAnnounceResponse host transactionId datagram = some (.accepted data)) (str : List UInt8) :
    (StaysInside host data 20 ↔ 6 ∣ datagram.length - 20 ∨ Ends datagram 20) ∧
      (StaysInside host (str ++ [0]) 0 ↔ 6 ∣ str.length ∨ Ends str 0) := by
  obtain ⟨hlen, rfl⟩ := onAnnounceResponse_accepted h
  rw [staysInside_iff, staysInside_iff]
  exact ⟨ends_append_zero hlen, ends_append_zero (Nat.zero_le _)⟩

/-- An announce reply for the transaction id 0, with some bytes behind its header. -/
def announceReply (peers : List UInt8) : List UInt8 := [0, 0, 0, 1] ++ List.replicate 16 0 ++ peers

/-- One whole peer stays inside. -/
theorem compact_staysInside_one :
    (StaysInside .littleEndian (announceReply [127, 0, 0, 1, 26, 225] ++ [0]) 20 ↔
        6 ∣ (announceReply [127, 0, 0, 1, 26, 225]).length - 20 ∨
          Ends (announceReply [127, 0, 0, 1, 26, 225]) 20) ∧
      (StaysInside .littleEndian ([1] ++ [0]) 0 ↔ 6 ∣ [(1 : UInt8)].length ∨ Ends [1] 0) :=
  compact_staysInside_iff (show onAnnounceResponse .littleEndian 0 _ = some (.accepted _) from rfl) [1]

/-- A datagram with a single byte behind its header is accepted, and the loop leaves the buffer. -/
theorem compact_leaves :
    onAnnounceResponse .littleEndian 0 (announceReply [1]) =
        some (.accepted (announceReply [1] ++ [0])) ∧
      ¬ StaysInside .littleEndian (announceReply [1] ++ [0]) 20 := by
  refine ⟨rfl, fun h => ?_⟩
  obtain ⟨q, hq⟩ := staysInside_iff.mp h
  obtain ⟨hlt, hzero⟩ := List.getElem?_eq_some_iff.mp hq
  have hlen : (announceReply [1] ++ [0]).length = 22 := rfl
  obtain rfl : q = 0 := by omega
  cases hzero

end CppTorrent.Tracker.Announce
