import CppTorrent.Tracker.AnnouncePacket
import CppTorrent.Tracker.CompactPeers
import CppTorrent.Tracker.UdpRetries

/-! # A UDP requester and its trackers

The requester of `Tracker.UdpRetries` with the datagrams it sends, a tracker at every endpoint, and the
network between them. A tracker hands out a connection id for a connect request; it answers an announce
request that carries a connection id it has handed out, or reports an error. Whatever has been sent can
arrive later, in any order, several times or never; a datagram that is longer than the buffer of the
read loses its end.

All attempts have the same transaction id, and the ids of the last connect reply are kept, so a reply
can belong to an earlier attempt or come from another endpoint. `heard_run` says what still holds: if
the requester settles its promise with peers, they are those of one answer to an announce request of
its own with all fields of the query, sent to the tracker that had handed out its connection id. -/

namespace CppTorrent.Tracker.UdpSession

open CppTorrent.Lib.BigEndian CppTorrent.Lib.ByteFile CppTorrent.Lib.Endian CppTorrent.Lib.Fields
open CppTorrent.Lib.Runs
open CppTorrent.Wire.Message CppTorrent.Tracker.Promise CppTorrent.Tracker.Announce
open CppTorrent.Tracker.AnnouncePacket CppTorrent.Tracker.CompactPeers
open CppTorrent.Tracker.UdpRetries (Pending)

/-! ### The datagrams -/

/-- `c_req_.protocol_id`. -/
def protocolId : ℕ := 0x41727101980

/-- The message of `do_try_connect`. -/
def connectRequest (host : Host) (transactionId : ℕ) : List UInt8 :=
  ((((⟨.bigEndian, []⟩ : SendingMessage).put host 8 protocolId).put host 4 0).put host 4
    transactionId).data

/-- A connect request, for a tracker. -/
def IsConnect (request : List UInt8) : Prop :=
  request.length = 16 ∧ numberBE (field 0 8 request) = protocolId ∧ numberBE (field 8 4 request) = 0

instance (request : List UInt8) : Decidable (IsConnect request) := inferInstanceAs (Decidable (_ ∧ _))

/-- An announce request, for a tracker. -/
def IsAnnounce (request : List UInt8) : Prop :=
  request.length = 98 ∧ numberBE (field 8 4 request) = 1

instance (request : List UInt8) : Decidable (IsAnnounce request) := inferInstanceAs (Decidable (_ ∧ _))

/-- The reply to a connect request. -/
def connectReply (request connectionId : List UInt8) : List UInt8 :=
  bytesBE 4 0 ++ (field 12 4 request ++ connectionId)

/-- An error that a tracker reports. -/
def errorReply (request text : List UInt8) : List UInt8 := bytesBE 4 3 ++ (field 12 4 request ++ text)

/-- The answer of a tracker to an announce request. -/
structure Answer where
  endpoint : ℕ
  request : List UInt8
  interval : UInt32
  leechers : UInt32
  seeders : UInt32
  peers : List Address

/-- The bytes in front of the peers. -/
def Answer.header (a : Answer) : List UInt8 :=
  bytesBE 4 1 ++ (field 12 4 a.request ++ (bytesBE 4 a.interval.toNat ++
    (bytesBE 4 a.leechers.toNat ++ bytesBE 4 a.seeders.toNat)))

def Answer.datagram (a : Answer) : List UInt8 := a.header ++ encodePeers a.peers

/-! ### The requester, the trackers and the network -/

/-- The state of all of them. An endpoint is numbered by the endpoints behind it. -/
structure World where
  client : UdpRetries.State
  /-- `announce_req_` -/
  announceReq : List UInt8
  /-- the datagrams sent, with their endpoints -/
  requests : List (ℕ × List UInt8)
  /-- the connection ids handed out, with the endpoints of the trackers -/
  issued : List (ℕ × List UInt8)
  answers : List Answer
  /-- the datagrams sent by the trackers -/
  replies : List (List UInt8)

/-- The operation in progress ends, or a tracker sends a reply to a request that has arrived. -/
inductive Act where
  | failed
  | timer
  | sent (bytesTransferred : ℕ) (late : Bool)
  | received (datagram : List UInt8) (late : Bool)
  | connect (endpoint : ℕ) (request connectionId : List UInt8)
  | announce (a : Answer)
  | error (endpoint : ℕ) (request text : List UInt8)

/-- The size of the buffer of the read in progress. -/
def bufferSize : Pending → ℕ
  | .connectRead => shortBuffSize
  | _ => mtu

/-- The datagram of the send in progress. -/
def World.datagram (host : Host) (w : World) : List UInt8 :=
  match w.client.pending with
  | .connectSend => connectRequest host w.client.transactionId
  | .announceSend => (SendingMessage.copyFrom (w.announceReq.take middleBuffSize) ⟨.bigEndian, []⟩).data
  | _ => []

/-- The requester goes on: an announce request is sent with the ids of `c_resp_`. -/
def World.goOn (host : Host) (w : World) (client : UdpRetries.State) : World :=
  { w with
    client := client
    announceReq :=
      if client.pending = .announceSend then
        (doTryAnnounce host client.connection.1 client.connection.2 w.announceReq).1
      else w.announceReq }

/-- One step. -/
def step (host : Host) (w : World) : Act → Option World
  | .failed => (UdpRetries.step host w.client .failed).map (w.goOn host)
  | .timer => (UdpRetries.step host w.client .timer).map (w.goOn host)
  | .sent bytesTransferred late =>
    (UdpRetries.step host w.client (.sent bytesTransferred late)).map fun client =>
      { w.goOn host client with
        requests := (w.client.later, (w.datagram host).take bytesTransferred) :: w.requests }
  | .received datagram late =>
    if datagram ∈ w.replies then
      (UdpRetries.step host w.client
        (.received (datagram.take (bufferSize w.client.pending)) late)).map (w.goOn host)
    else none
  | .connect endpoint request connectionId =>
    if (endpoint, request) ∈ w.requests ∧ IsConnect request ∧ connectionId.length = 8 then
      some { w with
        issued := (endpoint, connectionId) :: w.issued
        replies := connectReply request connectionId :: w.replies }
    else none
  | .announce a =>
    if (a.endpoint, a.request) ∈ w.requests ∧ IsAnnounce a.request ∧
        (a.endpoint, field 0 8 a.request) ∈ w.issued ∧ (∀ peer ∈ a.peers, peer.firstOctet ≠ 0) ∧
        a.datagram.length ≤ mtu then
      some { w with answers := a :: w.answers, replies := a.datagram :: w.replies }
    else none
  | .error endpoint request text =>
    if (endpoint, request) ∈ w.requests then
      some { w with replies := errorReply request text :: w.replies }
    else none

/-- What a requester announces, and the endpoints of its tracker. -/
structure Session where
  wanted : Wanted
  infoHash : List UInt8
  masterPeerId : List UInt8
  port : UInt16
  transactionId : ℕ
  endpoints : ℕ
  length_infoHash : infoHash.length = 20
  length_masterPeerId : masterPeerId.length = 20
  transactionId_lt : transactionId < 256 ^ 4
  endpoints_pos : 1 ≤ endpoints

/-- `udpRequester::Connect`, up to the first send. -/
def connect (host : Host) (x : Session) : Option World :=
  (makeAnnounceRequest host x.infoHash x.masterPeerId x.port.toNat x.wanted.query
    (List.replicate 99 0)).map fun announceReq =>
      ⟨UdpRetries.start x.transactionId x.endpoints, announceReq, [], [], [], []⟩

/-- An announce request of the session. -/
def Session.Announces (x : Session) (connectionId packet : List UInt8) : Prop :=
  AnnouncePacket.Announces x.wanted x.infoHash x.masterPeerId x.port connectionId x.transactionId packet

/-- The array after `make_announce_request`. -/
def Session.made (host : Host) (x : Session) : List UInt8 :=
  writeFields (queryFields host x.infoHash x.masterPeerId x.port.toNat x.wanted.query
    ((x.wanted.key.map DecimalInt.toInt).getD 0)) (List.replicate 99 0)

/-! ### What a step of the requester changes -/

/-- The text of the exception of `update_endpoint`. -/
def dried : String := "all endpoints were polled but without success"

/-- The promise stays as it is, or all endpoints have been polled. -/
def Quiet (r r' : Requester) : Prop := r' = r ∨ r' = r.setException dried

/-- The requester announces, or waits for the reply. -/
def Announcing : Pending → Prop
  | .announceSend | .announceRead | .announceDelay => True
  | _ => False

section Client

variable {host : Host} {s s' : UdpRetries.State}

/-- The ids and the promise after a call. -/
structure Keeps (s s' : UdpRetries.State) : Prop where
  transactionId : s'.transactionId = s.transactionId
  connection : s'.connection = s.connection
  requester : Quiet s.requester s'.requester

theorem keeps_doTryConnect (later : ℕ) (s : UdpRetries.State) :
    Keeps s (UdpRetries.doTryConnect later s) ∧ ¬ Announcing (UdpRetries.doTryConnect later s).pending := by
  induction later generalizing s with
  | zero =>
    rw [UdpRetries.doTryConnect]
    by_cases hzero : s.connectAttempts = 0
    · simp only [hzero, if_true]
      exact ⟨⟨rfl, rfl, Or.inr rfl⟩, id⟩
    · simp only [hzero, if_false]
      exact ⟨⟨rfl, rfl, Or.inl rfl⟩, id⟩
  | succ later ih =>
    rw [UdpRetries.doTryConnect]
    by_cases hzero : s.connectAttempts = 0
    · simp only [hzero, if_true]
      obtain ⟨⟨hid, hconnection, hrequester⟩, hpending⟩ :=
        ih { s with connectAttempts := UdpRetries.maxConnectAttempts, later := later + 1 }
      exact ⟨⟨hid, hconnection, hrequester⟩, hpending⟩
    · simp only [hzero, if_false]
      exact ⟨⟨rfl, rfl, Or.inl rfl⟩, id⟩

theorem keeps_doTryConnectDelay (late : Bool) (s : UdpRetries.State) :
    Keeps s (UdpRetries.doTryConnectDelay late s) ∧
      ¬ Announcing (UdpRetries.doTryConnectDelay late s).pending := by
  unfold UdpRetries.doTryConnectDelay
  split
  · exact keeps_doTryConnect s.later s
  · exact ⟨⟨rfl, rfl, Or.inl rfl⟩, id⟩

theorem keeps_doTryAnnounce (s : UdpRetries.State) : Keeps s (UdpRetries.doTryAnnounce s) := by
  unfold UdpRetries.doTryAnnounce
  by_cases hzero : s.announceAttempts = 0
  · simp only [hzero, if_true]
    obtain ⟨⟨hid, hconnection, hrequester⟩, -⟩ := keeps_doTryConnect s.later { s with
      announceAttempts := UdpRetries.maxAnnounceAttempts }
    exact ⟨hid, hconnection, hrequester⟩
  · simp only [hzero, if_false]
    exact ⟨rfl, rfl, Or.inl rfl⟩

theorem keeps_doTryAnnounceDelay (late : Bool) (s : UdpRetries.State) :
    Keeps s (UdpRetries.doTryAnnounceDelay late s) := by
  unfold UdpRetries.doTryAnnounceDelay
  split
  · exact keeps_doTryAnnounce s
  · exact ⟨rfl, rfl, Or.inl rfl⟩

/-- What a step changes: it goes on, takes the ids of a connect reply, or takes the peers of an answer. -/
inductive Changes (host : Host) (s : UdpRetries.State) : UdpRetries.Event → UdpRetries.State → Prop
  | goesOn {e : UdpRetries.Event} {s' : UdpRetries.State} (hkeeps : Keeps s s')
      (hannouncing : Announcing s'.pending → Announcing s.pending) : Changes host s e s'
  | connected {datagram : List UInt8} {late : Bool} {connectionId connectedId : ℕ}
      {s' : UdpRetries.State}
      (hreply : onConnectResponse host s.transactionId datagram =
        some (.connected connectionId connectedId))
      (hkeeps : Keeps { s with connection := (connectionId, connectedId) } s') :
      Changes host s (.received datagram late) s'
  | told {datagram data : List UInt8} {late : Bool} {requester : Requester}
      (hannouncing : Announcing s.pending)
      (hreply : onAnnounceResponse host s.connection.2 datagram = some (.accepted data))
      (hset : setResponse host data s.requester = .ok requester) :
      Changes host s (.received datagram late) { s with pending := .nothing, requester := requester }

theorem step_changes {e : UdpRetries.Event} (h : UdpRetries.step host s e = some s') :
    Changes host s e s' := by
  -- back to the connecting
  have hconnect : ∀ {e : UdpRetries.Event} {s₁ s₂ : UdpRetries.State}
      (_ : s₁.transactionId = s.transactionId) (_ : s₁.connection = s.connection)
      (_ : s₁.requester = s.requester),
      Keeps s₁ s₂ ∧ ¬ Announcing s₂.pending → Changes host s e s₂ := by
    rintro e s₁ s₂ hid hconnection hsame ⟨⟨hid', hconnection', hrequester⟩, hnot⟩
    exact .goesOn ⟨hid'.trans hid, hconnection'.trans hconnection, hsame ▸ hrequester⟩
      fun h => absurd h hnot
  cases e with
  | failed =>
    simp only [UdpRetries.step] at h
    split at h
    · cases h
      exact @hconnect _ { s with connectAttempts := 0 } _ rfl rfl rfl (keeps_doTryConnect s.later _)
    · cases h
      exact hconnect rfl rfl rfl (keeps_doTryConnect s.later s)
    · next hpending =>
      cases h
      exact .goesOn (keeps_doTryAnnounce s) fun _ => hpending ▸ trivial
    · next hpending =>
      cases h
      exact .goesOn (keeps_doTryAnnounce s) fun _ => hpending ▸ trivial
    · cases h
  | timer =>
    simp only [UdpRetries.step] at h
    split at h
    · cases h
      exact hconnect rfl rfl rfl (keeps_doTryConnect s.later s)
    · next hpending =>
      cases h
      exact .goesOn (keeps_doTryAnnounce s) fun _ => hpending ▸ trivial
    · cases h
  | sent bytesTransferred late =>
    simp only [UdpRetries.step] at h
    split at h
    · split_ifs at h
      · cases h
        exact @hconnect _ { s with connectAttempts := 0 } _ rfl rfl rfl (keeps_doTryConnectDelay late _)
      · cases h
        exact .goesOn ⟨rfl, rfl, Or.inl rfl⟩ fun h => h.elim
    · next hpending =>
      split_ifs at h
      · cases h
        obtain ⟨hid, hconnection, hrequester⟩ := keeps_doTryAnnounceDelay late
          { s with announceAttempts := 0, connectAttempts := 0 }
        exact .goesOn ⟨hid, hconnection, hrequester⟩ fun _ => hpending ▸ trivial
      · cases h
        exact .goesOn ⟨rfl, rfl, Or.inl rfl⟩ fun _ => hpending ▸ trivial
    · cases h
  | received datagram late =>
    simp only [UdpRetries.step] at h
    split at h
    · split_ifs at h
      obtain ⟨reply, hreply, rfl⟩ := Option.map_eq_some_iff.mp h
      cases reply with
      | delay => exact hconnect rfl rfl rfl (keeps_doTryConnectDelay late s)
      | connected connectionId connectedId => exact .connected hreply (keeps_doTryAnnounce _)
    · next hpending =>
      split_ifs at h
      obtain ⟨reply, hreply, h⟩ := Option.bind_eq_some_iff.mp h
      have hannouncing : Announcing s.pending := hpending ▸ trivial
      cases reply with
      | delay =>
        cases h
        exact .goesOn (keeps_doTryAnnounceDelay late s) fun _ => hannouncing
      | error =>
        cases h
        exact .goesOn (keeps_doTryAnnounceDelay late s) fun _ => hannouncing
      | accepted data =>
        dsimp only at h
        split at h
        · next hset =>
          cases h
          exact .told hannouncing hreply hset
        · cases h
    · cases h

end Client

/-! ### What the requester makes of a reply -/

section Replies

variable {host : Host} {transactionId : ℕ} {reply data : List UInt8}

/-- The first four bytes of a datagram that may have lost its end. -/
theorem action_take {k n : ℕ} (hk : k < 256 ^ 4) (hn : 4 ≤ n) (rest : List UInt8) :
    numberBE (field 0 4 ((bytesBE 4 k ++ rest).take n)) = k := by
  have hfield : field 0 4 ((bytesBE 4 k ++ rest).take n) = bytesBE 4 k := by
    unfold field Window.bytes
    rw [List.drop_zero, List.take_take, min_eq_left hn, List.take_left' (length_bytesBE 4 k)]
  rw [hfield, numberBE_bytesBE hk]

theorem action_of_connected {connectionId connectedId : ℕ}
    (h : onConnectResponse host transactionId reply = some (.connected connectionId connectedId)) :
    numberBE (field 0 4 reply) = 0 := by
  obtain ⟨hlen, -⟩ := onConnectResponse_connected h
  unfold onConnectResponse at h
  obtain ⟨haction, hvalue⟩ := get_head host (show 8 ≤ reply.length by omega)
  have hconnection := get_eq host 8 8 (show 8 + 8 ≤ reply.length by omega)
  rw [if_neg (by omega)] at h
  simp only [haction, hvalue, hconnection, Option.bind_eq_bind, Option.bind_some] at h
  split_ifs at h with hok
  · exact hok.2
  · cases h

theorem action_of_accepted
    (h : onAnnounceResponse host transactionId reply = some (.accepted data)) :
    numberBE (field 0 4 reply) = 1 := by
  obtain ⟨hlen, -⟩ := onAnnounceResponse_accepted h
  unfold onAnnounceResponse at h
  obtain ⟨haction, hvalue⟩ := get_head host (show 8 ≤ reply.length by omega)
  rw [if_neg (by omega)] at h
  simp only [haction, hvalue, Option.bind_eq_bind, Option.bind_some] at h
  split_ifs at h with hok
  · exact hok.2.2
  · cases h
  · cases h

/-- The connection id of a connect reply. -/
theorem field_connectReply {request connectionId : List UInt8} (hrequest : request.length = 16)
    (hid : connectionId.length = 8) : (connectReply request connectionId).length = 16 ∧
      field 8 8 (connectReply request connectionId) = connectionId := by
  have hfield : (field 12 4 request).length = 4 := length_field (by omega)
  unfold connectReply
  constructor
  · rw [List.length_append, List.length_append, length_bytesBE, hfield, hid]
  · unfold field at hfield ⊢
    unfold Window.bytes at hfield ⊢
    rw [← List.append_assoc, List.drop_left' (by rw [List.length_append, length_bytesBE, hfield]),
      List.take_of_length_le hid.le]

/-- The header of an answer. -/
theorem Answer.header_spec {a : Answer} (hrequest : a.request.length = 98) :
    a.header.length = 20 ∧ (a.header.drop 8).take 4 = bytesBE 4 a.interval.toNat := by
  have hfield : (field 12 4 a.request).length = 4 := length_field (by omega)
  unfold Answer.header
  constructor
  · simp only [List.length_append, length_bytesBE, hfield]
  · rw [← List.append_assoc, List.drop_left' (by rw [List.length_append, length_bytesBE, hfield]),
      List.take_left' (length_bytesBE 4 _)]

/-- **The promise is settled with the peers of the answer.** -/
theorem setResponse_answer {a : Answer} (hrequest : a.request.length = 98)
    (hfirst : ∀ peer ∈ a.peers, peer.firstOctet ≠ 0) {r : Requester} (hr : r.isSet = false) :
    setResponse host (a.datagram ++ [0]) r =
      .ok (settled { response with interval := a.interval.toNat } a.peers) := by
  obtain ⟨hheader, hinterval⟩ := Answer.header_spec hrequest
  have hset := udp_setResponse host hfirst hheader hr
  have hvalue : numberBE (bytesBE 4 a.interval.toNat) = a.interval.toNat :=
    numberBE_bytesBE a.interval.toNat_lt
  rw [hinterval, hvalue] at hset
  unfold Answer.datagram
  rw [List.append_assoc]
  exact hset

end Replies

/-! ### The invariant -/

section Invariant

variable (host : Host) (x : Session)

/-- An answer to an announce request that the requester has sent to this tracker, with a connection id
of the tracker. -/
structure Answer.Right (w : World) (a : Answer) : Prop where
  request : (a.endpoint, a.request) ∈ w.requests
  size : a.request.length = 98
  issued : (a.endpoint, field 0 8 a.request) ∈ w.issued
  first : ∀ peer ∈ a.peers, peer.firstOctet ≠ 0

/-- A datagram that a tracker has sent. -/
inductive Reply (w : World) : List UInt8 → Prop
  | connect {endpoint : ℕ} {request connectionId : List UInt8}
      (hissued : (endpoint, connectionId) ∈ w.issued) (hrequest : request.length = 16)
      (hid : connectionId.length = 8) : Reply w (connectReply request connectionId)
  | answer {a : Answer} (ha : a ∈ w.answers) (hsize : a.datagram.length ≤ mtu) : Reply w a.datagram
  | error (request text : List UInt8) : Reply w (errorReply request text)

/-- The ids are those of a connect reply of one of the trackers. -/
def Connected (w : World) (ids : ℕ × ℕ) : Prop :=
  ∃ endpoint connectionId, (endpoint, connectionId) ∈ w.issued ∧
    ids = (nativeToBig host 8 (numberBE connectionId), nativeToBig host 4 x.transactionId)

/-- The promise is settled with an answer, or all endpoints have been polled. -/
def Settles (w : World) (settled : Settled) : Prop :=
  settled = .exception dried ∨
    ∃ a ∈ w.answers, settled = outcome { response with interval := a.interval.toNat } a.peers

/-- What holds in every state. -/
structure Sound (w : World) : Prop where
  retries : UdpRetries.Inv x.endpoints w.client
  sameId : w.client.transactionId = x.transactionId
  ids : Announcing w.client.pending → Connected host x w w.client.connection
  /-- only the ids have been written to the array, at last those of `c_resp_` -/
  array : ∃ earlier, w.announceReq = afterTries host earlier (x.made host)
  prepared : w.client.pending = .announceSend →
    ∃ earlier, w.announceReq = afterTries host (earlier ++ [w.client.connection]) (x.made host)
  requests : ∀ r ∈ w.requests, r.2.length = 98 → ∃ connectionId, x.Announces connectionId r.2
  answers : ∀ a ∈ w.answers, a.Right w
  replies : ∀ r ∈ w.replies, Reply w r
  settled : ∀ settled, w.client.requester.promiseOfResp = some settled → Settles w settled

variable {host x} {w w' : World}

/-- The trackers and the network have more to tell. -/
structure Grows (w w' : World) : Prop where
  requests : ∀ r ∈ w.requests, r ∈ w'.requests
  issued : ∀ r ∈ w.issued, r ∈ w'.issued
  answers : ∀ a ∈ w.answers, a ∈ w'.answers

theorem Answer.Right.mono {a : Answer} (h : a.Right w) (hw : Grows w w') : a.Right w' :=
  ⟨hw.requests _ h.request, h.size, hw.issued _ h.issued, h.first⟩

theorem Reply.mono {r : List UInt8} (h : Reply w r) (hw : Grows w w') : Reply w' r := by
  cases h with
  | connect hissued hrequest hid => exact .connect (hw.issued _ hissued) hrequest hid
  | answer ha hsize => exact .answer (hw.answers _ ha) hsize
  | error request text => exact .error request text

theorem Connected.mono {ids : ℕ × ℕ} (h : Connected host x w ids) (hw : Grows w w') :
    Connected host x w' ids := by
  obtain ⟨endpoint, connectionId, hissued, hids⟩ := h
  exact ⟨endpoint, connectionId, hw.issued _ hissued, hids⟩

theorem Settles.mono {settled : Settled} (h : Settles w settled) (hw : Grows w w') :
    Settles w' settled := by
  rcases h with h | ⟨a, ha, h⟩
  · exact Or.inl h
  · exact Or.inr ⟨a, hw.answers _ ha, h⟩

/-- A promise that has stayed as it was, or is settled because all endpoints have been polled. -/
theorem settles_of_quiet {r r' : Requester} {settled : Settled} (h : Quiet r r')
    (hr : ∀ settled, r.promiseOfResp = some settled → Settles w settled)
    (hsettled : r'.promiseOfResp = some settled) : Settles w settled := by
  rcases h with rfl | rfl
  · exact hr settled hsettled
  · unfold Requester.setException at hsettled
    split at hsettled
    · exact hr settled hsettled
    · cases hsettled
      exact Or.inl rfl

theorem afterTries_concat (earlier : List (ℕ × ℕ)) (ids : ℕ × ℕ) (made : List UInt8) :
    (doTryAnnounce host ids.1 ids.2 (afterTries host earlier made)).1 =
      afterTries host (earlier ++ [ids]) made := by
  unfold afterTries
  rw [List.foldl_append]
  rfl

/-- The requester goes on. -/
theorem Sound.goOn (hs : Sound host x w)
    {client : UdpRetries.State} (hretries : UdpRetries.Inv x.endpoints client)
    (hid : client.transactionId = x.transactionId)
    (hids : Announcing client.pending → Connected host x w client.connection)
    (hsettled : ∀ settled, client.requester.promiseOfResp = some settled → Settles w settled) :
    Sound host x (w.goOn host client) := by
  obtain ⟨earlier, harray⟩ := hs.array
  have hwritten : client.pending = .announceSend →
      (w.goOn host client).announceReq =
        afterTries host (earlier ++ [client.connection]) (x.made host) := by
    intro hpending
    unfold World.goOn
    simp only [hpending, if_true]
    rw [harray, afterTries_concat]
  refine ⟨hretries, hid, hids, ?_, fun hpending => ⟨earlier, hwritten hpending⟩, hs.requests,
    fun a ha => (hs.answers a ha).mono ⟨fun _ => id, fun _ => id, fun _ => id⟩,
    fun r hr => (hs.replies r hr).mono ⟨fun _ => id, fun _ => id, fun _ => id⟩, hsettled⟩
  by_cases hpending : client.pending = .announceSend
  · exact ⟨_, hwritten hpending⟩
  · refine ⟨earlier, ?_⟩
    unfold World.goOn
    simp only [hpending, if_false]
    exact harray

/-- Datagrams are added. -/
theorem Sound.extend (hs : Sound host x w)
    (hw : Grows w w') (hclient : w'.client = w.client) (harray : w'.announceReq = w.announceReq)
    (hrequests : ∀ r ∈ w'.requests, r ∈ w.requests ∨ (r.2.length = 98 → ∃ connectionId,
      x.Announces connectionId r.2))
    (hanswers : ∀ a ∈ w'.answers, a ∈ w.answers ∨ a.Right w')
    (hreplies : ∀ r ∈ w'.replies, r ∈ w.replies ∨ Reply w' r) :
    Sound host x w' where
  retries := hclient ▸ hs.retries
  sameId := hclient ▸ hs.sameId
  ids := by
    rw [hclient]
    exact fun h => (hs.ids h).mono hw
  array := harray ▸ hs.array
  prepared := by
    rw [hclient, harray]
    exact hs.prepared
  requests := fun r hr => by
    rcases hrequests r hr with hold | hnew
    · exact hs.requests r hold
    · exact hnew
  answers := fun a ha => by
    rcases hanswers a ha with hold | hnew
    · exact (hs.answers a hold).mono hw
    · exact hnew
  replies := fun r hr => by
    rcases hreplies r hr with hold | hnew
    · exact (hs.replies r hold).mono hw
    · exact hnew
  settled := by
    rw [hclient]
    exact fun settled h => (hs.settled settled h).mono hw

/-- **An announce request that is sent whole has all fields of the query.** -/
theorem announces_datagram
    (hs : Sound host x w) {n : ℕ} (hlen : ((w.datagram host).take n).length = 98) :
    ∃ connectionId, x.Announces connectionId ((w.datagram host).take n) := by
  have hpending : w.client.pending = .announceSend := by
    by_contra hnot
    have hle : ((w.datagram host).take n).length ≤ 16 := by
      rw [List.length_take]
      refine (min_le_right _ _).trans ?_
      unfold World.datagram
      split
      · unfold connectRequest
        simp only [put_data, List.length_append, length_encoded, List.length_nil]
        omega
      · contradiction
      · exact Nat.zero_le _
    omega
  obtain ⟨endpoint, connectionId, -, hids⟩ := hs.ids (hpending ▸ trivial)
  obtain ⟨earlier, harray⟩ := hs.prepared hpending
  have hzeros : (List.replicate 99 (0 : UInt8)).length = 99 := List.length_replicate
  have hannounces := announces_packetOf host x.wanted x.port x.length_infoHash x.length_masterPeerId
    hzeros earlier (numberBE connectionId) x.transactionId_lt
  rw [← afterTries_concat, hids] at harray
  have hdatagram : w.datagram host = packetOf host x.infoHash x.masterPeerId x.port.toNat x.wanted.query
      ((x.wanted.key.map DecimalInt.toInt).getD 0) (List.replicate 99 0) earlier
      (nativeToBig host 8 (numberBE connectionId)) (nativeToBig host 4 x.transactionId) := by
    unfold World.datagram
    rw [hpending, harray]
    rfl
  rw [hdatagram, List.length_take, hannounces.size] at hlen
  rw [hdatagram, List.take_of_length_le (by rw [hannounces.size]; omega)]
  exact ⟨_, hannounces⟩

/-- The datagram that a read gives: as much of one that a tracker has sent as the buffer holds. -/
theorem pending_of_received {datagram : List UInt8} {late : Bool} {client : UdpRetries.State}
    (h : UdpRetries.step host w.client (.received datagram late) = some client) :
    w.client.pending = .connectRead ∨ w.client.pending = .announceRead := by
  simp only [UdpRetries.step] at h
  split at h
  · exact Or.inl ‹_›
  · exact Or.inr ‹_›
  · cases h

theorem sixteen_le_bufferSize (pending : Pending) : 16 ≤ bufferSize pending := by
  cases pending <;> decide

/-- **A connect reply gives the ids of one of the trackers.** -/
theorem connected_of_reply (hs : Sound host x w) {r : List UInt8} {n connectionId connectedId : ℕ}
    (hr : r ∈ w.replies) (hn : 16 ≤ n) (hreply : onConnectResponse host w.client.transactionId (r.take n) =
      some (.connected connectionId connectedId)) :
    Connected host x w (connectionId, connectedId) := by
  have haction := action_of_connected hreply
  obtain ⟨-, -, hid, hid'⟩ := onConnectResponse_connected hreply
  cases hs.replies r hr with
  | @connect endpoint request givenId hissued hrequest hlength =>
    obtain ⟨hsize, hfield⟩ := field_connectReply hrequest hlength
    rw [List.take_of_length_le (by omega), hfield] at hid
    exact ⟨endpoint, givenId, hissued, Prod.ext hid (hs.sameId ▸ hid')⟩
  | @answer a ha hsize =>
    unfold Answer.datagram Answer.header at haction
    rw [List.append_assoc, action_take (by decide) (by omega)] at haction
    cases haction
  | error request text =>
    unfold errorReply at haction
    rw [action_take (by decide) (by omega)] at haction
    cases haction

/-- **An accepted reply settles the promise with an answer of one of the trackers.** -/
theorem settles_of_reply (hs : Sound host x w) {r data : List UInt8} {requester : Requester}
    (hr : r ∈ w.replies) (hunset : w.client.requester.isSet = false) {transactionId : ℕ}
    (hreply : onAnnounceResponse host transactionId (r.take mtu) = some (.accepted data))
    (hset : setResponse host data w.client.requester = .ok requester) {settled : Settled}
    (hsettled : requester.promiseOfResp = some settled) : Settles w settled := by
  have haction := action_of_accepted hreply
  obtain ⟨-, rfl⟩ := onAnnounceResponse_accepted hreply
  cases hs.replies r hr with
  | connect hissued hrequest hlength =>
    unfold connectReply at haction
    rw [action_take (by decide) (by decide)] at haction
    cases haction
  | @answer a ha hsize =>
    have hright := hs.answers a ha
    have hanswer := @setResponse_answer host a hright.size hright.first _ hunset
    rw [List.take_of_length_le hsize] at hset
    cases hanswer.symm.trans hset
    cases hsettled
    exact Or.inr ⟨a, ha, rfl⟩
  | error request text =>
    unfold errorReply at haction
    rw [action_take (by decide) (by decide)] at haction
    cases haction

/-- **A step of the requester keeps the invariant.** -/
theorem Sound.client (hs : Sound host x w) {e : UdpRetries.Event} {client : UdpRetries.State}
    (h : UdpRetries.step host w.client e = some client)
    (hreceived : ∀ datagram late, e = .received datagram late →
      ∃ r ∈ w.replies, datagram = r.take (bufferSize w.client.pending)) :
    Sound host x (w.goOn host client) := by
  have hretries := (UdpRetries.inv_step w.client e client hs.retries h).1
  have hpending := UdpRetries.pending_of_step h
  cases step_changes h with
  | goesOn hkeeps hannouncing =>
    refine hs.goOn hretries (hkeeps.transactionId.trans hs.sameId) (fun hannounces => ?_) fun _ =>
      settles_of_quiet hkeeps.requester hs.settled
    rw [hkeeps.connection]
    exact hs.ids (hannouncing hannounces)
  | @connected _ late _ _ _ hreply hkeeps =>
    obtain ⟨r, hr, rfl⟩ := hreceived _ late rfl
    refine hs.goOn hretries (hkeeps.transactionId.trans hs.sameId) (fun _ => ?_) fun _ =>
      settles_of_quiet hkeeps.requester hs.settled
    rw [hkeeps.connection]
    exact connected_of_reply hs hr (sixteen_le_bufferSize _) hreply
  | @told _ data late requester hannouncing hreply hset =>
    obtain ⟨r, hr, rfl⟩ := hreceived _ late rfl
    have hread : w.client.pending = .announceRead := by
      rcases pending_of_received h with hread | hread
      · rw [hread] at hannouncing
        exact hannouncing.elim
      · exact hread
    rw [hread] at hreply
    exact hs.goOn hretries hs.sameId (fun hannounces => hannounces.elim) fun settled hsettled =>
      settles_of_reply hs hr (hs.retries.unset hpending) hreply hset hsettled

/-- **Every step keeps the invariant.** -/
theorem Sound.step (hs : Sound host x w) {a : Act} (h : UdpSession.step host w a = some w') :
    Sound host x w' := by
  have hgrows : ∀ {requests : List (ℕ × List UInt8)} {issued : List (ℕ × List UInt8)}
      {answers : List Answer} {replies : List (List UInt8)}, (∀ r ∈ w.requests, r ∈ requests) →
      (∀ r ∈ w.issued, r ∈ issued) → (∀ a ∈ w.answers, a ∈ answers) →
      Grows w { w with requests := requests, issued := issued, answers := answers, replies := replies } :=
    fun h1 h2 h3 => ⟨h1, h2, h3⟩
  cases a with
  | failed =>
    obtain ⟨client, hclient, rfl⟩ := Option.map_eq_some_iff.mp h
    exact hs.client hclient fun _ _ => UdpRetries.Event.noConfusion
  | timer =>
    obtain ⟨client, hclient, rfl⟩ := Option.map_eq_some_iff.mp h
    exact hs.client hclient fun _ _ => UdpRetries.Event.noConfusion
  | sent bytesTransferred late =>
    obtain ⟨client, hclient, rfl⟩ := Option.map_eq_some_iff.mp h
    have hgone := hs.client hclient fun _ _ => UdpRetries.Event.noConfusion
    refine hgone.extend ⟨fun r hr => List.mem_cons_of_mem _ hr, fun _ => id, fun _ => id⟩ rfl rfl
      (fun r hr => ?_) (fun _ => Or.inl) fun _ => Or.inl
    rcases List.mem_cons.mp hr with rfl | hr
    · exact Or.inr fun hlen => announces_datagram hs hlen
    · exact Or.inl hr
  | received datagram late =>
    simp only [UdpSession.step] at h
    split_ifs at h with hmem
    obtain ⟨client, hclient, rfl⟩ := Option.map_eq_some_iff.mp h
    refine hs.client hclient fun datagram' late' heq => ?_
    cases heq
    exact ⟨datagram, hmem, rfl⟩
  | connect endpoint request connectionId =>
    simp only [UdpSession.step] at h
    split_ifs at h with hok
    cases h
    refine hs.extend (hgrows (fun _ => id) (fun r hr => List.mem_cons_of_mem _ hr) fun _ => id) rfl rfl
      (fun _ => Or.inl) (fun _ => Or.inl) fun r hr => ?_
    rcases List.mem_cons.mp hr with rfl | hr
    · exact Or.inr (.connect List.mem_cons_self hok.2.1.1 hok.2.2)
    · exact Or.inl hr
  | announce a =>
    simp only [UdpSession.step] at h
    split_ifs at h with hok
    cases h
    obtain ⟨hrequest, hannounce, hissued, hfirst, hsize⟩ := hok
    refine hs.extend (hgrows (fun _ => id) (fun _ => id) fun r hr => List.mem_cons_of_mem _ hr) rfl rfl
      (fun _ => Or.inl) (fun a' ha' => ?_) fun r hr => ?_
    · rcases List.mem_cons.mp ha' with rfl | ha'
      · exact Or.inr ⟨hrequest, hannounce.1, hissued, hfirst⟩
      · exact Or.inl ha'
    · rcases List.mem_cons.mp hr with rfl | hr
      · exact Or.inr (.answer List.mem_cons_self hsize)
      · exact Or.inl hr
  | error endpoint request text =>
    simp only [UdpSession.step] at h
    split_ifs at h with hok
    cases h
    refine hs.extend (hgrows (fun _ => id) (fun _ => id) fun _ => id) rfl rfl (fun _ => Or.inl)
      (fun _ => Or.inl) fun r hr => ?_
    rcases List.mem_cons.mp hr with rfl | hr
    · exact Or.inr (.error request text)
    · exact Or.inl hr

/-- A requester that has just begun. -/
theorem sound_connect (h : connect host x = some w) : Sound host x w := by
  have hmade := makeAnnounceRequest_eq host x.infoHash x.masterPeerId x.port.toNat x.wanted.query
    (query_key x.wanted) (List.replicate 99 0)
  unfold connect at h
  rw [hmade, Option.map_some, Option.some.injEq] at h
  obtain ⟨hinv, -⟩ := UdpRetries.inv_start x.transactionId x.endpoints_pos
  obtain ⟨⟨hid, hconnection, hrequester⟩, hnot⟩ := keeps_doTryConnect (x.endpoints - 1)
    ⟨UdpRetries.maxConnectAttempts, UdpRetries.maxAnnounceAttempts, x.endpoints - 1, x.transactionId,
      (0, 0), .nothing, waiting, 0, 0⟩
  subst h
  refine ⟨hinv, hid, fun h => absurd h hnot, ⟨[], rfl⟩, fun h => ?_, fun _ h => ?_, fun _ h => ?_,
    fun _ h => ?_, fun settled h => ?_⟩
  · refine absurd ?_ hnot
    change (UdpRetries.start x.transactionId x.endpoints).pending = .announceSend at h
    unfold UdpRetries.start at h
    rw [h]
    trivial
  · cases h
  · cases h
  · cases h
  · exact settles_of_quiet hrequester (fun _ h => by cases h) h

/-! ### What the requester is told -/

/-- **The promise is settled with the peers of one answer to an announce request of this session**, which
was sent to the tracker that had handed out its connection id, or with an exception because all
endpoints have been polled; whatever the network loses, repeats, delays or exchanges. -/
theorem heard_run (host : Host) (x : Session) {acts : List Act} {w₀ w : World}
    (hconnect : connect host x = some w₀) (hrun : run (step host) w₀ acts = some w) {settled : Settled}
    (hsettled : w.client.requester.promiseOfResp = some settled) :
    settled = .exception dried ∨ ∃ a ∈ w.answers,
      settled = outcome { response with interval := a.interval.toNat } a.peers ∧
      (a.endpoint, a.request) ∈ w.requests ∧ (a.endpoint, field 0 8 a.request) ∈ w.issued ∧
      x.Announces (field 0 8 a.request) a.request := by
  have hs : Sound host x w := invariant_of_run (Sound host x) (fun _ _ => True)
    (fun _ _ _ hs _ h => hs.step h) (sound_connect hconnect) (along_true _ _) hrun
  rcases hs.settled settled hsettled with hdried | ⟨a, ha, houtcome⟩
  · exact Or.inl hdried
  · have hright := hs.answers a ha
    obtain ⟨connectionId, hannounces⟩ := hs.requests _ hright.request hright.size
    have hid : field 0 8 a.request = connectionId := hannounces.connectionId
    exact Or.inr ⟨a, ha, houtcome, hright.request, hright.issued, hid ▸ hannounces⟩

end Invariant

/-- The first announcement of a download, to a tracker with two endpoints. -/
def firstSession : Session :=
  ⟨firstWanted, List.replicate 20 1, List.replicate 20 2, 6881, 7, 2, rfl, rfl, by decide, by decide⟩

/-- An answer to it with one peer, for the connection id 9. -/
def firstAnswer : Answer where
  endpoint := 1
  request := (doTryAnnounce .littleEndian (nativeToBig .littleEndian 8 9)
    (nativeToBig .littleEndian 4 7) (firstSession.made .littleEndian)).2
  interval := 1800
  leechers := 0
  seeders := 1
  peers := [⟨0x7F000001, 6881⟩]

/-- The first connect request is repeated, and the reply to it comes after the announce request. -/
def belated : List Act :=
  [.sent 16 false, .failed, .sent 16 false,
    .connect 1 (connectRequest .littleEndian 7) (bytesBE 8 8),
    .connect 1 (connectRequest .littleEndian 7) (bytesBE 8 9),
    .received (connectReply (connectRequest .littleEndian 7) (bytesBE 8 9)) false, .sent 98 false,
    .received (connectReply (connectRequest .littleEndian 7) (bytesBE 8 8)) true, .sent 98 false,
    .announce firstAnswer, .received firstAnswer.datagram false]

/-- The peer is told. -/
theorem heard_run_belated : ∃ w₀ w settled, connect .littleEndian firstSession = some w₀ ∧
    run (step .littleEndian) w₀ belated = some w ∧
    w.client.requester.promiseOfResp = some settled ∧ (settled = .exception dried ∨ ∃ a ∈ w.answers,
      settled = outcome { response with interval := a.interval.toNat } a.peers ∧
      (a.endpoint, a.request) ∈ w.requests ∧ (a.endpoint, field 0 8 a.request) ∈ w.issued ∧
      firstSession.Announces (field 0 8 a.request) a.request) := by
  have hrun : (((connect .littleEndian firstSession).bind fun w₀ =>
      run (step .littleEndian) w₀ belated).bind fun w =>
        w.client.requester.promiseOfResp).isSome = true := by
    decide +kernel
  obtain ⟨settled, hrun⟩ := Option.isSome_iff_exists.mp hrun
  obtain ⟨w, hrun, hsettled⟩ := Option.bind_eq_some_iff.mp hrun
  obtain ⟨w₀, hconnect, hrun⟩ := Option.bind_eq_some_iff.mp hrun
  exact ⟨w₀, w, settled, hconnect, hrun, hsettled,
    heard_run .littleEndian firstSession hconnect hrun hsettled⟩

end CppTorrent.Tracker.UdpSession
