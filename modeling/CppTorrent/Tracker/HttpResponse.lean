import CppTorrent.Bencode.Deserialize
import CppTorrent.Files.Storage
import CppTorrent.Lib.Fallible
import CppTorrent.Tracker.Promise

/-! # The response of an HTTP tracker

`SetResponse` cuts the bencode part out of the text of a reply, reads it and takes the response out of
the value. The value is whatever the tracker has sent. Every access to it can throw: `AsDict` and its
likes if the value is of another type, `at` and `operator[]` if a key is missing. Nothing catches these
exceptions, and a key of a peer is copied with twenty bytes, however long it is.

`setResponse_answered_iff` says for which values the promise is settled: for those that `Readable`
describes. A dictionary without peers is not one of them.

How the bencode part is cut out is left to the regular expression library: `split` is a parameter. The
array that the image of a peer is built in is not initialised; `stack` is what it has in it. -/

namespace CppTorrent.Tracker.HttpResponse

open CppTorrent.Lib.ByteFile CppTorrent.Lib.Endian CppTorrent.Lib.Fallible CppTorrent.Lib.OrderedMap
open CppTorrent.Lib.Stream
open CppTorrent.Files.Storage (toSize)
open CppTorrent.Bencode.Serialize CppTorrent.Bencode.Deserialize
open CppTorrent.Wire.Message CppTorrent.Tracker.Promise

/-! ### Reading a value -/

/-- `Node::AsNumber`. -/
def asNumber : Node → Except Fault ℤ
  | .number n => .ok n
  | _ => .error .badVariant

/-- `Node::AsString`. -/
def asString : Node → Except Fault (List UInt8)
  | .str s => .ok s
  | _ => .error .badVariant

/-- `Node::AsDict`. -/
def asDict : Node → Except Fault (List (List UInt8 × Node))
  | .dict d => .ok d
  | _ => .error .badVariant

/-- `std::map::at`. -/
def atKey (key : List UInt8) (d : List (List UInt8 × Node)) : Except Fault Node :=
  match find key d with
  | some v => .ok v
  | none => .error .missingKey

/-- `Node::operator[]` with a key, where the node is constant. -/
def subscript (key : List UInt8) (v : Node) : Except Fault Node := do
  let d ← asDict v
  atKey key d

/-- `Node::TryAt`. -/
def tryAt (key : List UInt8) (v : Node) : Except Fault (Option Node) := do
  let d ← asDict v
  return find key d

/-- `Deserialize::Load`, with memory for every string. -/
def load (fuel : ℕ) (text : List UInt8) : Except Fault Node :=
  match loadNode ample fuel (ofBytes text) with
  | .done v _ => .ok v
  | .thrown => .error .thrown
  | .undefined => .error .undefined
  | .timeout => .error .timeout

/-- The keys of a response. -/
inductive Key where
  | trackerId
  | interval
  | complete
  | incomplete
  | minInterval_
  | minInterval
  | warningMessage_
  | warningMessage
  | peers
  | ip
  | port
  | peerId

/-- The text of a key. -/
def Key.text : Key → List UInt8
  -- tracker_id
  | .trackerId => [116, 114, 97, 99, 107, 101, 114, 95, 105, 100]
  -- interval
  | .interval => [105, 110, 116, 101, 114, 118, 97, 108]
  -- complete
  | .complete => [99, 111, 109, 112, 108, 101, 116, 101]
  -- incomplete
  | .incomplete => [105, 110, 99, 111, 109, 112, 108, 101, 116, 101]
  -- min_interval
  | .minInterval_ => [109, 105, 110, 95, 105, 110, 116, 101, 114, 118, 97, 108]
  -- min interval
  | .minInterval => [109, 105, 110, 32, 105, 110, 116, 101, 114, 118, 97, 108]
  -- warning_message
  | .warningMessage_ => [119, 97, 114, 110, 105, 110, 103, 95, 109, 101, 115, 115, 97, 103, 101]
  -- warning message
  | .warningMessage => [119, 97, 114, 110, 105, 110, 103, 32, 109, 101, 115, 115, 97, 103, 101]
  -- peers
  | .peers => [112, 101, 101, 114, 115]
  -- ip
  | .ip => [105, 112]
  -- port
  | .port => [112, 111, 114, 116]
  -- peer id
  | .peerId => [112, 101, 101, 114, 32, 105, 100]

/-- The value of a field that may be missing. -/
def optional {α : Type} (conv : Node → Except Fault α) : Option Node → Except Fault (Option α)
  | none => .ok none
  | some v => (conv v).map some

/-- The value under the first of two keys that is there. -/
def findEither (key key' : Key) (d : List (List UInt8 × Node)) : Option Node :=
  (find key.text d).or (find key'.text d)

/-- The fields of a response other than the peers. -/
def readFields (d : List (List UInt8 × Node)) : Except Fault Response := do
  let trackerId ← optional asString (find Key.trackerId.text d)
  let interval ← optional asNumber (find Key.interval.text d)
  let complete ← optional asNumber (find Key.complete.text d)
  let incomplete ← optional asNumber (find Key.incomplete.text d)
  let minInterval ← optional asNumber (findEither .minInterval_ .minInterval d)
  let warningMessage ← optional asString (findEither .warningMessage_ .warningMessage d)
  return { response with
    trackerId := trackerId.getD response.trackerId
    interval := interval.getD response.interval
    complete := (complete.map toSize).getD response.complete
    incomplete := (incomplete.map toSize).getD response.incomplete
    minInterval := minInterval
    warningMessage := warningMessage }

/-- The twenty bytes that `memcpy` takes at the beginning of a string. -/
def peerKey (s : List UInt8) : Except Fault (List UInt8) :=
  if 20 ≤ s.length + 1 then .ok ((s ++ [0]).take 20) else .error .undefined

variable (host : Host) (stack : List UInt8)

/-- The body of the loop over an array of peers. -/
def listPeer (p : Node) : Except Fault PeerImage := do
  let ip ← subscript Key.ip.text p
  let ip ← asNumber ip
  let peerAsArray := writeAt 0 (valueToArray host 8 (toSize ip)) stack
  let port ← subscript Key.port.text p
  let port ← asNumber port
  let peerAsArray := writeAt 4 (valueToArray host 8 (toSize port)) peerAsArray
  let peer : Peer := ⟨bigToNative host 8 (toSize ip) % 2 ^ 32,
    bigToNative host 8 (toSize port) % 2 ^ 16, none⟩
  let peerId ← tryAt Key.peerId.text p
  match peerId with
  | some v => do
    let s ← asString v
    let key ← peerKey s
    return ⟨{ peer with key := some key }, writeAt 6 key peerAsArray⟩
  | none => return ⟨peer, peerAsArray⟩

/-- The end of `SetResponse`: the branches for the type of the peers. -/
def settle (resp : Response) (r : Requester) : Node → Except Fault Requester
  | .str s => do
    let peers ← compactLoop host (s ++ [0]) (s.length + 2) 0
    r.finish { resp with peers := peers }
  | .list arr => do
    let peers ← arr.mapM (listPeer host stack)
    r.finish { resp with peers := peers }
  | _ => (r.setException "Invalid peers").finish resp

/-- `httpRequester::SetResponse`. -/
def setResponse (split : List UInt8 → List (List UInt8)) (fuel : ℕ) (text : List UInt8)
    (r : Requester) : Except Fault Requester :=
  if r.isSet then .ok r
  else
    match (split text).getLast? with
    | none => .ok (r.setException "Bad response, can't split to bencode format")
    | some bencodeResponse => do
      let root ← load fuel bencodeResponse
      let bencodeResp ← asDict root
      let resp ← readFields bencodeResp
      let bencodePeers ← atKey Key.peers.text bencodeResp
      settle host stack resp r bencodePeers

/-! ### What can be read -/

/-- The value is a number. -/
def IsNumber (v : Node) : Prop := ∃ n, v = .number n

/-- The value is a string. -/
def IsString (v : Node) : Prop := ∃ s, v = .str s

/-- Every field that is there has its type. -/
structure Typed (d : List (List UInt8 × Node)) : Prop where
  trackerId : ∀ v ∈ find Key.trackerId.text d, IsString v
  interval : ∀ v ∈ find Key.interval.text d, IsNumber v
  complete : ∀ v ∈ find Key.complete.text d, IsNumber v
  incomplete : ∀ v ∈ find Key.incomplete.text d, IsNumber v
  minInterval : ∀ v ∈ findEither .minInterval_ .minInterval d, IsNumber v
  warningMessage : ∀ v ∈ findEither .warningMessage_ .warningMessage d, IsString v

/-- An entry of the array of peers: a dictionary with an ip and a port, and with a peer id of nineteen
bytes or more, if there is one. -/
def EntryReadable (p : Node) : Prop :=
  ∃ d, p = .dict d ∧ (∃ v ∈ find Key.ip.text d, IsNumber v) ∧ (∃ v ∈ find Key.port.text d, IsNumber v) ∧
    ∀ v ∈ find Key.peerId.text d, ∃ s, v = .str s ∧ 19 ≤ s.length

/-- Peers of any type: a string of whole peers, up to its end or to a zero byte where a peer should
begin; an array of readable entries; or what is no list of peers at all. -/
def PeersReadable : Node → Prop
  | .str s => 6 ∣ s.length ∨ Ends s 0
  | .list arr => ∀ p ∈ arr, EntryReadable p
  | _ => True

/-- A value that a response can be taken from. -/
def Readable (root : Node) : Prop :=
  ∃ d peers, root = .dict d ∧ Typed d ∧ find Key.peers.text d = some peers ∧ PeersReadable peers

/-! ### What each access needs -/

theorem asNumber_eq_ok {v : Node} {n : ℤ} : asNumber v = .ok n ↔ v = .number n := by
  cases v <;> simp [asNumber]

theorem asString_eq_ok {v : Node} {s : List UInt8} : asString v = .ok s ↔ v = .str s := by
  cases v <;> simp [asString]

theorem asDict_eq_ok {v : Node} {d : List (List UInt8 × Node)} : asDict v = .ok d ↔ v = .dict d := by
  cases v <;> simp [asDict]

theorem atKey_eq_ok {key : List UInt8} {d : List (List UInt8 × Node)} {v : Node} :
    atKey key d = .ok v ↔ find key d = some v := by
  unfold atKey
  split <;> simp [*]

theorem subscript_eq_ok {key : List UInt8} {v w : Node} :
    subscript key v = .ok w ↔ ∃ d, v = .dict d ∧ find key d = some w := by
  unfold subscript
  simp only [bind_eq_ok, asDict_eq_ok, atKey_eq_ok]

theorem tryAt_eq_ok {key : List UInt8} {v : Node} {o : Option Node} :
    tryAt key v = .ok o ↔ ∃ d, v = .dict d ∧ find key d = o := by
  unfold tryAt
  simp only [bind_eq_ok, asDict_eq_ok, pure, Except.pure, Except.ok.injEq]

theorem peerKey_eq_ok {s key : List UInt8} :
    peerKey s = .ok key ↔ 19 ≤ s.length ∧ (s ++ [0]).take 20 = key := by
  unfold peerKey
  split
  · next h =>
    have hlen : 19 ≤ s.length := by omega
    simp [hlen]
  · next h =>
    have hlen : ¬ 19 ≤ s.length := by omega
    simp [hlen]

theorem succeeds_asNumber {v : Node} : Succeeds (asNumber v) ↔ IsNumber v :=
  exists_congr fun _ => asNumber_eq_ok

theorem succeeds_asString {v : Node} : Succeeds (asString v) ↔ IsString v :=
  exists_congr fun _ => asString_eq_ok

theorem succeeds_optional {α : Type} {conv : Node → Except Fault α} {p : Node → Prop}
    (h : ∀ v, Succeeds (conv v) ↔ p v) (o : Option Node) :
    Succeeds (optional conv o) ↔ ∀ v ∈ o, p v := by
  cases o with
  | none => simp [optional]
  | some v => simp [optional, h]

/-- **The fields are read exactly if they have their types.** -/
theorem succeeds_readFields {d : List (List UInt8 × Node)} : Succeeds (readFields d) ↔ Typed d := by
  have hstr := succeeds_optional @succeeds_asString
  have hnum := succeeds_optional @succeeds_asNumber
  unfold readFields
  rw [succeeds_bind_of_forall fun _ => succeeds_bind_of_forall fun _ => succeeds_bind_of_forall fun _ =>
    succeeds_bind_of_forall fun _ => succeeds_bind_of_forall fun _ => succeeds_bind_of_forall fun _ =>
    iff_true_intro (succeeds_pure _)]
  simp only [hstr, hnum, and_true]
  constructor
  · rintro ⟨h1, h2, h3, h4, h5, h6⟩
    exact ⟨h1, h2, h3, h4, h5, h6⟩
  · rintro ⟨h1, h2, h3, h4, h5, h6⟩
    exact ⟨h1, h2, h3, h4, h5, h6⟩

/-- The fields are read before the peers. -/
theorem peers_readFields {d : List (List UInt8 × Node)} {resp : Response}
    (h : readFields d = .ok resp) : resp.peers = [] := by
  unfold readFields at h
  simp only [bind_eq_ok] at h
  obtain ⟨_, -, _, -, _, -, _, -, _, -, _, -, h⟩ := h
  cases h
  rfl

/-- **An entry is read exactly if it has its fields.** -/
theorem succeeds_listPeer {p : Node} : Succeeds (listPeer host stack p) ↔ EntryReadable p := by
  constructor
  · rintro ⟨image, h⟩
    unfold listPeer at h
    obtain ⟨vip, hvip, h⟩ := bind_eq_ok.mp h
    obtain ⟨ip, hip, h⟩ := bind_eq_ok.mp h
    obtain ⟨vport, hvport, h⟩ := bind_eq_ok.mp h
    obtain ⟨port, hport, h⟩ := bind_eq_ok.mp h
    obtain ⟨peerId, hpeerId, h⟩ := bind_eq_ok.mp h
    obtain ⟨d, rfl, hfindIp⟩ := subscript_eq_ok.mp hvip
    obtain ⟨d', hd', hfindPort⟩ := subscript_eq_ok.mp hvport
    obtain ⟨d'', hd'', hfindId⟩ := tryAt_eq_ok.mp hpeerId
    cases hd'
    cases hd''
    refine ⟨d, rfl, ⟨vip, hfindIp, ip, asNumber_eq_ok.mp hip⟩,
      ⟨vport, hfindPort, port, asNumber_eq_ok.mp hport⟩, fun v hv => ?_⟩
    obtain rfl : peerId = some v := hfindId.symm.trans hv
    obtain ⟨s, hs, h⟩ := bind_eq_ok.mp h
    obtain ⟨key, hkey, -⟩ := bind_eq_ok.mp h
    exact ⟨s, asString_eq_ok.mp hs, (peerKey_eq_ok.mp hkey).1⟩
  · rintro ⟨d, rfl, ⟨_, hip, ip, rfl⟩, ⟨_, hport, port, rfl⟩, hid⟩
    unfold listPeer
    refine succeeds_bind.mpr ⟨_, subscript_eq_ok.mpr ⟨d, rfl, hip⟩, succeeds_bind.mpr ⟨ip, rfl, ?_⟩⟩
    refine succeeds_bind.mpr ⟨_, subscript_eq_ok.mpr ⟨d, rfl, hport⟩, succeeds_bind.mpr ⟨port, rfl, ?_⟩⟩
    refine succeeds_bind.mpr ⟨_, tryAt_eq_ok.mpr ⟨d, rfl, rfl⟩, ?_⟩
    rcases hfind : find Key.peerId.text d with _ | v
    · exact succeeds_pure _
    · obtain ⟨s, rfl, hlen⟩ := hid v hfind
      exact succeeds_bind.mpr ⟨s, rfl, succeeds_bind.mpr
        ⟨_, peerKey_eq_ok.mpr ⟨hlen, rfl⟩, succeeds_pure _⟩⟩

/-! ### The whole reply -/

/-- **The peers settle the promise exactly if they can be read.** -/
theorem settle_answered_iff {resp : Response} {r : Requester} (hr : r.isSet = false)
    (hresp : resp.peers = []) (peers : Node) :
    (∃ r', settle host stack resp r peers = .ok r' ∧ r'.Answered) ↔ PeersReadable peers := by
  have hinvalid : ∃ r', (r.setException "Invalid peers").finish resp = .ok r' ∧ r'.Answered := by
    have hanswered := Requester.answered_setException hr "Invalid peers"
    refine ⟨r.setException "Invalid peers", ?_, hanswered⟩
    unfold Requester.finish
    rw [if_pos hresp, hanswered.setException]
  rcases peers with n | s | arr | entries
  · exact iff_of_true hinvalid trivial
  · constructor
    · rintro ⟨r', h, -⟩
      obtain ⟨images, himages, -⟩ := bind_eq_ok.mp h
      exact (ends_append_zero (Nat.zero_le _)).mp (ends_of_compactLoop himages)
    · intro hpeers
      have hinside : StaysInside host (s ++ [0]) 0 :=
        staysInside_iff.mpr ((ends_append_zero (Nat.zero_le _)).mpr hpeers)
      obtain ⟨images, himages⟩ := hinside
      obtain ⟨r', hr', hanswered⟩ := r.answered_finish hr { resp with peers := images }
      exact ⟨r', bind_eq_ok.mpr ⟨images, himages _ (by simp), hr'⟩, hanswered⟩
  · constructor
    · rintro ⟨r', h, -⟩
      obtain ⟨images, himages, -⟩ := bind_eq_ok.mp h
      exact fun p hp => (succeeds_listPeer host stack).mp (succeeds_mapM.mp ⟨images, himages⟩ p hp)
    · intro hpeers
      obtain ⟨images, himages⟩ := succeeds_mapM.mpr fun p hp =>
        (succeeds_listPeer host stack).mpr (hpeers p hp)
      obtain ⟨r', hr', hanswered⟩ := r.answered_finish hr { resp with peers := images }
      exact ⟨r', bind_eq_ok.mpr ⟨images, himages, hr'⟩, hanswered⟩
  · exact iff_of_true hinvalid trivial

variable {host stack}

/-- **A reply settles the promise exactly if a response can be taken from its value.** The call ends
normally then, with the flag set and with a value that has a peer or an exception in the promise;
otherwise an exception leaves it, or it copies a key behind its end. -/
theorem setResponse_answered_iff {split : List UInt8 → List (List UInt8)} {fuel : ℕ}
    {text part : List UInt8} {root : Node} {rest : IStream} {r : Requester} (hr : r.isSet = false)
    (hsplit : (split text).getLast? = some part)
    (hload : loadNode ample fuel (ofBytes part) = .done root rest) :
    (∃ r', setResponse host stack split fuel text r = .ok r' ∧ r'.Answered) ↔ Readable root := by
  have hroot : load fuel part = .ok root := by
    unfold load
    rw [hload]
  unfold setResponse
  rw [if_neg (Bool.eq_false_iff.mp hr), hsplit]
  dsimp only
  constructor
  · rintro ⟨r', h, hanswered⟩
    obtain ⟨root', hroot', h⟩ := bind_eq_ok.mp h
    obtain ⟨d, hd, h⟩ := bind_eq_ok.mp h
    obtain ⟨resp, hresp, h⟩ := bind_eq_ok.mp h
    obtain ⟨peers, hpeers, hsettle⟩ := bind_eq_ok.mp h
    cases hroot.symm.trans hroot'
    exact ⟨d, peers, asDict_eq_ok.mp hd, succeeds_readFields.mp ⟨resp, hresp⟩, atKey_eq_ok.mp hpeers,
      (settle_answered_iff host stack hr (peers_readFields hresp) peers).mp ⟨r', hsettle, hanswered⟩⟩
  · rintro ⟨d, peers, rfl, htyped, hfind, hpeers⟩
    obtain ⟨resp, hresp⟩ := succeeds_readFields.mpr htyped
    obtain ⟨r', hr', hanswered⟩ := (settle_answered_iff host stack hr
      (peers_readFields hresp) peers).mpr hpeers
    refine ⟨r', ?_, hanswered⟩
    exact bind_eq_ok.mpr ⟨_, hroot, bind_eq_ok.mpr ⟨d, rfl, bind_eq_ok.mpr ⟨resp, hresp,
      bind_eq_ok.mpr ⟨peers, atKey_eq_ok.mpr hfind, hr'⟩⟩⟩⟩

/-- A reply with one peer of six bytes. -/
theorem setResponse_onePeer :
    (∃ r', setResponse .littleEndian (List.replicate 26 0) (fun text => [text]) 9
        [100, 53, 58, 112, 101, 101, 114, 115, 54, 58, 127, 0, 0, 1, 26, 225, 101] waiting = .ok r' ∧
          r'.Answered) ↔
      Readable (.dict [(Key.peers.text, .str [127, 0, 0, 1, 26, 225])]) :=
  setResponse_answered_iff rfl rfl (show loadNode ample 9 _ = .done _ (ofBytes []) from rfl)

/-- `de`, a dictionary without the key of the peers: an exception leaves the call. -/
theorem setResponse_noKey :
    loadNode ample 9 (ofBytes [100, 101]) = .done (.dict []) (ofBytes []) ∧
      setResponse .littleEndian (List.replicate 26 0) (fun text => [text]) 9 [100, 101] waiting =
        .error .missingKey ∧
      ¬ ∃ r', setResponse .littleEndian (List.replicate 26 0) (fun text => [text]) 9 [100, 101]
        waiting = .ok r' ∧ r'.Answered := by
  have hthrows : setResponse .littleEndian (List.replicate 26 0) (fun text => [text]) 9 [100, 101]
      waiting = .error .missingKey := rfl
  refine ⟨rfl, hthrows, ?_⟩
  rintro ⟨r', h, -⟩
  rw [hthrows] at h
  cases h

end CppTorrent.Tracker.HttpResponse
