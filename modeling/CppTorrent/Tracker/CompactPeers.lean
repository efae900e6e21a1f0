import CppTorrent.Tracker.Announce
import CppTorrent.Tracker.HttpResponse

/-! # Compact peers

Both requesters read a list of peers from a string of six bytes each, the address and the port
big-endian. `compactLoop_encodePeers` follows the loop over such a string: it is the same in both, and
on every machine it gives the peers in their order, as long as no address begins with a zero octet,
where the loop would end. `setResponse_alike_iff` says when the two `SetResponse` functions make the same
of the same peers. -/

namespace CppTorrent.Tracker.CompactPeers

open CppTorrent.Lib.BigEndian CppTorrent.Lib.Endian CppTorrent.Lib.Fallible CppTorrent.Lib.OrderedMap
open CppTorrent.Lib.Stream
open CppTorrent.Bencode.Serialize CppTorrent.Bencode.Deserialize
open CppTorrent.Wire.Message CppTorrent.Tracker.Promise CppTorrent.Tracker.HttpResponse

/-- The address and the port of a peer. -/
structure Address where
  ip : UInt32
  port : UInt16

/-- The six bytes of a peer. -/
def encodePeer (a : Address) : List UInt8 := bytesBE 4 a.ip.toNat ++ bytesBE 2 a.port.toNat

/-- The compact encoding of a list of peers. -/
def encodePeers (peers : List Address) : List UInt8 := peers.flatMap encodePeer

/-- The first octet of the address. -/
def Address.firstOctet (a : Address) : ℕ := a.ip.toNat / 2 ^ 24

/-- The entry of a response for a peer. -/
def image (a : Address) : PeerImage := ⟨⟨a.ip.toNat, a.port.toNat, none⟩, encodePeer a⟩

@[simp] theorem length_encodePeer (a : Address) : (encodePeer a).length = 6 := by
  simp [encodePeer]

/-- A peer begins with the first octet of its address. -/
theorem head?_encodePeer (a : Address) :
    (encodePeer a).head? = some (UInt8.ofNat a.firstOctet) := by
  unfold encodePeer
  rw [bytesBE_succ, List.cons_append, List.head?_cons]
  rfl

theorem ofNat_firstOctet_ne_zero {a : Address} (h : a.firstOctet ≠ 0) :
    UInt8.ofNat a.firstOctet ≠ 0 := by
  intro hzero
  have hlt := a.ip.toNat_lt
  have hnat := congrArg UInt8.toNat hzero
  rw [UInt8.toNat_ofNat', UInt8.toNat_zero] at hnat
  unfold Address.firstOctet at *
  omega

/-- **The six bytes of a peer are read as that peer**, whatever the machine. -/
theorem compactPeer_encodePeer (host : Host) (a : Address) :
    compactPeer host (encodePeer a) = image a := by
  have hip : (encodePeer a).take 4 = bytesBE 4 a.ip.toNat := List.take_left' (length_bytesBE _ _)
  have hport : ((encodePeer a).drop 4).take 2 = bytesBE 2 a.port.toNat := by
    unfold encodePeer
    rw [List.drop_left' (length_bytesBE _ _), List.take_of_length_le (length_bytesBE _ _).le]
  unfold compactPeer image
  rw [hip, hport]
  refine congrArg₂ PeerImage.mk (congrArg₂ (fun ip port => (⟨ip, port, none⟩ : Peer)) ?_ ?_) rfl
  · refine (swapIfLittle_ofMemory host (length_bytesBE _ _)).trans (numberBE_bytesBE ?_)
    exact lt_of_lt_of_le a.ip.toNat_lt (by decide)
  · refine (swapIfLittle_ofMemory host (length_bytesBE _ _)).trans (numberBE_bytesBE ?_)
    exact lt_of_lt_of_le a.port.toNat_lt (by decide)

/-- A row of bytes inside a buffer is read. -/
theorem mapM_byteAt_append (front mid back : List UInt8) :
    (List.range mid.length).mapM (fun j => byteAt (front ++ (mid ++ back)) (front.length + j)) =
      .ok mid := by
  have hbyte : ∀ j ∈ List.range mid.length,
      byteAt (front ++ (mid ++ back)) (front.length + j) = .ok (mid.getD j 0) := by
    intro j hj
    have hlt := List.mem_range.mp hj
    unfold byteAt
    rw [List.getElem?_append_right (by omega), Nat.add_sub_cancel_left,
      List.getElem?_append_left hlt, List.getElem?_eq_getElem hlt, List.getD_eq_getElem?_getD,
      List.getElem?_eq_getElem hlt]
    rfl
  rw [mapM_eq_ok hbyte]
  refine congrArg Except.ok (List.ext_getElem (by simp) fun j h1 h2 => ?_)
  rw [List.getElem_map, List.getElem_range, List.getD_eq_getElem?_getD, List.getElem?_eq_getElem h2]
  rfl

/-- **The loop reads the peers up to the zero byte behind them**; the induction is on the peers. -/
theorem compactLoop_encodePeers (host : Host) : ∀ (peers : List Address) (front : List UInt8) (fuel : ℕ),
    (∀ a ∈ peers, a.firstOctet ≠ 0) → peers.length < fuel →
    compactLoop host (front ++ (encodePeers peers ++ [0])) fuel front.length =
      .ok (peers.map image)
  | _, _, 0, _, hfuel => absurd hfuel (Nat.not_lt_zero _)
  | [], front, fuel + 1, _, _ => by
    have hzero : byteAt (front ++ (encodePeers [] ++ [0])) front.length = .ok 0 := by
      unfold byteAt
      rw [List.getElem?_append_right le_rfl, Nat.sub_self]
      rfl
    rw [compactLoop]
    refine bind_eq_ok.mpr ⟨0, hzero, ?_⟩
    rw [if_pos rfl]
    rfl
  | a :: peers, front, fuel + 1, hfirst, hfuel => by
    have hdata : front ++ (encodePeers (a :: peers) ++ [0]) =
        front ++ (encodePeer a ++ (encodePeers peers ++ [0])) := by
      rw [encodePeers, List.flatMap_cons, List.append_assoc, encodePeers]
    have ha := ofNat_firstOctet_ne_zero (hfirst a List.mem_cons_self)
    have hhead : byteAt (front ++ (encodePeer a ++ (encodePeers peers ++ [0]))) front.length =
        .ok (UInt8.ofNat a.firstOctet) := by
      unfold byteAt
      rw [List.getElem?_append_right le_rfl, Nat.sub_self, ← List.head?_eq_getElem?,
        List.head?_append, head?_encodePeer]
      rfl
    have hpeer := mapM_byteAt_append front (encodePeer a) (encodePeers peers ++ [0])
    rw [length_encodePeer] at hpeer
    have ih := compactLoop_encodePeers host peers (front ++ encodePeer a) fuel
      (fun b hb => hfirst b (List.mem_cons_of_mem a hb)) (Nat.lt_of_succ_lt_succ hfuel)
    rw [List.length_append, length_encodePeer, List.append_assoc] at ih
    rw [hdata, compactLoop]
    refine bind_eq_ok.mpr ⟨_, hhead, ?_⟩
    rw [if_neg ha]
    refine bind_eq_ok.mpr ⟨_, hpeer, bind_eq_ok.mpr ⟨_, ih, ?_⟩⟩
    rw [compactPeer_encodePeer]
    rfl

theorem length_le_encodePeers : ∀ peers : List Address, peers.length ≤ (encodePeers peers).length
  | [] => le_rfl
  | a :: peers => by
    have ih := length_le_encodePeers peers
    unfold encodePeers at ih ⊢
    rw [List.flatMap_cons, List.length_append, length_encodePeer, List.length_cons]
    omega

/-! ### The responses -/

/-- What the promise is set to for a list of peers. -/
def outcome (resp : Response) (peers : List Address) : Settled :=
  if peers = [] then .exception "0 peers!" else .value { resp with peers := peers.map image }

/-- A requester whose promise has been settled for a list of peers. -/
def settled (resp : Response) (peers : List Address) : Requester :=
  ⟨true, some (outcome resp peers), fun h => by cases h⟩

/-- The promise is settled once, by the value or by the exception. -/
theorem finish_eq {r : Requester} (hr : r.isSet = false) (resp : Response) (peers : List Address) :
    r.finish { resp with peers := peers.map image } = .ok (settled resp peers) := by
  unfold Requester.finish settled outcome
  rcases peers with _ | ⟨a, peers⟩
  · simp [Requester.setException, hr]
  · simp [Requester.setValue, r.unset hr]

/-- The loop over a whole buffer. -/
theorem compactLoop_buffer (host : Host) {peers : List Address} (hfirst : ∀ a ∈ peers, a.firstOctet ≠ 0)
    (front : List UInt8) {fuel : ℕ} (hfuel : (front ++ (encodePeers peers ++ [0])).length ≤ fuel) :
    compactLoop host (front ++ (encodePeers peers ++ [0])) fuel front.length = .ok (peers.map image) := by
  refine compactLoop_encodePeers host peers front fuel hfirst ?_
  have hle := length_le_encodePeers peers
  rw [List.length_append, List.length_append, List.length_singleton] at hfuel
  omega

/-- The peers of a UDP reply: the interval stands in its header. -/
theorem udp_setResponse (host : Host) {peers : List Address} (hfirst : ∀ a ∈ peers, a.firstOctet ≠ 0)
    {header : List UInt8} (hheader : header.length = 20) {r : Requester} (hr : r.isSet = false) :
    Announce.setResponse host (header ++ (encodePeers peers ++ [0])) r =
      .ok (settled { response with interval := numberBE ((header.drop 8).take 4) } peers) := by
  set interval := (header.drop 8).take 4 with hinterval
  have hlen : interval.length = 4 := by
    rw [hinterval, List.length_take, List.length_drop]
    omega
  have hsplit : header ++ (encodePeers peers ++ [0]) =
      header.take 8 ++ (interval ++ (header.drop 12 ++ (encodePeers peers ++ [0]))) := by
    have hrest : header.drop 8 = interval ++ header.drop 12 := by
      have h := (List.take_append_drop 4 (header.drop 8)).symm
      rwa [List.drop_drop] at h
    rw [← List.append_assoc interval, ← hrest, ← List.append_assoc (header.take 8),
      List.take_append_drop]
  have hread : (List.range 4).mapM (fun j => byteAt (header ++ (encodePeers peers ++ [0])) (8 + j)) =
      .ok interval := by
    have h := mapM_byteAt_append (header.take 8) interval
      (header.drop 12 ++ (encodePeers peers ++ [0]))
    rw [hlen, List.length_take, hheader, min_eq_left (by decide), ← hsplit] at h
    exact h
  have hloop := compactLoop_buffer host hfirst header (Nat.le_succ _)
  rw [hheader] at hloop
  unfold Announce.setResponse
  rw [if_neg (Bool.eq_false_iff.mp hr)]
  refine bind_eq_ok.mpr ⟨_, hread, bind_eq_ok.mpr ⟨_, hloop, ?_⟩⟩
  have hvalue : bigToNative host 4 (arrayToValue host interval) = numberBE interval :=
    swapIfLittle_ofMemory host hlen
  rw [hvalue]
  exact finish_eq hr { response with interval := numberBE interval } peers

/-- The peers of an HTTP reply, whose other fields are read before them. -/
theorem http_setResponse (host : Host) {peers : List Address} (hfirst : ∀ a ∈ peers, a.firstOctet ≠ 0)
    {r : Requester} (hr : r.isSet = false) (stack : List UInt8)
    {split : List UInt8 → List (List UInt8)} {fuel : ℕ} {text part : List UInt8}
    (hsplit : (split text).getLast? = some part) {d : List (List UInt8 × Node)} {rest : IStream}
    (hload : loadNode ample fuel (ofBytes part) = .done (.dict d) rest)
    (hpeers : find Key.peers.text d = some (.str (encodePeers peers))) :
    HttpResponse.setResponse host stack split fuel text r =
      (readFields d).map fun resp => settled resp peers := by
  have hroot : load fuel part = .ok (.dict d) := by
    unfold load
    rw [hload]
  have hfuel : ([] ++ (encodePeers peers ++ [0])).length ≤ (encodePeers peers).length + 2 := by
    rw [List.nil_append, List.length_append, List.length_singleton]
    omega
  have hloop := compactLoop_buffer host hfirst [] hfuel
  have hsettle : ∀ resp, settle host stack resp r (.str (encodePeers peers)) =
      .ok (settled resp peers) := fun resp =>
    bind_eq_ok.mpr ⟨_, hloop, finish_eq hr resp peers⟩
  unfold HttpResponse.setResponse
  rw [if_neg (Bool.eq_false_iff.mp hr), hsplit]
  dsimp only
  rw [hroot]
  show (readFields d).bind (fun resp => (atKey Key.peers.text d).bind fun bencodePeers =>
    settle host stack resp r bencodePeers) = _
  rw [atKey_eq_ok.mpr hpeers]
  cases hfields : readFields d with
  | error fault => rfl
  | ok resp => exact hsettle resp

/-- **The two requesters build the same peers and settle their promises with them exactly if** every
other field of the HTTP reply that is there has its type: an exception leaves the call otherwise. The
peers are those that were encoded, on every machine. -/
theorem setResponse_alike_iff (host : Host) (peers : List Address)
    (hfirst : ∀ a ∈ peers, a.firstOctet ≠ 0) (header : List UInt8) (hheader : header.length = 20)
    (r : Requester) (hr : r.isSet = false) (stack : List UInt8)
    (split : List UInt8 → List (List UInt8)) (fuel : ℕ) (text part : List UInt8)
    (hsplit : (split text).getLast? = some part) (d : List (List UInt8 × Node)) (rest : IStream)
    (hload : loadNode ample fuel (ofBytes part) = .done (.dict d) rest)
    (hpeers : find Key.peers.text d = some (.str (encodePeers peers))) :
    (Announce.setResponse host (header ++ (encodePeers peers ++ [0])) r =
        .ok (settled { response with interval := numberBE ((header.drop 8).take 4) } peers) ∧
      ∃ resp, HttpResponse.setResponse host stack split fuel text r = .ok (settled resp peers)) ↔
      Typed d := by
  rw [http_setResponse host hfirst hr stack hsplit hload hpeers]
  constructor
  · rintro ⟨-, resp, hresp⟩
    exact succeeds_readFields.mp (succeeds_map.mp ⟨_, hresp⟩)
  · intro htyped
    obtain ⟨resp, hresp⟩ := succeeds_readFields.mpr htyped
    refine ⟨udp_setResponse host hfirst hheader hr, resp, ?_⟩
    rw [hresp]
    rfl

/-- One peer, in a datagram and in a reply. -/
theorem setResponse_alike_one :
    (Announce.setResponse .littleEndian
        (List.replicate 20 0 ++ (encodePeers [⟨0x7F000001, 6881⟩] ++ [0])) waiting =
        .ok (settled { response with interval := 0 } [⟨0x7F000001, 6881⟩]) ∧
      ∃ resp, HttpResponse.setResponse .littleEndian (List.replicate 26 0) (fun text => [text]) 9
          [100, 53, 58, 112, 101, 101, 114, 115, 54, 58, 127, 0, 0, 1, 26, 225, 101] waiting =
        .ok (settled resp [⟨0x7F000001, 6881⟩])) ↔
      Typed [(Key.peers.text, .str [127, 0, 0, 1, 26, 225])] :=
  setResponse_alike_iff .littleEndian [⟨0x7F000001, 6881⟩] (by decide) (List.replicate 20 0) rfl waiting
    rfl (List.replicate 26 0) (fun text => [text]) 9 _ _ rfl _ (ofBytes [])
    (show loadNode ample 9 _ = .done _ (ofBytes []) from rfl) rfl

/-- `d8:interval1:x5:peers6:…e`: the interval is a string, and an exception leaves the call although the
peers could be read. -/
theorem setResponse_intervalStr :
    loadNode ample 9 (ofBytes [100, 56, 58, 105, 110, 116, 101, 114, 118, 97, 108, 49, 58, 120, 53, 58,
          112, 101, 101, 114, 115, 54, 58, 127, 0, 0, 1, 26, 225, 101]) =
        .done (.dict [(Key.interval.text, .str [120]),
          (Key.peers.text, .str (encodePeers [⟨0x7F000001, 6881⟩]))]) (ofBytes []) ∧
      HttpResponse.setResponse .littleEndian (List.replicate 26 0) (fun text => [text]) 9
          [100, 56, 58, 105, 110, 116, 101, 114, 118, 97, 108, 49, 58, 120, 53, 58, 112, 101, 101, 114,
            115, 54, 58, 127, 0, 0, 1, 26, 225, 101] waiting = .error .badVariant ∧
      ¬ ∃ resp, HttpResponse.setResponse .littleEndian (List.replicate 26 0) (fun text => [text]) 9
          [100, 56, 58, 105, 110, 116, 101, 114, 118, 97, 108, 49, 58, 120, 53, 58, 112, 101, 101, 114,
            115, 54, 58, 127, 0, 0, 1, 26, 225, 101] waiting =
        .ok (settled resp [⟨0x7F000001, 6881⟩]) := by
  have hthrows : HttpResponse.setResponse .littleEndian (List.replicate 26 0) (fun text => [text]) 9
      [100, 56, 58, 105, 110, 116, 101, 114, 118, 97, 108, 49, 58, 120, 53, 58, 112, 101, 101, 114,
        115, 54, 58, 127, 0, 0, 1, 26, 225, 101] waiting = .error .badVariant := rfl
  refine ⟨rfl, hthrows, ?_⟩
  rintro ⟨resp, h⟩
  rw [hthrows] at h
  cases h

end CppTorrent.Tracker.CompactPeers
