import CppTorrent.Lib.Fields
import CppTorrent.Tracker.Announce
import CppTorrent.Tracker.IpAddress

/-! # The announce request of a UDP tracker

`make_announce_request` writes the query into an array at fixed positions, `do_try_announce` adds the two
ids of the connect reply and sends the array. The numbers are swapped on little-endian machines, so that
their bytes in memory are big-endian (`Lib.Endian`), and the fields lie apart from each other
(`Lib.Fields`). So the datagram has every field at its place, however often the ids have been written
before, and the tracker that echoes the transaction id is understood (`announces`). -/

namespace CppTorrent.Tracker.AnnouncePacket

open CppTorrent.Lib.BigEndian CppTorrent.Lib.ByteFile CppTorrent.Lib.Decimal CppTorrent.Lib.Endian
open CppTorrent.Lib.Fields CppTorrent.Lib.Stream.IStream
open CppTorrent.Wire.Message CppTorrent.Tracker.Announce CppTorrent.Tracker.IpAddress

/-! ### The request -/

/-- `bittorrent::Event`. -/
inductive Event where
  | empty
  | completed
  | started
  | stopped
  deriving DecidableEq

/-- The number of an event. -/
def Event.toInt : Event → ℤ
  | .empty => 0
  | .completed => 1
  | .started => 2
  | .stopped => 3

/-- The part of `bittorrent::Query` that is written into the request. -/
structure Query where
  event : Event
  uploaded : UInt64
  downloaded : UInt64
  left : UInt64
  ip : Option (List UInt8)
  numwant : Option UInt64
  key : Option (List UInt8)

/-- `std::stoi`; `none` if it throws. -/
def stoi (text : List UInt8) : Option ℤ :=
  let (neg, ds, _) := numeral (text.dropWhile isSpace)
  if ds = [] then none
  else
    let (v, fits) := toInt neg (value ds)
    if fits then some v else none

/-- The 32 bits of an `int`. -/
def bits (z : ℤ) : ℕ := (z % 2 ^ 32).toNat

/-- Conversion to an `int`. -/
def castInt (z : ℤ) : ℤ := z.bmod (2 ^ 32)

/-- `ValueToArray`, into an array from a position on, for a type of `k` bytes. -/
def valueToArray (host : Host) (k value pos : ℕ) (arr : List UInt8) : List UInt8 :=
  writeAt pos (toMemory host k value) arr

/-- `udpRequester::make_announce_request`; `none` if the key is not a number. -/
def makeAnnounceRequest (host : Host) (infoHash masterPeerId : List UInt8) (port : ℕ) (query : Query)
    (announceReq : List UInt8) : Option (List UInt8) := do
  let req := writeAt 16 (infoHash.take 20) announceReq
  let req := writeAt 36 (masterPeerId.take 20) req
  let req := valueToArray host 4 (nativeToBig host 4 1) 8 req
  let req := valueToArray host 8 (nativeToBig host 8 query.downloaded.toNat) 56 req
  let req := valueToArray host 8 (nativeToBig host 8 query.left.toNat) 64 req
  let req := valueToArray host 8 (nativeToBig host 8 query.uploaded.toNat) 72 req
  let req := valueToArray host 4 (nativeToBig host 4 (bits query.event.toInt)) 80 req
  let ip := (query.ip.map ipToInt).getD 0
  let req := valueToArray host 4 (nativeToBig host 4 ip.toNat) 84 req
  let key ← (query.key.map stoi).getD (some 0)
  let req := valueToArray host 4 (nativeToBig host 4 (bits key)) 88 req
  let numwant := (query.numwant.map fun n => castInt n.toNat).getD (-1)
  let req := valueToArray host 4 (nativeToBig host 4 (bits numwant)) 92 req
  return valueToArray host 2 (nativeToBig host 2 (port % 2 ^ 16)) 96 req

/-- `udpRequester::do_try_announce`, for the ids of `c_resp_`: the array after it, and the datagram. -/
def doTryAnnounce (host : Host) (connectionId transactionId : ℕ) (announceReq : List UInt8) :
    List UInt8 × List UInt8 :=
  let req := writeAt 0 (toMemory host 8 connectionId) announceReq
  let req := writeAt 12 (toMemory host 4 transactionId) req
  (req, (SendingMessage.copyFrom (req.take middleBuffSize) ⟨.bigEndian, []⟩).data)

/-- The array after earlier calls, for some ids each. -/
def afterTries (host : Host) (earlier : List (ℕ × ℕ)) (announceReq : List UInt8) : List UInt8 :=
  earlier.foldl (fun req ids => (doTryAnnounce host ids.1 ids.2 req).1) announceReq

/-! ### What is to be announced -/

/-- The text of an `int`: an optional sign and digits. -/
structure DecimalInt where
  sign : List UInt8
  digits : List UInt8
  sign_mem : sign ∈ [[], [43], [45]]
  ne_nil : digits ≠ []
  isDigit : ∀ d ∈ digits, isDigit d = true
  fits : if sign = [45] then value digits ≤ 2 ^ 31 else value digits < 2 ^ 31

/-- The text. -/
def DecimalInt.text (k : DecimalInt) : List UInt8 := k.sign ++ k.digits

/-- The number. -/
def DecimalInt.toInt (k : DecimalInt) : ℤ :=
  if k.sign = [45] then -(value k.digits : ℤ) else value k.digits

/-- The four octets of an address. -/
structure DottedQuad where
  octets : List Octet
  length_eq : octets.length = 4

/-- The text. -/
def DottedQuad.text (q : DottedQuad) : List UInt8 := joinDots (q.octets.map Octet.digits)

/-- The address. -/
def DottedQuad.toNat (q : DottedQuad) : ℕ := ipOf (q.octets.map fun o => value o.digits)

/-- Conversion of an `int` to `size_t`. -/
def castSize (n : Int32) : UInt64 := UInt64.ofNat (n.toInt % 2 ^ 64).toNat

/-- What a tracker is to be told. -/
structure Wanted where
  event : Event
  uploaded : UInt64
  downloaded : UInt64
  left : UInt64
  ip : Option DottedQuad
  numwant : Option Int32
  key : Option DecimalInt

/-- The query that says so. A number of peers is converted to `size_t`. -/
def Wanted.query (w : Wanted) : Query where
  event := w.event
  uploaded := w.uploaded
  downloaded := w.downloaded
  left := w.left
  ip := w.ip.map DottedQuad.text
  numwant := w.numwant.map castSize
  key := w.key.map DecimalInt.text

/-- Bytes of a datagram. -/
def field (pos n : ℕ) (packet : List UInt8) : List UInt8 := (Window.mk pos n).bytes packet

/-- The number in four bytes, as a signed one. -/
def signedBE (bytes : List UInt8) : ℤ := (numberBE bytes : ℤ).bmod (2 ^ 32)

/-- The datagram of an announce request, by its fields. -/
structure Announces (w : Wanted) (infoHash masterPeerId : List UInt8) (port : UInt16)
    (connectionId : List UInt8) (transactionId : ℕ) (packet : List UInt8) : Prop where
  size : packet.length = 98
  connectionId : field 0 8 packet = connectionId
  action : numberBE (field 8 4 packet) = 1
  transactionId : numberBE (field 12 4 packet) = transactionId
  infoHash : field 16 20 packet = infoHash
  peerId : field 36 20 packet = masterPeerId
  downloaded : numberBE (field 56 8 packet) = w.downloaded.toNat
  left : numberBE (field 64 8 packet) = w.left.toNat
  uploaded : numberBE (field 72 8 packet) = w.uploaded.toNat
  event : signedBE (field 80 4 packet) = w.event.toInt
  ip : numberBE (field 84 4 packet) = (w.ip.map DottedQuad.toNat).getD 0
  key : signedBE (field 88 4 packet) = (w.key.map DecimalInt.toInt).getD 0
  numWant : signedBE (field 92 4 packet) = (w.numwant.map Int32.toInt).getD (-1)
  port : numberBE (field 96 2 packet) = port.toNat

/-! ### Numbers -/

theorem stoi_of_numeral {text ds rest : List UInt8} {neg : Bool} {v : ℤ}
    (hspace : text.dropWhile isSpace = text) (hnumeral : numeral text = (neg, ds, rest))
    (hne : ds ≠ []) (hvalue : toInt neg (value ds) = (v, true)) : stoi text = some v := by
  unfold stoi
  rw [hspace, hnumeral]
  dsimp only
  rw [if_neg hne, hvalue]
  rfl

/-- **`std::stoi` reads a decimal number.** -/
theorem stoi_text (k : DecimalInt) : stoi k.text = some k.toInt := by
  obtain ⟨sign, ds, hsign, hne, hds, hfits⟩ := k
  have htake : ds.takeWhile isDigit = ds := List.takeWhile_eq_self_iff.mpr hds
  rcases List.mem_cons.mp hsign with rfl | hsign
  · obtain ⟨d, ds, rfl⟩ := List.exists_cons_of_ne_nil hne
    have hd := hds d List.mem_cons_self
    have hspace : (d :: ds).dropWhile isSpace = d :: ds := by simp [isSpace_of_isDigit hd]
    have hnumeral := numeral_of_isDigit ds hd
    rw [htake] at hnumeral
    exact stoi_of_numeral hspace hnumeral hne (toInt_false hfits)
  · rcases List.mem_cons.mp hsign with rfl | hsign
    · have hnumeral : numeral (43 :: ds) = (false, ds.takeWhile isDigit, ds.dropWhile isDigit) := rfl
      rw [htake] at hnumeral
      exact stoi_of_numeral rfl hnumeral hne (toInt_false hfits)
    · obtain rfl := List.mem_singleton.mp hsign
      have hnumeral : numeral (45 :: ds) = (true, ds.takeWhile isDigit, ds.dropWhile isDigit) := rfl
      rw [htake] at hnumeral
      exact stoi_of_numeral rfl hnumeral hne (if_pos hfits)

theorem DecimalInt.toInt_bounds (k : DecimalInt) : -2 ^ 31 ≤ k.toInt ∧ k.toInt < 2 ^ 31 := by
  have hfits := k.fits
  unfold DecimalInt.toInt
  split_ifs at hfits ⊢
  · omega
  · omega

/-- The 32 bits of an `int`, read as a signed number. -/
theorem bmod_bits {z : ℤ} (h : -2 ^ 31 ≤ z ∧ z < 2 ^ 31) : (bits z : ℤ).bmod (2 ^ 32) = z := by
  have hmod : ((bits z : ℕ) : ℤ) = z % 2 ^ 32 := by
    unfold bits
    omega
  rw [hmod]
  change (z % ((2 ^ 32 : ℕ) : ℤ)).bmod (2 ^ 32) = z
  rw [Int.emod_bmod]
  exact Int.bmod_eq_of_le (by omega) (by omega)

theorem bits_lt (z : ℤ) : bits z < 256 ^ 4 := by
  unfold bits
  omega

/-- A number of peers survives the conversion to `size_t` and back. -/
theorem castInt_castSize (n : Int32) : castInt (castSize n).toNat = n.toInt := by
  have hlow := n.le_toInt
  have hhigh := n.toInt_lt
  have hnat : ((castSize n).toNat : ℤ) = n.toInt % 2 ^ 64 := by
    unfold castSize
    rw [UInt64.toNat_ofNat']
    omega
  have hmod : n.toInt % 2 ^ 64 % ((2 ^ 32 : ℕ) : ℤ) = n.toInt % ((2 ^ 32 : ℕ) : ℤ) :=
    Int.emod_emod_of_dvd _ (by decide)
  unfold castInt
  rw [hnat, ← Int.emod_bmod, hmod, Int.emod_bmod]
  exact Int.bmod_eq_of_le (by omega) (by omega)

/-- What is swapped on little-endian machines is big-endian in memory. -/
theorem numberBE_toMemory (host : Host) {k n : ℕ} (h : n < 256 ^ k) :
    numberBE (toMemory host k (nativeToBig host k n)) = n := by
  unfold nativeToBig
  rw [toMemory_swapIfLittle, numberBE_bytesBE h]

/-! ### The array -/

/-- The fields of the query. -/
def queryFields (host : Host) (infoHash masterPeerId : List UInt8) (port : ℕ) (query : Query)
    (key : ℤ) : List Field :=
  [⟨16, infoHash.take 20⟩, ⟨36, masterPeerId.take 20⟩,
    ⟨8, toMemory host 4 (nativeToBig host 4 1)⟩,
    ⟨56, toMemory host 8 (nativeToBig host 8 query.downloaded.toNat)⟩,
    ⟨64, toMemory host 8 (nativeToBig host 8 query.left.toNat)⟩,
    ⟨72, toMemory host 8 (nativeToBig host 8 query.uploaded.toNat)⟩,
    ⟨80, toMemory host 4 (nativeToBig host 4 (bits query.event.toInt))⟩,
    ⟨84, toMemory host 4 (nativeToBig host 4 ((query.ip.map ipToInt).getD 0).toNat)⟩,
    ⟨88, toMemory host 4 (nativeToBig host 4 (bits key))⟩,
    ⟨92, toMemory host 4 (nativeToBig host 4
      (bits ((query.numwant.map fun n => castInt n.toNat).getD (-1))))⟩,
    ⟨96, toMemory host 2 (nativeToBig host 2 (port % 2 ^ 16))⟩]

/-- The fields of the two ids. -/
def idFields (host : Host) (connectionId transactionId : ℕ) : List Field :=
  [⟨0, toMemory host 8 connectionId⟩, ⟨12, toMemory host 4 transactionId⟩]

theorem makeAnnounceRequest_eq (host : Host) (infoHash masterPeerId : List UInt8) (port : ℕ)
    (query : Query) {key : ℤ} (hkey : (query.key.map stoi).getD (some 0) = some key)
    (announceReq : List UInt8) :
    makeAnnounceRequest host infoHash masterPeerId port query announceReq =
      some (writeFields (queryFields host infoHash masterPeerId port query key) announceReq) := by
  unfold makeAnnounceRequest
  rw [hkey]
  rfl

theorem doTryAnnounce_snd (host : Host) (connectionId transactionId : ℕ) (announceReq : List UInt8) :
    (doTryAnnounce host connectionId transactionId announceReq).2 =
      (writeFields (idFields host connectionId transactionId) announceReq).take 98 := rfl

/-- Where the fields of the query lie. -/
def queryWindows : List Window :=
  [⟨16, 20⟩, ⟨36, 20⟩, ⟨8, 4⟩, ⟨56, 8⟩, ⟨64, 8⟩, ⟨72, 8⟩, ⟨80, 4⟩, ⟨84, 4⟩, ⟨88, 4⟩, ⟨92, 4⟩, ⟨96, 2⟩]

/-- Where the two ids lie. -/
def idWindows : List Window := [⟨0, 8⟩, ⟨12, 4⟩]

section Array

variable {host : Host} {infoHash masterPeerId record : List UInt8} {port : ℕ} {query : Query} {key : ℤ}

theorem window_queryFields (host : Host) (port : ℕ) (query : Query) (key : ℤ)
    (hhash : infoHash.length = 20) (hpeer : masterPeerId.length = 20) :
    (queryFields host infoHash masterPeerId port query key).map Field.window = queryWindows := by
  simp [queryFields, Field.window, queryWindows, hhash, hpeer]

theorem window_idFields (host : Host) (connectionId transactionId : ℕ) :
    (idFields host connectionId transactionId).map Field.window = idWindows := by
  simp [idFields, Field.window, idWindows]

/-- Fields at known windows lie inside the array. -/
theorem inside_of_windows {fields : List Field} {windows : List Window}
    (hwindows : fields.map Field.window = windows) (hin : ∀ w ∈ windows, Inside 99 w)
    (hlen : record.length = 99) : ∀ f ∈ fields, Inside record.length f.window := by
  intro f hf
  rw [hlen]
  exact hin f.window (hwindows ▸ List.mem_map_of_mem hf)

/-- **The fields of the query do not overwrite each other.** -/
theorem bytes_queryFields (hhash : infoHash.length = 20) (hpeer : masterPeerId.length = 20)
    (hlen : record.length = 99) :
    ∀ f ∈ queryFields host infoHash masterPeerId port query key,
      f.window.bytes (writeFields (queryFields host infoHash masterPeerId port query key) record) =
        f.bytes := by
  have hwindows := window_queryFields host port query key hhash hpeer
  refine bytes_writeFields (inside_of_windows hwindows (by decide) hlen) ?_
  rw [← List.pairwise_map, hwindows]
  decide

theorem length_idFields (host : Host) (connectionId transactionId : ℕ) (hlen : record.length = 99) :
    (writeFields (idFields host connectionId transactionId) record).length = 99 :=
  (length_writeFields (inside_of_windows (window_idFields host connectionId transactionId) (by decide)
    hlen)).trans hlen

/-- The ids do not overwrite the fields of the query. -/
theorem bytes_idFields_of_query (connectionId transactionId : ℕ) (hlen : record.length = 99) :
    ∀ w ∈ queryWindows,
      w.bytes (writeFields (idFields host connectionId transactionId) record) = w.bytes record := by
  have hwindows := window_idFields host connectionId transactionId
  have hinside : ∀ w ∈ queryWindows, Inside 99 w := by decide
  have hapart : ∀ w ∈ queryWindows, ∀ v ∈ idWindows, Apart v w := by decide
  intro w hw
  refine bytes_writeFields_of_apart (inside_of_windows hwindows (by decide) hlen)
    (hlen ▸ hinside w hw) fun f hf => ?_
  exact hapart w hw f.window (hwindows ▸ List.mem_map_of_mem hf)

/-- The ids can be read back. -/
theorem bytes_idFields (host : Host) (connectionId transactionId : ℕ) (hlen : record.length = 99) :
    ∀ f ∈ idFields host connectionId transactionId,
      f.window.bytes (writeFields (idFields host connectionId transactionId) record) = f.bytes := by
  have hwindows := window_idFields host connectionId transactionId
  refine bytes_writeFields (inside_of_windows hwindows (by decide) hlen) ?_
  rw [← List.pairwise_map, hwindows]
  decide

/-- **Earlier calls of `do_try_announce` leave the fields of the query.** -/
theorem afterTries_spec (host : Host) : ∀ (earlier : List (ℕ × ℕ)) {record : List UInt8},
    record.length = 99 → (afterTries host earlier record).length = 99 ∧
      ∀ w ∈ queryWindows, w.bytes (afterTries host earlier record) = w.bytes record
  | [], _, hlen => ⟨hlen, fun _ _ => rfl⟩
  | ids :: earlier, record, hlen => by
    obtain ⟨hlen', hbytes⟩ := afterTries_spec host earlier
      (length_idFields host ids.1 ids.2 hlen)
    refine ⟨hlen', fun w hw => (hbytes w hw).trans ?_⟩
    exact bytes_idFields_of_query ids.1 ids.2 hlen w hw

end Array

/-! ### The replies -/

theorem get_eq (host : Host) (k pos : ℕ) {data : List UInt8} (h : pos + k ≤ data.length) :
    ReceivingPeerMessage.get host k ⟨.bigEndian, data, pos, 0⟩ =
      some (numberBE (field pos k data), ⟨.bigEndian, data, pos + k, 0⟩) := by
  have hlen : ((data.drop pos).take k).length = k := by
    rw [List.length_take, List.length_drop]
    omega
  unfold ReceivingPeerMessage.get ReceivingPeerMessage.copyTo
  rw [if_pos h]
  exact congrArg some (Prod.ext (swapIfLittle_ofMemory host hlen) rfl)

/-- The action and the transaction id of a datagram. -/
theorem get_head (host : Host) {data : List UInt8} (h : 8 ≤ data.length) :
    (message data).get host 4 = some (numberBE (field 0 4 data), ⟨.bigEndian, data, 4, 0⟩) ∧
      ReceivingPeerMessage.get host 4 ⟨.bigEndian, data, 4, 0⟩ =
        some (numberBE (field 4 4 data), ⟨.bigEndian, data, 8, 0⟩) :=
  ⟨get_eq host 4 0 (by omega), get_eq host 4 4 (by omega)⟩

/-- **What the reply to a connect request has told.** -/
theorem onConnectResponse_connected {host : Host} {transactionId connectionId connectedId : ℕ}
    {reply : List UInt8}
    (h : onConnectResponse host transactionId reply = some (.connected connectionId connectedId)) :
    16 ≤ reply.length ∧ numberBE (field 4 4 reply) = transactionId ∧
      connectionId = nativeToBig host 8 (numberBE (field 8 8 reply)) ∧
      connectedId = nativeToBig host 4 transactionId := by
  unfold onConnectResponse at h
  split_ifs at h with hlen
  · cases h
  · obtain ⟨haction, hvalue⟩ := get_head host (show 8 ≤ reply.length by omega)
    have hconnection := get_eq host 8 8 (show 8 + 8 ≤ reply.length by omega)
    simp only [haction, hvalue, hconnection, Option.bind_eq_bind, Option.bind_some] at h
    split_ifs at h with hok
    · cases h
      exact ⟨not_lt.mp hlen, hok.1, rfl, by rw [hok.1]⟩
    · cases h

/-- **A reply to the announce request that has its transaction id is accepted.** -/
theorem onAnnounceResponse_of_echo {host : Host} {transactionId : ℕ} {answer : List UInt8}
    (hlen : 20 ≤ answer.length) (haction : numberBE (field 0 4 answer) = 1)
    (hid : numberBE (field 4 4 answer) = transactionId) (hlt : transactionId < 256 ^ 4) :
    onAnnounceResponse host (nativeToBig host 4 transactionId) answer =
      some (.accepted (answer ++ [0])) := by
  obtain ⟨hget, hvalue⟩ := get_head host (show 8 ≤ answer.length by omega)
  have hnative : bigToNative host 4 (nativeToBig host 4 transactionId) = transactionId :=
    swapIfLittle_swapIfLittle host hlt
  have hzero : (((⟨.bigEndian, []⟩ : SendingMessage).copyFrom answer).put host 1 0).data =
      answer ++ [0] := by
    rw [put_data]
    rfl
  unfold onAnnounceResponse
  rw [if_neg (by omega)]
  simp only [hget, hvalue, Option.bind_eq_bind, Option.bind_some, hnative, hid, haction]
  rw [if_pos ⟨hlen, trivial, trivial⟩, hzero]
  rfl

/-! ### The datagram -/

theorem field_take (pos n : ℕ) (h : pos + n ≤ 98) (record : List UInt8) :
    field pos n (record.take 98) = field pos n record :=
  bytes_take (w := ⟨pos, n⟩) h record

theorem length_field {pos n : ℕ} {data : List UInt8} (h : pos + n ≤ data.length) :
    (field pos n data).length = n := Window.length_bytes (w := ⟨pos, n⟩) h

section Packet

variable {host : Host} {infoHash masterPeerId announceReq : List UInt8} {port : ℕ} {query : Query}
  {key : ℤ}

/-- The datagram with the ids of a connect reply, after earlier calls. -/
def packetOf (host : Host) (infoHash masterPeerId : List UInt8) (port : ℕ) (query : Query) (key : ℤ)
    (announceReq : List UInt8) (earlier : List (ℕ × ℕ)) (connectionId transactionId : ℕ) :
    List UInt8 :=
  (doTryAnnounce host connectionId transactionId (afterTries host earlier
    (writeFields (queryFields host infoHash masterPeerId port query key) announceReq))).2

section Fields

variable (hhash : infoHash.length = 20) (hpeer : masterPeerId.length = 20)
  (hreq : announceReq.length = 99) (earlier : List (ℕ × ℕ)) (connectionId transactionId : ℕ)

include hhash hpeer hreq

theorem length_made (host : Host) (port : ℕ) (query : Query) (key : ℤ) :
    (writeFields (queryFields host infoHash masterPeerId port query key) announceReq).length = 99 :=
  (length_writeFields
    (inside_of_windows (window_queryFields host port query key hhash hpeer) (by decide) hreq)).trans hreq

/-- **A field of the query in the datagram.** -/
theorem bytes_packetOf {f : Field} (hf : f ∈ queryFields host infoHash masterPeerId port query key) :
    f.window.bytes (packetOf host infoHash masterPeerId port query key announceReq earlier
      connectionId transactionId) = f.bytes := by
  have hmem : f.window ∈ queryWindows :=
    window_queryFields host port query key hhash hpeer ▸ List.mem_map_of_mem hf
  have hinside : ∀ w ∈ queryWindows, Inside 98 w := by decide
  obtain ⟨hlen, hbytes⟩ := afterTries_spec host earlier
    (length_made hhash hpeer hreq host port query key)
  unfold packetOf
  rw [doTryAnnounce_snd, bytes_take (hinside f.window hmem),
    bytes_idFields_of_query connectionId transactionId hlen f.window hmem, hbytes f.window hmem]
  exact bytes_queryFields hhash hpeer hreq f hf

/-- Twenty bytes of the query in the datagram. -/
theorem twenty_packetOf {pos : ℕ} {bytes : List UInt8} (hlen : bytes.length = 20)
    (hf : ⟨pos, bytes.take 20⟩ ∈ queryFields host infoHash masterPeerId port query key) :
    field pos 20 (packetOf host infoHash masterPeerId port query key announceReq earlier connectionId
      transactionId) = bytes := by
  have hbytes := bytes_packetOf hhash hpeer hreq earlier connectionId transactionId hf
  unfold Field.window at hbytes
  rw [List.take_of_length_le hlen.le, hlen] at hbytes
  exact hbytes

/-- A number of the query in the datagram. -/
theorem numberBE_packetOf {pos k n : ℕ}
    (hf : ⟨pos, toMemory host k (nativeToBig host k n)⟩ ∈
      queryFields host infoHash masterPeerId port query key) (hn : n < 256 ^ k) :
    numberBE (field pos k (packetOf host infoHash masterPeerId port query key announceReq earlier
      connectionId transactionId)) = n := by
  have hbytes := bytes_packetOf hhash hpeer hreq earlier connectionId transactionId hf
  unfold Field.window at hbytes
  rw [length_toMemory] at hbytes
  unfold field
  rw [hbytes, numberBE_toMemory host hn]

/-- An `int` of the query in the datagram. -/
theorem signedBE_packetOf {pos : ℕ} {z : ℤ}
    (hf : ⟨pos, toMemory host 4 (nativeToBig host 4 (bits z))⟩ ∈
      queryFields host infoHash masterPeerId port query key) (hz : -2 ^ 31 ≤ z ∧ z < 2 ^ 31) :
    signedBE (field pos 4 (packetOf host infoHash masterPeerId port query key announceReq earlier
      connectionId transactionId)) = z := by
  unfold signedBE
  rw [numberBE_packetOf hhash hpeer hreq earlier connectionId transactionId hf (bits_lt z)]
  exact bmod_bits hz

/-- **The ids in the datagram are big-endian.** -/
theorem ids_packetOf {packet : List UInt8} (h : packetOf host infoHash masterPeerId port query key
    announceReq earlier (nativeToBig host 8 connectionId) (nativeToBig host 4 transactionId) = packet) :
    field 0 8 packet = bytesBE 8 connectionId ∧ field 12 4 packet = bytesBE 4 transactionId := by
  obtain ⟨hlen, -⟩ := afterTries_spec host earlier
    (length_made hhash hpeer hreq host port query key)
  have hids := bytes_idFields host (nativeToBig host 8 connectionId)
    (nativeToBig host 4 transactionId) hlen
  have hfirst := hids ⟨0, toMemory host 8 (nativeToBig host 8 connectionId)⟩ List.mem_cons_self
  have hsecond := hids ⟨12, toMemory host 4 (nativeToBig host 4 transactionId)⟩
    (List.mem_cons_of_mem _ List.mem_cons_self)
  unfold packetOf at h
  rw [doTryAnnounce_snd] at h
  unfold Field.window at hfirst hsecond
  rw [length_toMemory] at hfirst hsecond
  rw [← h, field_take 0 8 (by decide), field_take 12 4 (by decide)]
  unfold field
  rw [hfirst, hsecond]
  exact ⟨toMemory_swapIfLittle host 8 connectionId, toMemory_swapIfLittle host 4 transactionId⟩

end Fields

end Packet

theorem query_key (w : Wanted) :
    (w.query.key.map stoi).getD (some 0) = some ((w.key.map DecimalInt.toInt).getD 0) := by
  unfold Wanted.query
  cases w.key with
  | none => rfl
  | some k => exact stoi_text k

theorem query_ip (w : Wanted) :
    ((w.query.ip.map ipToInt).getD 0).toNat = (w.ip.map DottedQuad.toNat).getD 0 := by
  unfold Wanted.query
  cases w.ip with
  | none => rfl
  | some q =>
    have hlen := q.length_eq
    exact toNat_ipToInt (List.ne_nil_of_length_pos (by omega)) (by omega)

theorem query_numwant (w : Wanted) : (w.query.numwant.map fun n => castInt n.toNat).getD (-1) =
    (w.numwant.map Int32.toInt).getD (-1) := by
  have hcast : (fun n : UInt64 => castInt n.toNat) ∘ castSize = Int32.toInt := by
    funext n
    rw [Function.comp_apply, castInt_castSize]
  have hquery : w.query.numwant = w.numwant.map castSize := rfl
  rw [hquery, Option.map_map, hcast]

theorem ip_lt (w : Wanted) : ((w.query.ip.map ipToInt).getD 0).toNat < 256 ^ 4 :=
  ((w.query.ip.map ipToInt).getD 0).isLt

theorem key_bounds (w : Wanted) :
    -2 ^ 31 ≤ (w.key.map DecimalInt.toInt).getD 0 ∧ (w.key.map DecimalInt.toInt).getD 0 < 2 ^ 31 := by
  cases w.key with
  | none => decide
  | some k => exact k.toInt_bounds

theorem numwant_bounds (w : Wanted) :
    -2 ^ 31 ≤ (w.query.numwant.map fun n => castInt n.toNat).getD (-1) ∧
      (w.query.numwant.map fun n => castInt n.toNat).getD (-1) < 2 ^ 31 := by
  rw [query_numwant]
  cases w.numwant with
  | none => decide
  | some n => exact ⟨n.le_toInt, n.toInt_lt⟩

theorem event_bounds (e : Event) : -2 ^ 31 ≤ e.toInt ∧ e.toInt < 2 ^ 31 := by
  cases e with
  | _ => decide

/-- **The datagram, by its fields.** -/
theorem announces_packetOf (host : Host) (w : Wanted) (port : UInt16)
    {infoHash masterPeerId announceReq : List UInt8} (hhash : infoHash.length = 20)
    (hpeer : masterPeerId.length = 20) (hreq : announceReq.length = 99) (earlier : List (ℕ × ℕ))
    (connectionId : ℕ) {transactionId : ℕ} (hid : transactionId < 256 ^ 4) :
    Announces w infoHash masterPeerId port (bytesBE 8 connectionId) transactionId
      (packetOf host infoHash masterPeerId port.toNat w.query ((w.key.map DecimalInt.toInt).getD 0)
        announceReq earlier (nativeToBig host 8 connectionId) (nativeToBig host 4 transactionId)) where
  size := by
    obtain ⟨hlen, -⟩ := afterTries_spec host earlier (length_made hhash hpeer hreq host port.toNat
      w.query ((w.key.map DecimalInt.toInt).getD 0))
    unfold packetOf
    rw [doTryAnnounce_snd, List.length_take, length_idFields host _ _ hlen]
    rfl
  connectionId := (ids_packetOf hhash hpeer hreq earlier connectionId transactionId rfl).1
  action := numberBE_packetOf hhash hpeer hreq earlier _ _ (by simp [queryFields]) (by decide)
  transactionId := by
    rw [(ids_packetOf hhash hpeer hreq earlier connectionId transactionId rfl).2,
      numberBE_bytesBE hid]
  infoHash := twenty_packetOf hhash hpeer hreq earlier _ _ hhash List.mem_cons_self
  peerId := twenty_packetOf hhash hpeer hreq earlier _ _ hpeer
    (List.mem_cons_of_mem _ List.mem_cons_self)
  downloaded := numberBE_packetOf hhash hpeer hreq earlier _ _ (by simp [queryFields, Wanted.query])
    w.downloaded.toNat_lt
  left := numberBE_packetOf hhash hpeer hreq earlier _ _ (by simp [queryFields, Wanted.query])
    w.left.toNat_lt
  uploaded := numberBE_packetOf hhash hpeer hreq earlier _ _ (by simp [queryFields, Wanted.query])
    w.uploaded.toNat_lt
  event := signedBE_packetOf hhash hpeer hreq earlier _ _ (by simp [queryFields, Wanted.query])
    (event_bounds w.event)
  ip := by
    rw [← query_ip]
    exact numberBE_packetOf hhash hpeer hreq earlier _ _ (by simp [queryFields]) (ip_lt w)
  key := signedBE_packetOf hhash hpeer hreq earlier _ _ (by simp [queryFields]) (key_bounds w)
  numWant := by
    rw [← query_numwant]
    exact signedBE_packetOf hhash hpeer hreq earlier _ _ (by simp [queryFields]) (numwant_bounds w)
  port := by
    have hlt : port.toNat < 2 ^ 16 := port.toNat_lt
    refine numberBE_packetOf hhash hpeer hreq earlier _ _ ?_ hlt
    simp [queryFields]

/-- **The datagram has every field at its place, and an echo of its transaction id is accepted**,
whatever the array held before and however often the ids have been written, on machines of both
kinds. -/
theorem announces (host : Host) (w : Wanted) (infoHash masterPeerId : List UInt8) (port : UInt16)
    (announceReq reply : List UInt8) (earlier : List (ℕ × ℕ))
    (transactionId connectionId connectedId : ℕ) (hhash : infoHash.length = 20)
    (hpeer : masterPeerId.length = 20) (hreq : announceReq.length = 99)
    (hreply : onConnectResponse host transactionId reply =
      some (.connected connectionId connectedId)) :
    ∃ made packet,
      makeAnnounceRequest host infoHash masterPeerId port.toNat w.query announceReq = some made ∧
      (doTryAnnounce host connectionId connectedId (afterTries host earlier made)).2 = packet ∧
      Announces w infoHash masterPeerId port (field 8 8 reply) transactionId packet ∧
      ∀ answer : List UInt8, 20 ≤ answer.length → numberBE (field 0 4 answer) = 1 →
        field 4 4 answer = field 12 4 packet →
        onAnnounceResponse host connectedId answer = some (.accepted (answer ++ [0])) := by
  obtain ⟨hlen, hid, rfl, rfl⟩ := onConnectResponse_connected hreply
  have hlt : transactionId < 256 ^ 4 := by
    have hbound := numberBE_lt (field 4 4 reply)
    rwa [hid, length_field (by omega)] at hbound
  have hconnection : bytesBE 8 (numberBE (field 8 8 reply)) = field 8 8 reply := by
    have hbytes := bytesBE_numberBE (field 8 8 reply)
    rwa [length_field (by omega)] at hbytes
  have hannounces := announces_packetOf host w port hhash hpeer hreq earlier
    (numberBE (field 8 8 reply)) hlt
  rw [hconnection] at hannounces
  refine ⟨_, _, makeAnnounceRequest_eq host infoHash masterPeerId port.toNat w.query (query_key w)
    announceReq, rfl, hannounces, fun answer hanswer haction hecho => ?_⟩
  refine onAnnounceResponse_of_echo hanswer haction ?_ hlt
  rw [hecho]
  exact hannounces.transactionId

/-- The address 10.0.0.1. -/
def quadTen : DottedQuad :=
  ⟨[⟨[49, 48], by decide, by decide, by decide⟩, ⟨[48], by decide, by decide, by decide⟩,
    ⟨[48], by decide, by decide, by decide⟩, ⟨[49], by decide, by decide, by decide⟩], rfl⟩

/-- The first announcement of a download, with the key -1. -/
def firstWanted : Wanted :=
  ⟨.started, 0, 0, 5, some quadTen, none, some ⟨[45], [49], by decide, by decide, by decide, by decide⟩⟩

/-- It is announced after a connect reply for the transaction id 7. -/
theorem announces_first : ∃ made packet,
    makeAnnounceRequest .littleEndian (List.replicate 20 1) (List.replicate 20 2) 6881
        firstWanted.query (List.replicate 99 0) = some made ∧
      (doTryAnnounce .littleEndian (nativeToBig .littleEndian 8 9) (nativeToBig .littleEndian 4 7)
        (afterTries .littleEndian [] made)).2 = packet ∧
      Announces firstWanted (List.replicate 20 1) (List.replicate 20 2) 6881 [0, 0, 0, 0, 0, 0, 0, 9] 7
        packet ∧
      ∀ answer : List UInt8, 20 ≤ answer.length → numberBE (field 0 4 answer) = 1 →
        field 4 4 answer = field 12 4 packet →
        onAnnounceResponse .littleEndian (nativeToBig .littleEndian 4 7) answer =
          some (.accepted (answer ++ [0])) :=
  announces .littleEndian firstWanted (List.replicate 20 1) (List.replicate 20 2) 6881
    (List.replicate 99 0) [0, 0, 0, 0, 0, 0, 0, 7, 0, 0, 0, 0, 0, 0, 0, 9] [] 7 _ _ (by decide)
    (by decide) (by decide) rfl

end CppTorrent.Tracker.AnnouncePacket
