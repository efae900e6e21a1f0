import CppTorrent.Wire.Message

/-! # What a client does with a message body

`handle_response` reads the type of a message, tests its size, takes its arguments out of the body and
calls a handler of the strategy. Nothing it reads with is checked at run time: `Type()`, `operator>>`
and `Body()[i]` read wherever they are told to, and `Bitfield::Set` writes wherever it is told to. A
read outside the body and a write outside the peer bitfield have no next state here, so
`handleResponse_inBounds` says that neither happens.

The handlers of the strategy are a parameter (`Surroundings`): they may do anything to the client, but
the peer bitfield is written by `access` and `handle_response` only. The handler that `OnPieceBlock`
posts copies the bytes its pointer stands for; it runs before the next read, so they are taken here. -/

namespace CppTorrent.Wire.HandleResponse

open CppTorrent.Lib.Endian CppTorrent.Wire.Message

/-- A message with its arguments, as the `send_*` functions take them and `handle_response` extracts
them. -/
inductive PeerMessage where
  | choke
  | unchoke
  | interested
  | notInterested
  | have_ (i : UInt32)
  | bitfield (payload : List UInt8)
  | request (index begin_ length : UInt32)
  | pieceBlock (index begin_ : UInt32) (data : List UInt8)
  | cancel (index begin_ length : UInt32)
  | port (port : UInt16)
  deriving DecidableEq

/-- `PeerClient::status_`. -/
structure Status where
  amChoking : Bool
  amInterested : Bool
  peerChoking : Bool
  peerInterested : Bool
  deriving DecidableEq

/-- `network::PeerClient` as `handle_response` sees it; `rest` is what it does not look at. -/
structure Client (σ : Type) where
  status : Status
  isDisconnected : Bool
  /-- the bitfield of the remote peer -/
  pieces : List Bool
  rest : σ

/-- What `handle_response` calls. -/
structure Surroundings (σ : Type) where
  /-- what `Disconnect` does besides setting `is_disconnected` -/
  disconnect : σ → σ
  /-- the handlers of the strategy, with the arguments they are called with -/
  on : PeerMessage → Client σ → Client σ
  pieces_on : ∀ msg c, (on msg c).pieces = c.pieces

/-- How a call of `handle_response` ends. -/
inductive Outcome where
  /-- the length test of the type fails: `Disconnect` -/
  | badSize
  /-- a request without interest or while the client is choking: `Disconnect` -/
  | refused
  /-- the arguments have been extracted -/
  | taken (msg : PeerMessage)
  /-- an unknown type -/
  | ignored
  deriving DecidableEq

variable {σ : Type} (host : Host) (total : ℕ) (env : Surroundings σ)

/-- `PeerClient::Disconnect`. -/
def disconnect (c : Client σ) : Client σ :=
  if c.isDisconnected then c
  else { c with isDisconnected := true, rest := env.disconnect c.rest }

/-- What `access` does to the peer bitfield: it gets as many bits as the master peer has, all zero. -/
def access (masterSize : ℕ) (c : Client σ) : Client σ :=
  { c with pieces := List.replicate masterSize false }

/-- Handlers that do nothing. -/
def quiet : Surroundings Unit := ⟨id, fun _ c => c, fun _ _ => rfl⟩

/-- A client that has just passed `access`, both sides choking and not interested. -/
def fresh (masterSize : ℕ) : Client Unit :=
  access masterSize ⟨⟨true, false, true, false⟩, false, [], ()⟩

/-- `Bitfield::Set`. -/
def set (i : ℕ) (bits : List Bool) : Option (List Bool) :=
  if i < bits.length then some (bits.set i true) else none

/-- A 32-bit argument of a message. -/
def get32 (msg : ReceivingPeerMessage) : Option (UInt32 × ReceivingPeerMessage) :=
  (msg.get host 4).map fun (value, msg) => (UInt32.ofNat value, msg)

/-- The inner loop over the bits of byte `i`. -/
def setByte (i : ℕ) (byte : UInt8) (bits : List Bool) : Option (List Bool) :=
  (List.range 8).foldlM (fun bits x =>
    let idx := (i - 1) * 8 + x
    if byte.toNat.testBit (7 - x) ∧ idx < total then set idx bits else some bits) bits

/-- The loop over the bytes of a `bitfield` message, with the bytes it has read. -/
def setBytes (msg : ReceivingPeerMessage) (bits : List Bool) : Option (List Bool × List UInt8) :=
  (List.range' 1 (msg.bodySize - 1)).foldlM (fun (bits, read) i => do
    let byte ← msg.at_ i
    let bits ← setByte total i byte bits
    return (bits, read ++ [byte])) (bits, [])

/-- `PeerClient::handle_response`. -/
def handleResponse (msg : ReceivingPeerMessage) (c : Client σ) : Option (Outcome × Client σ) := do
  let messageType ← msg.at_ 0
  let payloadSize := msg.bodySize
  let badSize := some (.badSize, disconnect env c)
  let taken (msg : PeerMessage) (c : Client σ) := some (.taken msg, env.on msg c)
  match PeerMessageType.ofCode messageType with
  | some .choke =>
    if payloadSize ≠ 1 then badSize
    else taken .choke { c with status := { c.status with peerChoking := true } }
  | some .unchoke =>
    if payloadSize ≠ 1 then badSize
    else taken .unchoke { c with status := { c.status with peerChoking := false } }
  | some .interested =>
    if payloadSize ≠ 1 then badSize
    else taken .interested { c with status := { c.status with peerInterested := true } }
  | some .notInterested =>
    if payloadSize ≠ 1 then badSize
    else taken .notInterested { c with status := { c.status with peerInterested := false } }
  | some .have_ =>
    if payloadSize ≠ 5 then badSize
    else do
      let (i, _) ← get32 host msg
      if total ≤ i.toNat then some (.taken (.have_ i), c)
      else do
        let pieces ← set i.toNat c.pieces
        taken (.have_ i) { c with pieces := pieces }
  | some .bitfield =>
    if payloadSize < 1 then some (.ignored, c)
    else if (total + 7) / 8 < payloadSize - 1 then badSize
    else do
      let (pieces, payload) ← setBytes total msg c.pieces
      taken (.bitfield payload) { c with pieces := pieces }
  | some .request =>
    if payloadSize ≠ 13 then badSize
    else if ¬c.status.peerInterested then some (.refused, disconnect env c)
    else if c.status.amChoking then some (.refused, disconnect env c)
    else do
      let (index, msg) ← get32 host msg
      let (begin_, msg) ← get32 host msg
      let (length, _) ← get32 host msg
      taken (.request index begin_ length) c
  | some .pieceBlock =>
    if payloadSize < 9 then badSize
    else do
      let (index, msg) ← get32 host msg
      let (begin_, msg) ← get32 host msg
      let data ← msg.bytesAt 9 ((payloadSize - 9) % 2 ^ 32)
      taken (.pieceBlock index begin_ data) c
  | some .cancel =>
    if payloadSize ≠ 13 then badSize
    else do
      let (index, msg) ← get32 host msg
      let (begin_, msg) ← get32 host msg
      let (length, _) ← get32 host msg
      taken (.cancel index begin_ length) c
  | some .port =>
    if payloadSize ≠ 3 then badSize
    else do
      let (port, _) ← msg.get host 2
      taken (.port (UInt16.ofNat port)) c
  | none => some (.ignored, c)

/-! ### The bits of a `bitfield` message -/

theorem getD_set {bits : List Bool} {i : ℕ} (hi : i < bits.length) (k : ℕ) :
    (bits.set i true).getD k false = (bits.getD k false || decide (k = i)) := by
  rw [List.getD_eq_getElem?_getD, List.getElem?_set, List.getD_eq_getElem?_getD]
  by_cases hk : i = k
  · rw [if_pos hk, if_pos hi]
    simp [hk]
  · have hk' : k ≠ i := fun h => hk h.symm
    rw [if_neg hk]
    simp [hk']

/-- The bits of a byte are added to the positions of that byte; the induction is on the number of bits
handled. -/
theorem setByte_loop (i : ℕ) (byte : UInt8) {bits : List Bool} (hbits : bits.length = total) :
    ∀ m : ℕ, ∃ bits', (List.range m).foldlM (fun bits x =>
        let idx := (i - 1) * 8 + x
        if byte.toNat.testBit (7 - x) ∧ idx < total then set idx bits else some bits) bits = some bits' ∧
      bits'.length = total ∧ ∀ k < total, bits'.getD k false = (bits.getD k false ||
        decide ((i - 1) * 8 ≤ k ∧ k < (i - 1) * 8 + m) && byte.toNat.testBit (7 - (k - (i - 1) * 8)))
  | 0 => by
    refine ⟨bits, rfl, hbits, fun k _ => ?_⟩
    simp
  | m + 1 => by
    obtain ⟨bits', hfold, hlen, hget⟩ := setByte_loop i byte hbits m
    have hstep : ∀ k < total, k ≠ (i - 1) * 8 + m → (bits'.getD k false = (bits.getD k false ||
        decide ((i - 1) * 8 ≤ k ∧ k < (i - 1) * 8 + (m + 1)) &&
          byte.toNat.testBit (7 - (k - (i - 1) * 8)))) := by
      intro k hk hne
      have hiff : ((i - 1) * 8 ≤ k ∧ k < (i - 1) * 8 + (m + 1)) ↔
          ((i - 1) * 8 ≤ k ∧ k < (i - 1) * 8 + m) := by omega
      rw [hget k hk, decide_eq_decide.mpr hiff]
    rw [List.range_succ, List.foldlM_append, hfold]
    show ∃ bits'', (if byte.toNat.testBit (7 - m) ∧ (i - 1) * 8 + m < total then
      set ((i - 1) * 8 + m) bits' else some bits').bind some = some bits'' ∧ _
    by_cases hset : byte.toNat.testBit (7 - m) ∧ (i - 1) * 8 + m < total
    · have hlt : (i - 1) * 8 + m < bits'.length := by omega
      rw [if_pos hset, set, if_pos hlt]
      refine ⟨_, rfl, by rw [List.length_set, hlen], fun k hk => ?_⟩
      rw [getD_set hlt]
      by_cases hk' : k = (i - 1) * 8 + m
      · have hdiff : k - (i - 1) * 8 = m := by omega
        have hin : (i - 1) * 8 ≤ k ∧ k < (i - 1) * 8 + (m + 1) := by omega
        rw [hdiff, hset.1, decide_eq_true hk', decide_eq_true hin]
        simp
      · rw [hstep k hk hk', decide_eq_false hk', Bool.or_false]
    · rw [if_neg hset]
      refine ⟨bits', rfl, hlen, fun k hk => ?_⟩
      by_cases hk' : k = (i - 1) * 8 + m
      · have hdiff : k - (i - 1) * 8 = m := by omega
        have hbit : byte.toNat.testBit (7 - m) = false := by
          by_contra hbit
          exact hset ⟨by simpa using hbit, by omega⟩
        rw [hget k hk, hdiff, hbit, Bool.and_false, Bool.and_false]
      · exact hstep k hk hk'

/-- Bit `7 - k % 8` of byte `k / 8` of a payload. -/
def bitOf (payload : List UInt8) (k : ℕ) : Bool := (payload.getD (k / 8) 0).toNat.testBit (7 - k % 8)

/-- **The loop of a `bitfield` message adds the bits of the payload** and reads no other byte of the
body. -/
theorem setBytes_spec (type : UInt8) (payload : List UInt8) {bits : List Bool}
    (hbits : bits.length = total) :
    ∃ bits', setBytes total (received (type :: payload)) bits = some (bits', payload) ∧
      bits'.length = total ∧
      ∀ k < total, bits'.getD k false = (bits.getD k false || bitOf payload k) := by
  -- the induction is on the number of bytes handled
  have hloop : ∀ m ≤ payload.length, ∃ bits', (List.range' 1 m).foldlM (fun (bits, read) i => do
        let byte ← (received (type :: payload)).at_ i
        let bits ← setByte total i byte bits
        return (bits, read ++ [byte])) (bits, []) = some (bits', payload.take m) ∧
      bits'.length = total ∧ ∀ k < total, bits'.getD k false =
        (bits.getD k false || decide (k < 8 * m) && bitOf payload k) := by
    intro m
    induction m with
    | zero =>
      intro _
      exact ⟨bits, rfl, hbits, fun k _ => by simp⟩
    | succ m ih =>
      intro hm
      obtain ⟨bits', hfold, hlen, hget⟩ := ih (by omega)
      have hbyte : (received (type :: payload)).at_ (1 + m) = some payload[m] := by
        show (type :: payload)[1 + m]? = some payload[m]
        rw [Nat.add_comm, List.getElem?_cons_succ, List.getElem?_eq_getElem hm]
      obtain ⟨bits'', hset, hlen', hget'⟩ := setByte_loop total (1 + m) payload[m] hlen 8
      have hset' : setByte total (1 + m) payload[m] bits' = some bits'' := hset
      refine ⟨bits'', ?_, hlen', fun k hk => ?_⟩
      · rw [List.range'_1_concat, List.foldlM_append, hfold]
        show (do
          let byte ← (received (type :: payload)).at_ (1 + m)
          let bits ← setByte total (1 + m) byte bits'
          return (bits, payload.take m ++ [byte])).bind some = _
        rw [hbyte]
        show ((setByte total (1 + m) payload[m] bits').bind _).bind some = _
        rw [hset', List.take_add_one, List.getElem?_eq_getElem hm]
        rfl
      · have hstart : (1 + m - 1) * 8 = 8 * m := by omega
        rw [hget' k hk, hget k hk, hstart]
        by_cases hin : 8 * m ≤ k ∧ k < 8 * m + 8
        · have hdiv : k / 8 = m := by omega
          have hmod : k - 8 * m = k % 8 := by omega
          have hnot : ¬ k < 8 * m := by omega
          have hlt : k < 8 * (m + 1) := by omega
          have hbit : bitOf payload k = payload[m].toNat.testBit (7 - k % 8) := by
            unfold bitOf
            rw [hdiv, List.getD_eq_getElem?_getD, List.getElem?_eq_getElem hm, Option.getD_some]
          rw [hmod, hbit, decide_eq_true hin, decide_eq_false hnot, decide_eq_true hlt]
          simp
        · have hiff : k < 8 * (m + 1) ↔ k < 8 * m := by omega
          rw [decide_eq_false hin, decide_eq_decide.mpr hiff, Bool.false_and, Bool.or_false]
  obtain ⟨bits', hfold, hlen, hget⟩ := hloop payload.length le_rfl
  rw [List.take_length] at hfold
  refine ⟨bits', hfold, hlen, fun k hk => ?_⟩
  rw [hget k hk]
  by_cases hlt : k < 8 * payload.length
  · rw [decide_eq_true hlt, Bool.true_and]
  · have hge : payload.length ≤ k / 8 := by omega
    have hbit : bitOf payload k = false := by
      unfold bitOf
      rw [List.getD_eq_getElem?_getD, List.getElem?_eq_none hge, Option.getD_none]
      simp
    rw [hbit, Bool.and_false]

/-! ### Every read lies inside the body -/

/-- A connection past `access`: messages have been handled, and what else has happened has not
touched the peer bitfield. -/
inductive PastAccess : Client σ → Prop
  | access (c : Client σ) : PastAccess (access total c)
  | message {c c' : Client σ} {body : List UInt8} {o : Outcome} (hc : PastAccess c)
      (h : handleResponse host total env (received body) c = some (o, c')) : PastAccess c'
  | other {c c' : Client σ} (hc : PastAccess c) (h : c'.pieces = c.pieces) : PastAccess c'

@[simp] theorem disconnect_pieces (c : Client σ) : (disconnect env c).pieces = c.pieces := by
  unfold disconnect
  split <;> rfl

@[simp] theorem disconnect_status (c : Client σ) : (disconnect env c).status = c.status := by
  unfold disconnect
  split <;> rfl

theorem get32_isSome (msg : ReceivingPeerMessage) (h : msg.inpPos + 4 ≤ msg.arr.length) :
    ∃ value, get32 host msg = some (value, { msg with inpPos := msg.inpPos + 4 }) := by
  obtain ⟨value, hget⟩ := get_isSome host 4 msg h
  refine ⟨UInt32.ofNat value, ?_⟩
  unfold get32
  rw [hget]
  rfl

/-- What a call that has a next state leaves: a bitfield of the same size, and after a failed length
test the flags and the bitfield as they were. -/
def Kept (c : Client σ) (r : Option (Outcome × Client σ)) : Prop :=
  ∃ o c', r = some (o, c') ∧ c'.pieces.length = total ∧
    (o = .badSize → c'.status = c.status ∧ c'.pieces = c.pieces)

variable {total env} {c : Client σ}

theorem kept_badSize (hc : c.pieces.length = total) :
    Kept total c (some (.badSize, disconnect env c)) :=
  ⟨_, _, rfl, by simpa using hc, fun _ => ⟨by simp, by simp⟩⟩

theorem kept_refused (hc : c.pieces.length = total) :
    Kept total c (some (.refused, disconnect env c)) :=
  ⟨_, _, rfl, by simpa using hc, fun h => by cases h⟩

theorem kept_taken {msg : PeerMessage} {c₁ : Client σ} (h : c₁.pieces.length = total) :
    Kept total c (some (.taken msg, env.on msg c₁)) :=
  ⟨_, _, rfl, by rw [env.pieces_on]; exact h, fun h => by cases h⟩

/-- Three arguments behind the type of a message of 13 bytes. -/
theorem kept_three (hc : c.pieces.length = total) {body : List UInt8} (hlen : body.length = 13)
    (message : UInt32 → UInt32 → UInt32 → PeerMessage) :
    Kept total c (do
      let (index, msg) ← get32 host (received body)
      let (begin_, msg) ← get32 host msg
      let (length, _) ← get32 host msg
      some (.taken (message index begin_ length), env.on (message index begin_ length) c)) := by
  have h1 : (received body).inpPos + 4 ≤ (received body).arr.length := by
    show 1 + 4 ≤ body.length
    omega
  obtain ⟨index, hindex⟩ := get32_isSome host (received body) h1
  obtain ⟨begin_, hbegin⟩ := get32_isSome host
    { received body with inpPos := (received body).inpPos + 4 }
    (by show 1 + 4 + 4 ≤ body.length; omega)
  obtain ⟨length, hlength⟩ := get32_isSome host
    { received body with inpPos := (received body).inpPos + 4 + 4 }
    (by show 1 + 4 + 4 + 4 ≤ body.length; omega)
  simp only [hindex, hbegin, hlength, Option.bind_eq_bind, Option.bind_some]
  exact kept_taken hc

variable (env) in
/-- One call: the cases are the branches of the `switch`. -/
theorem handleResponse_kept (hc : c.pieces.length = total) {body : List UInt8} (hbody : body ≠ []) :
    Kept total c (handleResponse host total env (received body) c) := by
  obtain ⟨type, payload, rfl⟩ := List.exists_cons_of_ne_nil hbody
  have htype : (received (type :: payload)).at_ 0 = some type := rfl
  have hsize : (received (type :: payload)).bodySize = payload.length + 1 := rfl
  unfold handleResponse
  simp only [htype, hsize, Option.bind_eq_bind, Option.bind_some]
  rcases PeerMessageType.ofCode type with _ | message
  · exact ⟨_, _, rfl, hc, fun h => by cases h⟩
  rcases message with _ | _ | _ | _ | _ | _ | _ | _ | _ | _ <;> dsimp only
  case choke | unchoke | interested | notInterested =>
    split
    · exact kept_badSize hc
    · exact kept_taken hc
  case have_ =>
    split
    · exact kept_badSize hc
    · obtain ⟨i, hi⟩ := get32_isSome host (received (type :: payload))
        (by show 1 + 4 ≤ payload.length + 1; omega)
      rw [hi, Option.bind_some]
      dsimp only
      split
      · exact ⟨_, _, rfl, hc, fun h => by cases h⟩
      · have hlt : i.toNat < c.pieces.length := by omega
        rw [set, if_pos hlt]
        exact kept_taken (by simpa using hc)
  case bitfield =>
    split
    · exact ⟨_, _, rfl, hc, fun h => by cases h⟩
    · split
      · exact kept_badSize hc
      · obtain ⟨bits', hset, hlen, _⟩ := setBytes_spec total type payload hc
        rw [hset, Option.bind_some]
        exact kept_taken hlen
  case request =>
    split
    · exact kept_badSize hc
    · split
      · exact kept_refused hc
      · split
        · exact kept_refused hc
        · exact kept_three host hc (by rw [List.length_cons]; omega) .request
  case pieceBlock =>
    split
    · exact kept_badSize hc
    · obtain ⟨index, hindex⟩ := get32_isSome host (received (type :: payload))
        (by show 1 + 4 ≤ payload.length + 1; omega)
      obtain ⟨begin_, hbegin⟩ := get32_isSome host
        { received (type :: payload) with inpPos := (received (type :: payload)).inpPos + 4 }
        (by show 1 + 4 + 4 ≤ payload.length + 1; omega)
      have hsize : 9 + (payload.length + 1 - 9) % 2 ^ 32 ≤ payload.length + 1 := by
        have hmod := Nat.mod_le (payload.length + 1 - 9) (2 ^ 32)
        omega
      obtain ⟨data, hdata⟩ := bytesAt_isSome { received (type :: payload) with
        inpPos := (received (type :: payload)).inpPos + 4 + 4 } hsize
      simp only [hindex, hbegin, hdata, Option.bind_some]
      exact kept_taken hc
  case cancel =>
    split
    · exact kept_badSize hc
    · exact kept_three host hc (by rw [List.length_cons]; omega) .cancel
  case port =>
    split
    · exact kept_badSize hc
    · obtain ⟨port, hport⟩ := get_isSome host 2 (received (type :: payload))
        (by show 1 + 2 ≤ payload.length + 1; omega)
      rw [hport]
      exact kept_taken hc

/-- The peer bitfield keeps the size that `access` gives it. -/
theorem length_pieces (hc : PastAccess host total env c) : c.pieces.length = total := by
  induction hc with
  | access c => exact List.length_replicate
  | message hc h ih =>
    rename_i c c' body o
    rcases eq_or_ne body [] with rfl | hbody
    · cases h
    · obtain ⟨o', c'', heq, hlen, -⟩ := handleResponse_kept host env ih hbody
      rw [h] at heq
      cases heq
      exact hlen
  | other hc h ih => rw [h, ih]

/-- **`handle_response` reads inside the body and sets bits inside the bitfield only**, and a message
that fails its length test changes neither the flags nor the bitfield. -/
theorem handleResponse_inBounds (hc : PastAccess host total env c) {body : List UInt8}
    (hbody : body ≠ []) :
    ∃ o c', handleResponse host total env (received body) c = some (o, c') ∧
      c'.pieces.length = total ∧ (o = .badSize → c'.status = c.status ∧ c'.pieces = c.pieces) :=
  handleResponse_kept host env (length_pieces host hc) hbody

/-- A `have` message that is one byte short, on a connection with two pieces. -/
theorem handleResponse_shortHave :
    ∃ o c', handleResponse .littleEndian 2 quiet (received [4, 0, 0, 1]) (fresh 2) = some (o, c') ∧
      c'.pieces.length = 2 ∧
      (o = .badSize → c'.status = (fresh 2).status ∧ c'.pieces = (fresh 2).pieces) :=
  handleResponse_inBounds .littleEndian (.access _) (by decide)

end CppTorrent.Wire.HandleResponse
