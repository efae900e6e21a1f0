import CppTorrent.Lib.Pipes
import CppTorrent.Swarm.TimedClient
import CppTorrent.Wire.ReadLoop

/-! # A connection between two programs

One program has dialed and sends its handshake. The listener of the other one reads 68 bytes, finds the
torrent by the info hash among them and, if the torrent takes the client, sends the same bytes back.
The first program reads 68 bytes, and then both have called `access`: each sends frames, and its read
loop takes apart what the other one sends. The bytes go through two pipes, one each way, in portions of
any size; a client that gives up stops at whatever point it has come to.

A write is done in two steps: the socket takes the last bytes, and later the callback runs. In between
the other end may have got further.

`Dialing` and `Listening` say, for each stage of the two ends, what has been sent and received by then.
Together they make a connection `Sound`, and every operation keeps that: so the client that is accepted
is one of the same torrent, and the dialing one has called `access` only if the other one has sent the
whole handshake back. If the sends of an end do not tear its frames (`whole`, see `Wire.SendQueue`), what
the read loop of the other end hands to `handle_response` is a prefix of what has been sent since `access`
(`Sound.handled_initial`).

A client can be told to look for a piece before its `access`, and sends `not_interested` then if all
pieces are done; `sentEarly` is such a frame. It stands before the handshake or inside it, and `Sound` is
about connections without one. -/

namespace CppTorrent.Swarm.Handshake

open CppTorrent.Lib.Pipes
open CppTorrent.Swarm.TimedClient (accepted checkHandshake handshakeLength)
open CppTorrent.Wire
open CppTorrent.Wire.ReadLoop (Body encode)

/-! ### The handshake -/

/-- An info hash or a peer id. -/
abbrev Digest : Type := { bytes : List UInt8 // bytes.length = 20 }

/-- The name of the protocol. -/
def protocol : List UInt8 := "BitTorrent protocol".toList.map fun c => c.toNat.toUInt8

/-- `MasterPeer::MakeHandshake`. -/
def makeHandshake (infoHash id : Digest) : List UInt8 :=
  0x13 :: (protocol ++ (List.replicate 8 0 ++ (infoHash.val ++ id.val)))

/-- The info hash in a handshake. -/
def hashOf (data : List UInt8) : List UInt8 := (data.drop 28).take 20

theorem length_protocol : protocol.length = 19 := rfl

@[simp] theorem length_makeHandshake (h id : Digest) : (makeHandshake h id).length = handshakeLength := by
  simp [makeHandshake, length_protocol, h.property, id.property, handshakeLength]

@[simp] theorem hashOf_makeHandshake (h id : Digest) : hashOf (makeHandshake h id) = h.val := by
  have hfront : makeHandshake h id = (0x13 :: (protocol ++ List.replicate 8 0)) ++ (h.val ++ id.val) := by
    simp [makeHandshake]
  unfold hashOf
  rw [hfront, List.drop_left' (by simp [length_protocol]), List.take_left' h.property]

/-- `check_handshake` compares the name of the protocol and the info hash. -/
theorem checkHandshake_makeHandshake (h id id' : Digest) :
    checkHandshake (makeHandshake h id) (makeHandshake h id') = true := by
  have hname : ((makeHandshake h id').drop 1).take 19 = protocol :=
    List.take_left' length_protocol
  have hhash : hashOf (makeHandshake h id') = hashOf (makeHandshake h id) := by simp
  unfold checkHandshake
  rw [decide_eq_true_iff]
  exact ⟨rfl, hname, hhash⟩

theorem accepted_makeHandshake (h id : Digest) :
    accepted (makeHandshake h id) (makeHandshake h id) = true := by
  unfold accepted
  rw [decide_eq_true_iff]
  exact ⟨(length_makeHandshake h id).ge, checkHandshake_makeHandshake h id id, rfl⟩

/-! ### The read loop -/

/-- The read loop of a client; what `handle_response` does to the client is left open. -/
abbrev Loop : Type := ReadLoop.Client Unit

/-- The loop after `access`. -/
def Loop.start : Loop := ReadLoop.access (fun _ => false) ()

/-- Bytes arrive. -/
def Loop.receive (loop : Loop) (bytes : List UInt8) : Loop :=
  ReadLoop.receive (fun _ _ => ()) (fun _ => false) loop bytes

theorem Loop.receive_append (loop : Loop) (xs ys : List UInt8) :
    loop.receive (xs ++ ys) = (loop.receive xs).receive ys :=
  ReadLoop.receive_append _ _ loop xs ys

/-- What has been handled stays handled. -/
theorem Loop.handled_receive : ∀ (bytes : List UInt8) (loop : Loop),
    loop.handled <+: (loop.receive bytes).handled
  | [], loop => List.prefix_rfl
  | b :: bytes, loop => by
    have hbyte : loop.handled <+:
        (ReadLoop.receiveByte (fun _ _ => ()) (fun _ => false) loop b).handled := by
      unfold ReadLoop.receiveByte
      dsimp only
      split_ifs
      · exact List.prefix_rfl
      · unfold ReadLoop.complete ReadLoop.onHeader ReadLoop.onBody ReadLoop.doReadBody
          ReadLoop.doReadHeader ReadLoop.read
        cases loop.pending with
        | nothing => exact List.prefix_rfl
        | header =>
          dsimp only
          split_ifs <;> exact List.prefix_rfl
        | body size => exact List.prefix_append _ _
      · exact List.prefix_rfl
    exact hbyte.trans (Loop.handled_receive bytes _)

theorem dispatched_initial : ∀ frames : List Body,
    ReadLoop.dispatched (fun (_ : Unit) _ => ()) (fun _ => false) () frames <+: frames.map Body.bytes
  | [] => List.prefix_rfl
  | body :: frames => by
    rw [ReadLoop.dispatched, List.map_cons]
    by_cases hnil : body.bytes = []
    · rw [if_pos (Or.inr hnil)]
      exact List.nil_prefix
    · rw [if_neg (by simp [hnil])]
      exact List.cons_prefix_cons.mpr ⟨rfl, dispatched_initial frames⟩

/-- From a part of the frames, a part of the bodies is handled. -/
theorem Loop.handled_initial {frames : List Body} {bytes : List UInt8}
    (h : bytes <+: frames.flatMap encode) :
    (Loop.start.receive bytes).handled <+: frames.map Body.bytes := by
  obtain ⟨rest, hrest⟩ := h
  have hall : (Loop.start.receive (bytes ++ rest)).handled =
      ReadLoop.dispatched (fun (_ : Unit) _ => ()) (fun _ => false) () frames := by
    rw [hrest]
    exact ReadLoop.run_eq_dispatched _ _ () frames
  rw [Loop.receive_append] at hall
  exact ((Loop.handled_receive rest _).trans (hall ▸ List.prefix_rfl)).trans (dispatched_initial frames)

/-! ### The ends of a connection -/

/-- What has become of an end of a connection. -/
inductive Stage where
  /-- there, but not accepted by the listener yet -/
  | backlog
  /-- the `async_read` of `participant::Verify`, with the bytes read so far -/
  | participant (buff : List UInt8)
  /-- the `verify_handshake` that `Process` has posted -/
  | verifying (torrent : Digest) (v : List UInt8)
  /-- the `Send` of `verify_handshake`, with the bytes that are left; its callback runs after the last -/
  | answering (torrent : Digest) (left : List UInt8)
  /-- the `Send` of `send_handshake`, with the bytes that are left; its callback runs after the last -/
  | sendingHandshake (left : List UInt8)
  /-- the `Read` of `send_handshake`, with the bytes read so far -/
  | readingHandshake (data : List UInt8)
  /-- `access` has been called: the frames sent since then, and the read loop -/
  | accessed (torrent : Digest) (frames : List Body) (loop : Loop)
  /-- the answer has not been accepted: the client waits for nothing any more -/
  | rejected
  /-- given up before `access`; a callback that still comes sends nothing -/
  | closed

/-- A write takes some of the bytes that are left. -/
def written (size : ℕ) : Stage → Option (List UInt8 × Stage)
  | .sendingHandshake left =>
    if 0 < size ∧ size ≤ left.length then some (left.take size, .sendingHandshake (left.drop size))
    else none
  | .answering torrent left =>
    if 0 < size ∧ size ≤ left.length then some (left.take size, .answering torrent (left.drop size))
    else none
  | _ => none

/-- The callback of the `Send` of a handshake, after the last bytes have been taken. -/
def handshakeSent : Stage → Option Stage
  | .sendingHandshake left => if left = [] then some (.readingHandshake []) else none
  | .answering torrent left => if left = [] then some (.accessed torrent [] Loop.start) else none
  | _ => none

/-- Bytes arrive for the read in progress; that of a handshake takes 68 of them. -/
def arrived (bytes : List UInt8) : Stage → Option Stage
  | .participant buff =>
    if (buff ++ bytes).length ≤ handshakeLength then some (.participant (buff ++ bytes)) else none
  | .readingHandshake data =>
    if (data ++ bytes).length ≤ handshakeLength then some (.readingHandshake (data ++ bytes)) else none
  | .accessed torrent frames loop => some (.accessed torrent frames (loop.receive bytes))
  | _ => none

/-- `send_msg`, after `access`, where the socket takes some bytes: those of the frame, unless it is torn. -/
def sent (body : Body) (bytes : List UInt8) : Stage → Option (List UInt8 × Stage)
  | .accessed torrent frames loop => some (bytes, .accessed torrent (frames ++ [body]) loop)
  | _ => none

/-- `send_msg`, before `access`. -/
def sentEarly (body : Body) : Stage → Option (List UInt8 × Stage)
  | .backlog | .participant _ | .accessed _ _ _ | .closed => none
  | st => some (encode body, st)

/-- The callback of the read in `send_handshake`, with the handshake of the master peer. -/
def checkAnswer (torrent : Digest) (own : List UInt8) : Stage → Option Stage
  | .readingHandshake data =>
    if data.length = handshakeLength then
      some (if accepted own data then .accessed torrent [] Loop.start else .rejected)
    else none
  | _ => none

/-- The frames that a client has sent. -/
def Stage.frames : Stage → List Body
  | .accessed _ frames _ => frames
  | _ => []

/-- The bodies that a client has handed to `handle_response`. -/
def Stage.handled : Stage → List (List UInt8)
  | .accessed _ _ loop => loop.handled
  | _ => []

/-- `access` has been called, by a client of the torrent. -/
def Stage.Accessed (torrent : Digest) (st : Stage) : Prop :=
  ∃ frames loop, st = .accessed torrent frames loop

instance (torrent : Digest) (st : Stage) : Decidable (st.Accessed torrent) :=
  match st with
  | .accessed h frames loop => decidable_of_iff (h = torrent)
    ⟨fun hh => ⟨frames, loop, hh ▸ rfl⟩, fun ⟨_, _, hst⟩ => (Stage.accessed.inj hst).1⟩
  | .backlog | .participant _ | .verifying _ _ | .answering _ _ | .sendingHandshake _
  | .readingHandshake _ | .rejected | .closed => isFalse fun ⟨_, _, hst⟩ => by cases hst

/-- A connection; the two programs are `true` and `false`. -/
structure Conn where
  /-- the program that has dialed -/
  dialer : Bool
  /-- the torrent it has dialed for -/
  torrent : Digest
  ends : Bool → Stage
  /-- what each program writes -/
  pipes : Bool → Pipe UInt8

/-- A connection that has just come about, for a client with its handshake. -/
def dial (p : Bool) (torrent : Digest) (handshake : List UInt8) : Conn where
  dialer := p
  torrent := torrent
  ends := fun q => if q = p then .sendingHandshake handshake else .backlog
  pipes := fun _ => Pipe.empty

/-- An end comes to another stage. -/
def Conn.setEnd (p : Bool) (st : Stage) (c : Conn) : Conn :=
  { c with ends := Function.update c.ends p st }

/-- A program writes bytes. -/
def Conn.push (p : Bool) (out : Option (List UInt8 × Stage)) (c : Conn) : Option Conn :=
  out.map fun (bytes, st) =>
    { c.setEnd p st with pipes := Function.update c.pipes p ((c.pipes p).write bytes) }

/-- A program reads the next bytes of the other one. -/
def Conn.pull (p : Bool) (size : ℕ) (c : Conn) : Option Conn :=
  (arrived ((c.pipes !p).portion size) (c.ends p)).map fun st =>
    { c.setEnd p st with pipes := Function.update c.pipes (!p) ((c.pipes !p).read size) }

/-! ### What has been sent and received -/

section Sound

variable (whole : Prop) (handshake : List UInt8) (torrent : Digest)

/-- The end that has dialed, with what it has sent and received. -/
inductive Dialing (wrote got : List UInt8) : Stage → Prop
  | sendingHandshake {left : List UInt8} (hsent : wrote ++ left = handshake)
      (hreceived : got = []) : Dialing wrote got (.sendingHandshake left)
  | readingHandshake {data : List UInt8} (hsent : wrote = handshake) (hdata : data = got) :
      Dialing wrote got (.readingHandshake data)
  | accessed {frames : List Body} {loop : Loop} {tail : List UInt8} (hsent : wrote = handshake ++ tail)
      (htail : whole → tail = frames.flatMap encode) (hlength : handshakeLength ≤ got.length)
      (hloop : loop = Loop.start.receive (got.drop handshakeLength)) :
      Dialing wrote got (.accessed torrent frames loop)
  | closed (hsent : wrote <+: handshake) : Dialing wrote got .closed

/-- The end of the listener, of a program with some torrents. -/
inductive Listening (torrents : List Digest) (wrote got : List UInt8) : Stage → Prop
  | backlog (hsent : wrote = []) (hreceived : got = []) : Listening torrents wrote got .backlog
  | participant {buff : List UInt8} (hsent : wrote = []) (hbuff : buff = got) :
      Listening torrents wrote got (.participant buff)
  | verifying {v : List UInt8} (hmem : torrent ∈ torrents) (hsent : wrote = []) (hv : v = handshake)
      (hreceived : got = handshake) : Listening torrents wrote got (.verifying torrent v)
  | answering {left : List UInt8} (hmem : torrent ∈ torrents) (hsent : wrote ++ left = handshake)
      (hreceived : got = handshake) : Listening torrents wrote got (.answering torrent left)
  | accessed {frames : List Body} {loop : Loop} {tail : List UInt8} (hmem : torrent ∈ torrents)
      (hsent : wrote = handshake ++ tail) (htail : whole → tail = frames.flatMap encode)
      (hlength : handshakeLength ≤ got.length)
      (hloop : loop = Loop.start.receive (got.drop handshakeLength)) :
      Listening torrents wrote got (.accessed torrent frames loop)
  | closed (hmem : wrote ≠ [] → torrent ∈ torrents) (hsent : wrote <+: handshake) :
      Listening torrents wrote got .closed

variable {whole handshake torrent} {torrents torrents' : List Digest} {wrote got bytes : List UInt8}
  {st st' : Stage}

theorem Dialing.written {size : ℕ} (hd : Dialing whole handshake torrent wrote got st)
    (h : written size st = some (bytes, st')) :
    Dialing whole handshake torrent (wrote ++ bytes) got st' := by
  cases hd with
  | sendingHandshake hsent hreceived =>
    unfold Handshake.written at h
    dsimp only at h
    split_ifs at h
    cases h
    refine .sendingHandshake ?_ hreceived
    rw [List.append_assoc, List.take_append_drop, hsent]
  | readingHandshake | accessed | closed => cases h

theorem Dialing.handshakeSent (hd : Dialing whole handshake torrent wrote got st)
    (h : handshakeSent st = some st') : Dialing whole handshake torrent wrote got st' := by
  cases hd with
  | sendingHandshake hsent hreceived =>
    unfold Handshake.handshakeSent at h
    dsimp only at h
    split_ifs at h with hleft
    cases h
    refine .readingHandshake ?_ hreceived.symm
    rw [← hsent, hleft, List.append_nil]
  | readingHandshake | accessed | closed => cases h

theorem Dialing.arrived (hd : Dialing whole handshake torrent wrote got st)
    (h : arrived bytes st = some st') : Dialing whole handshake torrent wrote (got ++ bytes) st' := by
  cases hd with
  | readingHandshake hsent hdata =>
    unfold Handshake.arrived at h
    dsimp only at h
    split_ifs at h
    cases h
    exact .readingHandshake hsent (congrArg (· ++ bytes) hdata)
  | accessed hsent htail hlength hloop =>
    cases h
    refine .accessed hsent htail (hlength.trans (by simp)) ?_
    rw [List.drop_append_of_le_length hlength, Loop.receive_append, hloop]
  | sendingHandshake | closed => cases h

theorem Dialing.sent {body : Body} {taken : List UInt8} (htaken : whole → taken = encode body)
    (hd : Dialing whole handshake torrent wrote got st)
    (h : Handshake.sent body taken st = some (bytes, st')) :
    Dialing whole handshake torrent (wrote ++ bytes) got st' := by
  cases hd with
  | accessed hsent htail hlength hloop =>
    cases h
    refine .accessed (by rw [hsent, List.append_assoc]) (fun hwhole => ?_) hlength hloop
    rw [htail hwhole, htaken hwhole]
    simp
  | sendingHandshake | readingHandshake | closed => cases h

/-- The answer is checked. -/
theorem Dialing.checkAnswer {own : List UInt8} (hown : accepted own handshake = true)
    (hfirst : got.length = handshakeLength → got = handshake)
    (hd : Dialing whole handshake torrent wrote got st)
    (h : checkAnswer torrent own st = some st') : Dialing whole handshake torrent wrote got st' := by
  cases hd with
  | readingHandshake hsent hdata =>
    unfold Handshake.checkAnswer at h
    dsimp only at h
    split_ifs at h with hlength hok
    · cases h
      rw [hdata] at hlength
      refine .accessed (hsent.trans (List.append_nil _).symm) (fun _ => rfl) hlength.ge ?_
      rw [← hlength, List.drop_length]
      rfl
    · rw [hdata] at hlength hok
      rw [hfirst hlength, hown] at hok
      exact absurd rfl hok
  | sendingHandshake | accessed | closed => cases h

/-- The first bytes are those of the handshake. -/
theorem Dialing.take_sent (hlen : handshake.length = handshakeLength)
    (hd : Dialing whole handshake torrent wrote got st) : wrote.take handshakeLength <+: handshake := by
  cases hd with
  | sendingHandshake hsent => exact (List.take_prefix _ _).trans ⟨_, hsent⟩
  | readingHandshake hsent => exact hsent ▸ List.take_prefix _ _
  | accessed hsent => rw [hsent, List.take_left' hlen]
  | closed hsent => exact (List.take_prefix _ _).trans hsent

theorem Dialing.close (hd : Dialing whole handshake torrent wrote got st)
    (hst : ¬ st.Accessed torrent) : Dialing whole handshake torrent wrote got .closed := by
  cases hd with
  | sendingHandshake hsent => exact .closed ⟨_, hsent⟩
  | readingHandshake hsent => exact .closed (hsent ▸ List.prefix_rfl)
  | accessed => exact absurd ⟨_, _, rfl⟩ hst
  | closed hsent => exact .closed hsent

theorem Listening.written {size : ℕ} (hl : Listening whole handshake torrent torrents wrote got st)
    (h : written size st = some (bytes, st')) :
    Listening whole handshake torrent torrents (wrote ++ bytes) got st' := by
  cases hl with
  | answering hmem hsent hreceived =>
    unfold Handshake.written at h
    dsimp only at h
    split_ifs at h
    cases h
    refine .answering hmem ?_ hreceived
    rw [List.append_assoc, List.take_append_drop, hsent]
  | backlog | participant | verifying | accessed | closed => cases h

theorem Listening.handshakeSent (hl : Listening whole handshake torrent torrents wrote got st)
    (hlen : handshake.length = handshakeLength) (h : handshakeSent st = some st') :
    Listening whole handshake torrent torrents wrote got st' := by
  cases hl with
  | answering hmem hsent hreceived =>
    unfold Handshake.handshakeSent at h
    dsimp only at h
    split_ifs at h with hleft
    cases h
    rw [hleft, List.append_nil] at hsent
    refine .accessed hmem (hsent.trans (List.append_nil _).symm) (fun _ => rfl) ?_ ?_
    · exact hreceived ▸ hlen.ge
    · rw [hreceived, ← hlen, List.drop_length]
      rfl
  | backlog | participant | verifying | accessed | closed => cases h

theorem Listening.arrived (hl : Listening whole handshake torrent torrents wrote got st)
    (h : arrived bytes st = some st') :
    Listening whole handshake torrent torrents wrote (got ++ bytes) st' := by
  cases hl with
  | participant hsent hbuff =>
    unfold Handshake.arrived at h
    dsimp only at h
    split_ifs at h
    cases h
    exact .participant hsent (congrArg (· ++ bytes) hbuff)
  | accessed hmem hsent htail hlength hloop =>
    cases h
    refine .accessed hmem hsent htail (hlength.trans (by simp)) ?_
    rw [List.drop_append_of_le_length hlength, Loop.receive_append, hloop]
  | backlog | verifying | answering | closed => cases h

theorem Listening.sent {body : Body} {taken : List UInt8} (htaken : whole → taken = encode body)
    (hl : Listening whole handshake torrent torrents wrote got st)
    (h : Handshake.sent body taken st = some (bytes, st')) :
    Listening whole handshake torrent torrents (wrote ++ bytes) got st' := by
  cases hl with
  | accessed hmem hsent htail hlength hloop =>
    cases h
    refine .accessed hmem (by rw [hsent, List.append_assoc]) (fun hwhole => ?_) hlength hloop
    rw [htail hwhole, htaken hwhole]
    simp
  | backlog | participant | verifying | answering | closed => cases h

/-- What becomes of an end of the listener that has sent the whole handshake back: it calls `access`, or
is given up. -/
def Stage.Admitted (torrent : Digest) (st : Stage) : Prop :=
  st.Accessed torrent ∨ st = .answering torrent [] ∨ st = .closed

/-- **Whoever has received 68 bytes of a listener has received the handshake**, and the listener has
admitted the client. -/
theorem Listening.admitted_of_le (hl : Listening whole handshake torrent torrents wrote got st)
    (hlen : handshake.length = handshakeLength) (hle : handshakeLength ≤ wrote.length) :
    torrent ∈ torrents ∧ handshake <+: wrote ∧ st.Admitted torrent := by
  have hpos : 0 < handshakeLength := by decide
  cases hl with
  | accessed hmem hsent => exact ⟨hmem, ⟨_, hsent.symm⟩, Or.inl ⟨_, _, rfl⟩⟩
  | backlog hsent | participant hsent | verifying hmem hsent =>
    rw [hsent, List.length_nil] at hle
    omega
  | @answering left hmem hsent =>
    have hsum := congrArg List.length hsent
    rw [List.length_append] at hsum
    obtain rfl : left = [] := List.eq_nil_of_length_eq_zero (by omega)
    rw [List.append_nil] at hsent
    exact ⟨hmem, hsent ▸ List.prefix_rfl, Or.inr (Or.inl rfl)⟩
  | closed hmem hsent =>
    have heq := hsent.eq_of_length_le (hlen.trans_le hle)
    have hne : wrote ≠ [] := fun hnil => by
      rw [hnil, List.length_nil] at hle
      omega
    exact ⟨hmem hne, heq ▸ List.prefix_rfl, Or.inr (Or.inr rfl)⟩

theorem Listening.close (hl : Listening whole handshake torrent torrents wrote got st)
    (hst : ¬ st.Accessed torrent) : Listening whole handshake torrent torrents wrote got .closed := by
  cases hl with
  | backlog hsent | participant hsent | verifying hmem hsent =>
    exact .closed (fun hne => absurd hsent hne) (hsent ▸ List.nil_prefix)
  | answering hmem hsent => exact .closed (fun _ => hmem) ⟨_, hsent⟩
  | accessed => exact absurd ⟨_, _, rfl⟩ hst
  | closed hmem hsent => exact .closed hmem hsent

/-- More torrents are added. -/
theorem Listening.mono (hsub : torrents ⊆ torrents')
    (hl : Listening whole handshake torrent torrents wrote got st) :
    Listening whole handshake torrent torrents' wrote got st := by
  cases hl with
  | backlog hsent hreceived => exact .backlog hsent hreceived
  | participant hsent hbuff => exact .participant hsent hbuff
  | verifying hmem hsent hv hreceived => exact .verifying (hsub hmem) hsent hv hreceived
  | answering hmem hsent hreceived => exact .answering (hsub hmem) hsent hreceived
  | accessed hmem hsent htail hlength hloop => exact .accessed (hsub hmem) hsent htail hlength hloop
  | closed hmem hsent => exact .closed (fun hne => hsub (hmem hne)) hsent

/-- Whatever has come of the handshake and of some frames, only bodies of these frames are handled. -/
theorem handled_prefix_of_received (hlen : handshake.length = handshakeLength) {frames : List Body}
    (hgot : got <+: handshake ++ frames.flatMap encode) :
    (Loop.start.receive (got.drop handshakeLength)).handled <+: frames.map Body.bytes := by
  refine Loop.handled_initial ?_
  have hdrop := hgot.drop handshakeLength
  rwa [List.drop_left' hlen] at hdrop

theorem Dialing.wrote_initial (hwhole : whole) (hd : Dialing whole handshake torrent wrote got st) :
    wrote <+: handshake ++ st.frames.flatMap encode := by
  cases hd with
  | sendingHandshake hsent => exact List.prefix_append_of_prefix ⟨_, hsent⟩
  | readingHandshake hsent => exact hsent ▸ List.prefix_append _ _
  | accessed hsent htail => exact hsent ▸ htail hwhole ▸ List.prefix_rfl
  | closed hsent => exact List.prefix_append_of_prefix hsent

theorem Dialing.handled_initial (hd : Dialing whole handshake torrent wrote got st)
    (hlen : handshake.length = handshakeLength) {frames : List Body}
    (hgot : got <+: handshake ++ frames.flatMap encode) : st.handled <+: frames.map Body.bytes := by
  cases hd with
  | accessed hsent htail hlength hloop => exact hloop ▸ handled_prefix_of_received hlen hgot
  | sendingHandshake | readingHandshake | closed => exact List.nil_prefix

theorem Listening.wrote_initial (hwhole : whole)
    (hl : Listening whole handshake torrent torrents wrote got st) :
    wrote <+: handshake ++ st.frames.flatMap encode := by
  cases hl with
  | backlog hsent | participant hsent | verifying hmem hsent => exact hsent ▸ List.nil_prefix
  | answering hmem hsent => exact List.prefix_append_of_prefix ⟨_, hsent⟩
  | accessed hmem hsent htail => exact hsent ▸ htail hwhole ▸ List.prefix_rfl
  | closed hmem hsent => exact List.prefix_append_of_prefix hsent

theorem Listening.handled_initial (hl : Listening whole handshake torrent torrents wrote got st)
    (hlen : handshake.length = handshakeLength) {frames : List Body}
    (hgot : got <+: handshake ++ frames.flatMap encode) : st.handled <+: frames.map Body.bytes := by
  cases hl with
  | accessed hmem hsent htail hlength hloop => exact hloop ▸ handled_prefix_of_received hlen hgot
  | backlog | participant | verifying | answering | closed => exact List.nil_prefix

/-- A connection on which both ends are where they should be. -/
structure Sound (whole : Prop) (torrents : Bool → List Digest) (handshake : List UInt8) (c : Conn) :
    Prop where
  dialing : Dialing whole handshake c.torrent (c.pipes c.dialer).sent (c.pipes !c.dialer).received
    (c.ends c.dialer)
  listening : Listening whole handshake c.torrent (torrents !c.dialer) (c.pipes !c.dialer).sent
    (c.pipes c.dialer).received (c.ends !c.dialer)

variable {torrents : Bool → List Digest} {c c' : Conn} {p : Bool}

theorem sound_dial (p : Bool) (torrent : Digest) :
    Sound whole torrents handshake (dial p torrent handshake) := by
  have hend : (dial p torrent handshake).ends p = .sendingHandshake handshake := if_pos rfl
  have hother : (dial p torrent handshake).ends (!p) = .backlog := if_neg (Bool.not_ne_self p)
  constructor
  · show Dialing whole handshake torrent [] [] ((dial p torrent handshake).ends p)
    rw [hend]
    exact .sendingHandshake rfl rfl
  · show Listening whole handshake torrent (torrents !p) [] [] ((dial p torrent handshake).ends (!p))
    rw [hother]
    exact .backlog rfl rfl

/-- An end comes to another stage, without having sent or received anything. -/
theorem Sound.setEnd {st : Stage} (hs : Sound whole torrents handshake c)
    (hdialing : p = c.dialer →
      Dialing whole handshake c.torrent (c.pipes c.dialer).sent (c.pipes !c.dialer).received st)
    (hlistening : p = (!c.dialer) →
      Listening whole handshake c.torrent (torrents !c.dialer) (c.pipes !c.dialer).sent
        (c.pipes c.dialer).received st) : Sound whole torrents handshake (c.setEnd p st) := by
  obtain ⟨hd, hl⟩ := hs
  rcases Bool.eq_or_eq_not p c.dialer with rfl | rfl
  · refine ⟨?_, ?_⟩
    · simpa [Conn.setEnd] using hdialing rfl
    · simpa [Conn.setEnd] using hl
  · refine ⟨?_, ?_⟩
    · simpa [Conn.setEnd] using hd
    · simpa [Conn.setEnd] using hlistening rfl

/-- An end writes. -/
theorem Sound.push {out : Option (List UInt8 × Stage)} (hs : Sound whole torrents handshake c)
    (hdialing : ∀ {wrote got bytes st}, Dialing whole handshake c.torrent wrote got (c.ends p) →
      out = some (bytes, st) → Dialing whole handshake c.torrent (wrote ++ bytes) got st)
    (hlistening : ∀ {wrote got bytes st},
      Listening whole handshake c.torrent (torrents !c.dialer) wrote got (c.ends p) →
      out = some (bytes, st) →
      Listening whole handshake c.torrent (torrents !c.dialer) (wrote ++ bytes) got st)
    (h : c.push p out = some c') : Sound whole torrents handshake c' := by
  obtain ⟨⟨bytes, st⟩, hout, rfl⟩ := Option.map_eq_some_iff.mp h
  obtain ⟨hd, hl⟩ := hs
  rcases Bool.eq_or_eq_not p c.dialer with rfl | rfl
  · refine ⟨?_, ?_⟩
    · simpa [Conn.setEnd] using hdialing hd hout
    · simpa [Conn.setEnd] using hl
  · refine ⟨?_, ?_⟩
    · simpa [Conn.setEnd] using hd
    · simpa [Conn.setEnd] using hlistening hl hout

/-- An end reads. -/
theorem Sound.pull {size : ℕ} (hs : Sound whole torrents handshake c) (h : c.pull p size = some c') :
    Sound whole torrents handshake c' := by
  obtain ⟨st, hst, rfl⟩ := Option.map_eq_some_iff.mp h
  obtain ⟨hd, hl⟩ := hs
  rcases Bool.eq_or_eq_not p c.dialer with rfl | rfl
  · refine ⟨?_, ?_⟩
    · simpa [Conn.setEnd, Pipe.received_read] using hd.arrived hst
    · simpa [Conn.setEnd] using hl
  · rw [Bool.not_not] at hst
    refine ⟨?_, ?_⟩
    · simpa [Conn.setEnd] using hd
    · simpa [Conn.setEnd, Pipe.received_read] using hl.arrived hst

theorem Sound.write {size : ℕ} (hs : Sound whole torrents handshake c)
    (h : c.push p (Handshake.written size (c.ends p)) = some c') : Sound whole torrents handshake c' :=
  hs.push (fun hd hout => hd.written hout) (fun hl hout => hl.written hout) h

theorem Sound.handshakeSent {st : Stage} (hs : Sound whole torrents handshake c)
    (hlen : handshake.length = handshakeLength)
    (h : Handshake.handshakeSent (c.ends p) = some st) : Sound whole torrents handshake (c.setEnd p st) :=
  hs.setEnd (fun hp => hs.dialing.handshakeSent (hp ▸ h)) fun hp =>
    hs.listening.handshakeSent hlen (hp ▸ h)

theorem Sound.send {body : Body} {taken : List UInt8} (htaken : whole → taken = encode body)
    (hs : Sound whole torrents handshake c)
    (h : c.push p (Handshake.sent body taken (c.ends p)) = some c') : Sound whole torrents handshake c' :=
  hs.push (fun hd hout => hd.sent htaken hout) (fun hl hout => hl.sent htaken hout) h

/-- The dialing end has received 68 bytes: they are its handshake. -/
theorem Sound.received_eq (hs : Sound whole torrents handshake c) (hlen : handshake.length = handshakeLength)
    (hgot : (c.pipes !c.dialer).received.length = handshakeLength) :
    (c.pipes !c.dialer).received = handshake := by
  have hinitial := (c.pipes !c.dialer).received_initial
  obtain ⟨-, hsent, -⟩ := hs.listening.admitted_of_le hlen (hgot ▸ hinitial.length_le)
  have hshort := List.prefix_of_prefix_length_le hinitial hsent (hgot.trans hlen.symm).le
  exact hshort.eq_of_length (hgot.trans hlen.symm)

/-- The listener has received 68 bytes: they are the handshake of the other program. -/
theorem Sound.heard_eq (hs : Sound whole torrents handshake c) (hlen : handshake.length = handshakeLength)
    (hgot : (c.pipes c.dialer).received.length = handshakeLength) :
    (c.pipes c.dialer).received = handshake := by
  have htake := hs.dialing.take_sent hlen
  have hinitial : (c.pipes c.dialer).received <+: (c.pipes c.dialer).sent.take handshakeLength :=
    List.prefix_take_iff.mpr ⟨(c.pipes c.dialer).received_initial, hgot.le⟩
  exact (hinitial.trans htake).eq_of_length (hgot.trans hlen.symm)

/-- Only the end that has dialed waits for an answer. -/
theorem Sound.checkAnswer {own : List UInt8} {st : Stage} (hs : Sound whole torrents handshake c)
    (hlen : handshake.length = handshakeLength) (hown : p = c.dialer → accepted own handshake = true)
    (h : Handshake.checkAnswer c.torrent own (c.ends p) = some st) :
    Sound whole torrents handshake (c.setEnd p st) := by
  refine hs.setEnd (fun hp => ?_) fun hp => ?_
  · subst hp
    exact hs.dialing.checkAnswer (hown rfl) (hs.received_eq hlen) h
  · subst hp
    have hl := hs.listening
    generalize c.ends (!c.dialer) = st' at hl h
    cases hl with
    | backlog | participant | verifying | answering | accessed | closed => cases h

theorem Sound.backlog (hs : Sound whole torrents handshake c) (hend : c.ends p = .backlog) :
    p = (!c.dialer) ∧ (c.pipes !c.dialer).sent = [] ∧ (c.pipes c.dialer).received = [] := by
  rcases Bool.eq_or_eq_not p c.dialer with rfl | rfl
  · have hd := hs.dialing
    rw [hend] at hd
    cases hd
  · have hl := hs.listening
    rw [hend] at hl
    cases hl with
    | backlog hsent hreceived => exact ⟨rfl, hsent, hreceived⟩

theorem Sound.participant {buff : List UInt8} (hs : Sound whole torrents handshake c)
    (hend : c.ends p = .participant buff) :
    p = (!c.dialer) ∧ (c.pipes !c.dialer).sent = [] ∧ buff = (c.pipes c.dialer).received := by
  rcases Bool.eq_or_eq_not p c.dialer with rfl | rfl
  · have hd := hs.dialing
    rw [hend] at hd
    cases hd
  · have hl := hs.listening
    rw [hend] at hl
    cases hl with
    | participant hsent hbuff => exact ⟨rfl, hsent, hbuff⟩

theorem Sound.verifying {h : Digest} {v : List UInt8} (hs : Sound whole torrents handshake c)
    (hend : c.ends p = .verifying h v) :
    p = (!c.dialer) ∧ h = c.torrent ∧ v = handshake ∧ (c.pipes !c.dialer).sent = [] ∧
      (c.pipes c.dialer).received = handshake ∧ c.torrent ∈ torrents (!c.dialer) := by
  rcases Bool.eq_or_eq_not p c.dialer with rfl | rfl
  · have hd := hs.dialing
    rw [hend] at hd
    cases hd
  · have hl := hs.listening
    rw [hend] at hl
    cases hl with
    | verifying hmem hsent hv hreceived => exact ⟨rfl, rfl, hv, hsent, hreceived, hmem⟩

/-- The listener accepts. -/
theorem Sound.accept (hs : Sound whole torrents handshake c) (hend : c.ends p = .backlog) :
    Sound whole torrents handshake (c.setEnd p (.participant [])) := by
  obtain ⟨rfl, hsent, hreceived⟩ := hs.backlog hend
  exact hs.setEnd (fun hp => absurd hp (Bool.not_ne_self _)) fun _ => .participant hsent hreceived.symm

/-- The torrent of the handshake takes the client. -/
theorem Sound.verify {buff : List UInt8} (hs : Sound whole torrents handshake c)
    (hlen : handshake.length = handshakeLength) (hend : c.ends p = .participant buff)
    (hbuff : buff.length = handshakeLength) (hmem : c.torrent ∈ torrents p) :
    Sound whole torrents handshake (c.setEnd p (.verifying c.torrent buff)) := by
  obtain ⟨rfl, hsent, rfl⟩ := hs.participant hend
  have hheard := hs.heard_eq hlen hbuff
  exact hs.setEnd (fun hp => absurd hp (Bool.not_ne_self _)) fun _ => .verifying hmem hsent hheard hheard

/-- The handshake is sent back. -/
theorem Sound.answer {h : Digest} {v : List UInt8} (hs : Sound whole torrents handshake c)
    (hend : c.ends p = .verifying h v) :
    Sound whole torrents handshake (c.setEnd p (.answering h v)) := by
  obtain ⟨rfl, rfl, rfl, hsent, hreceived, hmem⟩ := hs.verifying hend
  refine hs.setEnd (fun hp => absurd hp (Bool.not_ne_self _)) fun _ => .answering hmem ?_ hreceived
  rw [hsent, List.nil_append]

/-- A client gives up before `access`. -/
theorem Sound.close (hs : Sound whole torrents handshake c) (hend : ¬ (c.ends p).Accessed c.torrent) :
    Sound whole torrents handshake (c.setEnd p .closed) :=
  hs.setEnd (fun hp => hs.dialing.close (hp ▸ hend)) fun hp => hs.listening.close (hp ▸ hend)

/-- A torrent is added. -/
theorem Sound.mono {torrents' : Bool → List Digest} (hsub : ∀ q, torrents q ⊆ torrents' q)
    (hs : Sound whole torrents handshake c) : Sound whole torrents' handshake c :=
  ⟨hs.dialing, hs.listening.mono (hsub _)⟩

/-- **The dialing client has called `access` only if the other program has its torrent**, and the client
there has sent the whole handshake back. -/
theorem Sound.agree (hs : Sound whole torrents handshake c) (hlen : handshake.length = handshakeLength)
    {torrent : Digest} (hacc : (c.ends c.dialer).Accessed torrent) :
    torrent = c.torrent ∧ c.torrent ∈ torrents (!c.dialer) ∧ handshake <+: (c.pipes !c.dialer).sent ∧
      (c.ends !c.dialer).Admitted c.torrent := by
  obtain ⟨frames, loop, hend⟩ := hacc
  have hd := hs.dialing
  rw [hend] at hd
  cases hd with
  | accessed hsent htail hlength hloop =>
    exact ⟨rfl, hs.listening.admitted_of_le hlen
      (hlength.trans (c.pipes !c.dialer).received_initial.length_le)⟩

/-- **What an end handles is a prefix of what the other end has sent.** -/
theorem Sound.handled_initial (hwhole : whole) (hs : Sound whole torrents handshake c)
    (hlen : handshake.length = handshakeLength) (p : Bool) :
    (c.ends p).handled <+: (c.ends !p).frames.map Body.bytes := by
  rcases Bool.eq_or_eq_not p c.dialer with rfl | rfl
  · exact hs.dialing.handled_initial hlen
      ((c.pipes !c.dialer).received_initial.trans (hs.listening.wrote_initial hwhole))
  · rw [Bool.not_not]
    exact hs.listening.handled_initial hlen
      ((c.pipes c.dialer).received_initial.trans (hs.dialing.wrote_initial hwhole))

end Sound

end CppTorrent.Swarm.Handshake
