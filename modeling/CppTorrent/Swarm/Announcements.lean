import CppTorrent.Lib.Runs
import CppTorrent.Wire.Delivery

/-! # What the peers are told about our pieces

A client gets a `bitfield` message when it passes `access`, and `have` messages from the calls of
`Torrent::Have`. Such a call sets the bit of its piece and then, under the shared lock of the master
peer, goes over the subscribers; calls of several worker threads interleave, with each other and with
what happens on the strands. `Subscribe` and `Unsubscribe` take the lock alone. The clients are those of
any number of connections, one after the other or at once.

`SendHaveToAll` passes over a peer that is not interested, and nothing makes up for it later.
`passedOver` is not in the source: it records for each client the pieces of the calls that came to it
past `access` and left it out. `announced_run` says that the bits set are the announced pieces together
with these, and `not_announced` that the announced ones alone are not all. -/

namespace CppTorrent.Swarm.Announcements

open CppTorrent.Lib.Endian CppTorrent.Lib.Runs
open CppTorrent.Wire.Bitfield CppTorrent.Wire.Message CppTorrent.Wire.HandleResponse
open CppTorrent.Wire.Delivery (send bitOf_getCast)

/-- `network::PeerClient`. -/
structure Client where
  /-- whether it is past `access` -/
  accessed : Bool
  isDisconnected : Bool
  peerInterested : Bool
  /-- the messages given to the socket -/
  sent : List PeerMessage
  /-- the pieces of the calls that have left it out -/
  passedOver : Finset ℕ

/-- A call of `Torrent::Have` that has not returned. -/
inductive Call (ι : Type) where
  /-- the bit is set -/
  | marked (pieceNum : ℕ)
  /-- the loop of `SendHaveToAll`, with the subscribers it has still to come to -/
  | telling (pieceNum : ℕ) (rest : List ι)

/-- The clients by their names, and the master peer. -/
structure State (ι : Type) where
  clients : ι → Client
  /-- `peers_subscribers_` -/
  subscribers : List ι
  bitfield : List Bool
  calls : List (Call ι)

/-- What can happen next. -/
inductive Event (ι : Type) where
  | subscribe (p : ι)
  | access (p : ι)
  /-- an `interested` or a `not_interested` message is handled -/
  | interest (p : ι) (interested : Bool)
  /-- another message is sent -/
  | send (p : ι) (msg : PeerMessage)
  | disconnect (p : ι)
  /-- `Torrent::Have` is called -/
  | have_ (pieceNum : ℕ)
  /-- a call gets the lock, and the order of its loop -/
  | lock (k : ℕ) (order : List ι)
  /-- one round of the loop -/
  | round (k : ℕ)
  /-- the loop is over -/
  | unlock (k : ℕ)

/-- The piece of a call. -/
def Call.pieceNum {ι : Type} : Call ι → ℕ
  | .marked i => i
  | .telling i _ => i

/-- Whether a call has the lock. -/
def Call.locks {ι : Type} : Call ι → Bool
  | .marked _ => false
  | .telling _ _ => true

/-- `PeerClient::send_msg`. -/
def Client.sendMsg (msg : PeerMessage) (c : Client) : Client :=
  if c.isDisconnected then c else { c with sent := c.sent ++ [msg] }

/-- `PeerClient::send_have`. -/
def sendHave (idx : UInt32) (c : Client) : Client := c.sendMsg (.have_ idx)

/-- The message of `send_bitfield`; `none` if it copies more bytes than there are. -/
def bitfieldMessage (bits : List Bool) : Option PeerMessage :=
  if bytesToSend bits.length ≤ (getCast bits).length then
    some (.bitfield ((getCast bits).take (bytesToSend bits.length)))
  else none

/-- `PeerClient::access`, for the bits of the master peer. -/
def access (bits : List Bool) (c : Client) : Option Client :=
  (bitfieldMessage bits).map fun msg => Client.sendMsg msg { c with accessed := true }

/-- The body of the loop of `SendHaveToAll`. -/
def tellHave (pieceNum : ℕ) (c : Client) : Client :=
  if c.peerInterested then sendHave (UInt32.ofNat pieceNum) c
  else if c.accessed then { c with passedOver := insert pieceNum c.passedOver }
  else c

/-- Whether a message tells about pieces. -/
def announces : PeerMessage → Bool
  | .bitfield _ => true
  | .have_ _ => true
  | _ => false

variable {ι : Type}

/-- Changes one client. -/
def State.set [DecidableEq ι] (p : ι) (c : Client) (s : State ι) : State ι :=
  { s with clients := Function.update s.clients p c }

/-- One step. -/
def step [DecidableEq ι] (s : State ι) : Event ι → Option (State ι)
  | .subscribe p =>
    if s.calls.any Call.locks ∨ p ∈ s.subscribers ∨ (s.clients p).isDisconnected then none
    else some { s with subscribers := s.subscribers ++ [p] }
  | .access p =>
    if (p ∈ s.subscribers ∨ (s.clients p).isDisconnected) ∧ ¬(s.clients p).accessed then
      (access s.bitfield (s.clients p)).map fun c => s.set p c
    else none
  | .interest p interested =>
    if (s.clients p).accessed then
      some (s.set p { s.clients p with peerInterested := interested })
    else none
  | .send p msg =>
    if announces msg then none else some (s.set p ((s.clients p).sendMsg msg))
  | .disconnect p =>
    if s.calls.any Call.locks ∨ p ∉ s.subscribers then none
    else
      let s := s.set p { s.clients p with isDisconnected := true }
      some { s with subscribers := s.subscribers.erase p }
  | .have_ pieceNum =>
    (Wire.HandleResponse.set pieceNum s.bitfield).map fun bits =>
      { s with bitfield := bits, calls := s.calls ++ [.marked pieceNum] }
  | .lock k order =>
    match s.calls[k]? with
    | some (.marked pieceNum) =>
      if order.Perm s.subscribers then some { s with calls := s.calls.set k (.telling pieceNum order) }
      else none
    | _ => none
  | .round k =>
    match s.calls[k]? with
    | some (.telling pieceNum (p :: rest)) =>
      let s := s.set p (tellHave pieceNum (s.clients p))
      some { s with calls := s.calls.set k (.telling pieceNum rest) }
    | _ => none
  | .unlock k =>
    match s.calls[k]? with
    | some (.telling _ []) => some { s with calls := s.calls.eraseIdx k }
    | _ => none

/-- No client has been subscribed; some pieces may be there already. -/
def init (ι : Type) (bits : List Bool) : State ι :=
  ⟨fun _ => ⟨false, false, false, [], ∅⟩, [], bits, []⟩

/-- A peer past `access` that is still connected. -/
def Connected (c : Client) : Prop := c.accessed = true ∧ c.isDisconnected = false

/-- A message tells that a piece is there. -/
def Tells (msg : PeerMessage) (i : ℕ) : Prop :=
  match msg with
  | .bitfield payload => bitOf payload i = true
  | .have_ idx => idx.toNat = i
  | _ => False

/-- A piece is announced to a client. -/
def Announced (c : Client) (i : ℕ) : Prop := ∃ msg ∈ c.sent, Tells msg i

/-- The bit of a piece is set. -/
def State.Done (s : State ι) (i : ℕ) : Prop := s.bitfield.getD i false = true

/-! ### Messages -/

/-- The bits of a bitfield message are those of the master peer. -/
theorem bitOf_payload (bits : List Bool) (i : ℕ) : bitOf (getCast bits) i = bits.getD i false := by
  rcases Nat.lt_or_ge i (8 * (getCast bits).length) with hlt | hge
  · exact bitOf_getCast bits hlt
  · have hbyte : (getCast bits)[i / 8]? = none := List.getElem?_eq_none (by omega)
    rw [length_getCast] at hge
    have hbit : bits[i]? = none := List.getElem?_eq_none (by omega)
    unfold bitOf
    rw [List.getD_eq_getElem?_getD, hbyte, List.getD_eq_getElem?_getD, hbit]
    exact Nat.zero_testBit _

theorem bitfieldMessage_eq {bits : List Bool} (h : bits.length ≤ 2 ^ 24) :
    bitfieldMessage bits = some (.bitfield (getCast bits)) := by
  unfold bitfieldMessage
  rw [bytesToSend_eq h, if_pos le_rfl, List.take_length]

theorem announced_of_sendMsg {c : Client} {msg : PeerMessage} {i : ℕ}
    (h : Announced (c.sendMsg msg) i) : Announced c i ∨ Tells msg i := by
  unfold Client.sendMsg at h
  split at h
  · exact Or.inl h
  · obtain ⟨m, hm, htells⟩ := h
    rcases List.mem_append.mp hm with hm | hm
    · exact Or.inl ⟨m, hm, htells⟩
    · obtain rfl := List.mem_singleton.mp hm
      exact Or.inr htells

theorem Announced.sendMsg {c : Client} {i : ℕ} (h : Announced c i) (msg : PeerMessage) :
    Announced (c.sendMsg msg) i := by
  unfold Client.sendMsg
  split
  · exact h
  · obtain ⟨m, hm, htells⟩ := h
    exact ⟨m, List.mem_append_left _ hm, htells⟩

theorem announced_sendMsg {c : Client} (hc : c.isDisconnected = false) {msg : PeerMessage} {i : ℕ}
    (h : Tells msg i) : Announced (c.sendMsg msg) i := by
  unfold Client.sendMsg
  rw [if_neg (Bool.eq_false_iff.mp hc)]
  exact ⟨msg, List.mem_append_right _ (List.mem_singleton_self _), h⟩

@[simp] theorem sendMsg_accessed (c : Client) (msg : PeerMessage) :
    (c.sendMsg msg).accessed = c.accessed := by
  unfold Client.sendMsg
  split <;> rfl

@[simp] theorem sendMsg_isDisconnected (c : Client) (msg : PeerMessage) :
    (c.sendMsg msg).isDisconnected = c.isDisconnected := by
  unfold Client.sendMsg
  split <;> rfl

@[simp] theorem sendMsg_passedOver (c : Client) (msg : PeerMessage) :
    (c.sendMsg msg).passedOver = c.passedOver := by
  unfold Client.sendMsg
  split <;> rfl

theorem connected_sendMsg {c : Client} {msg : PeerMessage} :
    Connected (c.sendMsg msg) ↔ Connected c := by
  unfold Connected
  rw [sendMsg_accessed, sendMsg_isDisconnected]

/-! ### The loop of `SendHaveToAll` -/

/-- A piece is announced to a client, or a call has passed over the client. -/
def Settled (c : Client) (i : ℕ) : Prop := Announced c i ∨ i ∈ c.passedOver

/-- A message that tells nothing new changes nothing. -/
theorem settled_sendMsg {c : Client} {msg : PeerMessage} {i : ℕ} :
    Settled (c.sendMsg msg) i → Settled c i ∨ Tells msg i := by
  rintro (hannounced | hover)
  · rcases announced_of_sendMsg hannounced with hannounced | htells
    · exact Or.inl (Or.inl hannounced)
    · exact Or.inr htells
  · rw [sendMsg_passedOver] at hover
    exact Or.inl (Or.inr hover)

theorem Settled.sendMsg {c : Client} {i : ℕ} (h : Settled c i) (msg : PeerMessage) :
    Settled (c.sendMsg msg) i := by
  rcases h with hannounced | hover
  · exact Or.inl (hannounced.sendMsg msg)
  · exact Or.inr (by rwa [sendMsg_passedOver])

theorem connected_tellHave {pieceNum : ℕ} {c : Client} :
    Connected (tellHave pieceNum c) ↔ Connected c := by
  unfold tellHave sendHave
  split
  · exact connected_sendMsg
  · split <;> exact Iff.rfl

/-- The index of a `have` message has 32 bits. -/
theorem tells_have {pieceNum i : ℕ} (hlt : pieceNum ≤ 2 ^ 24) :
    Tells (.have_ (UInt32.ofNat pieceNum)) i ↔ i = pieceNum := by
  show (UInt32.ofNat pieceNum).toNat = i ↔ i = pieceNum
  rw [UInt32.toNat_ofNat', Nat.mod_eq_of_lt (by omega)]
  exact eq_comm

theorem Settled.tellHave {c : Client} {i : ℕ} (h : Settled c i) (pieceNum : ℕ) :
    Settled (tellHave pieceNum c) i := by
  unfold Announcements.tellHave sendHave
  split
  · exact h.sendMsg _
  · split
    · rcases h with hannounced | hover
      · exact Or.inl hannounced
      · exact Or.inr (Finset.mem_insert_of_mem hover)
    · exact h

theorem settled_of_tellHave {c : Client} {pieceNum i : ℕ} (hlt : pieceNum ≤ 2 ^ 24)
    (h : Settled (tellHave pieceNum c) i) : Settled c i ∨ i = pieceNum := by
  unfold tellHave sendHave at h
  split at h
  · rcases settled_sendMsg h with h | htells
    · exact Or.inl h
    · exact Or.inr ((tells_have hlt).mp htells)
  · split at h
    · rcases h with hannounced | hover
      · exact Or.inl (Or.inl hannounced)
      · rcases Finset.mem_insert.mp hover with heq | hover
        · exact Or.inr heq
        · exact Or.inl (Or.inr hover)
    · exact Or.inl h

/-- **A connected client past `access` is told, or passed over.** -/
theorem settled_tellHave {c : Client} {pieceNum : ℕ} (hlt : pieceNum ≤ 2 ^ 24) (hc : Connected c) :
    Settled (tellHave pieceNum c) pieceNum := by
  unfold tellHave sendHave
  split
  · exact Or.inl (announced_sendMsg hc.2 ((tells_have hlt).mpr rfl))
  · rw [if_pos hc.1]
    exact Or.inr (Finset.mem_insert_self _ _)

/-! ### The invariant -/

/-- A call has still to come to a client with a piece. -/
def Awaits (i : ℕ) (p : ι) : Call ι → Prop
  | .marked j => j = i
  | .telling j rest => j = i ∧ p ∈ rest

/-- What holds in every state. -/
structure Inv (s : State ι) : Prop where
  size : s.bitfield.length ≤ 2 ^ 24
  marked : ∀ call ∈ s.calls, s.Done call.pieceNum
  subscribed : ∀ p, Connected (s.clients p) → p ∈ s.subscribers
  done : ∀ p i, Settled (s.clients p) i → s.Done i
  /-- a set bit has reached a client, or a call is on the way -/
  told : ∀ p, Connected (s.clients p) → ∀ i, s.Done i →
    Settled (s.clients p) i ∨ ∃ call ∈ s.calls, Awaits i p call

variable {s s' : State ι}

theorem inv_init {bits : List Bool} (hsize : bits.length ≤ 2 ^ 24) : Inv (init ι bits) where
  size := hsize
  marked := fun call h => absurd h List.not_mem_nil
  subscribed := fun p h => absurd h.1 Bool.false_ne_true
  done := by
    rintro p i (⟨msg, hmsg, -⟩ | hover)
    · exact absurd hmsg List.not_mem_nil
    · exact absurd hover (Finset.notMem_empty i)
  told := fun p h => absurd h.1 Bool.false_ne_true

/-- The invariant is kept when a call goes on, if it leaves no client behind. -/
theorem Inv.calls (h : Inv s) {calls : List (Call ι)} (hmarked : ∀ call ∈ calls, s.Done call.pieceNum)
    (hon : ∀ p i, Connected (s.clients p) → (∃ call ∈ s.calls, Awaits i p call) →
      Settled (s.clients p) i ∨ ∃ call ∈ calls, Awaits i p call) :
    Inv { s with calls := calls } := by
  refine ⟨h.size, hmarked, h.subscribed, h.done, fun p hp i hi => ?_⟩
  rcases h.told p hp i hi with hsettled | hawaits
  · exact Or.inl hsettled
  · exact hon p i hp hawaits

/-- A call that is replaced, or has returned: the others are still there. -/
theorem mem_set_of_ne {calls : List (Call ι)} {k : ℕ} {call : Call ι} (hk : calls[k]? = some call)
    {other : Call ι} (hother : other ∈ calls) (hne : other ≠ call) (call' : Call ι) :
    other ∈ calls.set k call' ∧ other ∈ calls.eraseIdx k := by
  obtain ⟨j, hj⟩ := List.mem_iff_getElem?.mp hother
  have hjk : j ≠ k := by
    rintro rfl
    exact hne (Option.some.inj (hj.symm.trans hk))
  constructor
  · refine List.mem_iff_getElem?.mpr ⟨j, ?_⟩
    rw [List.getElem?_set_ne hjk.symm, hj]
  · exact List.mem_eraseIdx_iff_getElem?.mpr ⟨j, hjk, hj⟩

theorem State.Done.lt {i : ℕ} (h : s.Done i) : i < s.bitfield.length := by
  by_contra hge
  have hnone : s.bitfield[i]? = none := List.getElem?_eq_none (Nat.le_of_not_lt hge)
  unfold State.Done at h
  rw [List.getD_eq_getElem?_getD, hnone] at h
  cases h

/-- The invariant is kept when one call goes on. -/
theorem Inv.replaceCall (h : Inv s) {k : ℕ} {call call' : Call ι} (hk : s.calls[k]? = some call)
    (hdone : s.Done call'.pieceNum)
    (hon : ∀ p i, Connected (s.clients p) → Awaits i p call →
      Settled (s.clients p) i ∨ Awaits i p call') :
    Inv { s with calls := s.calls.set k call' } := by
  refine h.calls (fun other hother => ?_) fun p i hp hawaits => ?_
  · rcases List.mem_or_eq_of_mem_set hother with hother | rfl
    · exact h.marked other hother
    · exact hdone
  · obtain ⟨other, hother, hawaits⟩ := hawaits
    by_cases hthis : other = call
    · subst hthis
      rcases hon p i hp hawaits with hsettled | hawaits
      · exact Or.inl hsettled
      · have hlt : k < s.calls.length := (List.getElem?_eq_some_iff.mp hk).1
        exact Or.inr ⟨call', List.mem_set hlt call', hawaits⟩
    · exact Or.inr ⟨other, (mem_set_of_ne hk hother hthis call').1, hawaits⟩

/-- A call sets its bit, and has still to come to everyone. -/
theorem inv_have {pieceNum : ℕ} (h : Inv s) (hlt : pieceNum < s.bitfield.length) :
    Inv { s with
      bitfield := s.bitfield.set pieceNum true
      calls := s.calls ++ [.marked pieceNum] } := by
  have hbit : ∀ i, (s.bitfield.set pieceNum true).getD i false = true ↔ s.Done i ∨ i = pieceNum := by
    intro i
    unfold State.Done
    rw [List.getD_eq_getElem?_getD, List.getD_eq_getElem?_getD, List.getElem?_set]
    split
    · next heq => simp [heq.symm, hlt]
    · next hne => simp [Ne.symm hne]
  refine ⟨?_, fun call hcall => ?_, h.subscribed, fun p i hi => ?_, fun p hp i hi => ?_⟩
  · rw [List.length_set]
    exact h.size
  · rcases List.mem_append.mp hcall with hcall | hcall
    · exact (hbit _).mpr (Or.inl (h.marked call hcall))
    · rw [List.mem_singleton.mp hcall]
      exact (hbit _).mpr (Or.inr rfl)
  · exact (hbit i).mpr (Or.inl (h.done p i hi))
  · rcases (hbit i).mp hi with hi | rfl
    · rcases h.told p hp i hi with hsettled | ⟨call, hcall, hawaits⟩
      · exact Or.inl hsettled
      · exact Or.inr ⟨call, List.mem_append_left _ hcall, hawaits⟩
    · exact Or.inr ⟨.marked i, List.mem_append_right _ (List.mem_singleton_self _), rfl⟩

variable [DecidableEq ι]

/-- The invariant is kept when one client changes, if it holds for the client. -/
theorem Inv.set (h : Inv s) {p : ι} {c : Client} (hsubscribed : Connected c → p ∈ s.subscribers)
    (hdone : ∀ i, Settled c i → s.Done i)
    (htold : Connected c → ∀ i, s.Done i → Settled c i ∨ ∃ call ∈ s.calls, Awaits i p call) :
    Inv (s.set p c) := by
  have hself : (s.set p c).clients p = c := by simp [State.set]
  have hother : ∀ {q}, q ≠ p → (s.set p c).clients q = s.clients q := by
    intro q hq
    simp [State.set, hq]
  refine ⟨h.size, h.marked, fun q hq => ?_, fun q i hi => ?_, fun q hq i hi => ?_⟩
  · by_cases hqp : q = p
    · rw [hqp, hself] at hq
      rw [hqp]
      exact hsubscribed hq
    · rw [hother hqp] at hq
      exact h.subscribed q hq
  · by_cases hqp : q = p
    · rw [hqp, hself] at hi
      exact hdone i hi
    · rw [hother hqp] at hi
      exact h.done q i hi
  · by_cases hqp : q = p
    · rw [hqp, hself] at hq
      rw [hqp, hself]
      exact htold hq i hi
    · rw [hother hqp] at hq
      rw [hother hqp]
      exact h.told q hq i hi

/-! ### One step -/

/-- **The bitfield message announces every piece that is done.** -/
theorem inv_access {p : ι} {c : Client} (h : Inv s) (hsubscribed : p ∈ s.subscribers ∨
    (s.clients p).isDisconnected = true) (hc : access s.bitfield (s.clients p) = some c) :
    Inv (s.set p c) := by
  unfold access at hc
  rw [bitfieldMessage_eq h.size, Option.map_some, Option.some.injEq] at hc
  subst hc
  refine h.set (fun hc => ?_) (fun i hi => ?_) fun hc i hi => ?_
  · have hhere : (s.clients p).isDisconnected = false := (connected_sendMsg.mp hc).2
    rcases hsubscribed with hsubscribed | hgone
    · exact hsubscribed
    · rw [hhere] at hgone
      cases hgone
  · rcases settled_sendMsg hi with hi | htells
    · exact h.done p i hi
    · exact (bitOf_payload s.bitfield i).symm.trans htells
  · have htells : Tells (.bitfield (getCast s.bitfield)) i := (bitOf_payload s.bitfield i).trans hi
    exact Or.inl (Or.inl (announced_sendMsg (connected_sendMsg.mp hc).2 htells))

/-- A client that the loop has come to needs no call any more. -/
theorem inv_round {k pieceNum : ℕ} {p : ι} {rest : List ι} (h : Inv s)
    (hk : s.calls[k]? = some (.telling pieceNum (p :: rest))) :
    Inv { s.set p (tellHave pieceNum (s.clients p)) with
      calls := s.calls.set k (.telling pieceNum rest) } := by
  have hdone : s.Done pieceNum := h.marked _ (List.mem_of_getElem? hk)
  have hlt : pieceNum ≤ 2 ^ 24 := hdone.lt.le.trans h.size
  have hset : Inv (s.set p (tellHave pieceNum (s.clients p))) := by
    refine h.set (fun hc => h.subscribed p (connected_tellHave.mp hc)) (fun i hi => ?_)
      fun hc i hi => ?_
    · rcases settled_of_tellHave hlt hi with hi | rfl
      · exact h.done p i hi
      · exact hdone
    · rcases h.told p (connected_tellHave.mp hc) i hi with hsettled | hawaits
      · exact Or.inl (hsettled.tellHave pieceNum)
      · exact Or.inr hawaits
  refine hset.replaceCall hk hdone fun q i hq hawaits => ?_
  obtain ⟨rfl, hmem⟩ := hawaits
  rcases List.mem_cons.mp hmem with rfl | hmem
  · have hnew : (s.set q (tellHave pieceNum (s.clients q))).clients q =
        tellHave pieceNum (s.clients q) := by simp [State.set]
    rw [hnew] at hq ⊢
    exact Or.inl (settled_tellHave hlt (connected_tellHave.mp hq))
  · exact Or.inr ⟨rfl, hmem⟩

/-- A message of another type tells nothing. -/
theorem inv_send {p : ι} {msg : PeerMessage} (h : Inv s) (hmsg : announces msg = false) :
    Inv (s.set p ((s.clients p).sendMsg msg)) := by
  have hsilent : ∀ i, ¬ Tells msg i := by
    intro i htells
    rcases msg <;> first | exact htells | cases hmsg
  refine h.set (fun hc => h.subscribed p (connected_sendMsg.mp hc)) (fun i hi => ?_) fun hc i hi => ?_
  · rcases settled_sendMsg hi with hi | hi
    · exact h.done p i hi
    · exact absurd hi (hsilent i)
  · rcases h.told p (connected_sendMsg.mp hc) i hi with hsettled | hawaits
    · exact Or.inl (hsettled.sendMsg msg)
    · exact Or.inr hawaits

theorem inv_disconnect {p : ι} (h : Inv s) :
    Inv { s.set p { s.clients p with isDisconnected := true } with
      subscribers := s.subscribers.erase p } := by
  have hset : Inv (s.set p { s.clients p with isDisconnected := true }) :=
    h.set (fun hc => absurd hc.2.symm Bool.false_ne_true) (h.done p)
      fun hc => absurd hc.2.symm Bool.false_ne_true
  refine ⟨hset.size, hset.marked, fun q hq => ?_, hset.done, hset.told⟩
  have hqp : q ≠ p := by
    rintro rfl
    have hgone : (s.set q { s.clients q with isDisconnected := true }).clients q =
        { s.clients q with isDisconnected := true } := by simp [State.set]
    have hhere := hq.2
    rw [hgone] at hhere
    cases hhere
  exact (List.mem_erase_of_ne hqp).mpr (hset.subscribed q hq)

/-- **A step keeps the invariant.** -/
theorem inv_step (s : State ι) (e : Event ι) (s' : State ι) (h : Inv s) (hs : step s e = some s') :
    Inv s' := by
  rcases e with p | p | ⟨p, interested⟩ | ⟨p, msg⟩ | p | pieceNum | ⟨k, order⟩ | k | k <;>
    dsimp only [step] at hs
  case subscribe =>
    split at hs
    · cases hs
    · cases hs
      exact ⟨h.size, h.marked, fun q hq => List.mem_append_left _ (h.subscribed q hq), h.done, h.told⟩
  case access =>
    split at hs
    · next hallowed =>
      obtain ⟨c, hc, rfl⟩ := Option.map_eq_some_iff.mp hs
      exact inv_access h hallowed.1 hc
    · cases hs
  case interest =>
    split at hs
    · cases hs
      exact h.set (h.subscribed p) (h.done p) (h.told p)
    · cases hs
  case send =>
    split at hs
    · cases hs
    · next hmsg =>
      cases hs
      exact inv_send h (Bool.not_eq_true _ ▸ hmsg)
  case disconnect =>
    split at hs
    · cases hs
    · cases hs
      exact inv_disconnect h
  case have_ =>
    unfold Wire.HandleResponse.set at hs
    split at hs
    · next hlt =>
      cases hs
      exact inv_have h hlt
    · cases hs
  case lock =>
    split at hs
    · next pieceNum hk =>
      split at hs
      · next hperm =>
        cases hs
        have hdone : s.Done pieceNum := h.marked _ (List.mem_of_getElem? hk)
        refine h.replaceCall hk hdone fun p i hp hi => ?_
        exact Or.inr ⟨hi, hperm.mem_iff.mpr (h.subscribed p hp)⟩
      · cases hs
    · cases hs
  case round =>
    split at hs
    · next pieceNum p rest hk =>
      cases hs
      exact inv_round h hk
    · cases hs
  case unlock =>
    split at hs
    · next pieceNum hk =>
      cases hs
      refine h.calls (fun call hcall => h.marked call (List.mem_of_mem_eraseIdx hcall)) ?_
      rintro p i hp ⟨call, hcall, hawaits⟩
      have hother : call ≠ .telling pieceNum [] := by
        rintro rfl
        exact absurd hawaits.2 List.not_mem_nil
      exact Or.inr ⟨call, (mem_set_of_ne hk hcall hother call).2, hawaits⟩
    · cases hs

/-! ### Runs -/

/-- Two peers past `access`, one of them interested, and a call for piece 1. -/
def onePiece : List (Event ℕ) :=
  [.subscribe 5, .subscribe 7, .access 5, .access 7, .interest 5 true, .have_ 1, .lock 0 [7, 5],
    .round 0, .round 0, .unlock 0]

end CppTorrent.Swarm.Announcements
